import LuzServing.Dictionaries
import Mathlib.Data.Finset.Sort
import Mathlib.Data.List.Sort
import Mathlib.Data.Prod.Lex
import Mathlib.Tactic.Order

/-!
# The engine's steps of the benchmark cells

The scheduler logs a line for every prefill step. The report attributes the steps to the cells of
the benchmark by their time: the cells are sorted by their windows, and one cursor goes over the
sorted steps once, taking for each cell what is in its window and leaving behind what is before it.
The lines that were attributed are then archived, as the evidence for the table.

The cursor does what a search for the first window would do, also when windows overlap or lie in
one another (`attributeSteps_eq`): a window that starts earlier cannot pass over a step of a later
one without having it. **But the archive keeps one line for each timestamp**, while the table counts
every step (`evidenceKept_iff`).
-/

namespace LuzServing

universe u

/-- A step of the log, what `load_steps` yields for a line. -/
structure EngineStep (T : Type u) : Type u where
  /-- the timestamp -/
  ts : T
  /-- `#new-seq` -/
  newSeq : ℕ
  /-- `#new-token` -/
  newTok : ℕ
  /-- `#queue-req` -/
  queue : ℕ
  /-- the line -/
  line : String

/-- A cell of the benchmark, what `cells` yields for a file. -/
structure PrCell (T : Type u) : Type u where
  /-- the tokens of a prompt -/
  size : ℕ
  /-- the concurrency -/
  conc : ℕ
  /-- the first `t0` of its streams -/
  lo : T
  /-- the last `t_end` of its streams -/
  hi : T

/-- A row of the table. -/
structure StepRow : Type where
  /-- `Input tokens` -/
  size : ℕ
  /-- `C` -/
  conc : ℕ
  /-- `max #new-seq` -/
  maxSeq : Option ℕ
  /-- `Steps` -/
  steps : ℕ
  /-- `#new-seq values`, with how often each occurs -/
  hist : List (ℕ × ℕ)
  /-- `max #queue-req` -/
  maxQueue : ℕ
  /-- `sum #new-token` -/
  newTok : ℕ
  /-- `C x input` -/
  want : ℕ

section

variable {T : Type u} [LinearOrder T]

/-- A step is in the window of a cell. -/
def PrCell.contains (c : PrCell T) (s : EngineStep T) : Bool := c.lo ≤ s.ts && s.ts ≤ c.hi

/-- `load_steps` sorts the steps by time. -/
def sortSteps (steps : List (EngineStep T)) : List (EngineStep T) :=
  steps.insertionSort fun s s' => s.ts ≤ s'.ts

/-- `ordered` -/
def sortCells (cells : List (PrCell T)) : List (PrCell T) :=
  cells.insertionSort fun c c' => toLex (c.lo, c.hi) ≤ toLex (c'.lo, c'.hi)

/-- The inner loop: the steps of a window, and those that the cursor has not reached. -/
def advanceCursor (lo hi : T) : List (EngineStep T) → List (EngineStep T) × List (EngineStep T)
  | [] => ([], [])
  | s :: steps =>
    if s.ts ≤ hi then
      let (sel, rest) := advanceCursor lo hi steps
      (if lo ≤ s.ts then s :: sel else sel, rest)
    else ([], s :: steps)

/-- The outer loop: each cell with its steps. -/
def attributeSteps : List (PrCell T) → List (EngineStep T) → List (PrCell T × List (EngineStep T))
  | [], _ => []
  | c :: cells, steps =>
    let (sel, rest) := advanceCursor c.lo c.hi steps
    (c, sel) :: attributeSteps cells rest

/-- The row of a cell. -/
def stepRow (c : PrCell T) (sel : List (EngineStep T)) : StepRow :=
  if sel.isEmpty then ⟨c.size, c.conc, none, 0, [], 0, 0, 0⟩
  else
    { size := c.size
      conc := c.conc
      maxSeq := (sel.map EngineStep.newSeq).max?
      steps := sel.length
      hist := (sel.map EngineStep.newSeq).toFinset.sort.map fun n =>
        (n, (sel.map EngineStep.newSeq).count n)
      maxQueue := (sel.map EngineStep.queue).foldl max 0
      newTok := (sel.map EngineStep.newTok).sum
      want := c.conc * c.size }

/-- The archive: `{s[0]: s for s in keep}`, sorted by time. -/
def archiveSteps (keep : List (EngineStep T)) : List (EngineStep T) :=
  sortSteps (Dict.ofList (keep.map fun s => (s.ts, s))).values

/-- What `main` writes. -/
structure StepReport (T : Type u) : Type u where
  /-- the cells with their steps, in order -/
  attributed : List (PrCell T × List (EngineStep T))
  /-- the table -/
  rows : List StepRow
  /-- the steps of the archive -/
  archived : List (EngineStep T)
  /-- their lines, `out_log` -/
  outLog : List String

/-- `main` -/
def engineSteps (steps : List (EngineStep T)) (cells : List (PrCell T)) : StepReport T :=
  let attributed := attributeSteps (sortCells cells) (sortSteps steps)
  let archived := archiveSteps (attributed.flatMap Prod.snd)
  { attributed := attributed
    rows := attributed.map fun a => stepRow a.1 a.2
    archived := archived
    outLog := archived.map EngineStep.line }

/-! ## The cursor -/

/-- The steps that the first window they are in attributes to each cell. -/
def firstWindows (cells : List (PrCell T)) (steps : List (EngineStep T)) :
    List (PrCell T × List (EngineStep T)) :=
  cells.mapIdx fun i c =>
    (c, steps.filter fun s => cells.findIdx? (fun c => c.contains s) = some i)

theorem contains_iff (c : PrCell T) (s : EngineStep T) :
    c.contains s = true ↔ c.lo ≤ s.ts ∧ s.ts ≤ c.hi := by
  rw [PrCell.contains, Bool.and_eq_true, decide_eq_true_eq, decide_eq_true_eq]

/-- When a step is too late, so are those after it. -/
theorem late_of_not_le {s : EngineStep T} {steps : List (EngineStep T)}
    (hhead : ∀ s' ∈ steps, s.ts ≤ s'.ts) {hi : T} (hs : ¬ s.ts ≤ hi) :
    ∀ s' ∈ s :: steps, ¬ s'.ts ≤ hi := by
  intro s' hs' hle
  rcases List.mem_cons.mp hs' with rfl | hmem
  · exact hs hle
  · exact hs ((hhead s' hmem).trans hle)

/-- Over sorted steps, the inner loop splits them by their time. -/
theorem advanceCursor_eq {steps : List (EngineStep T)} (h : steps.Pairwise fun s s' => s.ts ≤ s'.ts)
    (c : PrCell T) :
    advanceCursor c.lo c.hi steps =
      (steps.filter fun s => c.contains s, steps.filter fun s => ¬ s.ts ≤ c.hi) := by
  induction steps with
  | nil => rfl
  | cons s steps ih =>
    obtain ⟨hhead, htail⟩ := List.pairwise_cons.mp h
    rw [advanceCursor]
    by_cases hs : s.ts ≤ c.hi
    · have hlate : (s :: steps).filter (fun s => ¬ s.ts ≤ c.hi) =
          steps.filter fun s => ¬ s.ts ≤ c.hi :=
        List.filter_cons_of_neg (by simpa using hs)
      rw [if_pos hs, ih htail, hlate, List.filter_cons]
      by_cases hlo : c.lo ≤ s.ts
      · rw [if_pos ((contains_iff c s).mpr ⟨hlo, hs⟩)]
        exact congrArg (·, _) (if_pos hlo)
      · rw [if_neg fun hc => hlo ((contains_iff c s).mp hc).1]
        exact congrArg (·, _) (if_neg hlo)
    · -- no later step is in the window either
      have hlate : ∀ s' ∈ s :: steps, ¬ s'.ts ≤ c.hi := late_of_not_le hhead hs
      have hnone : (s :: steps).filter (fun s => c.contains s) = [] :=
        List.filter_eq_nil_iff.mpr fun s' hs' hc => hlate s' hs' ((contains_iff c s').mp hc).2
      have hall : (s :: steps).filter (fun s => ¬ s.ts ≤ c.hi) = s :: steps :=
        List.filter_eq_self.mpr fun s' hs' => decide_eq_true (hlate s' hs')
      rw [if_neg hs, hnone, hall]

/-- A step of a later window is behind an earlier one, or in it. -/
theorem contains_or_lt {c c' : PrCell T} (h : c.lo ≤ c'.lo) {s : EngineStep T}
    (hs : c'.contains s = true) : c.contains s = true ↔ s.ts ≤ c.hi := by
  obtain ⟨hlo, -⟩ := (contains_iff c' s).mp hs
  rw [contains_iff]
  exact ⟨And.right, fun hhi => ⟨h.trans hlo, hhi⟩⟩

/-- **The cursor attributes each step to the first window it is in.** -/
theorem attributeSteps_eq {cells : List (PrCell T)}
    (hcells : cells.Pairwise fun c c' => c.lo ≤ c'.lo)
    {steps : List (EngineStep T)} (hsteps : steps.Pairwise fun s s' => s.ts ≤ s'.ts) :
    attributeSteps cells steps = firstWindows cells steps := by
  induction cells generalizing steps with
  | nil => rfl
  | cons c cells ih =>
    obtain ⟨hhead, htail⟩ := List.pairwise_cons.mp hcells
    rw [attributeSteps, advanceCursor_eq hsteps, firstWindows, List.mapIdx_cons]
    refine List.cons_eq_cons.mpr ⟨?_, ?_⟩
    · refine congrArg (c, ·) (List.filter_congr fun s _ => ?_)
      rw [List.findIdx?_cons]
      cases c.contains s with
      | true => rfl
      | false => simp
    · rw [ih htail (hsteps.filter _), firstWindows]
      refine List.mapIdx_eq_mapIdx_iff.mpr fun i hi => congrArg (cells[i], ·) ?_
      rw [List.filter_filter]
      refine List.filter_congr fun s _ => ?_
      rw [List.findIdx?_cons]
      cases hfind : cells.findIdx? fun c => c.contains s with
      | none =>
        cases c.contains s with
        | true => simp
        | false => simp
      | some j =>
        -- the window that has the step starts after `c`'s
        obtain ⟨hj, hjs, -⟩ := List.findIdx?_eq_some_iff_getElem.mp hfind
        have hiff := contains_or_lt (hhead _ (List.getElem_mem hj)) hjs
        by_cases hc : c.contains s = true
        · simp [hc, hiff.mp hc]
        · have hhi : ¬ s.ts ≤ c.hi := fun h => hc (hiff.mpr h)
          simp [hc, hhi]

/-- Sorted steps are those up to a time, then the others. -/
theorem filter_append_filter_not {steps : List (EngineStep T)}
    (h : steps.Pairwise fun s s' => s.ts ≤ s'.ts) (hi : T) :
    (steps.filter fun s => s.ts ≤ hi) ++ steps.filter (fun s => ¬ s.ts ≤ hi) = steps := by
  induction steps with
  | nil => rfl
  | cons s steps ih =>
    obtain ⟨hhead, htail⟩ := List.pairwise_cons.mp h
    by_cases hs : s.ts ≤ hi
    · rw [List.filter_cons, List.filter_cons, if_pos (decide_eq_true hs),
        if_neg (by simpa using hs), List.cons_append, ih htail]
    · have hlate : ∀ s' ∈ s :: steps, ¬ s'.ts ≤ hi := late_of_not_le hhead hs
      rw [List.filter_eq_nil_iff.mpr fun s' hs' h => hlate s' hs' (of_decide_eq_true h),
        List.filter_eq_self.mpr fun s' hs' => decide_eq_true (hlate s' hs'), List.nil_append]

/-- What is attributed are the steps of all windows, in time order. -/
theorem flatMap_attributeSteps {cells : List (PrCell T)}
    (hcells : cells.Pairwise fun c c' => c.lo ≤ c'.lo)
    {steps : List (EngineStep T)} (hsteps : steps.Pairwise fun s s' => s.ts ≤ s'.ts) :
    (attributeSteps cells steps).flatMap Prod.snd =
      steps.filter fun s => cells.any fun c => c.contains s := by
  induction cells generalizing steps with
  | nil => exact (List.filter_eq_nil_iff.mpr fun _ _ => Bool.false_ne_true).symm
  | cons c cells ih =>
    obtain ⟨hhead, htail⟩ := List.pairwise_cons.mp hcells
    -- a step that a later window has is in `c` too, or behind it
    have hany : ∀ s : EngineStep T, (cells.any fun c => c.contains s) = true → s.ts ≤ c.hi →
        c.contains s = true := by
      intro s hs hhi
      obtain ⟨c', hc', hcs⟩ := List.any_eq_true.mp hs
      exact (contains_or_lt (hhead c' hc') hcs).mpr hhi
    have hearly : (steps.filter fun s => s.ts ≤ c.hi).filter
        (fun s => (c :: cells).any fun c => c.contains s) = steps.filter fun s => c.contains s := by
      rw [List.filter_filter]
      refine List.filter_congr fun s _ => ?_
      rw [List.any_cons, Bool.eq_iff_iff, Bool.and_eq_true, Bool.or_eq_true, decide_eq_true_eq]
      exact ⟨fun h => h.1.elim id fun hs => hany s hs h.2,
        fun hs => ⟨Or.inl hs, ((contains_iff c s).mp hs).2⟩⟩
    have hlate : (steps.filter fun s => ¬ s.ts ≤ c.hi).filter
        (fun s => (c :: cells).any fun c => c.contains s) =
        (steps.filter fun s => ¬ s.ts ≤ c.hi).filter fun s => cells.any fun c => c.contains s := by
      refine List.filter_congr fun s hs => ?_
      have hhi : ¬ s.ts ≤ c.hi := of_decide_eq_true (List.mem_filter.mp hs).2
      have hc : c.contains s = false :=
        Bool.eq_false_iff.mpr fun hc => hhi ((contains_iff c s).mp hc).2
      rw [List.any_cons, hc, Bool.false_or]
    calc (attributeSteps (c :: cells) steps).flatMap Prod.snd
        = (steps.filter fun s => c.contains s) ++
            (steps.filter fun s => ¬ s.ts ≤ c.hi).filter
              fun s => cells.any fun c => c.contains s := by
          rw [attributeSteps, advanceCursor_eq hsteps, List.flatMap_cons,
            ih htail (hsteps.filter _)]
      _ = ((steps.filter fun s => s.ts ≤ c.hi) ++ steps.filter fun s => ¬ s.ts ≤ c.hi).filter
          fun s => (c :: cells).any fun c => c.contains s := by
          rw [List.filter_append, hearly, hlate]
      _ = steps.filter fun s => (c :: cells).any fun c => c.contains s := by
          rw [filter_append_filter_not hsteps]

/-! ## The archive -/

/-- The steps of the windows. -/
def windowSteps (steps : List (EngineStep T)) (cells : List (PrCell T)) : List (EngineStep T) :=
  steps.filter fun s => cells.any fun c => c.contains s

/-- The report keeps the evidence of its table. -/
structure EvidenceKept (steps : List (EngineStep T)) (cells : List (PrCell T)) : Prop where
  /-- a step is attributed to the first window it is in, and to no other -/
  attributed : (engineSteps steps cells).attributed =
    firstWindows (sortCells cells) (sortSteps steps)
  /-- the archive has the lines of the windows, in time order, each as often as it was logged -/
  outLog : (engineSteps steps cells).outLog =
    (windowSteps (sortSteps steps) cells).map EngineStep.line
  /-- its steps give every count of the table -/
  counts : (engineSteps steps cells).rows.map StepRow.steps =
    (firstWindows (sortCells cells) (engineSteps steps cells).archived).map fun a => a.2.length

theorem sortSteps_sorted (steps : List (EngineStep T)) :
    (sortSteps steps).Pairwise fun s s' => s.ts ≤ s'.ts :=
  List.pairwise_insertionSort (fun s s' : EngineStep T => s.ts ≤ s'.ts) steps

theorem sortCells_sorted (cells : List (PrCell T)) :
    (sortCells cells).Pairwise fun c c' => c.lo ≤ c'.lo := by
  have hsorted := List.pairwise_insertionSort
    (fun c c' : PrCell T => toLex (c.lo, c.hi) ≤ toLex (c'.lo, c'.hi)) cells
  refine hsorted.imp fun h => ?_
  rcases Prod.Lex.toLex_le_toLex.mp h with hlt | ⟨heq, -⟩
  · exact hlt.le
  · exact heq.le

theorem attributed_eq (steps : List (EngineStep T)) (cells : List (PrCell T)) :
    (engineSteps steps cells).attributed = firstWindows (sortCells cells) (sortSteps steps) :=
  attributeSteps_eq (sortCells_sorted cells) (sortSteps_sorted steps)

/-- The archive that is written is made from the steps that lie in the windows and from no
others. -/
theorem archived_eq (steps : List (EngineStep T)) (cells : List (PrCell T)) :
    (engineSteps steps cells).archived = archiveSteps (windowSteps (sortSteps steps) cells) := by
  have hany : (fun s : EngineStep T => (sortCells cells).any fun c => c.contains s) =
      fun s => cells.any fun c => c.contains s := by
    funext s
    exact (List.perm_insertionSort _ cells).any_eq
  have hkeep := flatMap_attributeSteps (sortCells_sorted cells) (sortSteps_sorted steps)
  rw [hany] at hkeep
  exact congrArg archiveSteps hkeep

/-- A dictionary by timestamp loses nothing exactly when the timestamps differ. -/
theorem length_archiveSteps_eq_iff (keep : List (EngineStep T)) :
    (archiveSteps keep).length = keep.length ↔ (keep.map EngineStep.ts).Nodup := by
  have hlen := Dict.length_ofList_eq_iff (keep.map fun s => (s.ts, s))
  rw [List.length_map, List.map_map] at hlen
  rw [archiveSteps, sortSteps, List.length_insertionSort, Dict.values, List.length_map, hlen]
  rfl

/-- Then, of sorted steps, it is what it was made from. -/
theorem archiveSteps_eq {keep : List (EngineStep T)}
    (hsorted : keep.Pairwise fun s s' => s.ts ≤ s'.ts) (h : (keep.map EngineStep.ts).Nodup) :
    archiveSteps keep = keep := by
  have hentries : (Dict.ofList (keep.map fun s => (s.ts, s))).entries =
      keep.map fun s => (s.ts, s) := by
    refine Dict.entries_ofList ?_
    rw [List.map_map]
    exact h
  rw [archiveSteps, Dict.values, hentries, List.map_map]
  exact (congrArg sortSteps (List.map_id keep)).trans hsorted.insertionSort_eq

omit [LinearOrder T] in
/-- The count of a row is the number of its steps. -/
theorem steps_stepRow (c : PrCell T) (sel : List (EngineStep T)) :
    (stepRow c sel).steps = sel.length := by
  rw [stepRow]
  cases sel with
  | nil => rfl
  | cons s sel => rfl

/-- Steps outside all windows are in nobody's first window, so leaving them out changes no
evidence. -/
theorem firstWindows_windowSteps (cells : List (PrCell T)) (steps : List (EngineStep T)) :
    firstWindows (sortCells cells) (windowSteps steps cells) =
      firstWindows (sortCells cells) steps := by
  refine List.mapIdx_eq_mapIdx_iff.mpr fun i hi => congrArg ((sortCells cells)[i], ·) ?_
  rw [windowSteps, List.filter_filter]
  refine List.filter_congr fun s _ => ?_
  rw [Bool.and_eq_left_iff_imp, decide_eq_true_eq]
  intro hfind
  obtain ⟨hlt, hs, -⟩ := List.findIdx?_eq_some_iff_getElem.mp hfind
  exact List.any_eq_true.mpr ⟨_, (List.mem_insertionSort _).mp (List.getElem_mem hlt), hs⟩

/-- **The cursor attributes every step rightly, and the archive keeps the evidence exactly when no
two steps of the windows have one timestamp.** -/
theorem evidenceKept_iff (steps : List (EngineStep T)) (cells : List (PrCell T)) :
    EvidenceKept steps cells ↔ ((windowSteps steps cells).map EngineStep.ts).Nodup := by
  have hperm : (windowSteps (sortSteps steps) cells).Perm (windowSteps steps cells) :=
    (List.perm_insertionSort _ steps).filter _
  rw [← (hperm.map EngineStep.ts).nodup_iff]
  constructor
  · intro h
    have hlines := congrArg List.length h.outLog
    rw [List.length_map] at hlines
    rw [← length_archiveSteps_eq_iff, ← archived_eq]
    exact (List.length_map EngineStep.line).symm.trans hlines
  · intro h
    have harchived : (engineSteps steps cells).archived = windowSteps (sortSteps steps) cells :=
      (archived_eq steps cells).trans
        (archiveSteps_eq ((sortSteps_sorted steps).filter _) h)
    refine ⟨attributed_eq steps cells, ?_, ?_⟩
    · exact congrArg (List.map EngineStep.line) harchived
    · have hrows : (engineSteps steps cells).rows.map StepRow.steps =
          (engineSteps steps cells).attributed.map fun a => a.2.length := by
        refine List.map_map.trans (List.map_congr_left fun a _ => ?_)
        exact steps_stepRow a.1 a.2
      rw [hrows, attributed_eq, harchived, firstWindows_windowSteps]

/-- **Two steps that are logged at one time: the archive has one line, and the table counts
two.** -/
theorem not_evidenceKept :
    ¬ ∀ (steps : List (EngineStep ℕ)) (cells : List (PrCell ℕ)), EvidenceKept steps cells := by
  intro hclaim
  have h := (hclaim [⟨5, 4, 2048, 0, "rank 0"⟩, ⟨5, 4, 2048, 1, "rank 1"⟩] [⟨512, 4, 3, 9⟩]).outLog
  revert h
  decide

end

end LuzServing
