import LuzServing.Dictionaries
import Mathlib.Data.List.Sort
import Mathlib.Data.List.TakeWhile
import Mathlib.Data.Prod.Lex

/-!
# Merging benchmark batches

A matrix of the benchmark is run in batches. Each writes a `summary.json` with its cells and, for
every cell, a file with the records of its streams. `merge_pr_v3_batches` puts the batches
together: a cell that is in several of them is taken from the last, and the files are copied into
one directory, where a later one replaces an earlier of the same name. Then the cells and the files
are counted, so that no cell is without its file.

**Equal counts do not mean that they belong together** (`paired_iff`): a file that is missing and
one that is no cell's cancel out, and a file may be from a later batch than its cell.
-/

namespace LuzServing

/-! ## Names of files -/

/-- `fnmatch`, for patterns whose only special character is the star. -/
def fnmatch : List Char → List Char → Bool
  | [], name => name.isEmpty
  | c :: pattern, name =>
    if c = '*' then name.tails.any (fnmatch pattern)
    else
      match name with
      | [] => false
      | d :: rest => d == c && fnmatch pattern rest

/-- The names that `glob` finds with `*-c*-w0.json`; it leaves hidden files out. -/
def globbed (name : List Char) : Bool :=
  name.head? != some '.' &&
    fnmatch ['*', '-', 'c', '*', '-', 'w', '0', '.', 'j', 's', 'o', 'n'] name

/-- The file of a cell, by its tokens and its concurrency: `"%d-c%d-w0.json"`. -/
def rawName (key : ℕ × ℕ) : List Char :=
  Nat.toDigits 10 key.1 ++ '-' :: 'c' ::
    (Nat.toDigits 10 key.2 ++ ['-', 'w', '0', '.', 'j', 's', 'o', 'n'])

/-! ## The merge -/

/-- A cell of a summary. -/
structure MergeCell (C : Type) : Type where
  /-- `input_tokens` -/
  inputTokens : ℕ
  /-- `concurrency` -/
  concurrency : ℕ
  /-- its results -/
  results : C
  deriving DecidableEq

/-- `key` -/
def MergeCell.key {C : Type} (c : MergeCell C) : ℕ × ℕ := (c.inputTokens, c.concurrency)

/-- A directory that holds the results of one benchmark batch. -/
structure Batch (C F : Type) : Type where
  /-- the cells of `summary.json`, if there is one -/
  summary : Option (List (MergeCell C))
  /-- the files and what is in them -/
  files : Dict (List Char) F

/-- The variables of the loop, and the output directory. -/
structure MergeState (C F : Type) : Type where
  /-- `cells` -/
  cells : Dict (ℕ × ℕ) (MergeCell C)
  /-- the files in `raw_dir` -/
  raw : Dict (List Char) F
  /-- how many batches are `absent` -/
  absent : ℕ

variable {C F : Type}

/-- The body of the loop over the batches. -/
def mergeBatch (s : MergeState C F) (b : Batch C F) : MergeState C F :=
  match b.summary with
  | none => { s with absent := s.absent + 1 }
  | some cells =>
    { s with
      cells := s.cells.setAll (cells.map fun c => (c.key, c))
      raw := s.raw.setAll (b.files.entries.filter fun e => globbed e.1) }

/-- The loop over the batches. -/
def mergeAll (s : MergeState C F) (batches : List (Batch C F)) : MergeState C F :=
  batches.foldl mergeBatch s

/-- `SIZES` -/
def gridSizes : List ℕ := [512, 2048, 8192, 32768, 131072, 524288]

/-- `sort_key`: the place of the size in the grid, the size, the concurrency. -/
def MergeCell.sortKey (c : MergeCell C) : ℕ ×ₗ ℕ ×ₗ ℕ :=
  toLex (gridSizes.idxOf c.inputTokens, toLex (c.inputTokens, c.concurrency))

/-- How a merge ends: with an exit code, and with what it has written. -/
structure MergeResult (C F : Type) : Type where
  /-- the exit code -/
  rc : ℕ
  /-- the cells of the summary, if one is written -/
  summary : Option (List (MergeCell C))
  /-- the files in `raw_dir` -/
  raw : Dict (List Char) F

/-- `main`, over what is in `raw_dir` before. -/
def mergeBatches (prior : Dict (List Char) F) (batches : List (Batch C F)) (expect : Option ℕ) :
    MergeResult C F :=
  let s := mergeAll ⟨Dict.empty, prior, 0⟩ batches
  if s.absent ≠ 0 then ⟨2, none, s.raw⟩
  else
    let ordered := s.cells.values.insertionSort fun c c' => c.sortKey ≤ c'.sortKey
    let nRaw := (s.raw.keys.filter globbed).length
    let rc :=
      if nRaw ≠ s.cells.entries.length then 3
      else if expect.any fun n => s.cells.entries.length != n then 4
      else 0
    ⟨rc, some ordered, s.raw⟩

/-! ## What it should do -/

/-- The summary of a batch has a cell with this key. -/
def Batch.has (b : Batch C F) (key : ℕ × ℕ) : Bool :=
  (b.summary.getD []).any fun c => c.key = key

/-- The file of a cell in a batch. -/
def Batch.rawFile (b : Batch C F) (key : ℕ × ℕ) : Option F := b.files.get? (rawName key)

/-- The batch whose cell is kept, the last one that has it, and the batches after that. -/
def keptBatch (key : ℕ × ℕ) : List (Batch C F) → Option (Batch C F × List (Batch C F))
  | [] => none
  | b :: later => (keptBatch key later).or (if b.has key then some (b, later) else none)

/-- The file of a cell in the last batch that has one. -/
def lastRawFile (key : ℕ × ℕ) : List (Batch C F) → Option F
  | [] => none
  | b :: later => (lastRawFile key later).or (b.rawFile key)

/-- The cells and the files of a result belong together. -/
structure Paired (batches : List (Batch C F)) (result : MergeResult C F) : Prop where
  /-- every cell has the file of the batch it is from -/
  file_of_cell : ∀ cells, result.summary = some cells → ∀ c ∈ cells,
    ∃ b later f, keptBatch c.key batches = some (b, later) ∧ b.rawFile c.key = some f ∧
      result.raw.get? (rawName c.key) = some f
  /-- every file is a cell's -/
  cell_of_file : ∀ name ∈ result.raw.keys, globbed name = true →
    ∃ cells, result.summary = some cells ∧ ∃ c ∈ cells, name = rawName c.key
  /-- no two cells have one key -/
  nodup : ∀ cells, result.summary = some cells → (cells.map MergeCell.key).Nodup

/-! ## The names -/

theorem fnmatch_star (pattern pre post : List Char) (h : fnmatch pattern post = true) :
    fnmatch ('*' :: pattern) (pre ++ post) = true := by
  unfold fnmatch
  rw [if_pos rfl, List.any_eq_true]
  exact ⟨post, (List.mem_tails _ _).mpr (List.suffix_append pre post), h⟩

theorem fnmatch_cons {c : Char} (hc : c ≠ '*') {pattern rest : List Char}
    (h : fnmatch pattern rest = true) : fnmatch (c :: pattern) (c :: rest) = true := by
  unfold fnmatch
  rw [if_neg hc]
  exact Bool.and_eq_true_iff.mpr ⟨beq_self_eq_true c, h⟩

/-- The characters in which a number is written in base ten are all digits. -/
theorem isDigit_of_mem_decimal {n : ℕ} {c : Char} (h : c ∈ Nat.toDigits 10 n) :
    c.isDigit = true :=
  Nat.isDigit_of_mem_toDigits (by decide) (by decide) h

/-- The file name of a cell is one that the pattern of the merge finds. -/
theorem globbed_rawName (key : ℕ × ℕ) : globbed (rawName key) = true := by
  rw [globbed, Bool.and_eq_true]
  constructor
  · have hhead : (rawName key).head? = (Nat.toDigits 10 key.1).head? := by
      rw [rawName, List.head?_append_of_ne_nil _ Nat.toDigits_ne_nil]
    rw [hhead, bne_iff_ne]
    intro hdot
    have hdigit := isDigit_of_mem_decimal (List.mem_of_mem_head? hdot)
    exact absurd hdigit (by decide)
  · refine fnmatch_star _ _ _ (fnmatch_cons (by decide) (fnmatch_cons (by decide) ?_))
    exact fnmatch_star _ _ _ (by decide)

theorem decimal_injective {m n : ℕ} (h : Nat.toDigits 10 m = Nat.toDigits 10 n) : m = n := by
  rw [← Nat.ofDigitChars_ten_toDigits (n := m), h, Nat.ofDigitChars_ten_toDigits]

/-- The digits in front of a file name are those of the number of tokens of its cell. -/
theorem takeWhile_rawName (key : ℕ × ℕ) :
    (rawName key).takeWhile Char.isDigit = Nat.toDigits 10 key.1 := by
  rw [rawName, List.takeWhile_append_of_pos fun c hc => isDigit_of_mem_decimal hc]
  exact List.append_nil _

/-- Two cells that have the same file name are the same cell, so no file is overwritten by
another. -/
theorem rawName_injective : Function.Injective rawName := by
  intro key key' h
  have hfst : Nat.toDigits 10 key.1 = Nat.toDigits 10 key'.1 := by
    rw [← takeWhile_rawName, h, takeWhile_rawName]
  rw [rawName, rawName, hfst] at h
  have htail := List.append_cancel_left h
  rw [List.cons.injEq, List.cons.injEq] at htail
  exact Prod.ext (decimal_injective hfst) (decimal_injective (List.append_cancel_right htail.2.2))

/-! ## What the loop does -/

theorem mergeAll_cons (s : MergeState C F) (b : Batch C F) (batches : List (Batch C F)) :
    mergeAll s (b :: batches) = mergeAll (mergeBatch s b) batches := rfl

theorem absent_le_mergeAll (s : MergeState C F) (batches : List (Batch C F)) :
    s.absent ≤ (mergeAll s batches).absent := by
  induction batches generalizing s with
  | nil => exact le_rfl
  | cons b batches ih =>
    refine le_trans ?_ (ih (mergeBatch s b))
    rw [mergeBatch]
    split
    · exact Nat.le_succ _
    · exact le_rfl

/-- Where no batch turns out to be absent, each batch is merged: its cells and its files are taken
over. -/
theorem mergeBatch_of_absent {s : MergeState C F} {b : Batch C F} {batches : List (Batch C F)}
    (h : (mergeAll s (b :: batches)).absent = 0) :
    mergeBatch s b =
      { s with
        cells := s.cells.setAll ((b.summary.getD []).map fun c => (c.key, c))
        raw := s.raw.setAll (b.files.entries.filter fun e => globbed e.1) } := by
  have hle := absent_le_mergeAll (mergeBatch s b) batches
  rw [← mergeAll_cons, h] at hle
  rw [mergeBatch] at hle ⊢
  cases hsummary : b.summary with
  | none =>
    simp only [hsummary] at hle
    omega
  | some cells => rfl

/-- The file of a cell, after the files of a batch are copied. -/
theorem get?_copy (raw : Dict (List Char) F) (b : Batch C F) (key : ℕ × ℕ) :
    (raw.setAll (b.files.entries.filter fun e => globbed e.1)).get? (rawName key) =
      (b.rawFile key).or (raw.get? (rawName key)) := by
  rw [Dict.get?_setAll]
  cases hfile : b.rawFile key with
  | some f =>
    have hmem : (rawName key, f) ∈ b.files.entries.filter fun e => globbed e.1 :=
      List.mem_filter.mpr ⟨Dict.mem_entries_iff.mpr hfile, globbed_rawName key⟩
    refine storeAll_map_eq (fun e => e.1) (fun e => some e.2) hmem fun e he hname => ?_
    have hentry := List.mem_of_mem_filter he
    have heq : e = (rawName key, f) :=
      List.inj_on_of_nodup_map b.files.nodup hentry (Dict.mem_entries_iff.mpr hfile) hname
    rw [heq]
  | none =>
    refine storeAll_map_of_ne fun e he hname => ?_
    have hget := Dict.mem_entries_iff.mp (List.mem_of_mem_filter he : (e.1, e.2) ∈ b.files.entries)
    rw [hname] at hget
    cases hget.symm.trans hfile

/-- A cell's file at the end is the last there is. -/
theorem get?_mergeAll {s : MergeState C F} {batches : List (Batch C F)}
    (h : (mergeAll s batches).absent = 0) (key : ℕ × ℕ) :
    (mergeAll s batches).raw.get? (rawName key) =
      (lastRawFile key batches).or (s.raw.get? (rawName key)) := by
  induction batches generalizing s with
  | nil => rfl
  | cons b batches ih =>
    have hstep := mergeBatch_of_absent h
    rw [mergeAll_cons] at h ⊢
    rw [ih h, hstep, get?_copy, lastRawFile, Option.or_assoc]

/-- Where no batch is absent, the cells at the end are those of the start and those of all
batches. -/
theorem mem_keys_mergeAll {s : MergeState C F} {batches : List (Batch C F)}
    (h : (mergeAll s batches).absent = 0) (key : ℕ × ℕ) :
    key ∈ (mergeAll s batches).cells.keys ↔
      key ∈ s.cells.keys ∨ ∃ b ∈ batches, b.has key = true := by
  induction batches generalizing s with
  | nil => simp [mergeAll]
  | cons b batches ih =>
    have hstep := mergeBatch_of_absent h
    have hcells : key ∈ (b.summary.getD []).map (Prod.fst ∘ fun c => (c.key, c)) ↔
        b.has key = true := by
      rw [Batch.has, List.any_eq_true, List.mem_map]
      exact exists_congr fun c => and_congr_right fun _ => decide_eq_true_iff.symm
    rw [mergeAll_cons] at h ⊢
    rw [ih h, hstep, Dict.mem_keys_setAll, List.map_map, hcells, or_assoc, List.exists_mem_cons_iff]

/-- Every cell is under its own key. -/
def Keyed (cells : Dict (ℕ × ℕ) (MergeCell C)) : Prop := ∀ e ∈ cells.entries, e.2.key = e.1

theorem Keyed.setAll {cells : Dict (ℕ × ℕ) (MergeCell C)} (h : Keyed cells)
    (more : List (MergeCell C)) : Keyed (cells.setAll (more.map fun c => (c.key, c))) := by
  induction more generalizing cells with
  | nil => exact h
  | cons c more ih =>
    refine ih fun e he => ?_
    have hget := Dict.mem_entries_iff.mp (he : (e.1, e.2) ∈ (cells.set c.key c).entries)
    rw [Dict.get?_set] at hget
    split_ifs at hget with hkey
    · cases hget
      exact hkey
    · exact h e (Dict.mem_entries_iff.mpr hget)

theorem Keyed.mergeAll {s : MergeState C F} (h : Keyed s.cells) (batches : List (Batch C F)) :
    Keyed (mergeAll s batches).cells := by
  induction batches generalizing s with
  | nil => exact h
  | cons b batches ih =>
    refine ih ?_
    rw [mergeBatch]
    split
    · exact h
    · exact h.setAll _

/-- Where every cell is kept under its own key, the keys of the summary are those of the
dictionary. -/
theorem Keyed.map_key_values {cells : Dict (ℕ × ℕ) (MergeCell C)} (h : Keyed cells) :
    cells.values.map MergeCell.key = cells.keys := by
  rw [Dict.values, List.map_map]
  exact List.map_congr_left h

/-! ## When they are paired -/

/-- The last file of a cell is from a batch after the one that is kept, or from that. -/
theorem lastRawFile_of_keptBatch {key : ℕ × ℕ} {batches later : List (Batch C F)} {b : Batch C F}
    (h : keptBatch key batches = some (b, later)) {f : F} (hf : b.rawFile key = some f) :
    lastRawFile key batches = (lastRawFile key later).or (some f) := by
  induction batches with
  | nil => cases h
  | cons b' batches ih =>
    rw [keptBatch] at h
    rw [lastRawFile]
    cases hkept : keptBatch key batches with
    | some r =>
      rw [hkept] at h
      cases h
      rw [ih hkept, Option.or_assoc]
      rfl
    | none =>
      rw [hkept] at h
      split_ifs at h
      · cases h
        rw [hf]
      · cases h

/-- The file that is left for a cell is the one beside it when no later batch has another. -/
theorem merged_eq_iff {key : ℕ × ℕ} {batches later : List (Batch C F)} {b : Batch C F} {f : F}
    (h : keptBatch key batches = some (b, later)) (hf : b.rawFile key = some f)
    (prior : Option F) : (lastRawFile key batches).or prior = some f ↔
      ∀ f', lastRawFile key later = some f' → f' = f := by
  rw [lastRawFile_of_keptBatch h hf]
  cases lastRawFile key later with
  | none => exact iff_of_true rfl fun f' hf' => nomatch hf'
  | some f' => exact ⟨fun h _ hf' => (Option.some.inj hf').symm.trans (Option.some.inj h),
      fun h => congrArg some (h f' rfl)⟩

/-- Every cell's file is in the batch that the cell is taken from, and if a batch after it has a
file of the name, the last of these is no other. -/
def FilesKept (batches : List (Batch C F)) : Prop :=
  ∀ key, (∃ b ∈ batches, b.has key = true) →
    ∃ b later f, keptBatch key batches = some (b, later) ∧ b.rawFile key = some f ∧
      ∀ f', lastRawFile key later = some f' → f' = f

/-- A merge that ends well has found every batch, and has as many files as it expects. -/
theorem mergeBatches_of_rc {prior : Dict (List Char) F} {batches : List (Batch C F)}
    {expect : Option ℕ} (h : (mergeBatches prior batches expect).rc = 0) :
    ∃ s, s = mergeAll ⟨Dict.empty, prior, 0⟩ batches ∧ s.absent = 0 ∧
      (s.raw.keys.filter globbed).length = s.cells.entries.length ∧
      mergeBatches prior batches expect =
        ⟨0, some (s.cells.values.insertionSort fun c c' => c.sortKey ≤ c'.sortKey), s.raw⟩ := by
  refine ⟨_, rfl, ?_⟩
  rw [mergeBatches] at h ⊢
  generalize mergeAll ⟨Dict.empty, prior, 0⟩ batches = s at h ⊢
  by_cases habsent : s.absent ≠ 0
  · rw [if_pos habsent] at h
    cases h
  · rw [if_neg habsent] at h ⊢
    dsimp only at h ⊢
    split_ifs at h ⊢ with hcount
    exact ⟨not_not.mp habsent, not_not.mp hcount, rfl⟩

/-- **A merge that ends well pairs the cells with their files exactly when every cell's file is in
the batch that the cell is taken from and no later batch replaces it.** -/
theorem paired_iff (prior : Dict (List Char) F) (batches : List (Batch C F)) (expect : Option ℕ)
    (h : (mergeBatches prior batches expect).rc = 0) :
    Paired batches (mergeBatches prior batches expect) ↔ FilesKept batches := by
  obtain ⟨s, hs, habsent, hcount, hresult⟩ := mergeBatches_of_rc h
  have hraw : ∀ key, s.raw.get? (rawName key) =
      (lastRawFile key batches).or (prior.get? (rawName key)) :=
    hs ▸ get?_mergeAll (hs ▸ habsent)
  have hmem : ∀ key, key ∈ s.cells.keys ↔ ∃ b ∈ batches, b.has key = true := fun key =>
    hs ▸ (mem_keys_mergeAll (hs ▸ habsent) key).trans (or_iff_right List.not_mem_nil)
  have hkeyed : Keyed s.cells :=
    hs ▸ Keyed.mergeAll (fun e he => absurd he List.not_mem_nil) batches
  have hperm : ((s.cells.values.insertionSort fun c c' => c.sortKey ≤ c'.sortKey).map
      MergeCell.key).Perm s.cells.keys :=
    hkeyed.map_key_values ▸ (List.perm_insertionSort _ _).map MergeCell.key
  rw [hresult]
  constructor
  · intro hpaired key hkey
    obtain ⟨c, hc, rfl⟩ := List.mem_map.mp (hperm.mem_iff.mpr ((hmem key).mpr hkey))
    obtain ⟨b, later, f, hkept, hf, hget⟩ := hpaired.file_of_cell _ rfl c hc
    exact ⟨b, later, f, hkept, hf, (merged_eq_iff hkept hf _).mp ((hraw c.key).symm.trans hget)⟩
  · intro hkept
    have hfile : ∀ key ∈ s.cells.keys, ∃ b later f, keptBatch key batches = some (b, later) ∧
        b.rawFile key = some f ∧ s.raw.get? (rawName key) = some f := by
      intro key hkey
      obtain ⟨b, later, f, hb, hf, hlater⟩ := hkept key ((hmem key).mp hkey)
      exact ⟨b, later, f, hb, hf, (hraw key).trans ((merged_eq_iff hb hf _).mpr hlater)⟩
    -- as many files as cells, and every cell has one: no file is left
    have hsub : s.cells.keys.map rawName ⊆ s.raw.keys.filter globbed := by
      intro name hname
      obtain ⟨key, hkey, rfl⟩ := List.mem_map.mp hname
      obtain ⟨b, later, f, -, -, hget⟩ := hfile key hkey
      exact List.mem_filter.mpr ⟨Dict.mem_keys_iff.mpr ⟨f, hget⟩, globbed_rawName key⟩
    have hlen : (s.raw.keys.filter globbed).length ≤ (s.cells.keys.map rawName).length := by
      rw [hcount, List.length_map, Dict.keys, List.length_map]
    have hall :=
      (List.subperm_of_subset (s.cells.nodup.map rawName_injective) hsub).perm_of_length_le hlen
    refine ⟨?_, ?_, ?_⟩
    · rintro cells hcells c hc
      cases hcells
      exact hfile c.key (hperm.mem_iff.mp (List.mem_map.mpr ⟨c, hc, rfl⟩))
    · intro name hname hglob
      have hmatched := hall.mem_iff.mpr (List.mem_filter.mpr ⟨hname, hglob⟩)
      obtain ⟨key, hkey, rfl⟩ := List.mem_map.mp hmatched
      obtain ⟨c, hc, rfl⟩ := List.mem_map.mp (hperm.mem_iff.mpr hkey)
      exact ⟨_, rfl, c, hc, rfl⟩
    · rintro cells hcells
      cases hcells
      exact hperm.nodup_iff.mpr s.cells.nodup

/-- A merge of one batch, which has one cell and its file, pairs the two. -/
theorem paired_one :
    Paired [⟨some [⟨512, 2, 7⟩], Dict.ofList [(rawName (512, 2), 9)]⟩]
      (mergeBatches Dict.empty
        [(⟨some [⟨512, 2, 7⟩], Dict.ofList [(rawName (512, 2), 9)]⟩ : Batch ℕ ℕ)] none) := by
  refine (paired_iff Dict.empty _ none (by decide +kernel)).mpr ?_
  rintro key ⟨b, hb, hkey⟩
  cases List.mem_singleton.mp hb
  obtain ⟨c, hc, hckey⟩ := List.any_eq_true.mp hkey
  cases List.mem_singleton.mp hc
  cases of_decide_eq_true hckey
  exact ⟨_, [], 9, rfl, by decide +kernel, fun f' hf' => by cases hf'⟩

/-- **A batch that has another cell's file instead of its own: the numbers agree.** -/
theorem not_paired :
    ¬ ∀ (prior : Dict (List Char) ℕ) (batches : List (Batch ℕ ℕ)) (expect : Option ℕ),
      (mergeBatches prior batches expect).rc = 0 →
        Paired batches (mergeBatches prior batches expect) := by
  intro hclaim
  have h := hclaim Dict.empty [⟨some [⟨512, 2, 7⟩], Dict.ofList [(rawName (2048, 1), 9)]⟩] none
    (by decide +kernel)
  obtain ⟨b, later, f, hkept, hf, -⟩ := h.file_of_cell _ rfl ⟨512, 2, 7⟩ (by decide +kernel)
  have hnone : (Dict.ofList [(rawName (2048, 1), 9)]).get? (rawName (512, 2)) = none := by
    decide +kernel
  cases hkept
  cases hnone.symm.trans hf

end LuzServing
