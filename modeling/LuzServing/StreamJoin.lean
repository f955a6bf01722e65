import Mathlib.Tactic
import Mathlib.Data.List.Perm.Basic
import Mathlib.Data.List.ReduceOption

/-!
# Joining the halves that a stream brings

A stream brings whole items and the halves of pairs, in any order. A whole item goes through; a
half waits under its key until the other half comes, and then the pair leaves. Where no half comes
twice, what leaves and what is left waiting are read off the stream (`Joins`, `joins_run`), so they
do not depend on its order (`Joins.perm`). A loop that may fail on an item or on a pair does not
depend on it either (`loop_perm`), and a program that keeps its halves in a data structure of its
own is such a loop when each of its steps is (`foldlM_eq_loop`).
-/

namespace LuzServing

namespace StreamJoin

universe u v w x y z

variable {κ : Type u} {α : Type v} {β : Type w}

/-- What a stream brings: halves that wait for each other, and items that are whole. -/
inductive Item (κ : Type u) (α : Type v) (β : Type w) : Type (max u v w) where
  /-- something whole -/
  | whole (b : β)
  /-- the first half of the pair of a key, or the second -/
  | half (k : κ) (first : Bool) (a : α)

/-- What leaves the join: pairs whose halves have met, and items that are whole. -/
inductive Joined (κ : Type u) (α : Type v) (β : Type w) : Type (max u v w) where
  /-- what came whole -/
  | whole (b : β)
  /-- the two halves of a key -/
  | pair (k : κ) (first second : α)

/-- The half that an item is. -/
def Item.half? : Item κ α β → Option (κ × Bool × α)
  | whole _ => none
  | half k first a => some (k, first, a)

/-- The item that came whole, if it did. -/
def Item.whole? : Item κ α β → Option β
  | whole b => some b
  | half _ _ _ => none

/-- The pair that leaves, with its key, if it is one. -/
def Joined.pair? : Joined κ α β → Option (κ × α × α)
  | whole _ => none
  | pair k first second => some (k, first, second)

/-- The item that leaves as it came, if it is one. -/
def Joined.whole? : Joined κ α β → Option β
  | whole b => some b
  | pair _ _ _ => none

/-- A half and the other one, in their order. -/
def meet (k : κ) (first : Bool) (a other : α) : Joined κ α β :=
  if first then .pair k a other else .pair k other a

/-- What has left, and what waits under a key. -/
structure State (κ : Type u) (α : Type v) (β : Type w) : Type (max u v w) where
  /-- in the order in which it left -/
  out : List (Joined κ α β)
  /-- which half waits -/
  waiting : κ → Option (Bool × α)

/-- The state of the join before anything has come. -/
def State.start : State κ α β where
  out := []
  waiting := fun _ => none

section Run

variable [DecidableEq κ]

/-- One item. A half that comes again takes the place of the one that waits. -/
def State.step (s : State κ α β) : Item κ α β → State κ α β
  | .whole b => { s with out := s.out ++ [.whole b] }
  | .half k first a =>
    match s.waiting k with
    | none => { s with waiting := Function.update s.waiting k (some (first, a)) }
    | some (side, other) =>
      if side = first then { s with waiting := Function.update s.waiting k (some (first, a)) }
      else
        { out := s.out ++ [meet k first a other]
          waiting := Function.update s.waiting k none }

/-- The state of the join after all items of a stream have come. -/
def run (l : List (Item κ α β)) : State κ α β := l.foldl State.step .start

theorem run_append_singleton (l : List (Item κ α β)) (i : Item κ α β) :
    run (l ++ [i]) = (run l).step i := by
  rw [run, List.foldl_append]
  rfl

end Run

/-! ## What a stream comes to -/

/-- The halves of a stream. -/
def halves (l : List (Item κ α β)) : List (κ × Bool × α) := l.filterMap Item.half?

/-- No half comes twice in the stream, not even with another value. -/
def NoTwice (l : List (Item κ α β)) : Prop := ((halves l).map fun h => (h.1, h.2.1)).Nodup

theorem halves_append_half (l : List (Item κ α β)) (k : κ) (first : Bool) (a : α) :
    halves (l ++ [.half k first a]) = halves l ++ [(k, first, a)] := by
  rw [halves, List.filterMap_append]
  rfl

theorem halves_append_whole (l : List (Item κ α β)) (b : β) :
    halves (l ++ [.whole b]) = halves l := by
  rw [halves, List.filterMap_append]
  exact List.append_nil _

theorem mem_halves_append_half {l : List (Item κ α β)} {k k' : κ} {first side : Bool} {a a' : α} :
    (k', side, a') ∈ halves (l ++ [.half k first a]) ↔
      (k', side, a') ∈ halves l ∨ k' = k ∧ side = first ∧ a' = a := by
  rw [halves_append_half, List.mem_append, List.mem_singleton, Prod.mk.injEq, Prod.mk.injEq]

/-- When no half comes twice, the half that comes last has not come before, with any value. -/
theorem NoTwice.notMem {l : List (Item κ α β)} {k : κ} {first : Bool} {a : α}
    (h : NoTwice (l ++ [.half k first a])) (a' : α) : (k, first, a') ∉ halves l := by
  rw [NoTwice, halves_append_half, List.map_append] at h
  intro hmem
  exact (List.nodup_append.mp h).2.2 _ (List.mem_map_of_mem hmem) (k, first)
    (List.mem_singleton_self _) rfl

theorem NoTwice.of_append {l l' : List (Item κ α β)} (h : NoTwice (l ++ l')) : NoTwice l := by
  rw [NoTwice, halves, List.filterMap_append, List.map_append] at h
  exact (List.nodup_append.mp h).1

/-- When no half comes twice, a half has come with one value only. -/
theorem NoTwice.unique {l : List (Item κ α β)} (h : NoTwice l) {k : κ} {first : Bool} {a a' : α}
    (ha : (k, first, a) ∈ halves l) (ha' : (k, first, a') ∈ halves l) : a = a' := by
  have heq := List.inj_on_of_nodup_map h ha ha' rfl
  cases heq
  rfl

theorem NoTwice.perm {l l' : List (Item κ α β)} (h : NoTwice l) (hp : l.Perm l') : NoTwice l' :=
  ((hp.filterMap Item.half?).map _).nodup_iff.mp h

/-- What a state has to be after a stream: everything whole has left in its order, a pair has left
exactly when both its halves came, and what came without its other half waits. -/
structure Joins (l : List (Item κ α β)) (s : State κ α β) : Prop where
  /-- what came whole -/
  wholes : s.out.filterMap Joined.whole? = l.filterMap Item.whole?
  /-- the pairs -/
  mem_pairs : ∀ k a b, (k, a, b) ∈ s.out.filterMap Joined.pair? ↔
    (k, true, a) ∈ halves l ∧ (k, false, b) ∈ halves l
  /-- each of them once -/
  nodup : (s.out.filterMap Joined.pair?).Nodup
  /-- what is left -/
  waiting : ∀ k side a, s.waiting k = some (side, a) ↔
    (k, side, a) ∈ halves l ∧ ∀ b, (k, !side, b) ∉ halves l

theorem Joins.start : Joins ([] : List (Item κ α β)) .start where
  wholes := rfl
  mem_pairs _ _ _ := iff_of_false List.not_mem_nil fun h => List.not_mem_nil h.1
  nodup := List.nodup_nil
  waiting _ _ _ := iff_of_false (Option.some_ne_none _).symm fun h => List.not_mem_nil h.1

theorem Joins.whole {l : List (Item κ α β)} {s : State κ α β} (h : Joins l s) (b : β) :
    Joins (l ++ [.whole b]) { s with out := s.out ++ [.whole b] } := by
  have hpairs : (s.out ++ [Joined.whole b]).filterMap Joined.pair? =
      s.out.filterMap (Joined.pair? (κ := κ) (α := α)) := by
    rw [List.filterMap_append]
    exact List.append_nil _
  refine ⟨?_, fun k a b' => ?_, ?_, fun k side a => ?_⟩
  · rw [List.filterMap_append, List.filterMap_append, h.wholes]
    rfl
  · rw [hpairs, halves_append_whole]
    exact h.mem_pairs k a b'
  · rw [hpairs]
    exact h.nodup
  · rw [halves_append_whole]
    exact h.waiting k side a

/-- A half of which nothing waits is the first of its pair to come. -/
theorem Joins.other_of_none {l : List (Item κ α β)} {s : State κ α β} {k : κ} {first : Bool}
    (h : Joins l s) (hnew : ∀ b, (k, first, b) ∉ halves l)
    (hnone : s.waiting k = none) (b : α) : (k, !first, b) ∉ halves l := by
  intro hb
  have hwaits : s.waiting k = some (!first, b) :=
    (h.waiting k (!first) b).mpr ⟨hb, fun b' => by rw [Bool.not_not]; exact hnew b'⟩
  rw [hnone] at hwaits
  cases hwaits

section Steps

variable [DecidableEq κ] {l : List (Item κ α β)} {s : State κ α β} {k : κ} {first : Bool}
  {a other : α}

/-- The join is kept when a half comes whose other half has not come, and is put to those that
wait. -/
theorem Joins.wait (h : Joins l s) (hnew : ∀ b, (k, first, b) ∉ halves l)
    (hother : ∀ b, (k, !first, b) ∉ halves l) :
    Joins (l ++ [.half k first a])
      { s with waiting := Function.update s.waiting k (some (first, a)) } := by
  refine ⟨?_, fun k' a' b' => ?_, h.nodup, fun k' side a' => ?_⟩
  · rw [List.filterMap_append, h.wholes]
    exact (List.append_nil _).symm
  · rw [h.mem_pairs, mem_halves_append_half, mem_halves_append_half]
    refine ⟨fun hmem => ⟨Or.inl hmem.1, Or.inl hmem.2⟩, ?_⟩
    rintro ⟨ha | ⟨rfl, rfl, rfl⟩, hb | ⟨hk, hfirst, -⟩⟩
    · exact ⟨ha, hb⟩
    · rw [hk] at ha
      rw [← hfirst] at hother
      exact absurd ha (hother a')
    · exact absurd hb (hother b')
    · cases hfirst
  · dsimp only
    by_cases hk : k' = k
    · subst hk
      rw [Function.update_self, mem_halves_append_half, Option.some.injEq, Prod.mk.injEq]
      constructor
      · rintro ⟨rfl, rfl⟩
        refine ⟨Or.inr ⟨rfl, rfl, rfl⟩, fun b hb => ?_⟩
        rcases mem_halves_append_half.mp hb with hb | ⟨-, hside, -⟩
        · exact hother b hb
        · exact Bool.not_ne_self first hside
      · rintro ⟨ha' | ⟨-, rfl, rfl⟩, hno⟩
        · -- what came before under this key is neither half
          cases Bool.eq_or_eq_not side first with
          | inl hside => exact absurd ha' (hside ▸ hnew a')
          | inr hside => exact absurd ha' (hside ▸ hother a')
        · exact ⟨rfl, rfl⟩
    · rw [Function.update_of_ne hk, h.waiting, mem_halves_append_half]
      refine and_congr ⟨Or.inl, fun ha => ha.resolve_right fun hne => hk hne.1⟩ ?_
      refine forall_congr' fun b => not_congr ?_
      rw [mem_halves_append_half]
      exact ⟨Or.inl, fun hb => hb.resolve_right fun hne => hk hne.1⟩

/-- The join is kept when a half comes whose other half waits, and the two leave as a pair. -/
theorem Joins.leave (h : Joins l s) (hl : NoTwice (l ++ [.half k first a]))
    (hother : (k, !first, other) ∈ halves l) :
    Joins (l ++ [.half k first a])
      { out := s.out ++ [meet k first a other]
        waiting := Function.update s.waiting k none } := by
  have hnew := hl.notMem
  have hold : NoTwice l := hl.of_append
  have hpairs : (s.out ++ [meet k first a other]).filterMap Joined.pair? =
      s.out.filterMap Joined.pair? ++
        [if first then (k, a, other) else (k, other, a)] := by
    rw [List.filterMap_append]
    cases first with
    | true => rfl
    | false => rfl
  refine ⟨?_, fun k' a' b' => ?_, ?_, fun k' side a' => ?_⟩
  · rw [List.filterMap_append, List.filterMap_append, h.wholes]
    cases first with
    | true => rfl
    | false => rfl
  · rw [hpairs, List.mem_append, List.mem_singleton, h.mem_pairs, mem_halves_append_half,
      mem_halves_append_half]
    cases first with
    | true =>
      rw [if_pos rfl, Prod.mk.injEq, Prod.mk.injEq]
      constructor
      · rintro (⟨ha, hb⟩ | ⟨rfl, rfl, rfl⟩)
        · exact ⟨Or.inl ha, Or.inl hb⟩
        · exact ⟨Or.inr ⟨rfl, rfl, rfl⟩, Or.inl hother⟩
      · rintro ⟨ha | ⟨rfl, -, rfl⟩, hb | ⟨-, hfirst, -⟩⟩
        · exact Or.inl ⟨ha, hb⟩
        · cases hfirst
        · exact Or.inr ⟨rfl, rfl, hold.unique hb hother⟩
        · cases hfirst
    | false =>
      rw [if_neg Bool.false_ne_true, Prod.mk.injEq, Prod.mk.injEq]
      constructor
      · rintro (⟨ha, hb⟩ | ⟨rfl, rfl, rfl⟩)
        · exact ⟨Or.inl ha, Or.inl hb⟩
        · exact ⟨Or.inl hother, Or.inr ⟨rfl, rfl, rfl⟩⟩
      · rintro ⟨ha | ⟨-, hfirst, -⟩, hb | ⟨rfl, -, rfl⟩⟩
        · exact Or.inl ⟨ha, hb⟩
        · exact Or.inr ⟨rfl, hold.unique ha hother, rfl⟩
        · cases hfirst
        · cases hfirst
  · rw [hpairs]
    refine List.nodup_append.mpr ⟨h.nodup, List.nodup_singleton _, fun e he e' he' heq => ?_⟩
    rw [List.mem_singleton.mp he'] at heq
    rw [heq] at he
    cases first with
    | true => exact hnew a ((h.mem_pairs k a other).mp he).1
    | false => exact hnew a ((h.mem_pairs k other a).mp he).2
  · dsimp only
    by_cases hk : k' = k
    · subst hk
      rw [Function.update_self, mem_halves_append_half]
      refine iff_of_false (Option.some_ne_none _).symm ?_
      rintro ⟨-, hno⟩
      cases Bool.eq_or_eq_not side first with
      | inl hside => exact hno other (mem_halves_append_half.mpr (Or.inl (hside ▸ hother)))
      | inr hside =>
        refine hno a (mem_halves_append_half.mpr (Or.inr ⟨rfl, ?_, rfl⟩))
        rw [hside, Bool.not_not]
    · rw [Function.update_of_ne hk, h.waiting, mem_halves_append_half]
      refine and_congr ⟨Or.inl, fun ha => ha.resolve_right fun hne => hk hne.1⟩ ?_
      refine forall_congr' fun b => not_congr ?_
      rw [mem_halves_append_half]
      exact ⟨Or.inl, fun hb => hb.resolve_right fun hne => hk hne.1⟩

theorem Joins.step (h : Joins l s) (i : Item κ α β) (hl : NoTwice (l ++ [i])) :
    Joins (l ++ [i]) (s.step i) := by
  cases i with
  | whole b => exact h.whole b
  | half k first a =>
    have hnew := hl.notMem
    cases hw : s.waiting k with
    | none =>
      rw [State.step, hw]
      exact h.wait hnew (h.other_of_none hnew hw)
    | some waits =>
      obtain ⟨side, other⟩ := waits
      have hother : (k, side, other) ∈ halves l := ((h.waiting k side other).mp hw).1
      have hne : side ≠ first := fun heq => hnew other (heq ▸ hother)
      rw [State.step, hw]
      dsimp only
      rw [if_neg hne]
      rw [Bool.eq_not_of_ne hne] at hother
      exact h.leave hl hother

/-- **What a run comes to**, where no half comes twice: the pairs that have met, the wholes, and who
waits. -/
theorem joins_run (hl : NoTwice l) : Joins l (run l) := by
  induction l using List.reverseRecOn with
  | nil => exact .start
  | append_singleton l i ih =>
    rw [run_append_singleton]
    exact (ih hl.of_append).step i hl

end Steps

/-! ## The order of the stream -/

/-- What leaves consists of the whole items and the pairs, up to their order. -/
theorem perm_wholes_pairs (out : List (Joined κ α β)) :
    out.Perm ((out.filterMap Joined.whole?).map Joined.whole ++
      (out.filterMap Joined.pair?).map fun p => .pair p.1 p.2.1 p.2.2) := by
  induction out with
  | nil => exact .refl _
  | cons j out ih =>
    cases j with
    | whole b => exact ih.cons _
    | pair k a b => exact (ih.cons _).trans List.perm_middle.symm

/-- **The order of a stream does not matter**: the same leaves, and the same is left. -/
theorem Joins.perm {l l' : List (Item κ α β)} {s s' : State κ α β} (h : Joins l s)
    (h' : Joins l' s') (hp : l.Perm l') : s.out.Perm s'.out ∧ s.waiting = s'.waiting := by
  have hhalves : ∀ e, e ∈ halves l ↔ e ∈ halves l' := fun e => (hp.filterMap Item.half?).mem_iff
  have hpairs : (s.out.filterMap Joined.pair?).Perm (s'.out.filterMap Joined.pair?) := by
    refine (List.perm_ext_iff_of_nodup h.nodup h'.nodup).mpr ?_
    rintro ⟨k, a, b⟩
    rw [h.mem_pairs, h'.mem_pairs, hhalves, hhalves]
  have hwholes : (s.out.filterMap Joined.whole?).Perm (s'.out.filterMap Joined.whole?) := by
    rw [h.wholes, h'.wholes]
    exact hp.filterMap Item.whole?
  refine ⟨?_, funext fun k => Option.ext ?_⟩
  · exact (perm_wholes_pairs s.out).trans
      (((hwholes.map _).append (hpairs.map _)).trans (perm_wholes_pairs s'.out).symm)
  · rintro ⟨side, a⟩
    rw [h.waiting, h'.waiting, hhalves]
    exact and_congr_right fun _ => forall_congr' fun b => not_congr (hhalves _)

/-! ## Loops that may fail -/

/-- A computation yields when its first part does, and its second part on what that yields. -/
theorem bind_eq_ok_iff {ε : Type z} {a b : Type y} {p : Except ε a} {f : a → Except ε b} {r : b} :
    (p >>= f) = .ok r ↔ ∃ m, p = .ok m ∧ f m = .ok r := by
  cases p with
  | error e =>
    refine iff_of_false (fun h => by cases h) ?_
    rintro ⟨_, hm, -⟩
    cases hm
  | ok m =>
    refine ⟨fun h => ⟨m, rfl, h⟩, ?_⟩
    rintro ⟨_, hm, hf⟩
    cases hm
    exact hf

@[simp] theorem bind_ok {ε : Type z} {a b : Type y} (m : a) (f : a → Except ε b) :
    (Except.ok m >>= f) = f m := rfl

section Loops

variable {κ α β X γ : Type u} {ε : Type v} [DecidableEq κ]
  (classify : X → Except ε (Option (Item κ α β))) (emit : Joined κ α β → Except ε γ)

/-- What a loop has made, and what waits. -/
abbrev LoopState (κ α γ : Type u) : Type u := List γ × (κ → Option (Bool × α))

/-- What an item does to the loop. -/
def turn (t : LoopState κ α γ) (i : Item κ α β) : Except ε (LoopState κ α γ) := do
  let s := State.step { out := [], waiting := t.2 } i
  let made ← s.out.mapM emit
  pure (t.1 ++ made, s.waiting)

/-- One turn of a loop: it may pass something over, and it may fail on what comes or on what
leaves. -/
def loopStep (t : LoopState κ α γ) (x : X) : Except ε (LoopState κ α γ) := do
  match ← classify x with
  | none => pure t
  | some i => turn emit t i

/-- The loop over a stream. -/
def loop (l : List X) : Except ε (LoopState κ α γ) :=
  l.foldlM (loopStep classify emit) ([], fun _ => none)

/-- The half that something is, without its value. -/
def halfOf (x : X) : Option (κ × Bool) :=
  match classify x with
  | .ok (some (.half k first _)) => some (k, first)
  | _ => none

/-- How a loop that yields got there: it took each thing for an item, and it made what the items
come to. -/
structure LoopRun (l : List X) (t : LoopState κ α γ) (items : List (Option (Item κ α β))) :
    Prop where
  /-- what the things are -/
  classified : List.Forall₂ (fun x i => classify x = .ok i) l items
  /-- what leaves -/
  made : List.Forall₂ (fun j c => emit j = .ok c) (run items.reduceOption).out t.1
  /-- what waits -/
  waiting : (run items.reduceOption).waiting = t.2

variable {classify emit}

/-- A turn of the loop on a whole item emits it and leaves alone what waits. -/
theorem turn_whole (t : LoopState κ α γ) (b : β) :
    turn emit t (.whole b) = emit (.whole b) >>= fun c => pure (t.1 ++ [c], t.2) := by
  change [Joined.whole b].mapM emit >>= (fun made => pure (t.1 ++ made, t.2)) = _
  rw [List.mapM_cons, List.mapM_nil]
  cases emit (.whole b) with
  | error e => rfl
  | ok c => rfl

/-- A turn of the loop on a half whose other half does not wait puts it to those that wait. -/
theorem turn_wait {t : LoopState κ α γ} {k : κ} (h : t.2 k = none) (first : Bool) (a : α) :
    turn emit t (.half k first a) =
      .ok (t.1, Function.update t.2 k (some (first, a))) := by
  rw [turn, State.step]
  dsimp only
  rw [h]
  exact congrArg (fun made => Except.ok (made, _)) (List.append_nil t.1)

/-- A turn of the loop on a half whose other half waits emits the pair, and the other half waits no
longer. -/
theorem turn_leave {t : LoopState κ α γ} {k : κ} {side first : Bool} {other : α}
    (h : t.2 k = some (side, other)) (hne : side ≠ first) (a : α) :
    turn emit t (.half k first a) = emit (meet k first a other) >>= fun c =>
      pure (t.1 ++ [c], Function.update t.2 k none) := by
  rw [turn, State.step]
  dsimp only
  rw [h]
  dsimp only
  rw [if_neg hne]
  change [meet k first a other].mapM emit >>= (fun made => pure (t.1 ++ made, _)) = _
  rw [List.mapM_cons, List.mapM_nil]
  cases emit (meet k first a other) with
  | error e => rfl
  | ok c => rfl

theorem mapM_eq_ok_iff {a b : Type u} {f : a → Except ε b} {l : List a} {out : List b} :
    l.mapM f = .ok out ↔ List.Forall₂ (fun x y => f x = .ok y) l out := by
  induction l generalizing out with
  | nil =>
    rw [List.mapM_nil, List.forall₂_nil_left_iff]
    exact ⟨fun h => by cases h; rfl, fun h => by rw [h]; rfl⟩
  | cons x l ih =>
    rw [List.mapM_cons, bind_eq_ok_iff, List.forall₂_cons_left_iff]
    refine exists_congr fun y => ?_
    rw [bind_eq_ok_iff]
    constructor
    · rintro ⟨hy, rest, hrest, hout⟩
      cases hout
      exact ⟨rest, hy, ih.mp hrest, rfl⟩
    · rintro ⟨rest, hy, hrest, rfl⟩
      exact ⟨hy, rest, ih.mpr hrest, rfl⟩

/-- What has left before does not change what a step does. -/
theorem State.step_out (out : List (Joined κ α β)) (waiting : κ → Option (Bool × α))
    (i : Item κ α β) :
    State.step { out := out, waiting := waiting } i =
      { out := out ++ (State.step { out := [], waiting := waiting } i).out
        waiting := (State.step { out := [], waiting := waiting } i).waiting } := by
  cases i with
  | whole b => rfl
  | half k first a =>
    rw [step, step]
    dsimp only
    cases waiting k with
    | none => exact congrArg (State.mk · _) (List.append_nil _).symm
    | some waits =>
      dsimp only
      split_ifs
      · exact congrArg (State.mk · _) (List.append_nil _).symm
      · rfl

theorem loopStep_eq_ok {t t' : LoopState κ α γ} {x : X} :
    loopStep classify emit t x = .ok t' ↔
      classify x = .ok none ∧ t' = t ∨
      ∃ i, classify x = .ok (some i) ∧ ∃ made,
        List.Forall₂ (fun j c => emit j = .ok c)
          (State.step { out := [], waiting := t.2 } i).out made ∧
        t' = (t.1 ++ made, (State.step { out := [], waiting := t.2 } i).waiting) := by
  rw [loopStep, bind_eq_ok_iff]
  constructor
  · rintro ⟨_ | i, hi, h⟩
    · cases h
      exact Or.inl ⟨hi, rfl⟩
    · obtain ⟨made, hmade, h⟩ := bind_eq_ok_iff.mp h
      cases h
      exact Or.inr ⟨i, hi, made, mapM_eq_ok_iff.mp hmade, rfl⟩
  · rintro (⟨hi, rfl⟩ | ⟨i, hi, made, hmade, rfl⟩)
    · exact ⟨none, hi, rfl⟩
    · exact ⟨some i, hi, bind_eq_ok_iff.mpr ⟨made, mapM_eq_ok_iff.mpr hmade, rfl⟩⟩

/-- A list that is related to two lists in a row splits into parts related to each of them. -/
theorem exists_of_forall₂_append {A : Type x} {B : Type y} {R : A → B → Prop} {l₁ l₂ : List A}
    {m : List B} (h : List.Forall₂ R (l₁ ++ l₂) m) :
    ∃ m₁ m₂, m = m₁ ++ m₂ ∧ List.Forall₂ R l₁ m₁ ∧ List.Forall₂ R l₂ m₂ := by
  induction l₁ generalizing m with
  | nil => exact ⟨[], m, rfl, .nil, h⟩
  | cons a l₁ ih =>
    obtain ⟨b, rest, hab, hrest, rfl⟩ := List.forall₂_cons_left_iff.mp h
    obtain ⟨m₁, m₂, rfl, h₁, h₂⟩ := ih hrest
    exact ⟨b :: m₁, m₂, rfl, .cons hab h₁, h₂⟩

theorem run_concat_none (items : List (Option (Item κ α β))) :
    run (items ++ [none]).reduceOption = run items.reduceOption := by
  rw [List.reduceOption_append]
  exact congrArg run (List.append_nil _)

theorem run_concat_some (items : List (Option (Item κ α β))) (i : Item κ α β) :
    run (items ++ [some i]).reduceOption =
      { out := (run items.reduceOption).out ++
          (State.step { out := [], waiting := (run items.reduceOption).waiting } i).out
        waiting := (State.step { out := [], waiting := (run items.reduceOption).waiting }
          i).waiting } := by
  rw [List.reduceOption_append, List.reduceOption_singleton, Option.toList_some,
    run_append_singleton]
  exact State.step_out _ _ i

/-- A run of the loop and one more turn that returns make a run over one more item. -/
theorem LoopRun.append {l : List X} {t t' : LoopState κ α γ}
    {items : List (Option (Item κ α β))} {x : X} (h : LoopRun classify emit l t items)
    (hstep : loopStep classify emit t x = .ok t') :
    ∃ i, LoopRun classify emit (l ++ [x]) t' (items ++ [i]) := by
  rcases loopStep_eq_ok.mp hstep with ⟨hi, rfl⟩ | ⟨i, hi, made, hmade, rfl⟩
  · refine ⟨none, List.rel_append h.classified (.cons hi .nil), ?_, ?_⟩
    · rw [run_concat_none]
      exact h.made
    · rw [run_concat_none]
      exact h.waiting
  · refine ⟨some i, List.rel_append h.classified (.cons hi .nil), ?_, ?_⟩
    · rw [run_concat_some, h.waiting]
      exact List.rel_append h.made hmade
    · rw [run_concat_some, h.waiting]

/-- A run over a list that ends with an item is a run over what comes before it, and a turn on the
item. -/
theorem LoopRun.of_append {l : List X} {t' : LoopState κ α γ}
    {items : List (Option (Item κ α β))} {x : X} (h : LoopRun classify emit (l ++ [x]) t' items) :
    ∃ items' t, LoopRun classify emit l t items' ∧ loopStep classify emit t x = .ok t' := by
  obtain ⟨items', last, rfl, hitems, hlast⟩ := exists_of_forall₂_append h.classified
  obtain ⟨i, rest, hi, hrest, rfl⟩ := List.forall₂_cons_left_iff.mp hlast
  obtain rfl := List.forall₂_nil_left_iff.mp hrest
  cases i with
  | none =>
    have hmade := h.made
    have hwaiting := h.waiting
    rw [run_concat_none] at hmade hwaiting
    exact ⟨items', t', ⟨hitems, hmade, hwaiting⟩, loopStep_eq_ok.mpr (Or.inl ⟨hi, rfl⟩)⟩
  | some i =>
    have hmade := h.made
    have hwaiting := h.waiting
    rw [run_concat_some] at hmade hwaiting
    obtain ⟨before, made, hout, hbefore, hlast⟩ := exists_of_forall₂_append hmade
    refine ⟨items', (before, (run items'.reduceOption).waiting), ⟨hitems, hbefore, rfl⟩, ?_⟩
    exact loopStep_eq_ok.mpr (Or.inr ⟨i, hi, made, hlast, Prod.ext hout hwaiting.symm⟩)

theorem loop_append_singleton (l : List X) (x : X) :
    loop classify emit (l ++ [x]) =
      loop classify emit l >>= fun t => loopStep classify emit t x := by
  rw [loop, List.foldlM_append]
  simp only [List.foldlM_cons, List.foldlM_nil, bind_pure]
  rfl

/-- A loop yields when it takes everything for an item and makes all that these come to. -/
theorem loop_eq_ok_iff {l : List X} {t : LoopState κ α γ} :
    loop classify emit l = .ok t ↔ ∃ items, LoopRun classify emit l t items := by
  induction l using List.reverseRecOn generalizing t with
  | nil =>
    constructor
    · intro h
      cases h
      exact ⟨[], .nil, .nil, rfl⟩
    · rintro ⟨items, hitems, hmade, hwaiting⟩
      obtain rfl := List.forall₂_nil_left_iff.mp hitems
      have hout : t.1 = [] := List.forall₂_nil_left_iff.mp hmade
      exact congrArg Except.ok (Prod.ext hout.symm hwaiting)
  | append_singleton l x ih =>
    rw [loop_append_singleton, bind_eq_ok_iff]
    constructor
    · rintro ⟨t₀, ht₀, hx⟩
      obtain ⟨items, hitems⟩ := ih.mp ht₀
      obtain ⟨i, hi⟩ := hitems.append hx
      exact ⟨items ++ [i], hi⟩
    · rintro ⟨items, hitems⟩
      obtain ⟨items', t₀, ht₀, hx⟩ := hitems.of_append
      exact ⟨t₀, ih.mpr ⟨items', ht₀⟩, hx⟩

/-- The halves among the items of a run are, without their values, those that the stream is
classified into. -/
theorem LoopRun.map_halves {l : List X} {t : LoopState κ α γ}
    {items : List (Option (Item κ α β))} (h : LoopRun classify emit l t items) :
    (halves items.reduceOption).map (fun e => (e.1, e.2.1)) = l.filterMap (halfOf classify) := by
  have hclassified := h.classified
  clear h
  induction hclassified with
  | nil => rfl
  | @cons x i l items hi _ ih =>
    have hhalf : halfOf classify x = (i.bind Item.half?).map fun e => (e.1, e.2.1) := by
      rw [halfOf, hi]
      rcases i with _ | _ | _
      · rfl
      · rfl
      · rfl
    rw [List.filterMap_cons, hhalf, ← ih]
    rcases i with _ | _ | _
    · rfl
    · rfl
    · rfl

/-- Something in a list is related to something in the other one. -/
theorem exists_of_mem_forall₂ {A : Type x} {B : Type y} {R : A → B → Prop} {l : List A}
    {m : List B} (h : List.Forall₂ R l m) {a : A} (ha : a ∈ l) : ∃ b ∈ m, R a b := by
  induction h with
  | nil => cases ha
  | cons hab _ ih =>
    rcases List.mem_cons.mp ha with rfl | ha
    · exact ⟨_, List.mem_cons_self .., hab⟩
    · obtain ⟨b, hb, hr⟩ := ih ha
      exact ⟨b, List.mem_cons_of_mem _ hb, hr⟩

/-- A half with its value is among the items of a run exactly when an item of the stream is
classified so. -/
theorem LoopRun.mem_halves_iff {l : List X} {t : LoopState κ α γ}
    {items : List (Option (Item κ α β))} (h : LoopRun classify emit l t items) {k : κ}
    {first : Bool} {a : α} : (k, first, a) ∈ halves items.reduceOption ↔
      ∃ x ∈ l, classify x = .ok (some (.half k first a)) := by
  rw [halves, List.mem_filterMap]
  constructor
  · rintro ⟨i, hi, hhalf⟩
    obtain ⟨x, hx, hxi⟩ := exists_of_mem_forall₂ h.classified.flip
      (List.reduceOption_mem_iff.mp hi)
    refine ⟨x, hx, hxi.trans ?_⟩
    cases i with
    | whole b => cases hhalf
    | half k' first' a' =>
      cases hhalf
      rfl
  · rintro ⟨x, hx, hclassify⟩
    obtain ⟨i, hi, hxi⟩ := exists_of_mem_forall₂ h.classified hx
    rw [hclassify] at hxi
    cases hxi
    exact ⟨_, List.reduceOption_mem_iff.mpr hi, rfl⟩

/-- When both halves of a key have come in a run that returns, their pair has been emitted without
error. -/
theorem LoopRun.exists_emit {l : List X} (hl : (l.filterMap (halfOf classify)).Nodup)
    {t : LoopState κ α γ} {items : List (Option (Item κ α β))}
    (h : LoopRun classify emit l t items) {k : κ} {a b : α}
    (ha : (k, true, a) ∈ halves items.reduceOption)
    (hb : (k, false, b) ∈ halves items.reduceOption) :
    ∃ c, emit (.pair k a b) = .ok c := by
  rw [← h.map_halves] at hl
  have hpair := ((joins_run hl).mem_pairs k a b).mpr ⟨ha, hb⟩
  obtain ⟨j, hj, hpair⟩ := List.mem_filterMap.mp hpair
  obtain ⟨c, -, hc⟩ := exists_of_mem_forall₂ h.made hj
  cases j with
  | whole _ => cases hpair
  | pair k' a' b' =>
    cases hpair
    exact ⟨c, hc⟩

/-- **A loop does not depend on the order of the stream**, where no half comes twice: if it yields,
it yields for every order, it makes the same things, and the same is left. -/
theorem loop_perm {l l' : List X} (hp : l.Perm l') (hl : (l.filterMap (halfOf classify)).Nodup)
    {t : LoopState κ α γ} (h : loop classify emit l = .ok t) :
    ∃ t', loop classify emit l' = .ok t' ∧ t.1.Perm t'.1 ∧ t.2 = t'.2 := by
  obtain ⟨items, hitems⟩ := loop_eq_ok_iff.mp h
  obtain ⟨items', hclassified, hperm⟩ := List.perm_comp_forall₂ hp.symm hitems.classified
  have htwice : NoTwice items.reduceOption := by
    rw [NoTwice, hitems.map_halves]
    exact hl
  have hreduce : items.reduceOption.Perm items'.reduceOption := hperm.symm.filterMap id
  obtain ⟨hout, hwaiting⟩ := (joins_run htwice).perm (joins_run (htwice.perm hreduce)) hreduce
  obtain ⟨made, hmade, hmadePerm⟩ := List.perm_comp_forall₂ hout.symm hitems.made
  exact ⟨(made, t.2), loop_eq_ok_iff.mpr ⟨items', hclassified, hmade,
    hwaiting.symm.trans hitems.waiting⟩, hmadePerm.symm, rfl⟩

/-- A half that waits after a loop is one that has come in the stream. -/
theorem mem_of_waiting {l : List X} (hl : (l.filterMap (halfOf classify)).Nodup)
    {t : LoopState κ α γ} (h : loop classify emit l = .ok t) {k : κ} {first : Bool} {a : α}
    (hk : t.2 k = some (first, a)) : (k, first) ∈ l.filterMap (halfOf classify) := by
  obtain ⟨items, hitems⟩ := loop_eq_ok_iff.mp h
  rw [← hitems.map_halves] at hl ⊢
  rw [← hitems.waiting] at hk
  exact List.mem_map_of_mem (f := fun e : κ × Bool × α => (e.1, e.2.1))
    (((joins_run hl).waiting k first a).mp hk).1

/-- **A program is a loop** when each of its steps is a turn of it: `view` reads what the program
has made and what waits, and the step is asked only where the half that comes does not wait. -/
theorem foldlM_eq_loop {σ : Type u} {step : σ → X → Except ε σ} {view : σ → LoopState κ α γ}
    {Valid : σ → Prop} {start : σ} (hview : view start = ([], fun _ => none))
    (hvalid : Valid start)
    (hstep : ∀ s x, Valid s →
      (∀ k first, halfOf classify x = some (k, first) → ∀ a, (view s).2 k ≠ some (first, a)) →
      (step s x).map view = loopStep classify emit (view s) x ∧
        ∀ s', step s x = .ok s' → Valid s')
    {l : List X} (hl : (l.filterMap (halfOf classify)).Nodup) :
    (l.foldlM step start).map view = loop classify emit l ∧
      ∀ s, l.foldlM step start = .ok s → Valid s := by
  induction l using List.reverseRecOn with
  | nil =>
    refine ⟨congrArg Except.ok hview, fun s hs => ?_⟩
    cases hs
    exact hvalid
  | append_singleton l x ih =>
    rw [List.filterMap_append] at hl
    obtain ⟨hl, -, hnew⟩ := List.nodup_append.mp hl
    obtain ⟨hmap, hkept⟩ := ih hl
    have hfold : (l ++ [x]).foldlM step start = l.foldlM step start >>= (step · x) := by
      rw [List.foldlM_append]
      simp only [List.foldlM_cons, List.foldlM_nil, bind_pure]
    rw [hfold, loop_append_singleton, ← hmap]
    cases hs : l.foldlM step start with
    | error e => exact ⟨rfl, fun s hs => by cases hs⟩
    | ok s =>
      have hloop : loop classify emit l = .ok (view s) := by
        rw [← hmap, hs]
        rfl
      refine hstep s x (hkept s hs) fun k first hhalf a hk => ?_
      refine hnew _ (mem_of_waiting hl hloop hk) (k, first) ?_ rfl
      rw [List.filterMap_cons, hhalf]
      exact List.mem_singleton_self _

end Loops

/-! ## A stream that is made as it is read -/

section Pipes

variable {σ τ X Y : Type u} {ε : Type v} (gen : σ → X → Except ε (σ × List Y))
  (sink : τ → Y → Except ε τ)

/-- What a generator yields, put aside. -/
def gatherStep (t : σ × List Y) (x : X) : Except ε (σ × List Y) := do
  let (s, ys) ← gen t.1 x
  pure (s, t.2 ++ ys)

/-- What a generator yields goes on at once. -/
def pipeStep (t : σ × τ) (x : X) : Except ε (σ × τ) := do
  let (s, ys) ← gen t.1 x
  let t ← ys.foldlM sink t.2
  pure (s, t)

variable {gen sink}

theorem gatherStep_eq_ok {t t' : σ × List Y} {x : X} : gatherStep gen t x = .ok t' ↔
    ∃ ys, gen t.1 x = .ok (t'.1, ys) ∧ t'.2 = t.2 ++ ys := by
  rw [gatherStep, bind_eq_ok_iff]
  constructor
  · rintro ⟨⟨s, ys⟩, hgen, h⟩
    cases h
    exact ⟨ys, hgen, rfl⟩
  · rintro ⟨ys, hgen, hys⟩
    exact ⟨(t'.1, ys), hgen, congrArg Except.ok (Prod.ext rfl hys.symm)⟩

theorem pipeStep_eq_ok {t t' : σ × τ} {x : X} : pipeStep gen sink t x = .ok t' ↔
    ∃ ys, gen t.1 x = .ok (t'.1, ys) ∧ ys.foldlM sink t.2 = .ok t'.2 := by
  rw [pipeStep, bind_eq_ok_iff]
  constructor
  · rintro ⟨⟨s, ys⟩, hgen, h⟩
    obtain ⟨t₁, hsink, h⟩ := bind_eq_ok_iff.mp h
    cases h
    exact ⟨ys, hgen, hsink⟩
  · rintro ⟨ys, hgen, hsink⟩
    exact ⟨(t'.1, ys), hgen, bind_eq_ok_iff.mpr ⟨t'.2, hsink, rfl⟩⟩

/-- What goes on at once may also be put aside first. -/
theorem exists_of_foldlM_pipeStep {l : List X} {t t' : σ × τ}
    (h : l.foldlM (pipeStep gen sink) t = .ok t') (before : List Y) :
    ∃ ys, l.foldlM (gatherStep gen) (t.1, before) = .ok (t'.1, before ++ ys) ∧
      ys.foldlM sink t.2 = .ok t'.2 := by
  induction l generalizing t before with
  | nil =>
    cases h
    exact ⟨[], congrArg Except.ok (Prod.ext rfl (List.append_nil before).symm), rfl⟩
  | cons x l ih =>
    rw [List.foldlM_cons] at h
    obtain ⟨t₁, hx, hl⟩ := bind_eq_ok_iff.mp h
    obtain ⟨first, hgen, hsink⟩ := pipeStep_eq_ok.mp hx
    obtain ⟨rest, hgather, hrest⟩ := ih hl (before ++ first)
    refine ⟨first ++ rest, ?_, ?_⟩
    · rw [List.foldlM_cons, ← List.append_assoc]
      exact bind_eq_ok_iff.mpr ⟨_, gatherStep_eq_ok.mpr ⟨first, hgen, rfl⟩, hgather⟩
    · rw [List.foldlM_append]
      exact bind_eq_ok_iff.mpr ⟨t₁.2, hsink, hrest⟩

/-- What is put aside first may also go on at once. -/
theorem exists_of_foldlM_gatherStep {l : List X} {t t' : σ × List Y}
    (h : l.foldlM (gatherStep gen) t = .ok t') :
    ∃ ys, t'.2 = t.2 ++ ys ∧ ∀ r r', ys.foldlM sink r = .ok r' →
      l.foldlM (pipeStep gen sink) (t.1, r) = .ok (t'.1, r') := by
  induction l generalizing t with
  | nil =>
    cases h
    refine ⟨[], (List.append_nil _).symm, fun r r' hr => ?_⟩
    cases hr
    rfl
  | cons x l ih =>
    rw [List.foldlM_cons] at h
    obtain ⟨t₁, hx, hl⟩ := bind_eq_ok_iff.mp h
    obtain ⟨first, hgen, hfirst⟩ := gatherStep_eq_ok.mp hx
    obtain ⟨rest, hrest, hpipe⟩ := ih hl
    refine ⟨first ++ rest, by rw [hrest, hfirst, List.append_assoc], fun r r' hr => ?_⟩
    rw [List.foldlM_append] at hr
    obtain ⟨r₁, hr₁, hr⟩ := bind_eq_ok_iff.mp hr
    rw [List.foldlM_cons]
    exact bind_eq_ok_iff.mpr ⟨(t₁.1, r₁), pipeStep_eq_ok.mpr ⟨first, hgen, hr₁⟩, hpipe r₁ r' hr⟩

/-- **What comes of a stream that is made as it is read** is what comes of the stream. -/
theorem foldlM_pipeStep_eq_ok {l : List X} {t t' : σ × τ} :
    l.foldlM (pipeStep gen sink) t = .ok t' ↔
      ∃ ys, l.foldlM (gatherStep gen) (t.1, []) = .ok (t'.1, ys) ∧
        ys.foldlM sink t.2 = .ok t'.2 := by
  constructor
  · intro h
    obtain ⟨ys, hgather, hsink⟩ := exists_of_foldlM_pipeStep h []
    exact ⟨ys, hgather, hsink⟩
  · rintro ⟨ys, hgather, hsink⟩
    obtain ⟨ys', hys, hpipe⟩ := exists_of_foldlM_gatherStep hgather
    obtain rfl : ys = ys' := hys
    exact hpipe t.2 t'.2 hsink

end Pipes

end StreamJoin

end LuzServing
