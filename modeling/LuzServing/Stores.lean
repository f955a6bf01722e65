import Mathlib.Tactic

/-!
# Stores: writing a list of places

Kernels and index assignments write many places at once. `storeAll` writes them in
order; what is read back depends only on what is written where: a place nobody
writes keeps its value (`storeAll_of_ne`), and a place that everybody who writes it
writes alike holds that value (`storeAll_eq`), whatever the order.
-/

namespace LuzServing

universe u v w

/-- `.to(torch.int32)`, a store to a tensor of `int32`, and arithmetic in `int32`. -/
def toInt32 (x : ℤ) : ℤ := x.bmod (2 ^ 32)

/-- `.to(torch.int64)`, and arithmetic in `int64`. -/
def toInt64 (x : ℤ) : ℤ := x.bmod (2 ^ 64)

/-- What the conversion to `int32` gives lies in the range of an `int32`. -/
theorem toInt32_range (x : ℤ) : -2 ^ 31 ≤ toInt32 x ∧ toInt32 x < 2 ^ 31 := by
  have hle : -((2 ^ 32 : ℕ) / 2 : ℤ) ≤ toInt32 x := Int.le_bmod (by decide)
  have hlt : toInt32 x < ((2 ^ 32 : ℕ) + 1) / 2 := Int.bmod_lt (by decide)
  norm_num at hle hlt
  omega

/-- The conversion to `int32` leaves alone exactly the numbers that lie in the range of an
`int32`. -/
theorem toInt32_eq_self {x : ℤ} : toInt32 x = x ↔ -2 ^ 31 ≤ x ∧ x < 2 ^ 31 := by
  refine ⟨fun h => h ▸ toInt32_range x, ?_⟩
  rintro ⟨hle, hlt⟩
  exact Int.bmod_eq_of_le (by norm_num; omega) (by norm_num; omega)

/-- A natural number below `2 ^ 31` is an `int32`, so the conversion leaves it alone. -/
theorem toInt32_natCast {n : ℕ} (h : n < 2 ^ 31) : toInt32 n = n :=
  toInt32_eq_self.mpr ⟨by omega, by omega⟩

variable {ι : Type u} {α : Type v} {β : Type w} [DecidableEq ι]

/-- Write the values at the places, in order. -/
def storeAll (m : ι → α) (stores : List (ι × α)) : ι → α :=
  stores.foldl (fun m s => Function.update m s.1 s.2) m

theorem storeAll_cons (m : ι → α) (s : ι × α) (stores : List (ι × α)) :
    storeAll m (s :: stores) = storeAll (Function.update m s.1 s.2) stores := rfl

theorem storeAll_append (m : ι → α) (stores later : List (ι × α)) :
    storeAll m (stores ++ later) = storeAll (storeAll m stores) later :=
  List.foldl_append

/-- A place that none of the stores is made to keeps its value. -/
theorem storeAll_of_ne {m : ι → α} {stores : List (ι × α)} {a : ι}
    (h : ∀ s ∈ stores, s.1 ≠ a) : storeAll m stores a = m a := by
  induction stores generalizing m with
  | nil => rfl
  | cons s stores ih =>
    rw [storeAll_cons, ih fun s' hs' => h s' (List.mem_cons_of_mem _ hs')]
    exact Function.update_of_ne (h s (List.mem_cons_self ..)).symm ..

/-- A place holds `v` when some store goes there and every store there stores `v`. -/
theorem storeAll_eq {m : ι → α} {stores : List (ι × α)} {a : ι} {v : α}
    (hval : ∀ s ∈ stores, s.1 = a → s.2 = v) (hsome : ∃ s ∈ stores, s.1 = a) :
    storeAll m stores a = v := by
  induction stores generalizing m with
  | nil =>
    obtain ⟨s, hs, -⟩ := hsome
    cases hs
  | cons s stores ih =>
    rw [storeAll_cons]
    by_cases hlater : ∃ s' ∈ stores, s'.1 = a
    · exact ih (fun s' hs' => hval s' (List.mem_cons_of_mem _ hs')) hlater
    · rw [storeAll_of_ne fun s' hs' ha => hlater ⟨s', hs', ha⟩]
      obtain ⟨s', hs', ha⟩ := hsome
      rcases List.mem_cons.mp hs' with rfl | hs'
      · rw [← ha, Function.update_self]
        exact hval _ (List.mem_cons_self ..) ha
      · exact absurd ⟨s', hs', ha⟩ hlater

/-- Stores to places that are all different may be made in any order. -/
theorem storeAll_perm {stores stores' : List (ι × α)} (hp : stores.Perm stores')
    (hplaces : (stores.map Prod.fst).Nodup) (m : ι → α) :
    storeAll m stores = storeAll m stores' := by
  funext a
  by_cases ha : ∃ s ∈ stores, s.1 = a
  · obtain ⟨s, hs, rfl⟩ := ha
    have hval : ∀ s' ∈ stores, s'.1 = s.1 → s'.2 = s.2 := fun s' hs' heq =>
      congrArg Prod.snd (List.inj_on_of_nodup_map hplaces hs' hs heq)
    rw [storeAll_eq hval ⟨s, hs, rfl⟩,
      storeAll_eq (fun s' hs' => hval s' (hp.mem_iff.mpr hs')) ⟨s, hp.mem_iff.mp hs, rfl⟩]
  · have hne : ∀ s ∈ stores, s.1 ≠ a := fun s hs heq => ha ⟨s, hs, heq⟩
    rw [storeAll_of_ne hne, storeAll_of_ne fun s hs => hne s (hp.mem_iff.mpr hs)]

/-- Stores for a list of things leave a place alone that is none of theirs. -/
theorem storeAll_map_of_ne {m : ι → α} {l : List β} {key : β → ι} {value : β → α} {a : ι}
    (h : ∀ x ∈ l, key x ≠ a) : storeAll m (l.map fun x => (key x, value x)) a = m a := by
  refine storeAll_of_ne fun s hs => ?_
  obtain ⟨x, hx, rfl⟩ := List.mem_map.mp hs
  exact h x hx

/-- Stores for a list of things store each thing's value at its place, when things at one
place have one value. -/
theorem storeAll_map_eq {m : ι → α} {l : List β} (key : β → ι) (value : β → α) {x : β}
    (hx : x ∈ l) (h : ∀ y ∈ l, key y = key x → value y = value x) :
    storeAll m (l.map fun x => (key x, value x)) (key x) = value x := by
  refine storeAll_eq (fun s hs hsa => ?_) ⟨_, List.mem_map.mpr ⟨x, hx, rfl⟩, rfl⟩
  obtain ⟨y, hy, rfl⟩ := List.mem_map.mp hs
  exact h y hy hsa

/-- When each place of a list is given its own value, each of them holds it, even if it is listed
twice. -/
theorem storeAll_zip_map {m f : ι → α} {l : List ι} {a : ι} (ha : a ∈ l) :
    storeAll m (l.zip (l.map f)) a = f a := by
  have hzip : l.zip (l.map f) = l.map fun x => (x, f x) := by
    have hboth : (l.map fun x => x).zip (l.map f) = l.map fun x => (x, f x) := List.zip_map'
    rwa [List.map_id'] at hboth
  rw [hzip]
  exact storeAll_map_eq (fun x => x) f ha fun y _ hy => by rw [hy]

/-- Stores for a list of things are, at a place, those for the things that are kept, when the
others' go elsewhere. -/
theorem storeAll_filter {l : List β} {keep : β → Bool} {f g : β → ι × α} {m m' : ι → α} {a : ι}
    (hm : m a = m' a) (hkeep : ∀ x ∈ l, keep x = true → g x = f x)
    (hdrop : ∀ x ∈ l, keep x = false → (g x).1 ≠ a) :
    storeAll m ((l.filter keep).map f) a = storeAll m' (l.map g) a := by
  induction l generalizing m m' with
  | nil => exact hm
  | cons x l ih =>
    have hkeep' := fun y hy => hkeep y (List.mem_cons_of_mem x hy)
    have hdrop' := fun y hy => hdrop y (List.mem_cons_of_mem x hy)
    rw [List.map_cons, storeAll_cons, List.filter_cons]
    cases hx : keep x with
    | false =>
      rw [if_neg Bool.false_ne_true]
      refine ih ?_ hkeep' hdrop'
      rw [Function.update_of_ne (hdrop x (List.mem_cons_self ..) hx).symm]
      exact hm
    | true =>
      rw [if_pos rfl, List.map_cons, storeAll_cons]
      refine ih ?_ hkeep' hdrop'
      rw [hkeep x (List.mem_cons_self ..) hx]
      by_cases ha : (f x).1 = a
      · rw [← ha, Function.update_self, Function.update_self]
      · rw [Function.update_of_ne (Ne.symm ha), Function.update_of_ne (Ne.symm ha)]
        exact hm

/-- A place has a value when one is stored there or it had one. -/
theorem isSome_storeAll {m : ι → Option α} {l : List β} {key : β → ι} {value : β → α} {a : ι} :
    (storeAll m (l.map fun x => (key x, some (value x))) a).isSome = true ↔
      (∃ x ∈ l, key x = a) ∨ (m a).isSome = true := by
  induction l generalizing m with
  | nil => simp [storeAll]
  | cons x l ih =>
    rw [List.map_cons, storeAll_cons, ih]
    by_cases hx : key x = a
    · rw [← hx, Function.update_self]
      simp
    · rw [Function.update_of_ne (Ne.symm hx)]
      simp [hx]

/-! ## Grids of programs -/

/-- An order in which the stores of the programs of a grid come. -/
structure Interleaving (α : Type u) : Type u where
  /-- the stores in that order -/
  run : List α → List α
  /-- each store comes once -/
  perm : ∀ l, (run l).Perm l

/-- The programs one after the other. -/
def Interleaving.inOrder (α : Type u) : Interleaving α := ⟨fun l => l, fun l => List.Perm.refl l⟩

/-- What the programs of a grid leave. -/
def runGrid (order : Interleaving (ι × α)) (grid : ℕ) (kernel : ℕ → List (ι × α)) (m : ι → α) :
    ι → α :=
  storeAll m (order.run ((List.range grid).flatMap kernel))

/-- A place that no program of the grid stores to keeps its value, whatever the order. -/
theorem runGrid_of_ne {order : Interleaving (ι × α)} {grid : ℕ} {kernel : ℕ → List (ι × α)}
    {m : ι → α} {a : ι} (h : ∀ pid, pid < grid → ∀ s ∈ kernel pid, s.1 ≠ a) :
    runGrid order grid kernel m a = m a := by
  refine storeAll_of_ne fun s hs => ?_
  obtain ⟨pid, hpid, hs⟩ := List.mem_flatMap.mp ((order.perm _).mem_iff.mp hs)
  exact h pid (List.mem_range.mp hpid) s hs

/-- A place where some program stores, and every program that does stores `v`, holds `v`. -/
theorem runGrid_eq {order : Interleaving (ι × α)} {grid : ℕ} {kernel : ℕ → List (ι × α)}
    {m : ι → α} {a : ι} {v : α} (hval : ∀ pid, pid < grid → ∀ s ∈ kernel pid, s.1 = a → s.2 = v)
    (hsome : ∃ pid, pid < grid ∧ ∃ s ∈ kernel pid, s.1 = a) :
    runGrid order grid kernel m a = v := by
  refine storeAll_eq (fun s hs ha => ?_) ?_
  · obtain ⟨pid, hpid, hs⟩ := List.mem_flatMap.mp ((order.perm _).mem_iff.mp hs)
    exact hval pid (List.mem_range.mp hpid) s hs ha
  · obtain ⟨pid, hpid, s, hs, ha⟩ := hsome
    exact ⟨s, (order.perm _).mem_iff.mpr
      (List.mem_flatMap.mpr ⟨pid, List.mem_range.mpr hpid, hs⟩), ha⟩

end LuzServing
