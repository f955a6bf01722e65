import LuzServing.EngramStream
import Mathlib.Data.Nat.Size

/-!
# Where a stream is in a call

A stream is in the middle of one call at most, so what it needs of the staging is known from its
next operation (`Running`). That operation does what it is for (`Running.step`), it can do so
unless a lookup aborts (`Running.progress`), and operations on other blocks do not matter
(`Running.frame`).
-/

namespace LuzServing

universe u

section

variable {V : Type u}

/-! ## Memory that operations leave as it is -/

namespace EngramMemory

variable {m m' m'' : EngramMemory V} {b n : ℕ}

/-- A block is there, has so many rows, and numbers them. -/
structure Holds (m : EngramMemory V) (b n : ℕ) : Prop where
  /-- it is there -/
  allocated : b < m.allocated
  /-- its rows -/
  capacity : n ≤ (m.staging b).capacity
  /-- their numbers -/
  sequential : ∀ i, (m.staging b).sequential i = i

/-- The blocks of a memory are in another, with the same shape. -/
structure Extends (m' m : EngramMemory V) : Prop where
  /-- none is freed -/
  allocated : m.allocated ≤ m'.allocated
  /-- nor changed in its capacity -/
  capacity : ∀ b, b < m.allocated → (m'.staging b).capacity = (m.staging b).capacity
  /-- nor in its numbers -/
  sequential : ∀ b, b < m.allocated → (m'.staging b).sequential = (m.staging b).sequential

theorem Holds.mono (h : m.Holds b n) (hext : m'.Extends m) : m'.Holds b n := by
  refine ⟨lt_of_lt_of_le h.allocated hext.allocated, ?_, fun i => ?_⟩
  · rw [hext.capacity b h.allocated]
    exact h.capacity
  · rw [hext.sequential b h.allocated]
    exact h.sequential i

theorem Holds.le {n' : ℕ} (h : m.Holds b n) (hle : n' ≤ n) : m.Holds b n' :=
  ⟨h.allocated, le_trans hle h.capacity, h.sequential⟩

@[simp] theorem write_tensors (s : EngramStaging) : (m.write b s).tensors = m.tensors := rfl

@[simp] theorem write_stores (s : EngramStaging) : (m.write b s).stores = m.stores := rfl

@[simp] theorem write_allocated (s : EngramStaging) : (m.write b s).allocated = m.allocated := rfl

@[simp] theorem setStore_tensors (l : ℕ) (s : Store) : (m.setStore l s).tensors = m.tensors := rfl

@[simp] theorem setStore_staging (l : ℕ) (s : Store) : (m.setStore l s).staging = m.staging := rfl

@[simp] theorem write_staging_self (s : EngramStaging) : (m.write b s).staging b = s :=
  Function.update_self ..

theorem write_staging_of_ne {b' : ℕ} (s : EngramStaging) (hne : b' ≠ b) :
    (m.write b s).staging b' = m.staging b' :=
  Function.update_of_ne hne ..

/-- Writing a staging block keeps the memory's shape, as long as the block keeps its capacity and
its order. -/
theorem write_extends {s : EngramStaging} (hcap : s.capacity = (m.staging b).capacity)
    (hseq : s.sequential = (m.staging b).sequential) : (m.write b s).Extends m := by
  refine ⟨le_refl _, fun b' _ => ?_, fun b' _ => ?_⟩
  · by_cases hb : b' = b
    · rw [hb, write_staging_self, hcap]
    · rw [write_staging_of_ne s hb]
  · by_cases hb : b' = b
    · rw [hb, write_staging_self, hseq]
    · rw [write_staging_of_ne s hb]

theorem allocate_staging_of_ne (s : EngramStaging) (hne : b ≠ m.allocated) :
    (m.allocate s).staging b = m.staging b :=
  Function.update_of_ne hne ..

theorem allocate_extends (m : EngramMemory V) (s : EngramStaging) : (m.allocate s).Extends m := by
  refine ⟨Nat.le_succ _, fun b hb => ?_, fun b hb => ?_⟩
  · rw [allocate_staging_of_ne s (ne_of_lt hb)]
  · rw [allocate_staging_of_ne s (ne_of_lt hb)]

/-- A block that is newly allocated for `_staging` has the capacity that it was asked for. -/
theorem allocate_holds (m : EngramMemory V) (capacity : ℕ) (uninit : EngramStaging) :
    (m.allocate (EngramBackend.newStaging capacity uninit)).Holds m.allocated capacity := by
  have hnew : (m.allocate (EngramBackend.newStaging capacity uninit)).staging m.allocated =
      EngramBackend.newStaging capacity uninit := Function.update_self ..
  refine ⟨Nat.lt_succ_self _, ?_, fun i => ?_⟩
  · rw [hnew]
    exact le_refl capacity
  · rw [hnew]
    rfl

theorem Extends.setStore (h : m'.Extends m) (l : ℕ) (s : Store) : (m'.setStore l s).Extends m :=
  ⟨h.allocated, h.capacity, h.sequential⟩

end EngramMemory

theorem copyRows_of_lt {α : Type u} {n i : ℕ} (src dst : ℕ → α) (hi : i < n) :
    copyRows n src dst i = src i := if_pos hi

/-- A write depends only on the rows that it writes, not on what the sources hold past them. -/
theorem EngramTensors.write_congr {t : EngramTensors V} {out n : ℕ} {rows rows' : ℕ → ℕ → V}
    (h : ∀ i, i < n → rows i = rows' i) : t.write out n rows = t.write out n rows' := by
  have hcopy : copyRows n rows (t.rows out) = copyRows n rows' (t.rows out) := by
    funext i
    rw [copyRows, copyRows]
    split
    next hi => exact h i hi
    next => rfl
  rw [write, write, hcopy]

/-- A call's staging has a row for each of its indices. -/
theorem le_stagingCapacity (count : ℕ) : count ≤ stagingCapacity count := by
  have hlt : count - 1 < stagingCapacity count := Nat.lt_size_self (count - 1)
  omega

/-! ## Where a stream is -/

/-- Operations, and what they are for: the streams' calls from their beginnings. -/
inductive Lowers (m : EngramMemory V) : List (EngramOp V) → List (EngramSpecOp V) → Prop where
  /-- nothing -/
  | nil : Lowers m [] []
  /-- a kernel -/
  | kernel {ops : List (EngramOp V)} {specOps : List (EngramSpecOp V)}
      (f : EngramTensors V → EngramTensors V) :
      Lowers m ops specOps → Lowers m (.kernel f :: ops) (.kernel f :: specOps)
  /-- a call -/
  | call {ops : List (EngramOp V)} {specOps : List (EngramSpecOp V)} {b n : ℕ}
      (indices layer out : ℕ) : m.Holds b n → Lowers m ops specOps →
      Lowers m
        (.copyIds b indices n :: .lookup ⟨layer, b, n⟩ :: .copyWeights b n :: .copyScales b n ::
          .gather b n out :: ops)
        (.read indices :: .wait :: .wait :: .wait :: .write layer n out :: specOps)
  /-- a call that the driver has refused -/
  | refused {ops : List (EngramOp V)} {specOps : List (EngramSpecOp V)} {b n : ℕ} (indices : ℕ) :
      m.Holds b n → Lowers m ops specOps →
      Lowers m (.copyIds b indices n :: ops) (.read indices :: specOps)

namespace Lowers

variable {m m' : EngramMemory V} {ops ops' : List (EngramOp V)}
  {specOps specOps' : List (EngramSpecOp V)}

theorem append (h : Lowers m ops specOps) (h' : Lowers m ops' specOps') :
    Lowers m (ops ++ ops') (specOps ++ specOps') := by
  induction h with
  | nil => exact h'
  | kernel f _ ih => exact .kernel f ih
  | call indices layer out hb _ ih => exact .call indices layer out hb ih
  | refused indices hb _ ih => exact .refused indices hb ih

theorem mono (h : Lowers m ops specOps) (hext : m'.Extends m) : Lowers m' ops specOps := by
  induction h with
  | nil => exact .nil
  | kernel f _ ih => exact .kernel f ih
  | call indices layer out hb _ ih => exact .call indices layer out (hb.mono hext) ih
  | refused indices hb _ ih => exact .refused indices (hb.mono hext) ih

/-- Operations that lower to specified ones touch only blocks that have been allocated. -/
theorem allocated (h : Lowers m ops specOps) {op : EngramOp V} (hop : op ∈ ops) {b : ℕ}
    (hb : op.block = some b) : b < m.allocated := by
  induction h with
  | nil => cases hop
  | kernel f _ ih =>
    rcases List.mem_cons.mp hop with rfl | hop
    · cases hb
    · exact ih hop
  | call indices layer out hold _ ih =>
    simp only [List.mem_cons] at hop
    rcases hop with rfl | rfl | rfl | rfl | rfl | hop
    on_goal 6 => exact ih hop
    all_goals exact Option.some.inj hb ▸ hold.allocated
  | refused indices hold _ ih =>
    rcases List.mem_cons.mp hop with rfl | hop
    · exact Option.some.inj hb ▸ hold.allocated
    · exact ih hop

end Lowers

/-- What is on a stream, which has read `reg` and may be in the middle of a call. -/
inductive Running (owed : ℕ → ℤ → Served) (m : EngramMemory V) (reg : ℕ → ℤ) :
    List (EngramOp V) → List (EngramSpecOp V) → Prop where
  /-- between two calls -/
  | between {ops : List (EngramOp V)} {specOps : List (EngramSpecOp V)} :
      Lowers m ops specOps → Running owed m reg ops specOps
  /-- the indices are in pinned memory -/
  | read {ops : List (EngramOp V)} {specOps : List (EngramSpecOp V)} {b n : ℕ} (layer out : ℕ) :
      Lowers m ops specOps → m.Holds b n → (∀ i, i < n → (m.staging b).ids i = reg i) →
      Running owed m reg
        (.lookup ⟨layer, b, n⟩ :: .copyWeights b n :: .copyScales b n :: .gather b n out :: ops)
        (.wait :: .wait :: .wait :: .write layer n out :: specOps)
  /-- the rows are -/
  | served {ops : List (EngramOp V)} {specOps : List (EngramSpecOp V)} {b n : ℕ} (layer out : ℕ) :
      Lowers m ops specOps → m.Holds b n →
      (∀ i, i < n → ((m.staging b).weights i, (m.staging b).scales i) = owed layer (reg i)) →
      Running owed m reg (.copyWeights b n :: .copyScales b n :: .gather b n out :: ops)
        (.wait :: .wait :: .write layer n out :: specOps)
  /-- the weights are on the device -/
  | weighted {ops : List (EngramOp V)} {specOps : List (EngramSpecOp V)} {b n : ℕ}
      (layer out : ℕ) : Lowers m ops specOps → m.Holds b n →
      (∀ i, i < n → ((m.staging b).deviceWeights i, (m.staging b).scales i) = owed layer (reg i)) →
      Running owed m reg (.copyScales b n :: .gather b n out :: ops)
        (.wait :: .write layer n out :: specOps)
  /-- the rows are on the device -/
  | scaled {ops : List (EngramOp V)} {specOps : List (EngramSpecOp V)} {b n : ℕ} (layer out : ℕ) :
      Lowers m ops specOps → m.Holds b n →
      (∀ i, i < n →
        ((m.staging b).deviceWeights i, (m.staging b).deviceScales i) = owed layer (reg i)) →
      Running owed m reg (.gather b n out :: ops) (.write layer n out :: specOps)

namespace Running

variable {owed : ℕ → ℤ → Served} {m m' : EngramMemory V} {reg : ℕ → ℤ}
  {ops ops' : List (EngramOp V)} {specOps specOps' : List (EngramSpecOp V)}

theorem append (h : Running owed m reg ops specOps) (h' : Lowers m ops' specOps') :
    Running owed m reg (ops ++ ops') (specOps ++ specOps') := by
  cases h with
  | between hlow => exact .between (hlow.append h')
  | read layer out hlow hb hids => exact .read layer out (hlow.append h') hb hids
  | served layer out hlow hb hrows => exact .served layer out (hlow.append h') hb hrows
  | weighted layer out hlow hb hrows => exact .weighted layer out (hlow.append h') hb hrows
  | scaled layer out hlow hb hrows => exact .scaled layer out (hlow.append h') hb hrows

/-- The operations that a running call has left touch only blocks that have been allocated. -/
theorem allocated (h : Running owed m reg ops specOps) {op : EngramOp V} (hop : op ∈ ops) {b : ℕ}
    (hb : op.block = some b) : b < m.allocated := by
  cases h with
  | between hlow => exact hlow.allocated hop hb
  | read layer out hlow hold _ =>
    simp only [List.mem_cons] at hop
    rcases hop with rfl | rfl | rfl | rfl | hop
    on_goal 5 => exact hlow.allocated hop hb
    all_goals exact Option.some.inj hb ▸ hold.allocated
  | served layer out hlow hold _ =>
    simp only [List.mem_cons] at hop
    rcases hop with rfl | rfl | rfl | hop
    on_goal 4 => exact hlow.allocated hop hb
    all_goals exact Option.some.inj hb ▸ hold.allocated
  | weighted layer out hlow hold _ =>
    simp only [List.mem_cons] at hop
    rcases hop with rfl | rfl | hop
    on_goal 3 => exact hlow.allocated hop hb
    all_goals exact Option.some.inj hb ▸ hold.allocated
  | scaled layer out hlow hold _ =>
    rcases List.mem_cons.mp hop with rfl | hop
    · exact Option.some.inj hb ▸ hold.allocated
    · exact hlow.allocated hop hb

/-- **The frame**: a stream does not see what happens to blocks that its operations do not
touch. -/
theorem frame (h : Running owed m reg ops specOps) (hext : m'.Extends m)
    (hsame : ∀ op ∈ ops, ∀ b, op.block = some b → m'.staging b = m.staging b) :
    Running owed m' reg ops specOps := by
  cases h with
  | between hlow => exact .between (hlow.mono hext)
  | read layer out hlow hb hids =>
    refine .read layer out (hlow.mono hext) (hb.mono hext) ?_
    rwa [hsame _ (List.mem_cons_self ..) _ rfl]
  | served layer out hlow hb hrows =>
    refine .served layer out (hlow.mono hext) (hb.mono hext) ?_
    rwa [hsame _ (List.mem_cons_self ..) _ rfl]
  | weighted layer out hlow hb hrows =>
    refine .weighted layer out (hlow.mono hext) (hb.mono hext) ?_
    rwa [hsame _ (List.mem_cons_self ..) _ rfl]
  | scaled layer out hlow hb hrows =>
    refine .scaled layer out (hlow.mono hext) (hb.mono hext) ?_
    rwa [hsame _ (List.mem_cons_self ..) _ rfl]

end Running

end

/-! ## What an operation does -/

section

variable {V : Type u} {gatherOp : Gather V} {tables : ℕ → Table}
  {lo up : ℕ → ℕ} {m m' : EngramMemory V} {how : Schedule} {op : EngramOp V}

/-- The stores serve their layers' ranges. -/
def EngramMemory.Serves (m : EngramMemory V) (tables : ℕ → Table) (lo up : ℕ → ℕ) : Prop :=
  ∀ l, (m.stores l).Serves (tables l) (lo l) (up l)

/-- An operation leaves the other blocks as they are, and the shape of its own. -/
theorem EngramOp.exec_frame (h : op.exec gatherOp m how = some m') :
    m'.Extends m ∧ ∀ b, op.block ≠ some b → m'.staging b = m.staging b := by
  cases op with
  | kernel f =>
    obtain rfl := Option.some.inj h
    exact ⟨⟨le_refl _, fun _ _ => rfl, fun _ _ => rfl⟩, fun _ _ => rfl⟩
  | copyIds b indices count =>
    simp only [exec] at h
    split_ifs at h
    obtain rfl := Option.some.inj h
    exact ⟨EngramMemory.write_extends rfl rfl, fun b' hb' =>
      EngramMemory.write_staging_of_ne _ fun heq => hb' (congrArg some heq.symm)⟩
  | lookup work =>
    simp only [exec] at h
    split at h
    next => cases h
    next store out hlook =>
      split_ifs at h
      obtain rfl := Option.some.inj h
      refine ⟨EngramMemory.Extends.setStore ?_ _ _, fun b' hb' => ?_⟩
      · exact EngramMemory.write_extends rfl rfl
      · exact EngramMemory.write_staging_of_ne _ fun heq => hb' (congrArg some heq.symm)
  | copyWeights b count =>
    simp only [exec] at h
    split_ifs at h
    obtain rfl := Option.some.inj h
    exact ⟨EngramMemory.write_extends rfl rfl, fun b' hb' =>
      EngramMemory.write_staging_of_ne _ fun heq => hb' (congrArg some heq.symm)⟩
  | copyScales b count =>
    simp only [exec] at h
    split_ifs at h
    obtain rfl := Option.some.inj h
    exact ⟨EngramMemory.write_extends rfl rfl, fun b' hb' =>
      EngramMemory.write_staging_of_ne _ fun heq => hb' (congrArg some heq.symm)⟩
  | gather b count out =>
    simp only [exec] at h
    split_ifs at h
    obtain rfl := Option.some.inj h
    exact ⟨⟨le_refl _, fun _ _ => rfl, fun _ _ => rfl⟩, fun _ _ => rfl⟩

/-- Whatever operation is executed, the stores go on serving the ranges that they were opened
with. -/
theorem EngramOp.exec_serves (h : op.exec gatherOp m how = some m')
    (hserves : m.Serves tables lo up) : m'.Serves tables lo up := by
  cases op with
  | lookup work =>
    simp only [exec] at h
    split at h
    next => cases h
    next store out hlook =>
      split_ifs at h
      obtain rfl := Option.some.inj h
      intro l
      rw [EngramMemory.setStore]
      by_cases hl : l = work.store
      · subst hl
        dsimp only
        rw [Function.update_self]
        exact ((hserves _).lookup hlook).2
      · dsimp only
        rw [Function.update_of_ne hl]
        exact hserves l
  | kernel f =>
    obtain rfl := Option.some.inj h
    exact hserves
  | copyIds b indices count | copyWeights b count | copyScales b count | gather b count out =>
    simp only [exec] at h
    split_ifs at h
    obtain rfl := Option.some.inj h
    exact hserves

/-- What a lookup of a layer owes for an id. -/
def owedRow (tables : ℕ → Table) (lo up : ℕ → ℕ) (layer : ℕ) (id : ℤ) : Served :=
  (tables layer).owed (lo layer) (up layer) id.toNat

/-- A lookup that is executed leaves in pinned memory, for each of its ids, the row that the id is
owed. -/
theorem EngramOp.exec_lookup {work : EngramWork}
    (h : (EngramOp.lookup work).exec gatherOp m how = some m') (hserves : m.Serves tables lo up)
    {i : ℕ} (hi : i < work.count) :
    ((m'.staging work.block).weights i, (m'.staging work.block).scales i) =
      owedRow tables lo up work.store ((m.staging work.block).ids i) := by
  simp only [exec] at h
  split at h
  next => cases h
  next store out hlook =>
    split_ifs at h
    obtain rfl := Option.some.inj h
    have hout := ((hserves work.store).lookup hlook).1
    have hrow : out.getD i zeroRow =
        owedRow tables lo up work.store ((m.staging work.block).ids i) := by
      rw [hout, List.getD_eq_getElem?_getD, List.map_map, List.getElem?_map,
        List.getElem?_range hi]
      rfl
    rw [EngramMemory.setStore_staging, EngramMemory.write_staging_self, ← hrow]
    dsimp only
    rw [copyRows_of_lt _ _ hi, copyRows_of_lt _ _ hi]

/-- Only a lookup that aborts stops a stream: all else stays within its block. -/
theorem Running.progress {owed : ℕ → ℤ → Served} {reg : ℕ → ℤ} {ops : List (EngramOp V)}
    {specOps : List (EngramSpecOp V)}
    (h : Running owed m reg (op :: ops) specOps) (hnone : op.exec gatherOp m how = none) :
    ∃ w, op = .lookup w ∧
      rowStoreLookup (m.stores w.store) ((List.range w.count).map (m.staging w.block).ids) how =
        none := by
  cases h with
  | between hlow =>
    cases hlow with
    | kernel f hlow => cases hnone
    | call indices layer out hb _ | refused indices hb _ =>
      simp only [EngramOp.exec] at hnone
      rw [if_pos hb.capacity] at hnone
      cases hnone
  | read layer out hlow hb hids =>
    refine ⟨_, rfl, ?_⟩
    simp only [EngramOp.exec] at hnone
    split at hnone
    next hlook => exact hlook
    next =>
      rw [if_pos hb.capacity] at hnone
      cases hnone
  | served layer out hlow hb _ | weighted layer out hlow hb _ | scaled layer out hlow hb _ =>
    simp only [EngramOp.exec] at hnone
    rw [if_pos hb.capacity] at hnone
    cases hnone

end

section

variable {V : Type u} [AddZeroClass V] {gatherOp : Gather V} {dequant : Served → ℕ → V}
  {tables : ℕ → Table} {lo up : ℕ → ℕ} {m m' : EngramMemory V} {how : Schedule} {op : EngramOp V}

/-- **A stream's step**: the next operation does what it is for. -/
theorem Running.step (hgather : IsGather dequant gatherOp) (sp : EngramSpec V) {q : ℕ}
    {ops : List (EngramOp V)} {specOps : List (EngramSpecOp V)}
    (hrun : Running (owedRow tables lo up) m (sp.read q) (op :: ops) specOps)
    (hserves : m.Serves tables lo up) (htensors : sp.tensors = m.tensors)
    (h : op.exec gatherOp m how = some m') :
    ∃ specOp specOps', specOps = specOp :: specOps' ∧
      Running (owedRow tables lo up) m'
        ((sp.exec (fun l id => dequant (owedRow tables lo up l id)) q specOp).read q) ops specOps' ∧
      (sp.exec (fun l id => dequant (owedRow tables lo up l id)) q specOp).tensors = m'.tensors ∧
      ∀ q', q' ≠ q →
        (sp.exec (fun l id => dequant (owedRow tables lo up l id)) q specOp).read q' =
          sp.read q' := by
  obtain ⟨hext, -⟩ := EngramOp.exec_frame h
  cases hrun with
  | between hlow =>
    cases hlow with
    | kernel f hlow =>
      obtain rfl := Option.some.inj h
      refine ⟨_, _, rfl, .between (hlow.mono hext), ?_, fun _ _ => rfl⟩
      rw [EngramSpec.exec, htensors]
    | call indices layer out hb hlow =>
      simp only [EngramOp.exec] at h
      rw [if_pos hb.capacity] at h
      obtain rfl := Option.some.inj h
      refine ⟨_, _, rfl, .read layer out (hlow.mono hext) (hb.mono hext) fun i hi => ?_, htensors,
        fun q' hq' => Function.update_of_ne hq' ..⟩
      rw [EngramMemory.write_staging_self]
      dsimp only [EngramSpec.exec]
      rw [Function.update_self, copyRows_of_lt _ _ hi, htensors]
    | refused indices hb hlow =>
      simp only [EngramOp.exec] at h
      rw [if_pos hb.capacity] at h
      obtain rfl := Option.some.inj h
      exact ⟨_, _, rfl, .between (hlow.mono hext), htensors,
        fun q' hq' => Function.update_of_ne hq' ..⟩
  | read layer out hlow hb hids =>
    refine ⟨_, _, rfl, .served layer out (hlow.mono hext) (hb.mono hext) fun i hi => ?_, ?_,
      fun _ _ => rfl⟩
    · dsimp only [EngramSpec.exec]
      rw [← hids i hi]
      exact EngramOp.exec_lookup h hserves hi
    · simp only [EngramOp.exec] at h
      split at h
      next => cases h
      next =>
        split_ifs at h
        obtain rfl := Option.some.inj h
        exact htensors
  | served layer out hlow hb hrows =>
    simp only [EngramOp.exec] at h
    rw [if_pos hb.capacity] at h
    obtain rfl := Option.some.inj h
    refine ⟨_, _, rfl, .weighted layer out (hlow.mono hext) (hb.mono hext) fun i hi => ?_,
      htensors, fun _ _ => rfl⟩
    rw [EngramMemory.write_staging_self]
    dsimp only
    rw [copyRows_of_lt _ _ hi]
    exact hrows i hi
  | weighted layer out hlow hb hrows =>
    simp only [EngramOp.exec] at h
    rw [if_pos hb.capacity] at h
    obtain rfl := Option.some.inj h
    refine ⟨_, _, rfl, .scaled layer out (hlow.mono hext) (hb.mono hext) fun i hi => ?_,
      htensors, fun _ _ => rfl⟩
    rw [EngramMemory.write_staging_self]
    dsimp only
    rw [copyRows_of_lt _ _ hi]
    exact hrows i hi
  | scaled layer out hlow hb hrows =>
    simp only [EngramOp.exec] at h
    rw [if_pos hb.capacity] at h
    obtain rfl := Option.some.inj h
    refine ⟨_, _, rfl, .between (hlow.mono hext), ?_, fun _ _ => rfl⟩
    dsimp only [EngramSpec.exec]
    rw [htensors]
    refine EngramTensors.write_congr fun i hi => ?_
    rw [hgather.all, hb.sequential, hrows i hi]

end

end LuzServing
