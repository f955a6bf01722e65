import LuzServing.PairStateSteps

/-!
# The pairs of a request

In every state that a run reaches, a request whose next position is odd has its last token
in the ring (`PairInv`). So whatever chunks, decode rows and verify blocks its tokens came
in, in whatever slot and beside whatever other rows, and on whichever path, a token at an odd
position is pooled with the committed token before it (`pair_partners`).
-/

namespace LuzServing

section

variable {V : Type}

/-! ## Tokens -/

namespace PairRequest

variable (o : PairRequest V) (values : List V)

theorem next_commit : (o.commit values).next = o.next + values.length := by
  rw [next, next, commit, List.length_append, Nat.add_assoc]

/-- Committing new tokens leaves the tokens at the positions before them as they were. -/
theorem token_commit_of_lt {pos : ℕ} (h : pos < o.next) :
    (o.commit values).token pos = o.token pos := by
  rw [next] at h
  have hstart : (o.commit values).start = o.start := rfl
  rw [token, token, hstart]
  split
  next hle => exact List.getElem?_append_left (by omega)
  next => rfl

/-- After new tokens are committed they are found at the next positions, in order. -/
theorem token_commit_new (i : ℕ) : (o.commit values).token (o.next + i) = values[i]? := by
  have hle : o.start ≤ o.next + i := by
    rw [next]
    omega
  have hidx : o.next + i - o.start = o.tokens.length + i := by
    rw [next]
    omega
  rw [token, commit, if_pos hle, hidx, List.getElem?_append_right (Nat.le_add_right _ _),
    Nat.add_sub_cancel_left]

end PairRequest

variable {pool : PairPool} {s s' : PairState V} {b : PairBatch V} {out : PairOut V}

/-- The values that a part commits are those of its accepted rows, in order. -/
theorem PairBatch.values_get {p j : ℕ} (hj : j < (b.part p).accepted) :
    (b.values p)[j]? = some ((b.part p).row j).value := by
  rw [PairBatch.values, List.getElem?_map, List.getElem?_range hj]
  rfl

/-! ## A step -/

/-- Either path runs on an allowed batch without an error, and does what the specification says. -/
theorem runPairs_spec (hb : b.Allowed pool s) {path : PairPath} (hpath : path.Allowed pool b) :
    ∃ out, runPairs pool s.rows b.numRows b.row path = .ok out ∧ PairSpec pool s b out := by
  cases path with
  | torch => exact ⟨_, rfl, torch_spec hb⟩
  | fused draftLen before order => exact fused_spec hb hpath

/-- A live row of the state that a batch writes holds afterwards what the batch wrote. -/
theorem PairSpec.state_written (hout : PairSpec pool s b out) {w : ℕ × V} (hw : w ∈ out.writes)
    (hlive : w.1 < pool.numReqSlots * pool.ring) : out.state w.1 = w.2 := by
  have hnodup := hout.distinct
  rw [List.filter_map] at hnodup
  rw [hout.state]
  refine storeAll_eq (fun w' hw' heq => ?_) ⟨w, hw, rfl⟩
  have hmem : ∀ x ∈ out.writes, x.1 < pool.numReqSlots * pool.ring →
      x ∈ out.writes.filter ((fun loc => decide (loc < pool.numReqSlots * pool.ring)) ∘ Prod.fst) :=
    fun x hx hx' => List.mem_filter.mpr ⟨hx, decide_eq_true hx'⟩
  have hsame := List.inj_on_of_nodup_map hnodup (hmem w' hw' (heq ▸ hlive)) (hmem w hw hlive) heq
  rw [hsame]

/-- The rows of a request that is not in the batch stay. -/
theorem PairSpec.state_other (hout : PairSpec pool s b out) {r : ℕ} (hr : r < pool.numReqSlots)
    (hnot : ∀ p, p < b.numParts → (b.part p).slot ≠ some r) (pos : ℕ) :
    out.state (pool.slot r pos) = s.rows (pool.slot r pos) := by
  rw [hout.state]
  refine storeAll_of_ne fun w hw heq => ?_
  have hlive := PairPool.slot_lt hr pos
  rcases hout.own w hw with hdummy | ⟨p, r', j, hp, hr', -, rfl⟩
  · have := pool.dummy_ge
    omega
  · obtain ⟨rfl, -⟩ := PairPool.slot_inj heq
    exact hnot p hp hr'

/-! ## The invariant -/

/-- A request came in at an even position, and where its next one is odd, the ring has its last
token. -/
def PairInv (pool : PairPool) (s : PairState V) : Prop :=
  ∀ r o, s.request r = some o → r < pool.numReqSlots ∧ o.start % 2 = 0 ∧
    (o.next % 2 = 1 → o.token (o.next - 1) = some (s.rows (pool.slot r (o.next - 1))))

/-- A request that comes in has no token yet, and leaves the others' rings alone. -/
theorem pairInv_enter (hs : PairInv pool s) {slot start : ℕ} (hslot : slot < pool.numReqSlots)
    (hstart : start % 2 = 0)
    (hrequest : s'.request = Function.update s.request slot (some ⟨start, []⟩))
    (hrows : ∀ loc, loc / pool.ring ≠ slot → s'.rows loc = s.rows loc) : PairInv pool s' := by
  intro r o ho
  rw [hrequest] at ho
  by_cases hr : r = slot
  · rw [hr, Function.update_self] at ho
    obtain rfl := Option.some.inj ho
    rw [hr]
    refine ⟨hslot, hstart, fun hodd => ?_⟩
    have hnext : (⟨start, []⟩ : PairRequest V).next = start := rfl
    rw [hnext] at hodd
    omega
  · rw [Function.update_of_ne hr] at ho
    obtain ⟨hlt, heven, hlast⟩ := hs r o ho
    refine ⟨hlt, heven, fun hodd => ?_⟩
    rw [hrows _ (by rwa [PairPool.slot_div])]
    exact hlast hodd

/-- A batch leaves the last token of each of its requests, where it is pending. -/
theorem pairInv_forward (hs : PairInv pool s) (hb : b.Allowed pool s) (hout : PairSpec pool s b out)
    (hrows : s'.rows = out.state)
    (hbatch : ∀ p r, p < b.numParts → (b.part p).slot = some r →
      s'.request r = (s.request r).map (·.commit (b.values p)))
    (hother : ∀ r, (∀ p, p < b.numParts → (b.part p).slot ≠ some r) →
      s'.request r = s.request r) : PairInv pool s' := by
  intro r o' ho'
  by_cases hin : ∃ p, p < b.numParts ∧ (b.part p).slot = some r
  · obtain ⟨p, hp, hr⟩ := hin
    obtain ⟨o, ho, htokens⟩ := hb.tokens p r hp hr
    obtain ⟨hlt, heven, -⟩ := hs r o ho
    obtain ⟨hpos, hle⟩ := hb.accepted p r hp hr
    rw [hbatch p r hp hr, ho, Option.map_some] at ho'
    obtain rfl := Option.some.inj ho'
    refine ⟨hlt, heven, fun hodd => ?_⟩
    have hlen : (b.values p).length = (b.part p).accepted := by
      rw [PairBatch.values, List.length_map, List.length_range]
    have hnext := o.next_commit (b.values p)
    rw [hlen] at hnext
    have hlast : (o.commit (b.values p)).next - 1 = o.next + ((b.part p).accepted - 1) := by
      omega
    have hj : (b.part p).accepted - 1 < b.lens p := by omega
    have hrow := (htokens _ hj).2.1
    -- the last token that is accepted is among the last rows of its request
    have hwindow : b.lens p ≤ (b.part p).accepted - 1 + pool.ring := by
      have := pool.ring_pos
      rcases hb.verify p r hp hr with hall | ⟨hspec, hdraft⟩
      · omega
      · have := pool.draft_lt_ring hspec
        omega
    have hwrite := hout.written p r _ hp hr hj hwindow (by omega)
    have hstate := hout.state_written hwrite (PairPool.slot_lt hlt _)
    dsimp only at hstate
    rw [hlast, PairRequest.token_commit_new, PairBatch.values_get (by omega), hrows, ← hrow, hstate]
  · have hnot : ∀ p, p < b.numParts → (b.part p).slot ≠ some r :=
      fun p hp hr => hin ⟨p, hp, hr⟩
    rw [hother r hnot] at ho'
    obtain ⟨hlt, heven, hlast⟩ := hs r o' ho'
    refine ⟨hlt, heven, fun hodd => ?_⟩
    rw [hrows, hout.state_other hlt hnot]
    exact hlast hodd

/-- The invariant of the rings holds in every state that a run of the pool reaches. -/
theorem pairInv_reach (hs : (pairMachine V pool).Reach s) : PairInv pool s := by
  refine Machine.Invariant.reach (I := PairInv pool) ⟨fun s hinit r o ho => ?_, ?_⟩ hs
  · rw [hinit r] at ho
    cases ho
  · intro s a s' ih hst
    cases a with
    | enter slot start =>
      obtain ⟨hslot, hstart, hrequest, hrows⟩ := hst
      exact pairInv_enter ih hslot hstart hrequest hrows
    | forward path b =>
      obtain ⟨hb, hpath, out, hrun, hrows, hbatch, hother⟩ := hst
      obtain ⟨out', hrun', hspec⟩ := runPairs_spec hb hpath
      rw [hrun] at hrun'
      obtain rfl := Except.ok.inj hrun'
      exact pairInv_forward ih hb hspec hrows hbatch hother

/-! ## The pairs -/

/-- What a batch does is right. -/
structure PairsRight (pool : PairPool) (s : PairState V) (b : PairBatch V) (out : PairOut V) :
    Prop where
  /-- a token that is committed at an odd position is pooled with the committed token before -/
  pairs : ∀ p r j, p < b.numParts → (b.part p).slot = some r → j < (b.part p).accepted →
    ((b.part p).row j).pos % 2 = 1 → ∃ o, s.request r = some o ∧
      (o.commit (b.values p)).token (((b.part p).row j).pos - 1) =
        some (out.partner (segStart b.lens p + j)) ∧
      (o.commit (b.values p)).token ((b.part p).row j).pos = some ((b.part p).row j).value
  /-- no live row is written twice -/
  distinct : ((out.writes.map Prod.fst).filter fun loc =>
    decide (loc < pool.numReqSlots * pool.ring)).Nodup
  /-- a live row that is written is that of a request's row of the batch -/
  own : ∀ w ∈ out.writes, w.1 < pool.numReqSlots * pool.ring → ∃ p r j, p < b.numParts ∧
    (b.part p).slot = some r ∧ j < b.lens p ∧
    w = (pool.slot r ((b.part p).row j).pos, ((b.part p).row j).value)
  /-- a request's row is pooled with a row of the batch, or with what the state held before -/
  reads : ∀ p r j, p < b.numParts → (b.part p).slot = some r → j < b.lens p →
    (0 < j ∧ out.partner (segStart b.lens p + j) = ((b.part p).row (j - 1)).value) ∨
      ∃ loc, out.partner (segStart b.lens p + j) = s.rows loc
  /-- the state changes by the writes -/
  state : out.state = storeAll s.rows out.writes

/-- **The pairs**. In every state that a run reaches, a batch that the scheduler makes runs on
either path, pools the tokens at odd positions with the tokens before them, writes no row of
a ring twice, reads nothing that it writes, and changes no ring for a padding row. -/
theorem pair_partners (hs : (pairMachine V pool).Reach s) (hb : b.Allowed pool s)
    {path : PairPath} (hpath : path.Allowed pool b) :
    ∃ out, runPairs pool s.rows b.numRows b.row path = .ok out ∧ PairsRight pool s b out := by
  obtain ⟨out, hrun, hspec⟩ := runPairs_spec hb hpath
  refine ⟨out, hrun, ⟨fun p r j hp hr hj hodd => ?_, hspec.distinct, fun w hw hlive => ?_,
    fun p r j hp hr hj => ?_, hspec.state⟩⟩
  · obtain ⟨o, ho, htokens⟩ := hb.tokens p r hp hr
    obtain ⟨-, hle⟩ := hb.accepted p r hp hr
    have hrow := (htokens j (by omega)).2.1
    refine ⟨o, ho, ?_, ?_⟩
    · rcases Nat.eq_zero_or_pos j with rfl | hj0
      · -- the token before came in an earlier batch
        obtain ⟨loc, hpartner, hloc⟩ := hspec.carried p r hp hr (by omega)
        obtain ⟨-, -, hlast⟩ := pairInv_reach hs r o ho
        rw [Nat.add_zero] at hrow
        rw [hrow] at hodd hloc ⊢
        rw [Nat.add_zero, hpartner, hloc (by omega),
          PairRequest.token_commit_of_lt _ _ (by omega)]
        exact hlast hodd
      · have hbefore : o.next + j - 1 = o.next + (j - 1) := by omega
        rw [hrow, hbefore, PairRequest.token_commit_new, PairBatch.values_get (by omega),
          hspec.follows p r j hp hr hj0 (by omega)]
    · rw [hrow, PairRequest.token_commit_new, PairBatch.values_get hj]
  · rcases hspec.own w hw with hdummy | hown
    · have := pool.dummy_ge
      omega
    · exact hown
  · rcases Nat.eq_zero_or_pos j with rfl | hj0
    · obtain ⟨loc, hpartner, -⟩ := hspec.carried p r hp hr hj
      exact .inr ⟨loc, hpartner⟩
    · exact .inl ⟨hj0, hspec.follows p r j hp hr hj0 hj⟩

end

/-! ## A chunk of three tokens -/

/-- Two request slots, without speculation. -/
def twoSlots : PairPool where
  isSpeculative := false
  numDraftTokens := 0
  ring := 2
  ring_eq _ _ := rfl
  numReqSlots := 2
  dummy := 4
  dummy_ge := le_rfl
  stateLoc req pos := if pos < 0 then 4 else req * 2 + pos.toNat % 2
  stateLoc_natCast _ _ := if_neg (by omega)
  stateLoc_of_neg _ _ hneg := if_pos hneg

/-- A request has come into slot 1. -/
def arrived : PairState ℕ := ⟨fun _ => 0, Function.update (fun _ => none) 1 (some ⟨0, []⟩)⟩

/-- A padding row, and the request's first three tokens. -/
def paddedChunk : PairBatch ℕ where
  numParts := 2
  part p :=
    if p = 0 then ⟨none, 1, fun _ => ⟨1, 1, 0, 9⟩, 0⟩
    else ⟨some 1, 3, fun j => ⟨1, j, 5 + j, 10 + j⟩, 3⟩

theorem paddedChunk_allowed : paddedChunk.Allowed twoSlots arrived := by
  have hpart : ∀ p r, p < 2 → (paddedChunk.part p).slot = some r → p = 1 ∧ r = 1 := by
    intro p r hp hr
    rcases (by omega : p = 0 ∨ p = 1) with rfl | rfl
    · cases hr
    · exact ⟨rfl, (Option.some.inj hr).symm⟩
  constructor
  case padding =>
    intro p hp hnone j _
    rcases (by omega : p = 0 ∨ p = 1 ∨ 2 ≤ p) with rfl | rfl | hle
    · rfl
    · cases hnone
    · exact absurd hp (not_lt.mpr hle)
  case distinct =>
    intro p p' r hp hp' hr hr'
    rw [(hpart p r hp hr).1, (hpart p' r hp' hr').1]
  case tokens =>
    intro p r hp hr
    obtain ⟨rfl, rfl⟩ := hpart p r hp hr
    refine ⟨⟨0, []⟩, rfl, fun j _ => ⟨rfl, (Nat.zero_add j).symm, ?_⟩⟩
    exact Nat.ne_of_gt (Nat.lt_of_lt_of_le (by decide) (Nat.le_add_right 5 j))
  case accepted =>
    intro p r hp hr
    obtain ⟨rfl, rfl⟩ := hpart p r hp hr
    exact ⟨by decide, by decide⟩
  case verify =>
    intro p r hp hr
    obtain ⟨rfl, rfl⟩ := hpart p r hp hr
    exact .inl rfl

/-- In a padded chunk of two tokens on the torch path the second token is pooled with the first. -/
theorem pair_partners_chunk : ∃ out,
    runPairs twoSlots arrived.rows paddedChunk.numRows paddedChunk.row .torch = .ok out ∧
      PairsRight twoSlots arrived paddedChunk out := by
  have hfresh : (pairMachine ℕ twoSlots).Reach ⟨fun _ => 0, fun _ => none⟩ := .init fun _ => rfl
  have hentered : (pairMachine ℕ twoSlots).step ⟨fun _ => 0, fun _ => none⟩ (.enter 1 0) arrived :=
    ⟨by decide, rfl, rfl, fun _ _ => rfl⟩
  exact pair_partners (hfresh.step hentered) paddedChunk_allowed trivial

end LuzServing
