import LuzServing.LastChunkMask
import LuzServing.Machine

/-!
# Stale marks

The scheduler makes batches, prepares them for extend or decode, filters and merges them, lets
decode requests ride on a chunk, and turns decode into extend, in any order. The marks that a
batch hands to the forward are right when it has just been prepared for extend, with or without
riders. `convert_decode_to_extend` leaves the marks as they are, and so hands out those of an
earlier chunk, which may be of other requests (`last_chunk_mask_stale`). Where it is applied to
batches without such marks only, all marks are right (`last_chunk_mask_fresh`).
-/

namespace LuzServing

/-! ## The scheduler -/

/-- What a batch has last been prepared for. -/
inductive Prepared : Type where
  /-- `prepare_for_extend` -/
  | extended : Prepared
  /-- `mix_with_running` -/
  | mixed : Prepared
  /-- `convert_decode_to_extend` -/
  | converted : Prepared
  /-- `prepare_for_decode` -/
  | decoding : Prepared
  deriving DecidableEq

/-- The requests and the batches. -/
structure SchedState : Type where
  /-- the requests, by name -/
  reqs : ℕ → Req
  /-- the batches, by name -/
  batches : ℕ → ScheduleBatch
  /-- what a batch is ready for; `none` once it, or a request, has been worked on since -/
  prepared : ℕ → Option Prepared
  /-- whether a batch has been filtered or merged since it was prepared for extend -/
  touched : ℕ → Bool

namespace SchedState

/-- A new value of one batch. -/
def setBatch (s : SchedState) (id : ℕ) (b : ScheduleBatch) (prepared : Option Prepared)
    (touched : Bool) : SchedState :=
  { s with
    batches := Function.update s.batches id b
    prepared := Function.update s.prepared id prepared
    touched := Function.update s.touched id touched }

/-- New values of the requests: no batch is ready any more. -/
def setReqs (s : SchedState) (reqs : ℕ → Req) : SchedState :=
  { s with reqs := reqs, prepared := fun _ => none }

end SchedState

/-- What the scheduler does to its requests and batches. -/
inductive SchedAct : Type where
  /-- a new batch -/
  | initNew (id : ℕ) (reqs : List ℕ) (chunkedReq : Option ℕ) (isDllm isSpec : Bool) : SchedAct
  /-- results are processed, requests come and go, chunks are cut -/
  | setReqs (reqs : ℕ → Req) : SchedAct
  /-- `prepare_for_extend` -/
  | prepareForExtend (id : ℕ) : SchedAct
  /-- `prepare_for_decode` -/
  | prepareForDecode (id : ℕ) (specSeqLens : Option (List ℕ)) : SchedAct
  /-- `filter_batch` -/
  | filterBatch (id : ℕ) (chunkedReqToExclude : List ℕ) (keepIndices : Option (List ℕ)) : SchedAct
  /-- `merge_batch` -/
  | mergeBatch (id other : ℕ) : SchedAct
  /-- `mix_with_running` -/
  | mixWithRunning (id running : ℕ) : SchedAct
  /-- `convert_decode_to_extend` -/
  | convertDecodeToExtend (id : ℕ) : SchedAct

/-- What an act does; `none` where it raises. -/
def SchedState.act (s : SchedState) : SchedAct → Option SchedState
  | .initNew id reqs chunkedReq isDllm isSpec =>
    some (s.setBatch id (.initNew s.reqs reqs chunkedReq isDllm isSpec) none false)
  | .setReqs reqs => some (s.setReqs reqs)
  | .prepareForExtend id =>
    some (s.setBatch id ((s.batches id).prepareForExtend s.reqs) (some .extended) false)
  | .prepareForDecode id specSeqLens =>
    ((s.batches id).prepareForDecode specSeqLens).map fun b =>
      s.setBatch id b (some .decoding) (s.touched id)
  | .filterBatch id chunked keep =>
    some (s.setBatch id ((s.batches id).filterBatch s.reqs chunked keep) none true)
  | .mergeBatch id other =>
    some (s.setBatch id ((s.batches id).mergeBatch (s.batches other)) none true)
  | .mixWithRunning id running =>
    ((s.batches id).mixWithRunning s.reqs (s.batches running)).map fun out =>
      (s.setReqs out.1).setBatch id out.2 (some .mixed) (s.touched id)
  | .convertDecodeToExtend id =>
    ((s.batches id).convertDecodeToExtend s.reqs).map fun out =>
      (s.setReqs out.1).setBatch id out.2 (some .converted) (s.touched id)

/-- When the scheduler does it: decode requests ride on a batch that is ready to extend, and
are not in it; a batch is turned into extend when it is ready to decode. -/
def SchedState.Applies (s : SchedState) : SchedAct → Prop
  | .filterBatch id _ keep => ∀ i ∈ keep.getD [], i < (s.batches id).reqs.length
  | .mergeBatch id other => id ≠ other
  | .mixWithRunning id running =>
    s.prepared id = some .extended ∧ s.prepared running = some .decoding ∧
      ∀ r ∈ (s.batches id).reqs, r ∉ (s.batches running).reqs
  | .convertDecodeToExtend id => s.prepared id = some .decoding
  | _ => True

/-- The scheduler, whose runs are sequences of these operations. -/
def schedMachine : Machine SchedState SchedAct where
  init s := ∀ id, s.prepared id = none ∧ s.touched id = false ∧
    (s.batches id).extendLastChunkMask = none
  step s a s' := s.Applies a ∧ s.act a = some s'

/-! ## The property -/

/-- What the forward gets of a batch. -/
def SchedState.forward (s : SchedState) (id : ℕ) : ForwardBatch := .initNew (s.batches id)

/-- The marks of a batch are right: they are well, and a batch that was turned from decode into
extend, and was filtered or merged since its chunk, has none. -/
structure SchedState.MarksRight (s : SchedState) (id : ℕ) : Prop where
  /-- an entry a request, `False` for unfinished ones only -/
  marked : WellMarked s.reqs (s.forward id).reqs (s.forward id).extendLastChunkMask
  /-- none of an earlier chunk -/
  fresh : s.prepared id = some .converted → s.touched id = true →
    (s.forward id).extendLastChunkMask = none

/-- No stale marks are turned into an extend's: the batch has no marks, or they are all `True`
and it has been neither filtered nor merged since it got them. -/
def SchedState.Unstale (s : SchedState) : SchedAct → Prop
  | .convertDecodeToExtend id => ∀ m, (s.batches id).extendLastChunkMask = some m →
    s.touched id = false ∧ ∀ e ∈ m, e = true
  | _ => True

/-! ## The invariant -/

/-- What holds of a batch in every state of such a run. -/
structure SchedState.BatchInv (s : SchedState) (id : ℕ) : Prop where
  /-- a batch that is neither filtered nor merged keeps its requests and their entries -/
  length : s.touched id = false → ∀ m, (s.batches id).extendLastChunkMask = some m →
    m.length = (s.batches id).reqs.length
  /-- a batch that is ready to extend has marks -/
  extended : s.prepared id = some .extended → (s.batches id).extendLastChunkMask ≠ none
  /-- a batch that is ready for a forward that extends is marked well -/
  marked : ∀ how, s.prepared id = some how → how ≠ .decoding →
    WellMarked s.reqs (s.batches id).reqs (s.batches id).extendLastChunkMask
  /-- a batch that was turned into extend has no marks, or its own -/
  fresh : s.prepared id = some .converted → s.touched id = true →
    (s.batches id).extendLastChunkMask = none

namespace SchedState

variable {s s' : SchedState} {a : SchedAct} {id : ℕ}

/-- Writing back one batch keeps the invariant of every other batch. -/
theorem BatchInv.setBatch_of_ne {id' : ℕ} (h : s.BatchInv id') (hne : id' ≠ id) (b : ScheduleBatch)
    (prepared : Option Prepared) (touched : Bool) :
    (s.setBatch id b prepared touched).BatchInv id' := by
  have hb : (s.setBatch id b prepared touched).batches id' = s.batches id' :=
    Function.update_of_ne hne ..
  have hp : (s.setBatch id b prepared touched).prepared id' = s.prepared id' :=
    Function.update_of_ne hne ..
  have ht : (s.setBatch id b prepared touched).touched id' = s.touched id' :=
    Function.update_of_ne hne ..
  constructor
  · rw [ht, hb]
    exact h.length
  · rw [hp, hb]
    exact h.extended
  · rw [hp, hb]
    exact h.marked
  · rw [hp, ht, hb]
    exact h.fresh

/-- New values of the requests leave what does not depend on them. -/
theorem BatchInv.setReqs (h : s.BatchInv id) (reqs : ℕ → Req) : (s.setReqs reqs).BatchInv id :=
  ⟨h.length, (fun hp => by cases hp), (fun _ hp => by cases hp), fun hp => by cases hp⟩

/-- The batch that an operation has worked on satisfies the invariant when its new mask and its new
marks do. -/
theorem BatchInv.setBatch_self {b : ScheduleBatch} {prepared : Option Prepared} {touched : Bool}
    (hlength : touched = false → ∀ m, b.extendLastChunkMask = some m → m.length = b.reqs.length)
    (hextended : prepared = some .extended → b.extendLastChunkMask ≠ none)
    (hmarked : ∀ how, prepared = some how → how ≠ .decoding →
      WellMarked s.reqs b.reqs b.extendLastChunkMask)
    (hfresh : prepared = some .converted → touched = true → b.extendLastChunkMask = none) :
    (s.setBatch id b prepared touched).BatchInv id := by
  have hb : (s.setBatch id b prepared touched).batches id = b := Function.update_self ..
  have hp : (s.setBatch id b prepared touched).prepared id = prepared := Function.update_self ..
  have ht : (s.setBatch id b prepared touched).touched id = touched := Function.update_self ..
  constructor
  · rwa [ht, hb]
  · rwa [hp, hb]
  · rwa [hp, hb]
  · rwa [hp, ht, hb]

/-- A batch that is not ready and has been filtered or merged. -/
theorem BatchInv.setBatch_touched (s : SchedState) (id : ℕ) (b : ScheduleBatch) :
    (s.setBatch id b none true).BatchInv id :=
  .setBatch_self (fun h => by cases h) (fun h => by cases h) (fun _ h => by cases h)
    (fun h => by cases h)

/-! ### The batch that is worked on -/

/-- A batch that has been prepared for extend satisfies the invariant, whatever it was before. -/
theorem BatchInv.prepareForExtend (s : SchedState) (id : ℕ) :
    (s.setBatch id ((s.batches id).prepareForExtend s.reqs) (some .extended)
      false).BatchInv id := by
  have hmarked := (s.batches id).prepareForExtend_marked s.reqs
  exact .setBatch_self (fun _ m hm => (hmarked m hm).1) (fun _ h => by cases h)
    (fun _ _ _ => hmarked) (fun h => by cases h)

/-- A batch that is prepared for decode goes on satisfying the invariant, with the mask it had. -/
theorem BatchInv.prepareForDecode (h : s.BatchInv id) {b : ScheduleBatch}
    {specSeqLens : Option (List ℕ)} (hb : (s.batches id).prepareForDecode specSeqLens = some b) :
    (s.setBatch id b (some .decoding) (s.touched id)).BatchInv id := by
  obtain ⟨hreqs, hmask⟩ := ScheduleBatch.prepareForDecode_spec hb
  refine .setBatch_self ?_ (fun h => by cases h) (fun how hhow hne => ?_) (fun h => by cases h)
  · rw [hreqs, hmask]
    exact h.length
  · exact absurd (Option.some.inj hhow).symm hne

/-- A prepared batch on which running requests ride satisfies the invariant, as the mask grows with
the requests. -/
theorem BatchInv.mixWithRunning (h : s.BatchInv id) {running : ℕ} {reqs : ℕ → Req}
    {b : ScheduleBatch} (hext : s.prepared id = some .extended)
    (hapart : ∀ r ∈ (s.batches id).reqs, r ∉ (s.batches running).reqs)
    (hb : (s.batches id).mixWithRunning s.reqs (s.batches running) = some (reqs, b)) :
    ((s.setReqs reqs).setBatch id b (some .mixed) (s.touched id)).BatchInv id := by
  have hmarked := ScheduleBatch.mixWithRunning_marked (h.extended hext)
    (h.marked _ hext (by decide)) hapart hb
  exact .setBatch_self (fun _ m hm => (hmarked m hm).1) (fun h => by cases h)
    (fun _ _ _ => hmarked) (fun h => by cases h)

/-- A batch that is turned from decode into extend, without stale marks. -/
theorem BatchInv.convertDecodeToExtend (h : s.BatchInv id) {reqs : ℕ → Req} {b : ScheduleBatch}
    (hun : ∀ m, (s.batches id).extendLastChunkMask = some m →
      s.touched id = false ∧ ∀ e ∈ m, e = true)
    (hb : (s.batches id).convertDecodeToExtend s.reqs = some (reqs, b)) :
    ((s.setReqs reqs).setBatch id b (some .converted) (s.touched id)).BatchInv id := by
  obtain ⟨hreqs, -, hmask⟩ := ScheduleBatch.convertDecodeToExtend_spec hb
  refine .setBatch_self ?_ (fun h => by cases h) (fun _ _ _ m hm => ?_) (fun _ htouched => ?_)
  · rw [hreqs, hmask]
    exact h.length
  · rw [hmask] at hm
    obtain ⟨hfresh, htrue⟩ := hun m hm
    rw [hreqs]
    refine ⟨h.length hfresh m hm, fun i r hi _ => ?_⟩
    have hentry := htrue false (List.mem_of_getElem? hi)
    cases hentry
  · rw [hmask]
    by_contra hsome
    obtain ⟨m, hm⟩ := Option.ne_none_iff_exists'.mp hsome
    rw [(hun m hm).1] at htouched
    cases htouched

/-! ### Every step -/

/-- An act that works on one batch keeps what holds of all, if it does of that one. -/
theorem batchInv_setBatch (h : ∀ id, s.BatchInv id) {b : ScheduleBatch}
    {prepared : Option Prepared} {touched : Bool}
    (hself : (s.setBatch id b prepared touched).BatchInv id) (id' : ℕ) :
    (s.setBatch id b prepared touched).BatchInv id' := by
  rcases eq_or_ne id' id with rfl | hne
  · exact hself
  · exact (h id').setBatch_of_ne hne b prepared touched

/-- Every act keeps the invariant, when no stale marks are turned into an extend's. -/
theorem batchInv_step (h : ∀ id, s.BatchInv id) (ha : s.Applies a) (hun : s.Unstale a)
    (hs' : s.act a = some s') (id : ℕ) : s'.BatchInv id := by
  cases a with
  | initNew new reqs chunkedReq isDllm isSpec =>
    obtain rfl := Option.some.inj hs'
    exact batchInv_setBatch h (.setBatch_self (fun _ m hm => by cases hm) (fun h => by cases h)
      (fun _ h => by cases h) (fun h => by cases h)) id
  | setReqs reqs =>
    obtain rfl := Option.some.inj hs'
    exact (h id).setReqs reqs
  | prepareForExtend own =>
    obtain rfl := Option.some.inj hs'
    exact batchInv_setBatch h (.prepareForExtend s own) id
  | prepareForDecode own specSeqLens =>
    obtain ⟨b, hb, rfl⟩ := Option.map_eq_some_iff.mp hs'
    exact batchInv_setBatch h ((h own).prepareForDecode hb) id
  | filterBatch own chunked keep =>
    obtain rfl := Option.some.inj hs'
    exact batchInv_setBatch h (.setBatch_touched s own _) id
  | mergeBatch own other =>
    obtain rfl := Option.some.inj hs'
    exact batchInv_setBatch h (.setBatch_touched s own _) id
  | mixWithRunning own running =>
    obtain ⟨⟨reqs, b⟩, hb, rfl⟩ := Option.map_eq_some_iff.mp hs'
    obtain ⟨hext, -, hapart⟩ := ha
    exact batchInv_setBatch (fun id' => (h id').setReqs reqs)
      ((h own).mixWithRunning hext hapart hb) id
  | convertDecodeToExtend own =>
    obtain ⟨⟨reqs, b⟩, hb, rfl⟩ := Option.map_eq_some_iff.mp hs'
    exact batchInv_setBatch (fun id' => (h id').setReqs reqs)
      ((h own).convertDecodeToExtend hun hb) id

/-- A batch that is marked well hands out marks that are right. -/
theorem BatchInv.marksRight (h : s.BatchInv id) {how : Prepared} (hhow : s.prepared id = some how)
    (hne : how ≠ .decoding) : s.MarksRight id := by
  refine ⟨fun m hm => ?_, fun hconv htouched => ?_⟩
  · rw [forward, ForwardBatch.initNew] at hm
    dsimp only at hm
    split at hm
    next => cases hm
    next => exact h.marked how hhow hne m hm
  · rw [forward, ForwardBatch.initNew]
    dsimp only
    rw [h.fresh hconv htouched, ite_self]

end SchedState

/-- **Where no stale marks are turned into an extend's**, the marks of every batch that is
handed to an extend or mixed forward are right, over every run. -/
theorem last_chunk_mask_fresh {s : SchedState}
    (hs : (schedMachine.guarded SchedState.Unstale).Reach s) {id : ℕ} {how : Prepared}
    (hhow : s.prepared id = some how) (hne : how ≠ .decoding) : s.MarksRight id := by
  have hinv : (schedMachine.guarded SchedState.Unstale).Invariant fun s => ∀ id, s.BatchInv id := by
    refine ⟨fun s hinit id => ?_, fun s a s' h hstep => ?_⟩
    · obtain ⟨hprepared, -, hmask⟩ := hinit id
      refine ⟨fun _ m hm => ?_, fun hp => ?_, fun how hp => ?_, fun _ _ => hmask⟩
      · rw [hmask] at hm
        cases hm
      · rw [hprepared] at hp
        cases hp
      · rw [hprepared] at hp
        cases hp
    · exact SchedState.batchInv_step h hstep.2.1 hstep.1 hstep.2.2
  exact (hinv.reach hs id).marksRight hhow hne

/-! ## Riders and stale marks -/

/-- A request whose first chunk of 8 tokens does not finish its 20, one whose chunk does, and
one that decodes. -/
def threeReqs (id : ℕ) : Req where
  originLen := if id = 0 then 20 else 4
  outputLen := 0
  fillLen := if id = 0 then 20 else 4
  fillIsOrigin := false
  rangeStart := 0
  rangeEnd := if id = 0 then 8 else 4
  prefixLen := 0
  returnLogprob := false
  logprobStartLen := -1
  finished := false
  isPrefillOnly := false

/-- The second request has got its first token. -/
def threeReqsLater (id : ℕ) : Req :=
  if id = 1 then { threeReqs 1 with outputLen := 1 } else threeReqs id

/-- A scheduler with nothing to do. -/
def schedStart : SchedState where
  reqs := threeReqs
  batches _ := .initNew threeReqs [] none false false
  prepared _ := none
  touched _ := false

theorem schedStart_init : schedMachine.init schedStart := fun _ => ⟨rfl, rfl, rfl⟩

/-- **Stale marks**: two requests are prepared for extend, and the chunk of the first does not
finish it. It is filtered out, and the second is prepared for decode and turned into extend: the
batch of this one request hands out the marks of both. -/
theorem last_chunk_mask_stale : ∃ s, schedMachine.Reach s ∧ s.prepared 0 = some .converted ∧
    (s.forward 0).reqs = [1] ∧ (s.forward 0).extendLastChunkMask = some [false, true] ∧
    ¬ (s.reqs 1).Unfinished ∧ ¬ s.MarksRight 0 := by
  have hstart : schedMachine.Reach schedStart := .init schedStart_init
  have hnew := hstart.step (a := SchedAct.initNew 0 [0, 1] none false false) ⟨trivial, rfl⟩
  have hext := hnew.step (a := SchedAct.prepareForExtend 0) ⟨trivial, rfl⟩
  have hres := hext.step (a := SchedAct.setReqs threeReqsLater) ⟨trivial, rfl⟩
  have hfilter := hres.step (a := SchedAct.filterBatch 0 [0] none)
    ⟨fun i hi => absurd hi List.not_mem_nil, rfl⟩
  have hdecode := hfilter.step (a := SchedAct.prepareForDecode 0 none) ⟨trivial, rfl⟩
  have hconvert := hdecode.step (a := SchedAct.convertDecodeToExtend 0) ⟨rfl, rfl⟩
  refine ⟨_, hconvert, rfl, rfl, rfl, by decide, fun hright => ?_⟩
  have hlen := (hright.marked [false, true] rfl).1
  cases hlen

/-- The third request decodes and rides on the chunk of the other two: the marks are right. -/
theorem last_chunk_mask_fresh_mixed : ∃ s : SchedState,
    (s.forward 0).reqs = [0, 1, 2] ∧
      (s.forward 0).extendLastChunkMask = some [false, true, true] ∧ s.MarksRight 0 := by
  have hstart : (schedMachine.guarded SchedState.Unstale).Reach schedStart :=
    .init schedStart_init
  have hnew := hstart.step (a := SchedAct.initNew 1 [2] none false false) ⟨trivial, trivial, rfl⟩
  have hext := hnew.step (a := SchedAct.prepareForExtend 1) ⟨trivial, trivial, rfl⟩
  have hdecode := hext.step (a := SchedAct.prepareForDecode 1 none) ⟨trivial, trivial, rfl⟩
  have hnew' := hdecode.step (a := SchedAct.initNew 0 [0, 1] none false false)
    ⟨trivial, trivial, rfl⟩
  have hext' := hnew'.step (a := SchedAct.prepareForExtend 0) ⟨trivial, trivial, rfl⟩
  have hmix := hext'.step (a := SchedAct.mixWithRunning 0 1)
    ⟨trivial, ⟨rfl, rfl, (by decide : ∀ r ∈ [0, 1], r ∉ [2])⟩, rfl⟩
  exact ⟨_, rfl, rfl, last_chunk_mask_fresh hmix (rfl : _ = some Prepared.mixed) (by decide)⟩

end LuzServing
