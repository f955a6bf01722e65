import LuzServing.WeightRuns

/-!
# The scales of `wo_a`, as they come

The generator that dequantises `wo_a` is a join of weights and scales (`foldlM_woAStep_eq_loop`). It
yields what the function yields that reads all the weights first, in another order, and a
checkpoint that has no scales goes through it as it is (`dequant_streaming`).
-/

namespace LuzServing

open TensorName StreamJoin

variable {R : Type} {ops : TorchOps R}

/-! ## Names -/

namespace TensorName

theorem dropEnd_append {part name : TensorName} (h : endsWith part name = true) :
    dropEnd part name ++ part = name := by
  obtain ⟨stem, rfl⟩ := List.isSuffixOf_iff_suffix.mp h
  rw [dropEnd, List.length_append, Nat.add_sub_cancel, List.take_left]

theorem endsWith_append (stem part : TensorName) : endsWith part (stem ++ part) = true :=
  List.isSuffixOf_iff_suffix.mpr (List.suffix_append stem part)

theorem dropEnd_append_self (stem part : TensorName) : dropEnd part (stem ++ part) = stem := by
  rw [dropEnd, List.length_append, Nat.add_sub_cancel, List.take_left]

theorem endsWith_of_endsWith {part part' name : TensorName} (h : endsWith part' name = true)
    (hpart : endsWith part part' = true) : endsWith part name = true :=
  List.isSuffixOf_iff_suffix.mpr ((List.isSuffixOf_iff_suffix.mp hpart).trans
    (List.isSuffixOf_iff_suffix.mp h))

end TensorName

/-- `name.endswith(".wo_a.weight")` -/
def isWoAWeight (name : TensorName) : Bool := endsWith ".wo_a.weight".toList name

/-- `name.endswith(".wo_a.scale")` -/
def isWoAScale (name : TensorName) : Bool := endsWith ".wo_a.scale".toList name

theorem isWoAWeight_not_scale {name : TensorName} (h : isWoAWeight name = true) :
    isWoAScale name = false := by
  refine Bool.eq_false_iff.mpr fun hscale => ?_
  rcases List.suffix_or_suffix_of_suffix (List.isSuffixOf_iff_suffix.mp h)
    (List.isSuffixOf_iff_suffix.mp hscale) with hsuffix | hsuffix
  · exact absurd hsuffix (by decide)
  · exact absurd hsuffix (by decide)

theorem append_weight {name : TensorName} (h : isWoAWeight name = true) :
    dropEnd ".weight".toList name ++ ".weight".toList = name :=
  dropEnd_append (endsWith_of_endsWith h (by decide))

theorem endsWith_stem {name : TensorName} (h : isWoAWeight name = true) :
    endsWith ".wo_a".toList (dropEnd ".weight".toList name) = true := by
  obtain ⟨before, rfl⟩ := List.isSuffixOf_iff_suffix.mp h
  have hname : before ++ ".wo_a.weight".toList =
      (before ++ ".wo_a".toList) ++ ".weight".toList := by
    rw [List.append_assoc]
    rfl
  rw [hname, dropEnd_append_self]
  exact endsWith_append before _

theorem append_scale {name : TensorName} (h : isWoAScale name = true) :
    dropEnd ".scale".toList name ++ ".scale".toList = name :=
  dropEnd_append (endsWith_of_endsWith h (by decide))

/-! ## The generator is a join -/

/-- The half that a tensor of a name is. -/
def woAHalf (name : TensorName) : Option (TensorName × Bool) :=
  if isWoAWeight name then some (dropEnd ".weight".toList name, true)
  else if isWoAScale name then some (dropEnd ".scale".toList name, false)
  else none

/-- A tensor, as it comes to the generator. -/
def woAItem (x : NamedTensor R) : Item TensorName (WeightTensor R) (NamedTensor R) :=
  match woAHalf x.1 with
  | none => .whole x
  | some (stem, first) => .half stem first x.2

/-- The classification that the join needs, which may fail in general; that of the generator never
does. -/
def classifyWoA (x : NamedTensor R) :
    Except LoadError (Option (Item TensorName (WeightTensor R) (NamedTensor R))) :=
  .ok (some (woAItem x))

/-- A tensor, as it is yielded. -/
def emitWoA (ops : TorchOps R) :
    Joined TensorName (WeightTensor R) (NamedTensor R) → Except LoadError (NamedTensor R)
  | .whole x => .ok x
  | .pair stem weight scale => do
    let t ← dequantFp8 ops weight scale
    pure (stem ++ ".weight".toList, t)

/-- What the generator has yielded, and what waits. -/
def woAView (t : WoAState R × List (NamedTensor R)) :
    LoopState TensorName (WeightTensor R) (NamedTensor R) :=
  (t.2, waitingIn t.1.pending)

theorem halfOf_classifyWoA (x : NamedTensor R) : halfOf classifyWoA x = woAHalf x.1 := by
  rw [halfOf, classifyWoA, woAItem]
  cases woAHalf x.1 with
  | none => rfl
  | some half => rfl

/-- The name of a half is its stem with what it is. -/
theorem eq_of_woAHalf {name stem : TensorName} {first : Bool}
    (h : woAHalf name = some (stem, first)) :
    name = stem ++ (if first then ".weight".toList else ".scale".toList) := by
  rw [woAHalf] at h
  split_ifs at h with hweight hscale
  · cases h
    exact (append_weight hweight).symm
  · cases h
    exact (append_scale hscale).symm

/-- Tensors whose names all differ are different halves, so no half comes twice. -/
theorem nodup_woAHalf {l : List (NamedTensor R)} (hl : (l.map Prod.fst).Nodup) :
    (l.filterMap (halfOf classifyWoA)).Nodup := by
  have heq : l.filterMap (halfOf classifyWoA) = (l.map Prod.fst).filterMap woAHalf := by
    rw [List.filterMap_map]
    exact List.filterMap_congr fun x _ => halfOf_classifyWoA x
  rw [heq]
  refine hl.filterMap fun name name' half h h' => ?_
  obtain ⟨stem, first⟩ := half
  rw [eq_of_woAHalf h, eq_of_woAHalf h']

theorem woAStep_weight (s : WoAState R) {x : NamedTensor R} (h : isWoAWeight x.1 = true) :
    woAStep ops s x =
      match (bucketOf s.pending (dropEnd ".weight".toList x.1)).second with
      | some scale => do
        let t ← dequantFp8 ops x.2 scale
        pure ({ pending := s.pending.pop (dropEnd ".weight".toList x.1),
                sawWoAScale := s.sawWoAScale }, [(x.1, t)])
      | none => pure
        ({ pending := s.pending.set (dropEnd ".weight".toList x.1)
            { (bucketOf s.pending (dropEnd ".weight".toList x.1)) with first := some x.2 },
           sawWoAScale := s.sawWoAScale }, []) :=
  if_pos h

theorem woAStep_scale (s : WoAState R) {x : NamedTensor R} (h : isWoAWeight x.1 = false)
    (h' : isWoAScale x.1 = true) :
    woAStep ops s x =
      match (bucketOf s.pending (dropEnd ".scale".toList x.1)).first with
      | some weight => do
        let t ← dequantFp8 ops weight x.2
        pure ({ pending := s.pending.pop (dropEnd ".scale".toList x.1), sawWoAScale := true },
          [(dropEnd ".scale".toList x.1 ++ ".weight".toList, t)])
      | none => pure
        ({ pending := s.pending.set (dropEnd ".scale".toList x.1)
            { (bucketOf s.pending (dropEnd ".scale".toList x.1)) with second := some x.2 },
           sawWoAScale := true }, []) :=
  (if_neg (Bool.eq_false_iff.mp h)).trans (if_pos h')

/-- A tensor that is neither a weight nor a scale of `wo_a` is yielded as it is. -/
theorem woAStep_whole (s : WoAState R) {x : NamedTensor R} (h : woAHalf x.1 = none) :
    woAStep ops s x = .ok (s, [x]) := by
  rw [woAHalf] at h
  split_ifs at h with hweight hscale
  exact (if_neg hweight).trans (if_neg hscale)

/-- A weight or a scale whose counterpart has not come yet is kept, and nothing is yielded. -/
theorem woAStep_wait {s : WoAState R} (hvalid : OneHalf s.pending) {x : NamedTensor R}
    {stem : TensorName} {first : Bool} (h : woAHalf x.1 = some (stem, first))
    (hnone : waitingIn s.pending stem = none) :
    woAStep ops s x =
      .ok ({ pending := s.pending.set stem (.one first x.2)
             sawWoAScale := s.sawWoAScale || !first }, []) := by
  rw [woAHalf] at h
  split_ifs at h with hweight hscale
  · cases h
    rw [woAStep_weight s hweight, bucketOf_of_none hvalid hnone, Bool.not_true, Bool.or_false]
    rfl
  · cases h
    rw [woAStep_scale s (Bool.eq_false_iff.mpr hweight) hscale, bucketOf_of_none hvalid hnone,
      Bool.not_false, Bool.or_true]
    rfl

/-- When its counterpart waits, the weight is dequantized with the scale and yielded, and neither is
kept. -/
theorem woAStep_leave {s : WoAState R} {x : NamedTensor R} {stem : TensorName} {first : Bool}
    (h : woAHalf x.1 = some (stem, first)) {other : WeightTensor R}
    (hsome : waitingIn s.pending stem = some (!first, other)) :
    woAStep ops s x = emitWoA ops (meet stem first x.2 other) >>= fun y =>
      pure ({ pending := s.pending.pop stem, sawWoAScale := s.sawWoAScale || !first }, [y]) := by
  rw [woAHalf] at h
  split_ifs at h with hweight hscale
  · cases h
    rw [woAStep_weight s hweight, bucketOf_of_some hsome, Bool.not_true, Bool.or_false]
    change (dequantFp8 ops x.2 other >>= fun t => _) =
      (dequantFp8 ops x.2 other >>= fun t => _) >>= _
    cases dequantFp8 ops x.2 other with
    | error e => rfl
    | ok t =>
      rw [bind_ok, bind_ok]
      change _ = Except.ok (_, [(_ ++ _, t)])
      rw [append_weight hweight]
      rfl
  · cases h
    rw [woAStep_scale s (Bool.eq_false_iff.mpr hweight) hscale, bucketOf_of_some hsome,
      Bool.not_false, Bool.or_true]
    change (dequantFp8 ops other x.2 >>= fun t => _) =
      (dequantFp8 ops other x.2 >>= fun t => _) >>= _
    cases dequantFp8 ops other x.2 with
    | error e => rfl
    | ok t => rfl

/-- A step of the generator on a tensor is, seen from outside, a turn of the join. -/
theorem map_gatherStep {t : WoAState R × List (NamedTensor R)} (hvalid : OneHalf t.1.pending)
    {x : NamedTensor R} (hfresh : ∀ k first, halfOf classifyWoA x = some (k, first) →
      ∀ a, (woAView t).2 k ≠ some (first, a)) :
    (gatherStep (woAStep ops) t x).map woAView =
        loopStep classifyWoA (emitWoA ops) (woAView t) x ∧
      ∀ t', gatherStep (woAStep ops) t x = .ok t' → OneHalf t'.1.pending := by
  rw [halfOf_classifyWoA] at hfresh
  have hloop : loopStep classifyWoA (emitWoA ops) (woAView t) x =
      turn (emitWoA ops) (woAView t) (woAItem x) := rfl
  rw [hloop, gatherStep, woAItem]
  cases hhalf : woAHalf x.1 with
  | none =>
    rw [woAStep_whole t.1 hhalf, turn_whole]
    refine ⟨rfl, fun t' ht => ?_⟩
    cases ht
    exact hvalid
  | some half =>
    obtain ⟨stem, first⟩ := half
    dsimp only
    cases hwaits : waitingIn t.1.pending stem with
    | none =>
      rw [woAStep_wait hvalid hhalf hwaits,
        turn_wait (show (woAView t).2 stem = none from hwaits)]
      refine ⟨?_, fun t' ht => ?_⟩
      · refine congrArg Except.ok (Prod.ext (List.append_nil t.2) ?_)
        exact waitingIn_set t.1.pending stem first x.2
      · cases ht
        exact hvalid.set stem first x.2
    | some waits =>
      obtain ⟨side, other⟩ := waits
      have hview : (woAView t).2 stem = some (side, other) := hwaits
      have hne : side ≠ first := fun h => hfresh stem first hhalf other (h ▸ hview)
      rw [turn_leave hview hne]
      obtain rfl := Bool.eq_not_of_ne hne
      rw [woAStep_leave hhalf hwaits]
      cases emitWoA ops (meet stem first x.2 other) with
      | error e => exact ⟨rfl, fun t' ht => by cases ht⟩
      | ok y =>
        refine ⟨?_, fun t' ht => ?_⟩
        · exact congrArg Except.ok (Prod.ext rfl (waitingIn_pop t.1.pending stem))
        · cases ht
          exact hvalid.pop stem

variable (ops) in
/-- **The generator is a join**, where the names differ: it makes the turns that the join's loop
makes. -/
theorem foldlM_woAStep_eq_loop {l : List (NamedTensor R)} (hl : (l.map Prod.fst).Nodup) :
    (l.foldlM (gatherStep (woAStep ops)) (.start, [])).map woAView =
        loop classifyWoA (emitWoA ops) l ∧
      ∀ t, l.foldlM (gatherStep (woAStep ops)) (.start, []) = .ok t → OneHalf t.1.pending := by
  refine foldlM_eq_loop ?_ ?_ ?_ (nodup_woAHalf hl)
  · rfl
  · exact .empty
  · exact fun t x hvalid hfresh => map_gatherStep hvalid hfresh

theorem sawWoAScale_of_woAStep {s s' : WoAState R} {x : NamedTensor R}
    {ys : List (NamedTensor R)} (h : woAStep ops s x = .ok (s', ys)) :
    s'.sawWoAScale = (s.sawWoAScale || isWoAScale x.1) := by
  cases hweight : isWoAWeight x.1 with
  | true =>
    rw [isWoAWeight_not_scale hweight, Bool.or_false]
    rw [woAStep_weight s hweight] at h
    cases hother : (bucketOf s.pending (dropEnd ".weight".toList x.1)).second with
    | none =>
      rw [hother] at h
      cases h
      rfl
    | some scale =>
      rw [hother] at h
      obtain ⟨t, -, h⟩ := bind_eq_ok_iff.mp h
      cases h
      rfl
  | false =>
    cases hscale : isWoAScale x.1 with
    | true =>
      rw [Bool.or_true]
      rw [woAStep_scale s hweight hscale] at h
      cases hother : (bucketOf s.pending (dropEnd ".scale".toList x.1)).first with
      | none =>
        rw [hother] at h
        cases h
        rfl
      | some weight =>
        rw [hother] at h
        obtain ⟨t, -, h⟩ := bind_eq_ok_iff.mp h
        cases h
        rfl
    | false =>
      have hwhole : woAHalf x.1 = none := by
        rw [woAHalf, hweight, hscale]
        rfl
      rw [woAStep_whole s hwhole] at h
      cases h
      exact (Bool.or_false _).symm

/-- The generator has seen a scale exactly when it had before or when one is among the tensors. -/
theorem sawWoAScale_of_foldlM {l : List (NamedTensor R)} {t t' : WoAState R × List (NamedTensor R)}
    (h : l.foldlM (gatherStep (woAStep ops)) t = .ok t') :
    t'.1.sawWoAScale = (t.1.sawWoAScale || l.any fun x => isWoAScale x.1) := by
  induction l generalizing t with
  | nil =>
    cases h
    exact (Bool.or_false _).symm
  | cons x l ih =>
    rw [List.foldlM_cons] at h
    obtain ⟨t₁, hx, hl⟩ := bind_eq_ok_iff.mp h
    obtain ⟨ys, hgen, -⟩ := gatherStep_eq_ok.mp hx
    rw [ih hl, sawWoAScale_of_woAStep hgen, List.any_cons, Bool.or_assoc]

/-! ## What is left at the end -/

/-- What is yielded at the end depends only on what waits, up to the order. -/
theorem exists_leftover_perm {pending pending' : Dict TensorName (Bucket R)}
    (hp : pending.entries.Perm pending'.entries) {saw : Bool} {left : List (List (NamedTensor R))}
    (h : pending.entries.mapM (woALeftover saw) = .ok left) :
    ∃ left', pending'.entries.mapM (woALeftover saw) = .ok left' ∧ left.Perm left' := by
  obtain ⟨left', hleft', hperm⟩ := List.perm_comp_forall₂ hp.symm (mapM_eq_ok_iff.mp h)
  exact ⟨left', mapM_eq_ok_iff.mpr hleft', hperm.symm⟩

/-- **What is yielded does not depend on the order of the checkpoint.** -/
theorem dequantFp8WoAStreaming_perm {l l' : List (NamedTensor R)} (hp : l.Perm l')
    (hl : (l.map Prod.fst).Nodup) {ys : List (NamedTensor R)}
    (h : dequantFp8WoAStreaming ops l = .ok ys) :
    ∃ ys', dequantFp8WoAStreaming ops l' = .ok ys' ∧ ys.Perm ys' := by
  obtain ⟨t, ht, h⟩ := bind_eq_ok_iff.mp h
  obtain ⟨left, hleft, h⟩ := bind_eq_ok_iff.mp h
  cases h
  have hl' : (l'.map Prod.fst).Nodup := (hp.map Prod.fst).nodup_iff.mp hl
  obtain ⟨hmap, hvalid⟩ := foldlM_woAStep_eq_loop ops hl
  obtain ⟨hmap', hvalid'⟩ := foldlM_woAStep_eq_loop ops hl'
  rw [ht] at hmap
  obtain ⟨u, hloop, hyielded, hwaiting⟩ := loop_perm hp (nodup_woAHalf hl) hmap.symm
  rw [hloop] at hmap'
  cases ht' : l'.foldlM (gatherStep (woAStep ops)) (.start, []) with
  | error e =>
    rw [ht'] at hmap'
    cases hmap'
  | ok t' =>
    rw [ht'] at hmap'
    obtain rfl : woAView t' = u := Except.ok.inj hmap'
    have hsaw : t'.1.sawWoAScale = t.1.sawWoAScale := by
      rw [sawWoAScale_of_foldlM ht, sawWoAScale_of_foldlM ht',
        hp.any_eq]
    have hentries := Dict.entries_perm_of_get?_eq
      (get?_eq_of_waitingIn_eq (hvalid t ht) (hvalid' t' ht') hwaiting)
    obtain ⟨left', hleft', hperm⟩ := exists_leftover_perm hentries hleft
    refine ⟨t'.2 ++ left'.flatten, ?_, hyielded.append hperm.flatten⟩
    refine bind_eq_ok_iff.mpr ⟨t', ht', bind_eq_ok_iff.mpr ⟨left', ?_, rfl⟩⟩
    rw [hsaw]
    exact hleft'

/-! ## A checkpoint, weight by weight -/

/-- A weight of `wo_a` and its scale. -/
structure WoAPair (R : Type) : Type where
  /-- the name of both -/
  stem : TensorName
  /-- what is to be dequantised -/
  weight : WeightTensor R
  /-- with these scales -/
  scale : WeightTensor R
  /-- what it comes to -/
  result : WeightTensor R

namespace WoAPair

variable (p : WoAPair R)

/-- The weight in the checkpoint. -/
def weightEntry : NamedTensor R := (p.stem ++ ".weight".toList, p.weight)

/-- The scale in the checkpoint. -/
def scaleEntry : NamedTensor R := (p.stem ++ ".scale".toList, p.scale)

/-- What is yielded for the two. -/
def yielded : NamedTensor R := (p.stem ++ ".weight".toList, p.result)

end WoAPair

/-- What a checkpoint comes to: pairs that are dequantised, and the rest, which stays as it is. The
rest has no weight of `wo_a`, unless the checkpoint has no scale at all. -/
structure Dequantised (ops : TorchOps R) (l : List (NamedTensor R)) (pairs : List (WoAPair R))
    (rest : List (NamedTensor R)) : Prop where
  /-- all of the checkpoint -/
  perm : l.Perm (pairs.flatMap (fun p => [p.weightEntry, p.scaleEntry]) ++ rest)
  /-- the pairs are of `wo_a` -/
  stem : ∀ p ∈ pairs, endsWith ".wo_a".toList p.stem = true
  /-- they are dequantised -/
  dequant : ∀ p ∈ pairs, dequantFp8 ops p.weight p.scale = .ok p.result
  /-- the rest is not -/
  rest : (∀ x ∈ rest, isWoAWeight x.1 = false) ∨ ∀ x ∈ l, isWoAScale x.1 = false

theorem woAHalf_weight {stem : TensorName} (h : endsWith ".wo_a".toList stem = true) :
    woAHalf (stem ++ ".weight".toList) = some (stem, true) := by
  have hweight : isWoAWeight (stem ++ ".weight".toList) = true := by
    obtain ⟨before, rfl⟩ := List.isSuffixOf_iff_suffix.mp h
    rw [List.append_assoc]
    exact endsWith_append before _
  rw [woAHalf, if_pos hweight, dropEnd_append_self]

theorem woAHalf_scale {stem : TensorName} (h : endsWith ".wo_a".toList stem = true) :
    woAHalf (stem ++ ".scale".toList) = some (stem, false) := by
  have hscale : isWoAScale (stem ++ ".scale".toList) = true := by
    obtain ⟨before, rfl⟩ := List.isSuffixOf_iff_suffix.mp h
    rw [List.append_assoc]
    exact endsWith_append before _
  have hweight : isWoAWeight (stem ++ ".scale".toList) ≠ true := fun hweight => by
    rw [isWoAWeight_not_scale hweight] at hscale
    cases hscale
  rw [woAHalf, if_neg hweight, if_pos hscale, dropEnd_append_self]

/-- A weight that is followed by its scale leaves nothing behind. -/
theorem foldlM_gatherStep_pair (saw : Bool) (before : List (NamedTensor R)) {p : WoAPair R}
    (hstem : endsWith ".wo_a".toList p.stem = true)
    (hp : dequantFp8 ops p.weight p.scale = .ok p.result) :
    [p.weightEntry, p.scaleEntry].foldlM (gatherStep (woAStep ops))
        ({ pending := .empty, sawWoAScale := saw }, before) =
      .ok ({ pending := .empty, sawWoAScale := true }, before ++ [p.yielded]) := by
  have hwaiting : waitingIn ((Dict.empty : Dict TensorName (Bucket R)).set p.stem
      (.one true p.weight)) p.stem = some (!false, p.weight) := by
    rw [waitingIn_set, Function.update_self]
    rfl
  have hpop : ((Dict.empty : Dict TensorName (Bucket R)).set p.stem
      (.one true p.weight)).pop p.stem = .empty := by
    rw [← Dict.entries_inj]
    exact List.filter_eq_nil_iff.mpr (by simp [Dict.set, Dict.empty, Dict.setEntries])
  have hweight : gatherStep (woAStep ops) ({ pending := .empty, sawWoAScale := saw }, before)
      p.weightEntry = .ok ({ pending := Dict.set .empty p.stem (.one true p.weight)
                             sawWoAScale := saw || !true }, before) :=
    gatherStep_eq_ok.mpr ⟨[], woAStep_wait .empty (woAHalf_weight hstem) rfl,
      (List.append_nil before).symm⟩
  have hscale : gatherStep (woAStep ops)
      ({ pending := Dict.set .empty p.stem (.one true p.weight), sawWoAScale := saw || !true },
        before) p.scaleEntry = .ok ({ pending := .empty, sawWoAScale := true },
          before ++ [p.yielded]) := by
    refine gatherStep_eq_ok.mpr ⟨[p.yielded], ?_, rfl⟩
    rw [woAStep_leave (woAHalf_scale hstem) hwaiting]
    change (dequantFp8 ops p.weight p.scale >>= fun t => _) >>= _ = _
    rw [hp, bind_ok, hpop, Bool.not_false, Bool.or_true]
    rfl
  rw [List.foldlM_cons]
  exact bind_eq_ok_iff.mpr ⟨_, hweight, bind_eq_ok_iff.mpr ⟨_, hscale, rfl⟩⟩

/-- When weights and scales come pair by pair, the pairs are yielded one after the other. -/
theorem foldlM_gatherStep_pairs {pairs : List (WoAPair R)}
    (hstem : ∀ p ∈ pairs, endsWith ".wo_a".toList p.stem = true)
    (hpairs : ∀ p ∈ pairs, dequantFp8 ops p.weight p.scale = .ok p.result) (saw : Bool)
    (before : List (NamedTensor R)) :
    (pairs.flatMap fun p => [p.weightEntry, p.scaleEntry]).foldlM (gatherStep (woAStep ops))
        ({ pending := .empty, sawWoAScale := saw }, before) =
      .ok ({ pending := .empty, sawWoAScale := saw || !pairs.isEmpty },
        before ++ pairs.map WoAPair.yielded) := by
  induction pairs generalizing saw before with
  | nil =>
    rw [List.flatMap_nil, List.foldlM_nil, List.map_nil, List.append_nil, List.isEmpty_nil,
      Bool.not_true, Bool.or_false]
    rfl
  | cons p pairs ih =>
    rw [List.flatMap_cons, List.foldlM_append]
    refine bind_eq_ok_iff.mpr ⟨_, foldlM_gatherStep_pair saw before
      (hstem p (List.mem_cons_self ..)) (hpairs p (List.mem_cons_self ..)), ?_⟩
    rw [ih (fun p hp => hstem p (List.mem_cons_of_mem _ hp))
      fun p hp => hpairs p (List.mem_cons_of_mem _ hp), Bool.true_or, List.isEmpty_cons,
      Bool.not_false, Bool.or_true, List.map_cons, List.append_assoc]
    rfl

/-- A bucket for a half of the rest. -/
def restBucket (first : Bool) (x : NamedTensor R) : Option (TensorName × Bucket R) :=
  (woAHalf x.1).map fun half => (half.1, .one first x.2)

variable (ops) in
/-- What is kept of the rest, when its halves are all of a kind. -/
theorem foldlM_gatherStep_rest {first : Bool} {rest : List (NamedTensor R)}
    (hkind : ∀ x ∈ rest, ∀ half, woAHalf x.1 = some half → half.2 = first)
    (hnames : (rest.map Prod.fst).Nodup) {s : WoAState R} (hvalid : OneHalf s.pending)
    (hnew : ∀ x ∈ rest, ∀ half, woAHalf x.1 = some half → half.1 ∉ s.pending.keys)
    (before : List (NamedTensor R)) :
    ∃ s', rest.foldlM (gatherStep (woAStep ops)) (s, before) =
        .ok (s', before ++ rest.filter fun x => (woAHalf x.1).isNone) ∧
      s'.pending.entries = s.pending.entries ++ rest.filterMap (restBucket first) := by
  induction rest generalizing s before with
  | nil =>
    exact ⟨s, congrArg Except.ok (Prod.ext rfl (List.append_nil before).symm),
      (List.append_nil _).symm⟩
  | cons x rest ih =>
    rw [List.map_cons, List.nodup_cons] at hnames
    have hkind' := fun y (hy : y ∈ rest) => hkind y (List.mem_cons_of_mem _ hy)
    have hnew' := fun y (hy : y ∈ rest) => hnew y (List.mem_cons_of_mem _ hy)
    cases hhalf : woAHalf x.1 with
    | none =>
      obtain ⟨s', hrun, hentries⟩ := ih hkind' hnames.2 hvalid hnew' (before ++ [x])
      refine ⟨s', ?_, ?_⟩
      · rw [List.foldlM_cons, List.filter_cons_of_pos (by rw [hhalf]; rfl),
          List.append_cons before x]
        exact bind_eq_ok_iff.mpr ⟨_, gatherStep_eq_ok.mpr ⟨[x], woAStep_whole s hhalf, rfl⟩, hrun⟩
      · rw [hentries, List.filterMap_cons_none]
        rw [restBucket, hhalf]
        rfl
    | some half =>
      obtain ⟨stem, side⟩ := half
      obtain rfl : side = first := hkind x (List.mem_cons_self ..) _ hhalf
      have hkey : stem ∉ s.pending.keys := hnew x (List.mem_cons_self ..) _ hhalf
      have hnone : waitingIn s.pending stem = none := by
        cases hget : s.pending.get? stem with
        | none =>
          rw [waitingIn, hget]
          rfl
        | some b => exact absurd (Dict.mem_keys_iff.mpr ⟨b, hget⟩) hkey
      have hset : (s.pending.set stem (.one side x.2)).entries =
          s.pending.entries ++ [(stem, .one side x.2)] := Dict.setEntries_of_notMem hkey
      have hrest : ∀ y ∈ rest, ∀ half, woAHalf y.1 = some half →
          half.1 ∉ (s.pending.set stem (.one side x.2)).keys := by
        intro y hy half hhalfY hmem
        rcases Dict.mem_keys_set.mp hmem with hmem | hstem
        · exact hnew' y hy half hhalfY hmem
        · -- the same half would be the same name
          have hside := hkind' y hy half hhalfY
          refine hnames.1 (List.mem_map.mpr ⟨y, hy, ?_⟩)
          obtain ⟨stem', side'⟩ := half
          obtain rfl : stem' = stem := hstem
          obtain rfl : side' = side := hside
          rw [eq_of_woAHalf hhalfY, eq_of_woAHalf hhalf]
      obtain ⟨s', hrun, hentries⟩ := ih hkind' hnames.2
        (s := { pending := s.pending.set stem (.one side x.2)
                sawWoAScale := s.sawWoAScale || !side })
        (hvalid.set stem side x.2) hrest before
      refine ⟨s', ?_, ?_⟩
      · rw [List.foldlM_cons, List.filter_cons_of_neg (by rw [hhalf]; exact Bool.false_ne_true)]
        exact bind_eq_ok_iff.mpr ⟨_, gatherStep_eq_ok.mpr ⟨[], woAStep_wait hvalid hhalf hnone,
          (List.append_nil before).symm⟩, hrun⟩
      · rw [hentries, hset, List.append_assoc,
          List.filterMap_cons_some (b := (stem, Bucket.one side x.2))]
        · rfl
        · rw [restBucket, hhalf]
          rfl

/-- What is kept of the rest goes through at the end. -/
theorem mapM_woALeftover_rest {first saw : Bool} (hsaw : (first && saw) = false)
    {rest : List (NamedTensor R)}
    (hkind : ∀ x ∈ rest, ∀ half, woAHalf x.1 = some half → half.2 = first) :
    ∃ left, (rest.filterMap (restBucket first)).mapM (woALeftover saw) = .ok left ∧
      left.flatten = rest.filter fun x => (woAHalf x.1).isSome := by
  induction rest with
  | nil => exact ⟨[], rfl, rfl⟩
  | cons x rest ih =>
    obtain ⟨left, hleft, hflat⟩ := ih fun y hy => hkind y (List.mem_cons_of_mem _ hy)
    cases hhalf : woAHalf x.1 with
    | none =>
      refine ⟨left, ?_, ?_⟩
      · rw [List.filterMap_cons_none (by rw [restBucket, hhalf]; rfl)]
        exact hleft
      · rw [List.filter_cons_of_neg (by rw [hhalf]; exact Bool.false_ne_true)]
        exact hflat
    | some half =>
      obtain ⟨stem, side⟩ := half
      obtain rfl : side = first := hkind x (List.mem_cons_self ..) _ hhalf
      have hx : woALeftover saw (stem, Bucket.one side x.2) = .ok [x] := by
        have hname := eq_of_woAHalf hhalf
        cases side with
        | true =>
          obtain rfl : saw = false := hsaw
          exact congrArg (fun y => Except.ok [y]) (Prod.ext hname.symm rfl)
        | false => exact congrArg (fun y => Except.ok [y]) (Prod.ext hname.symm rfl)
      refine ⟨[x] :: left, ?_, ?_⟩
      · rw [List.filterMap_cons_some (b := (stem, Bucket.one side x.2))
          (by rw [restBucket, hhalf]; rfl)]
        rw [mapM_eq_ok_iff] at hleft ⊢
        exact .cons hx hleft
      · rw [List.filter_cons_of_pos (by rw [hhalf]; rfl), List.flatten_cons, hflat]
        rfl

/-- **What a checkpoint comes to is what the generator yields**, up to the order. -/
theorem Dequantised.streaming {l rest : List (NamedTensor R)} {pairs : List (WoAPair R)}
    (h : Dequantised ops l pairs rest) (hl : (l.map Prod.fst).Nodup) :
    ∃ ys, dequantFp8WoAStreaming ops l = .ok ys ∧
      ys.Perm (pairs.map WoAPair.yielded ++ rest) := by
  have hnames : (((pairs.flatMap fun p => [p.weightEntry, p.scaleEntry]) ++ rest).map
      Prod.fst).Nodup := (h.perm.map Prod.fst).nodup_iff.mp hl
  rw [List.map_append] at hnames
  -- the halves of the rest are scales, or weights that have none
  obtain ⟨first, hkind, hsaw⟩ : ∃ first : Bool,
      (∀ x ∈ rest, ∀ half, woAHalf x.1 = some half → half.2 = first) ∧
      (first = true → ∀ x ∈ l, isWoAScale x.1 = false) := by
    rcases h.rest with hweight | hscale
    · refine ⟨false, fun x hx half hhalf => ?_, fun h => by cases h⟩
      rw [woAHalf, hweight x hx, if_neg Bool.false_ne_true] at hhalf
      split_ifs at hhalf
      cases hhalf
      rfl
    · refine ⟨true, fun x hx half hhalf => ?_, fun _ => hscale⟩
      have hxl : x ∈ l := h.perm.symm.subset (List.mem_append_right _ hx)
      rw [woAHalf, hscale x hxl, if_neg Bool.false_ne_true] at hhalf
      split_ifs at hhalf
      cases hhalf
      rfl
  obtain ⟨s', hrest, hentries⟩ := foldlM_gatherStep_rest ops hkind
    (List.nodup_append.mp hnames).2.1
    (s := { pending := .empty, sawWoAScale := false || !pairs.isEmpty }) .empty
    (fun _ _ _ _ hmem => List.not_mem_nil hmem) ([] ++ pairs.map WoAPair.yielded)
  have hrun : ((pairs.flatMap fun p => [p.weightEntry, p.scaleEntry]) ++ rest).foldlM
      (gatherStep (woAStep ops)) (.start, []) = .ok (s', ([] ++ pairs.map WoAPair.yielded) ++
        rest.filter fun x => (woAHalf x.1).isNone) := by
    rw [List.foldlM_append]
    exact bind_eq_ok_iff.mpr ⟨_, foldlM_gatherStep_pairs h.stem h.dequant false [], hrest⟩
  have hseen : s'.sawWoAScale = l.any fun x => isWoAScale x.1 :=
    (sawWoAScale_of_foldlM hrun).trans ((Bool.false_or _).trans h.perm.symm.any_eq)
  have hnone : (first && s'.sawWoAScale) = false := by
    cases first with
    | false => rfl
    | true =>
      rw [hseen, Bool.true_and, List.any_eq_false]
      exact fun x hx => Bool.eq_false_iff.mp (hsaw rfl x hx)
  obtain ⟨left, hleft, hflat⟩ := mapM_woALeftover_rest hnone hkind
  have hstream : dequantFp8WoAStreaming ops
      ((pairs.flatMap fun p => [p.weightEntry, p.scaleEntry]) ++ rest) =
      .ok (([] ++ pairs.map WoAPair.yielded ++ rest.filter fun x => (woAHalf x.1).isNone) ++
        left.flatten) := by
    refine bind_eq_ok_iff.mpr ⟨_, hrun, bind_eq_ok_iff.mpr ⟨left, ?_, rfl⟩⟩
    rw [hentries]
    exact hleft
  rw [← List.map_append] at hnames
  obtain ⟨ys, hys, hperm⟩ := dequantFp8WoAStreaming_perm h.perm.symm hnames hstream
  refine ⟨ys, hys, hperm.symm.trans ?_⟩
  rw [List.nil_append, List.append_assoc, hflat]
  refine List.Perm.append_left _ ?_
  have hsome : (rest.filter fun x => (woAHalf x.1).isSome) =
      rest.filter fun x => !(woAHalf x.1).isNone :=
    List.filter_congr fun x _ => (Option.not_isNone _).symm
  rw [hsome]
  exact List.filter_append_perm _ rest

/-! ## The checkpoint read first -/

/-- The name of a weight is never the name of its own scale. -/
theorem ne_scaleName {name : TensorName} (h : isWoAWeight name = true) :
    name ≠ dropEnd ".weight".toList name ++ ".scale".toList := by
  intro heq
  have hweight := woAHalf_weight (endsWith_stem h)
  rw [append_weight h] at hweight
  have hscale := woAHalf_scale (endsWith_stem h)
  rw [← heq, hweight] at hscale
  exact Bool.noConfusion (Prod.mk.inj (Option.some.inj hscale)).2

/-- When the loop over the names returns, each weight that has a scale has been dequantized with
it. -/
theorem exists_of_dequantNames {scaleName : TensorName → TensorName} {names : List TensorName}
    {weights : Dict TensorName (WeightTensor R)} {before out : List (NamedTensor R)}
    (h : dequantNames ops scaleName names weights before = .ok out)
    (hsuffix : ∀ name ∈ names, isWoAWeight name = true →
      scaleName name = dropEnd ".weight".toList name ++ ".scale".toList)
    (hall : ∀ name ∈ weights.keys, isWoAWeight name = true → name ∈ names) :
    ∃ pairs : List (WoAPair R), ∃ rest,
      weights.entries.Perm (pairs.flatMap (fun p => [p.weightEntry, p.scaleEntry]) ++ rest) ∧
      (∀ p ∈ pairs, endsWith ".wo_a".toList p.stem = true ∧
        dequantFp8 ops p.weight p.scale = .ok p.result) ∧
      (∀ x ∈ rest, isWoAWeight x.1 = false) ∧
      out = before ++ (pairs.map WoAPair.yielded ++ rest) := by
  induction names generalizing weights before with
  | nil =>
    cases h
    refine ⟨[], weights.entries, .refl _, fun p hp => (List.not_mem_nil hp).elim, fun x hx => ?_,
      rfl⟩
    refine Bool.eq_false_iff.mpr fun hweight => ?_
    exact absurd (hall x.1 (List.mem_map_of_mem hx) hweight) List.not_mem_nil
  | cons name names ih =>
    have hsuffix' := fun n (hn : n ∈ names) => hsuffix n (List.mem_cons_of_mem _ hn)
    rw [dequantNames] at h
    cases hget : weights.get? name with
    | none =>
      rw [hget] at h
      refine ih h hsuffix' fun n hn hweight => ?_
      refine (List.mem_cons.mp (hall n hn hweight)).resolve_left ?_
      rintro rfl
      obtain ⟨w, hw⟩ := Dict.mem_keys_iff.mp hn
      rw [hget] at hw
      cases hw
    | some weight =>
      rw [hget] at h
      dsimp only at h
      by_cases hname : isWoAWeight name = true
      · have hcond : (!endsWith ".wo_a.weight".toList name) = false := congrArg not hname
        rw [hcond, if_neg Bool.false_ne_true, hsuffix name (List.mem_cons_self ..) hname] at h
        cases hscale : weights.get? (dropEnd ".weight".toList name ++ ".scale".toList) with
        | none =>
          rw [hscale] at h
          cases h
        | some scale =>
          rw [hscale] at h
          obtain ⟨t, ht, h⟩ := bind_eq_ok_iff.mp h
          have hne : name ≠ dropEnd ".weight".toList name ++ ".scale".toList :=
            ne_scaleName hname
          have hpopped : (weights.pop name).get?
              (dropEnd ".weight".toList name ++ ".scale".toList) = some scale := by
            rw [Dict.get?_pop, if_neg hne]
            exact hscale
          obtain ⟨pairs, rest, hperm, hpairs, hrest, hout⟩ := ih h hsuffix' fun n hn hweight => by
            obtain ⟨w, hw⟩ := Dict.mem_keys_iff.mp hn
            rw [Dict.get?_pop, Dict.get?_pop] at hw
            split_ifs at hw with hscaleName hnameN
            exact (List.mem_cons.mp (hall n (Dict.mem_keys_iff.mpr ⟨w, hw⟩) hweight)).resolve_left
              (Ne.symm hnameN)
          refine ⟨⟨dropEnd ".weight".toList name, weight, scale, t⟩ :: pairs, rest, ?_, ?_,
            hrest, ?_⟩
          · refine (Dict.entries_perm_cons_pop hget).trans ?_
            refine (((Dict.entries_perm_cons_pop hpopped).trans (hperm.cons _)).cons _).trans ?_
            rw [List.flatMap_cons, WoAPair.weightEntry, WoAPair.scaleEntry, append_weight hname]
            exact .refl _
          · intro p hp
            rcases List.mem_cons.mp hp with rfl | hp
            · exact ⟨endsWith_stem hname, ht⟩
            · exact hpairs p hp
          · rw [hout, List.map_cons, WoAPair.yielded, append_weight hname, List.append_assoc]
            rfl
      · rw [if_pos (by rw [Bool.not_eq_true']; exact Bool.eq_false_iff.mpr hname)] at h
        refine ih h hsuffix' fun n hn hweight => ?_
        refine (List.mem_cons.mp (hall n hn hweight)).resolve_left ?_
        rintro rfl
        exact hname hweight

/-- The loop over the names yields when every weight has a scale that fits. -/
theorem exists_dequantNames {scaleName : TensorName → TensorName} {names : List TensorName}
    {weights : Dict TensorName (WeightTensor R)}
    (hsuffix : ∀ name ∈ names, isWoAWeight name = true →
      scaleName name = dropEnd ".weight".toList name ++ ".scale".toList)
    (hscales : ∀ name weight, weights.get? name = some weight → isWoAWeight name = true →
      ∃ scale t, weights.get? (dropEnd ".weight".toList name ++ ".scale".toList) = some scale ∧
        dequantFp8 ops weight scale = .ok t) (before : List (NamedTensor R)) :
    ∃ out, dequantNames ops scaleName names weights before = .ok out := by
  induction names generalizing weights before with
  | nil => exact ⟨_, rfl⟩
  | cons name names ih =>
    have hsuffix' := fun n (hn : n ∈ names) => hsuffix n (List.mem_cons_of_mem _ hn)
    rw [dequantNames]
    cases hget : weights.get? name with
    | none => exact ih hsuffix' hscales before
    | some weight =>
      dsimp only
      by_cases hname : isWoAWeight name = true
      · have hcond : (!endsWith ".wo_a.weight".toList name) = false := congrArg not hname
        rw [hcond, if_neg Bool.false_ne_true, hsuffix name (List.mem_cons_self ..) hname]
        obtain ⟨scale, t, hscale, ht⟩ := hscales name weight hget hname
        rw [hscale]
        dsimp only
        rw [ht, bind_ok]
        refine ih hsuffix' (fun n w hw hweight => ?_) (before ++ [(name, t)])
        rw [Dict.get?_pop, Dict.get?_pop] at hw
        split_ifs at hw with hscaleName hnameN
        obtain ⟨scale', t', hscale', ht'⟩ := hscales n w hw hweight
        refine ⟨scale', t', ?_, ht'⟩
        -- the scale of another weight has another name
        have hstem : dropEnd ".weight".toList name ≠ dropEnd ".weight".toList n := fun h =>
          hnameN (by rw [← append_weight hname, h, append_weight hweight])
        rw [Dict.get?_pop, Dict.get?_pop, if_neg fun h => hstem (List.append_cancel_right h),
          if_neg fun h => ?_]
        · exact hscale'
        · have hhalf := woAHalf_scale (endsWith_stem hweight)
          rw [← h, ← append_weight hname, woAHalf_weight (endsWith_stem hname)] at hhalf
          exact Bool.noConfusion (Prod.mk.inj (Option.some.inj hhalf)).2
      · rw [if_pos (by rw [Bool.not_eq_true']; exact Bool.eq_false_iff.mpr hname)]
        exact ih hsuffix' hscales before

/-- A weight whose scale does not come is left, and one that comes is dequantised. -/
theorem exists_scale_of_streaming {l ys : List (NamedTensor R)} (hl : (l.map Prod.fst).Nodup)
    (h : dequantFp8WoAStreaming ops l = .ok ys) (hseen : ∃ x ∈ l, isWoAScale x.1 = true)
    {name : TensorName} {weight : WeightTensor R} (hx : (name, weight) ∈ l)
    (hname : isWoAWeight name = true) :
    ∃ scale t, (dropEnd ".weight".toList name ++ ".scale".toList, scale) ∈ l ∧
      dequantFp8 ops weight scale = .ok t := by
  obtain ⟨t, ht, h⟩ := bind_eq_ok_iff.mp h
  obtain ⟨left, hleft, -⟩ := bind_eq_ok_iff.mp h
  obtain ⟨hmap, hvalid⟩ := foldlM_woAStep_eq_loop ops hl
  rw [ht] at hmap
  obtain ⟨items, hitems⟩ := loop_eq_ok_iff.mp hmap.symm
  have hhalf : woAHalf name = some (dropEnd ".weight".toList name, true) := if_pos hname
  have hweight : (dropEnd ".weight".toList name, true, weight) ∈ halves items.reduceOption := by
    refine hitems.mem_halves_iff.mpr ⟨_, hx, ?_⟩
    rw [classifyWoA, woAItem, hhalf]
  by_cases hother : ∃ scale, (dropEnd ".weight".toList name, false, scale) ∈
      halves items.reduceOption
  · obtain ⟨scale, hscale⟩ := hother
    obtain ⟨y, hy⟩ := hitems.exists_emit (nodup_woAHalf hl) hweight hscale
    obtain ⟨r, hr, -⟩ := bind_eq_ok_iff.mp hy
    refine ⟨scale, r, ?_, hr⟩
    obtain ⟨x', hx', hclassify⟩ := hitems.mem_halves_iff.mp hscale
    rw [classifyWoA, woAItem] at hclassify
    cases hhalf' : woAHalf x'.1 with
    | none =>
      rw [hhalf'] at hclassify
      cases hclassify
    | some half =>
      rw [hhalf'] at hclassify
      obtain ⟨stem, side⟩ := half
      cases hclassify
      have hx'' := eq_of_woAHalf hhalf'
      rw [if_neg Bool.false_ne_true] at hx''
      rw [← hx'']
      exact hx'
  · -- the weight waits to the end, and the generator has seen a scale
    rw [not_exists] at hother
    have htwice := nodup_woAHalf hl
    rw [← hitems.map_halves] at htwice
    have hwaits := ((joins_run htwice).waiting _ true weight).mpr ⟨hweight, hother⟩
    rw [hitems.waiting] at hwaits
    obtain ⟨b, hb, hone⟩ := Option.bind_eq_some_iff.mp hwaits
    have hsaw : t.1.sawWoAScale = true := by
      rw [sawWoAScale_of_foldlM ht]
      obtain ⟨x, hx, hscale⟩ := hseen
      exact List.any_eq_true.mpr ⟨x, hx, hscale⟩
    obtain ⟨y, -, hy⟩ := exists_of_mem_forall₂ (mapM_eq_ok_iff.mp hleft)
      (Dict.mem_entries_iff.mpr hb)
    rw [hsaw, Bucket.eq_one_of_waits hone] at hy
    cases hy

/-- The suffix of a weight is in its name only at the end. -/
def SuffixOnce (l : List (NamedTensor R)) : Prop :=
  ∀ x ∈ l, isWoAWeight x.1 = true → ¬ ".wo_a.weight".toList <:+: x.1.dropLast

theorem replaceFrom_skip (old new rest : TensorName) :
    replaceFrom old new rest.length rest = [] := by
  induction rest with
  | nil => rfl
  | cons c rest ih => exact ih

/-- What is in a name only at its end is replaced there. -/
theorem replace_append {old new : TensorName} (hold : old ≠ []) {stem : TensorName}
    (h : ¬ old <:+: (stem ++ old).dropLast) : replace old new (stem ++ old) = stem ++ new := by
  rw [replace]
  induction stem with
  | nil =>
    obtain ⟨c, rest, rfl⟩ := List.exists_cons_of_ne_nil hold
    rw [List.nil_append, replaceFrom, if_pos (List.isPrefixOf_iff_prefix.mpr (List.prefix_refl _)),
      List.length_cons, Nat.add_sub_cancel, replaceFrom_skip, List.append_nil]
    rfl
  | cons c stem ih =>
    have hne : stem ++ old ≠ [] := List.append_ne_nil_of_right_ne_nil stem hold
    rw [List.cons_append, List.dropLast_cons_of_ne_nil hne] at h
    have hnot : ¬ List.isPrefixOf old (c :: (stem ++ old)) = true := by
      intro hpre
      refine h (List.IsPrefix.isInfix ?_)
      rw [← List.dropLast_cons_of_ne_nil hne]
      refine List.prefix_of_prefix_length_le (List.isPrefixOf_iff_prefix.mp hpre)
        (List.dropLast_prefix _) ?_
      rw [List.length_dropLast, List.length_cons, List.length_append]
      omega
    rw [List.cons_append, replaceFrom, if_neg hnot,
      ih fun hin => h (hin.trans (List.suffix_cons c _).isInfix)]
    rfl

/-- In a name that has the suffix once, replacing it gives the name of the weight's scale. -/
theorem replace_weight {name : TensorName} (h : isWoAWeight name = true)
    (honce : ¬ ".wo_a.weight".toList <:+: name.dropLast) :
    replace ".wo_a.weight".toList ".wo_a.scale".toList name =
      dropEnd ".weight".toList name ++ ".scale".toList := by
  obtain ⟨before, rfl⟩ := List.isSuffixOf_iff_suffix.mp h
  rw [replace_append (by decide) honce]
  have hname : before ++ ".wo_a.weight".toList =
      (before ++ ".wo_a".toList) ++ ".weight".toList := by
    rw [List.append_assoc]
    rfl
  rw [hname, dropEnd_append_self, List.append_assoc]
  rfl

/-- What the function comes to that reads the whole checkpoint first. -/
theorem exists_dequantised {scaleName : TensorName → TensorName} {l out : List (NamedTensor R)}
    (hl : (l.map Prod.fst).Nodup)
    (hsuffix : ∀ x ∈ l, isWoAWeight x.1 = true →
      scaleName x.1 = dropEnd ".weight".toList x.1 ++ ".scale".toList)
    (h : dequantNames ops scaleName (Dict.ofList l).keys (Dict.ofList l) [] = .ok out) :
    ∃ pairs rest, Dequantised ops l pairs rest ∧ out = pairs.map WoAPair.yielded ++ rest := by
  have hentries : (Dict.ofList l).entries = l := Dict.entries_ofList hl
  have hkeys : (Dict.ofList l).keys = l.map Prod.fst := congrArg (List.map Prod.fst) hentries
  obtain ⟨pairs, rest, hperm, hpairs, hrest, hout⟩ := exists_of_dequantNames h
    (fun name hname hweight => by
      rw [hkeys] at hname
      obtain ⟨x, hx, rfl⟩ := List.mem_map.mp hname
      exact hsuffix x hx hweight)
    fun name hname _ => hname
  rw [hentries] at hperm
  exact ⟨pairs, rest, ⟨hperm, fun p hp => (hpairs p hp).1, fun p hp => (hpairs p hp).2,
    Or.inl hrest⟩, hout⟩

/-- Where the generator has seen a scale, the function yields too. -/
theorem exists_dequantNames_of_streaming (scaleName : TensorName → TensorName)
    {l ys : List (NamedTensor R)} (hl : (l.map Prod.fst).Nodup)
    (hsuffix : ∀ x ∈ l, isWoAWeight x.1 = true →
      scaleName x.1 = dropEnd ".weight".toList x.1 ++ ".scale".toList)
    (h : dequantFp8WoAStreaming ops l = .ok ys) (hseen : ∃ x ∈ l, isWoAScale x.1 = true) :
    ∃ out, dequantNames ops scaleName (Dict.ofList l).keys (Dict.ofList l) [] = .ok out := by
  have hentries : (Dict.ofList l).entries = l := Dict.entries_ofList hl
  refine exists_dequantNames (fun name hname hweight => ?_) (fun name weight hget hweight => ?_) []
  · rw [Dict.keys, hentries] at hname
    obtain ⟨x, hx, rfl⟩ := List.mem_map.mp hname
    exact hsuffix x hx hweight
  · have hmem := Dict.mem_entries_iff.mpr hget
    rw [hentries] at hmem
    obtain ⟨scale, t, hscale, ht⟩ := exists_scale_of_streaming hl h hseen hmem hweight
    rw [← hentries] at hscale
    exact ⟨scale, t, Dict.mem_entries_iff.mp hscale, ht⟩

variable (ops) in
/-- A checkpoint that has no scales goes through as it is, with nothing dequantized. -/
theorem dequantised_of_no_scale {l : List (NamedTensor R)}
    (h : ¬ ∃ x ∈ l, isWoAScale x.1 = true) : Dequantised ops l [] l :=
  ⟨.refl _, fun _ hp => absurd hp List.not_mem_nil, fun _ hp => absurd hp List.not_mem_nil,
    Or.inr fun x hx => Bool.eq_false_iff.mpr fun hscale => h ⟨x, hx, hscale⟩⟩

/-- **What the generator yields is what the checkpoint comes to**, up to the order. -/
theorem exists_dequantised_of_streaming {l ys : List (NamedTensor R)}
    (hl : (l.map Prod.fst).Nodup) (h : dequantFp8WoAStreaming ops l = .ok ys) :
    ∃ pairs rest, Dequantised ops l pairs rest ∧
      ys.Perm (pairs.map WoAPair.yielded ++ rest) := by
  have hyields : ∀ {pairs : List (WoAPair R)} {rest : List (NamedTensor R)},
      Dequantised ops l pairs rest → ys.Perm (pairs.map WoAPair.yielded ++ rest) := by
    intro pairs rest hpairs
    obtain ⟨ys', hys', hperm⟩ := hpairs.streaming hl
    rw [h] at hys'
    cases hys'
    exact hperm
  by_cases hseen : ∃ x ∈ l, isWoAScale x.1 = true
  · obtain ⟨out, hout⟩ := exists_dequantNames_of_streaming
      (fun name => dropEnd ".weight".toList name ++ ".scale".toList) hl
      (fun _ _ _ => rfl) h hseen
    obtain ⟨pairs, rest, hpairs, -⟩ := exists_dequantised hl (fun _ _ _ => rfl) hout
    exact ⟨pairs, rest, hpairs, hyields hpairs⟩
  · exact ⟨[], l, dequantised_of_no_scale ops hseen,
      hyields (dequantised_of_no_scale ops hseen)⟩

/-- **The generator agrees with the function that reads the whole checkpoint first**, up to the
order, and where that function fails the generator does too, unless the checkpoint has no scales:
then all of it goes through. -/
theorem dequant_streaming {l : List (NamedTensor R)} (hl : (l.map Prod.fst).Nodup)
    (hsuffix : SuffixOnce l) :
    (∀ out, dequantFp8WoA ops l = .ok out →
      ∃ ys, dequantFp8WoAStreaming ops l = .ok ys ∧ ys.Perm out) ∧
    (∀ ys, dequantFp8WoAStreaming ops l = .ok ys →
      (∃ out, dequantFp8WoA ops l = .ok out ∧ ys.Perm out) ∨
        (∀ x ∈ l, isWoAScale x.1 = false) ∧ ys.Perm l) := by
  have hreplace := fun x hx hweight => replace_weight hweight (hsuffix x hx hweight)
  have hforward : ∀ out, dequantFp8WoA ops l = .ok out →
      ∃ ys, dequantFp8WoAStreaming ops l = .ok ys ∧ ys.Perm out := by
    intro out hout
    obtain ⟨pairs, rest, hpairs, rfl⟩ := exists_dequantised hl hreplace hout
    exact hpairs.streaming hl
  refine ⟨hforward, fun ys hys => ?_⟩
  by_cases hseen : ∃ x ∈ l, isWoAScale x.1 = true
  · obtain ⟨out, hout⟩ := exists_dequantNames_of_streaming _ hl hreplace hys hseen
    obtain ⟨ys', hys', hperm⟩ := hforward out hout
    rw [hys] at hys'
    cases hys'
    exact Or.inl ⟨out, hout, hperm⟩
  · obtain ⟨ys', hys', hperm⟩ := (dequantised_of_no_scale ops hseen).streaming hl
    rw [hys] at hys'
    cases hys'
    exact Or.inr ⟨fun x hx => Bool.eq_false_iff.mpr fun hscale => hseen ⟨x, hx, hscale⟩, hperm⟩

/-! ## A small checkpoint -/

/-- Numbers for which nothing is rounded. -/
def natOps : TorchOps ℕ where
  mul := (· * ·)
  bf16 := id
  promote := fun a _ => a

/-- A matrix of one number. -/
def cellOf (dtype : DType) (x : ℕ) : WeightTensor ℕ where
  dtype := dtype
  width := 1
  rows := [[x]]
  rect := fun row hrow => by rw [List.mem_singleton.mp hrow, List.length_singleton]

/-- The attention of one layer, with the scale of `wo_a` before the weight. -/
def smallCheckpoint : List (NamedTensor ℕ) :=
  [("layers.0.attn.wkv.weight".toList, cellOf .bfloat16 1),
    ("layers.0.attn.wo_a.scale".toList, cellOf .float32 2),
    ("layers.0.attn.wq_a.weight".toList, cellOf .bfloat16 3),
    ("layers.0.attn.wo_a.weight".toList, cellOf .float8E4m3fn 5)]

theorem dequant_streaming_checkpoint : ∃ ys,
    dequantFp8WoAStreaming natOps smallCheckpoint = .ok ys ∧ ys.Perm
      [("layers.0.attn.wo_a.weight".toList, cellOf .bfloat16 10),
        ("layers.0.attn.wkv.weight".toList, cellOf .bfloat16 1),
        ("layers.0.attn.wq_a.weight".toList, cellOf .bfloat16 3)] :=
  (dequant_streaming (by decide +kernel) (by unfold SuffixOnce; decide +kernel)).1 _ (by rfl)

end LuzServing
