import Mathlib.Tactic

/-!
# Padding the attention geometry

A checkpoint has a number of heads in groups of one size. Before the weights are loaded over `tp`
ranks, `pad_dsv41_hf_config` pads heads and groups so that every rank gets whole groups and a
number of heads for which there is a kernel: 8, 16, 32, 64 or 128. It does one and then the other.
The first step looks at the heads only: where `tp` divides the heads and not the groups, nothing
is done about the groups (`padGeometry_of_heads`). And where no number of heads will do, what
there is is left, with no error. So the padding is right under a condition
(`pad_dsv41_hf_config_iff`).
-/

namespace LuzServing

/-! ## The configurations -/

/-- The fields of a text configuration that are read, each if it has it. -/
structure TextConfig : Type where
  /-- `num_attention_heads` -/
  numAttentionHeads : Option ℕ
  /-- `o_groups` -/
  oGroups : Option ℕ
  /-- `dspark_n_routed_experts` -/
  dsparkNRoutedExperts : Option ℕ
  deriving DecidableEq

/-- `vision_config` -/
structure VisionConfig : Type where
  /-- `num_attention_heads` -/
  numAttentionHeads : Option ℕ
  /-- `num_heads` -/
  numHeads : Option ℕ
  deriving DecidableEq

/-- A configuration: a text configuration, or one that has one. -/
structure HfConfig : Type where
  /-- its own fields -/
  own : TextConfig
  /-- `text_config` -/
  textConfig : Option TextConfig
  /-- `vision_config` -/
  visionConfig : Option VisionConfig
  deriving DecidableEq

/-- `getattr(hf, 'text_config', None) or hf` -/
def HfConfig.text (hf : HfConfig) : TextConfig := hf.textConfig.getD hf.own

/-! ## Padding -/

/-- `_ceil_to` -/
def ceilTo (n d : ℕ) : ℕ := (n + d - 1) / d * d

/-- `legal_local` -/
def legalLocal : List ℕ := [8, 16, 32, 64, 128]

/-- `target_local` -/
def targetLocal (localHeads : ℕ) : ℕ := (legalLocal.find? fun h => localHeads ≤ h).getD 128

/-- `new_heads` and `new_groups`, after the heads were looked at. -/
def groupStep (tp per heads groups : ℕ) : ℕ × ℕ :=
  if heads % tp ≠ 0 then (ceilTo groups tp * per, ceilTo groups tp) else (heads, groups)

/-- `new_heads` and `new_groups`, after the heads of a rank were looked at. -/
def legalStep (tp per : ℕ) (new : ℕ × ℕ) : ℕ × ℕ :=
  if new.1 / tp ∈ legalLocal then new
  else
    let newHeads := targetLocal (new.1 / tp) * tp
    let newGroups := newHeads / per
    if newGroups * per ≠ newHeads then (ceilTo newGroups tp * per, ceilTo newGroups tp)
    else (newHeads, newGroups)

/-- `new_heads` and `new_groups` -/
def padGeometry (tp heads groups : ℕ) : ℕ × ℕ :=
  let per := max (heads / groups) 1
  legalStep tp per (groupStep tp per heads groups)

/-- What `pad_dsv41_hf_config` does to heads and groups, if there are both. -/
def padHeads (tp : ℕ) (text : TextConfig) : TextConfig :=
  let heads := text.numAttentionHeads.getD 0
  let groups := text.oGroups.getD 0
  let new := padGeometry tp heads groups
  if heads ≠ 0 ∧ groups ≠ 0 ∧ new ≠ (heads, groups) then
    { text with oGroups := some new.2, numAttentionHeads := some new.1 }
  else text

/-- What it does to the draft experts. -/
def padDraft (tp : ℕ) (text : TextConfig) : TextConfig :=
  let draft := text.dsparkNRoutedExperts.getD 0
  if draft ≠ 0 ∧ draft % tp ≠ 0 then { text with dsparkNRoutedExperts := some (ceilTo draft tp) }
  else text

/-- What it does to the text configuration. -/
def padText (tp : ℕ) (text : TextConfig) : TextConfig := padDraft tp (padHeads tp text)

/-- `vh`: the first of the two numbers that is there and not zero. -/
def visionHeads (vis : VisionConfig) : ℕ :=
  if vis.numAttentionHeads.getD 0 ≠ 0 then vis.numAttentionHeads.getD 0 else vis.numHeads.getD 0

/-- What it does to the vision configuration. -/
def padVision (tp : ℕ) (vis : VisionConfig) : VisionConfig :=
  let vh := visionHeads vis
  if vh ≠ 0 ∧ vh % tp ≠ 0 then
    { numAttentionHeads := vis.numAttentionHeads.map fun _ => ceilTo vh tp
      numHeads := vis.numHeads.map fun _ => ceilTo vh tp }
  else vis

/-- What it does to a configuration that has a text configuration: where heads or groups are new,
it writes the heads to the configuration too, if it has the field. -/
def padOwn (own old text : TextConfig) : TextConfig :=
  if (text.numAttentionHeads, text.oGroups) ≠ (old.numAttentionHeads, old.oGroups) then
    { own with numAttentionHeads := own.numAttentionHeads.bind fun _ => text.numAttentionHeads }
  else own

/-- `pad_dsv41_hf_config` -/
def padDsv41HfConfig (tp : ℕ) (hf : HfConfig) : HfConfig :=
  let text := padText tp hf.text
  let visionConfig := hf.visionConfig.map (padVision tp)
  match hf.textConfig with
  | none => { hf with own := text, visionConfig := visionConfig }
  | some old =>
    { own := padOwn hf.own old text, textConfig := some text, visionConfig := visionConfig }

/-- A text configuration by itself, as it is given to `pad_dsv41_hf_config` the second time. -/
def TextConfig.alone (text : TextConfig) : HfConfig := ⟨text, none, none⟩

/-- The fields of a `ModelConfig` that are padded. -/
structure ModelConfig : Type where
  /-- `hf_config` -/
  hfConfig : Option HfConfig
  /-- `hf_text_config` -/
  hfTextConfig : Option TextConfig
  /-- `num_attention_heads` -/
  numAttentionHeads : Option ℕ
  deriving DecidableEq

/-- What `wrapped` copies from the text configuration. An attribute that is missing there ends it,
with what was done so far. -/
def copyText (text : TextConfig) (self : ModelConfig) : ModelConfig :=
  match text.numAttentionHeads, self.hfTextConfig with
  | none, _ => self
  | some heads, none => { self with numAttentionHeads := self.numAttentionHeads.map fun _ => heads }
  | some heads, some hfText =>
    match hfText.oGroups, text.oGroups with
    | some _, none =>
      { self with hfTextConfig := some { hfText with numAttentionHeads := some heads } }
    | old, groups =>
      { self with
        hfTextConfig := some
          { hfText with numAttentionHeads := some heads, oGroups := old.bind fun _ => groups }
        numAttentionHeads := self.numAttentionHeads.map fun _ => heads }

/-- `wrapped`, after the constructor. -/
def wrappedInit (tp : ℕ) (self : ModelConfig) : ModelConfig :=
  match self.hfConfig with
  | none => self
  | some hf =>
    let hf := padDsv41HfConfig tp hf
    match hf.textConfig with
    | none => { self with hfConfig := some hf }
    | some text =>
      let text := (padDsv41HfConfig tp text.alone).own
      copyText text { self with hfConfig := some { hf with textConfig := some text } }

/-! ## What is asked of the padding -/

/-- A geometry that `tp` ranks can load, no smaller than one of `groups` groups of `per` heads,
and of groups of the same size. -/
structure LegalGeometry (tp groups per heads' groups' : ℕ) : Prop where
  /-- no fewer heads -/
  heads_le : groups * per ≤ heads'
  /-- no fewer groups -/
  groups_le : groups ≤ groups'
  /-- groups of the same size -/
  ratio : heads' = groups' * per
  /-- whole groups on every rank -/
  dvd_groups : tp ∣ groups'
  /-- and as many heads on each -/
  dvd_heads : tp ∣ heads'
  /-- for which there is a kernel -/
  legal : heads' / tp ∈ legalLocal

/-- The padding of a configuration leaves a legal geometry, and to pad what is left, or its text
configuration by itself as `wrapped` does, changes nothing. The code raises no error, so to leave
no illegal geometry is to leave a legal one. -/
def PadsWell (tp groups per : ℕ) (hf : HfConfig) : Prop :=
  let hf' := padDsv41HfConfig tp hf
  (∃ heads' groups', hf'.text.numAttentionHeads = some heads' ∧ hf'.text.oGroups = some groups' ∧
    LegalGeometry tp groups per heads' groups') ∧
  padDsv41HfConfig tp hf' = hf' ∧ (padDsv41HfConfig tp hf'.text.alone).own = hf'.text ∧
  ∀ self : ModelConfig, self.hfConfig = some hf → (wrappedInit tp self).hfConfig = some hf'

/-- When the padding is right: a legal geometry exists, and where `tp` divides the heads and not
the groups, the heads of a rank are not already legal and no legal number from there on is below
the size of a group. -/
def PadCondition (tp groups per : ℕ) : Prop :=
  (∃ l ∈ legalLocal, per ∣ l ∧ (groups + tp - 1) / tp * per ≤ l) ∧
    (tp ∣ groups * per → tp ∣ groups ∨
      ∀ l ∈ legalLocal, groups * per ≤ l * tp → groups * per ≠ l * tp ∧ per ≤ l)

instance (tp groups per : ℕ) : Decidable (PadCondition tp groups per) :=
  inferInstanceAs (Decidable (_ ∧ _))

/-! ## Legal numbers -/

/-- Legal numbers are the powers of two up to 128 that are at least 8, so a power of two that is
no larger divides one. -/
theorem dvd_of_legal {p l l' : ℕ} (hl : l ∈ legalLocal) (hp : p ∣ l') (hl' : l' ∈ legalLocal)
    (hle : p ≤ l) : p ∣ l := by
  have h128 : p ∣ 128 := hp.trans (by
    have hall : ∀ l ∈ legalLocal, l ∣ 128 := by decide
    exact hall l' hl')
  have hall : ∀ p ∈ Nat.divisors 128, ∀ l ∈ legalLocal, p ≤ l → p ∣ l := by decide
  exact hall p (Nat.mem_divisors.mpr ⟨h128, by decide⟩) l hl hle

/-- The target is the least legal number that is large enough, if there is one. -/
theorem targetLocal_spec {n l : ℕ} (hl : l ∈ legalLocal) (hle : n ≤ l) :
    targetLocal n ∈ legalLocal ∧ n ≤ targetLocal n ∧ targetLocal n ≤ l := by
  have hsome : ∃ h ∈ legalLocal, decide (n ≤ h) = true := ⟨l, hl, decide_eq_true hle⟩
  obtain ⟨target, htarget⟩ := Option.isSome_iff_exists.mp (List.find?_isSome.mpr hsome)
  have hget : targetLocal n = target := by
    rw [targetLocal, htarget]
    rfl
  rw [hget]
  refine ⟨List.mem_of_find?_eq_some htarget, of_decide_eq_true (List.find?_some htarget :), ?_⟩
  -- what comes before it is too small, and the numbers increase
  obtain ⟨-, before, after, happend, hbefore⟩ := List.find?_eq_some_iff_append.mp htarget
  have hsorted : legalLocal.Pairwise (· ≤ ·) := by decide
  rw [happend] at hsorted hl
  rcases List.mem_append.mp hl with hmem | hmem
  · have := hbefore l hmem
    simp [hle] at this
  · rcases List.mem_cons.mp hmem with rfl | hmem
    · exact le_rfl
    · exact (List.pairwise_cons.mp (List.pairwise_append.mp hsorted).2.1).1 l hmem

/-! ## Rounding up -/

variable {tp groups per : ℕ}

theorem ceilTo_dvd (n d : ℕ) : d ∣ ceilTo n d := Dvd.intro_left _ rfl

/-- Rounding up gives the least multiple that is not below the number. -/
theorem ceilTo_le_iff {n d m : ℕ} (hd : 0 < d) : ceilTo n d ≤ m * d ↔ n ≤ m * d := by
  rw [ceilTo]
  constructor
  · intro h
    have hle := Nat.le_of_mul_le_mul_right h hd
    rw [Nat.div_le_iff_le_mul_add_pred hd] at hle
    rw [Nat.mul_comm]
    omega
  · intro h
    refine Nat.mul_le_mul_right d ?_
    rw [Nat.div_le_iff_le_mul_add_pred hd, Nat.mul_comm]
    omega

theorem le_ceilTo {n d : ℕ} (hd : 0 < d) : n ≤ ceilTo n d :=
  (ceilTo_le_iff hd).mp le_rfl

/-- A number that is a multiple already is left alone by rounding up. -/
theorem ceilTo_of_dvd {n d : ℕ} (hd : 0 < d) (h : d ∣ n) : ceilTo n d = n := by
  obtain ⟨m, rfl⟩ := h
  refine le_antisymm ?_ (le_ceilTo hd)
  rw [Nat.mul_comm d m, ceilTo_le_iff hd]

/-- A multiple of the ranks is no smaller than the groups when it has a multiple for each of
theirs. -/
theorem le_mul_iff {m : ℕ} (htp : 0 < tp) : groups ≤ m * tp ↔ (groups + tp - 1) / tp ≤ m := by
  rw [← ceilTo_le_iff htp, ceilTo, Nat.mul_le_mul_right_iff htp]

/-! ## Legal geometries -/

/-- A legal geometry is a number of groups for every rank, of a legal number of heads. -/
theorem legalGeometry_iff {heads' groups' : ℕ} (htp : 0 < tp) :
    LegalGeometry tp groups per heads' groups' ↔
      ∃ m, groups' = m * tp ∧ heads' = m * per * tp ∧ m * per ∈ legalLocal ∧ groups ≤ m * tp := by
  constructor
  · intro h
    obtain ⟨m, rfl⟩ := exists_eq_mul_left_of_dvd h.dvd_groups
    have hheads : heads' = m * per * tp := h.ratio.trans (Nat.mul_right_comm m tp per)
    have hlegal := h.legal
    rw [hheads, Nat.mul_div_cancel _ htp] at hlegal
    exact ⟨m, rfl, hheads, hlegal, h.groups_le⟩
  · rintro ⟨m, rfl, rfl, hlegal, hle⟩
    refine ⟨?_, hle, Nat.mul_right_comm m per tp, Dvd.intro_left m rfl, Dvd.intro_left _ rfl, ?_⟩
    · rw [Nat.mul_right_comm]
      exact Nat.mul_le_mul_right per hle
    · rwa [Nat.mul_div_cancel _ htp]

/-- There is a legal geometry exactly when some legal local number is a multiple of the group size
and holds a rank's groups. -/
theorem exists_legalGeometry_iff (htp : 0 < tp) (hper : 0 < per) :
    (∃ heads' groups', LegalGeometry tp groups per heads' groups') ↔
      ∃ l ∈ legalLocal, per ∣ l ∧ (groups + tp - 1) / tp * per ≤ l := by
  constructor
  · rintro ⟨heads', groups', h⟩
    obtain ⟨m, -, -, hlegal, hle⟩ := (legalGeometry_iff htp).mp h
    exact ⟨m * per, hlegal, Dvd.intro_left m rfl,
      Nat.mul_le_mul_right per ((le_mul_iff htp).mp hle)⟩
  · rintro ⟨l, hl, ⟨m, rfl⟩, hle⟩
    rw [Nat.mul_comm per m] at hl hle
    have hm := Nat.le_of_mul_le_mul_right hle hper
    exact ⟨_, _, (legalGeometry_iff htp).mpr ⟨m, rfl, rfl, hl, (le_mul_iff htp).mpr hm⟩⟩

/-! ## The two steps -/

variable {new : ℕ × ℕ}

/-- Where the target of all ranks is of whole groups, it is taken. -/
theorem legalStep_target {k : ℕ} (hper : 0 < per) (hlegal : new.1 / tp ∉ legalLocal)
    (htarget : targetLocal (new.1 / tp) * tp = k * per) : legalStep tp per new = (k * per, k) := by
  rw [legalStep, if_neg hlegal, htarget]
  dsimp only
  rw [Nat.mul_div_cancel _ hper, if_neg (not_not.mpr rfl)]

/-- The last step leaves a geometry alone whose local number of heads is legal. -/
theorem legalStep_of_legal (hlegal : new.1 / tp ∈ legalLocal) : legalStep tp per new = new :=
  if_pos hlegal

/-- The size of a group is recovered from the heads and the groups by division. -/
theorem per_eq (hgroups : 0 < groups) (hper : 0 < per) :
    max (groups * per / groups) 1 = per := by
  rw [Nat.mul_div_cancel_left _ hgroups]
  exact max_eq_left hper

/-- **Where `tp` divides the heads and not the groups**, the first step leaves both. -/
theorem padGeometry_of_heads (hgroups : 0 < groups) (hper : 0 < per)
    (hheads : tp ∣ groups * per) :
    padGeometry tp (groups * per) groups = legalStep tp per (groups * per, groups) := by
  rw [padGeometry, per_eq hgroups hper, groupStep,
    if_neg (not_not.mpr (Nat.mod_eq_zero_of_dvd hheads))]

/-- Where the ranks do not divide the heads, or divide the groups as well, the padding rounds up the
groups. -/
theorem padGeometry_of_groups (htp : 0 < tp) (hgroups : 0 < groups) (hper : 0 < per)
    (h : tp ∣ groups * per → tp ∣ groups) :
    padGeometry tp (groups * per) groups =
      legalStep tp per (ceilTo groups tp * per, ceilTo groups tp) := by
  by_cases hheads : tp ∣ groups * per
  · rw [padGeometry_of_heads hgroups hper hheads, ceilTo_of_dvd htp (h hheads)]
  · rw [padGeometry, per_eq hgroups hper, groupStep, if_pos fun h0 =>
      hheads (Nat.dvd_of_mod_eq_zero h0)]

/-- A geometry that is legal already is returned as it is, so nothing is padded. -/
theorem padGeometry_of_legal {heads' groups' : ℕ} (hper : 0 < per)
    (hgroups : 0 < groups) (h : LegalGeometry tp groups per heads' groups') :
    padGeometry tp heads' groups' = (heads', groups') := by
  have hlegal := h.legal
  have hdvd := h.dvd_heads
  have hpos : 0 < groups' := hgroups.trans_le h.groups_le
  rw [h.ratio] at hlegal hdvd ⊢
  rw [padGeometry_of_heads hpos hper hdvd, legalStep_of_legal hlegal]

/-- The second step makes a geometry legal when the least legal number that is large enough has
whole groups. -/
theorem legalStep_legal {heads₁ groups₁ l : ℕ} (htp : 0 < tp) (hper : 0 < per)
    (hlegal : heads₁ / tp ∉ legalLocal) (hge : groups * per ≤ heads₁ / tp * tp)
    (hl : l ∈ legalLocal) (hle : heads₁ / tp ≤ l) (hdvd : per ∣ l)
    (htarget : per ≤ targetLocal (heads₁ / tp)) :
    LegalGeometry tp groups per (legalStep tp per (heads₁, groups₁)).1
      (legalStep tp per (heads₁, groups₁)).2 := by
  obtain ⟨hmem, hlo, -⟩ := targetLocal_spec hl hle
  obtain ⟨m, hm⟩ := exists_eq_mul_left_of_dvd (dvd_of_legal hmem hdvd hl htarget)
  have hstep : legalStep tp per (heads₁, groups₁) = (m * tp * per, m * tp) :=
    legalStep_target hper hlegal (by rw [hm, Nat.mul_right_comm])
  rw [hstep]
  refine (legalGeometry_iff htp).mpr ⟨m, rfl, Nat.mul_right_comm m tp per, hm ▸ hmem, ?_⟩
  -- `m` groups of a rank have the target's heads, which are enough
  refine Nat.le_of_mul_le_mul_right ?_ hper
  calc groups * per ≤ heads₁ / tp * tp := hge
    _ ≤ m * per * tp := Nat.mul_le_mul_right tp (hlo.trans_eq hm)
    _ = m * tp * per := Nat.mul_right_comm m per tp

/-- The ranks' target is of whole groups: what of a group's size is not shared by the ranks is a
power of two that divides the heads of a rank. -/
theorem dvd_target_mul {q target l : ℕ} (hgroups : 0 < groups) (hper : 0 < per)
    (hq : groups * per = q * tp) (htarget : target ∈ legalLocal) (hle : q ≤ target)
    (hl : l ∈ legalLocal) (hdvd : per ∣ l) : per ∣ target * tp := by
  have hgcd : 0 < Nat.gcd per tp := Nat.gcd_pos_of_pos_left tp hper
  have hqpos : 0 < q := Nat.pos_of_ne_zero fun h0 => by
    rw [h0, Nat.zero_mul] at hq
    exact absurd hq (Nat.mul_pos hgroups hper).ne'
  -- `e` is the part of a group's size that is not shared
  obtain ⟨e, he⟩ := exists_eq_mul_left_of_dvd (Nat.gcd_dvd_left per tp)
  obtain ⟨f, hf⟩ := exists_eq_mul_left_of_dvd (Nat.gcd_dvd_right per tp)
  have hcoprime : Nat.Coprime e f := by
    have h := Nat.coprime_div_gcd_div_gcd hgcd
    have hdive : per / Nat.gcd per tp = e := Nat.div_eq_of_eq_mul_left hgcd he
    have hdivf : tp / Nat.gcd per tp = f := Nat.div_eq_of_eq_mul_left hgcd hf
    rwa [hdive, hdivf] at h
  have heq : e ∣ q := by
    refine hcoprime.dvd_of_dvd_mul_right ⟨groups, ?_⟩
    refine Nat.eq_of_mul_eq_mul_right hgcd ?_
    rw [Nat.mul_assoc, ← hf, ← hq, Nat.mul_right_comm, ← he, Nat.mul_comm]
  have hel : e ∣ l := (Dvd.intro _ he.symm).trans hdvd
  have htarget := dvd_of_legal htarget hel hl ((Nat.le_of_dvd hqpos heq).trans hle)
  rw [he]
  exact Nat.mul_dvd_mul htarget (Nat.gcd_dvd_right per tp)

/-! ## When the padding is right -/

/-- The first step rounds the groups up: a legal geometry is left if there is one. -/
theorem padGeometry_legal_of_groups {l : ℕ} (htp : 0 < tp) (hgroups : 0 < groups) (hper : 0 < per)
    (hheads : tp ∣ groups * per → tp ∣ groups) (hl : l ∈ legalLocal) (hdvd : per ∣ l)
    (hle : (groups + tp - 1) / tp * per ≤ l) :
    LegalGeometry tp groups per (padGeometry tp (groups * per) groups).1
      (padGeometry tp (groups * per) groups).2 := by
  have hdiv : ceilTo groups tp * per / tp = (groups + tp - 1) / tp * per := by
    rw [ceilTo, Nat.mul_right_comm, Nat.mul_div_cancel _ htp]
  rw [padGeometry_of_groups htp hgroups hper hheads]
  by_cases hlegal : ceilTo groups tp * per / tp ∈ legalLocal
  · rw [legalStep_of_legal hlegal]
    rw [hdiv] at hlegal
    exact (legalGeometry_iff htp).mpr
      ⟨(groups + tp - 1) / tp, rfl, Nat.mul_right_comm _ tp per, hlegal, le_ceilTo htp⟩
  · have hpos : 1 ≤ (groups + tp - 1) / tp := Nat.div_pos (by omega) htp
    rw [← hdiv] at hle
    apply legalStep_legal htp hper hlegal _ hl hle hdvd
    · refine le_trans ?_ (targetLocal_spec hl hle).2.1
      rw [hdiv]
      exact Nat.le_mul_of_pos_left per hpos
    · rw [hdiv, Nat.mul_right_comm]
      exact Nat.mul_le_mul_right per (le_ceilTo htp)

/-- The first step leaves groups that the ranks cannot share: a legal geometry is left only if
the second step has a target, and that is of whole groups. -/
theorem target_of_padGeometry_legal (htp : 0 < tp) (hgroups : 0 < groups) (hper : 0 < per)
    (hheads : tp ∣ groups * per) (hnot : ¬ tp ∣ groups)
    (h : LegalGeometry tp groups per (padGeometry tp (groups * per) groups).1
      (padGeometry tp (groups * per) groups).2) {l : ℕ} (hl : l ∈ legalLocal)
    (hle : groups * per ≤ l * tp) : groups * per ≠ l * tp ∧ per ≤ l := by
  obtain ⟨q, hq⟩ := exists_eq_mul_left_of_dvd hheads
  have hdiv : groups * per / tp = q := by
    rw [hq, Nat.mul_div_cancel _ htp]
  obtain ⟨l₀, hl₀, hdvd, -⟩ := (exists_legalGeometry_iff htp hper).mp ⟨_, _, h⟩
  rw [padGeometry_of_heads hgroups hper hheads] at h
  have hlegal : groups * per / tp ∉ legalLocal := by
    intro hmem
    rw [legalStep_of_legal hmem] at h
    exact hnot h.dvd_groups
  refine ⟨fun heq => hlegal ?_, ?_⟩
  · rwa [heq, Nat.mul_div_cancel _ htp]
  · rw [hq] at hle
    have hle := Nat.le_of_mul_le_mul_right hle htp
    rw [← hdiv] at hle
    obtain ⟨hmem, hlo, hhi⟩ := targetLocal_spec hl hle
    refine le_trans ?_ hhi
    obtain ⟨k, hk⟩ := exists_eq_mul_left_of_dvd
      (dvd_target_mul hgroups hper hq hmem (hdiv ▸ hlo) hl₀ hdvd)
    rw [legalStep_target hper hlegal hk] at h
    obtain ⟨m, rfl, -, -, hm⟩ := (legalGeometry_iff htp).mp h
    have hmpos : 0 < m := Nat.pos_of_ne_zero fun h0 => by simp [h0] at hm; omega
    -- the target's groups are shared by the ranks, so each has one
    rw [Nat.mul_right_comm] at hk
    rw [Nat.eq_of_mul_eq_mul_right htp hk]
    exact Nat.le_mul_of_pos_left per hmpos

/-- Where the ranks divide the heads and every legal number with room for them has more, the padding
leaves a legal geometry. -/
theorem padGeometry_legal_of_target {l : ℕ} (htp : 0 < tp) (hgroups : 0 < groups) (hper : 0 < per)
    (hheads : tp ∣ groups * per) (hl : l ∈ legalLocal) (hdvd : per ∣ l)
    (hle : (groups + tp - 1) / tp * per ≤ l)
    (hall : ∀ l ∈ legalLocal, groups * per ≤ l * tp → groups * per ≠ l * tp ∧ per ≤ l) :
    LegalGeometry tp groups per (padGeometry tp (groups * per) groups).1
      (padGeometry tp (groups * per) groups).2 := by
  obtain ⟨q, hq⟩ := exists_eq_mul_left_of_dvd hheads
  have hdiv : groups * per / tp = q := by
    rw [hq, Nat.mul_div_cancel _ htp]
  rw [padGeometry_of_heads hgroups hper hheads]
  have hlegal : groups * per / tp ∉ legalLocal := by
    intro hmem
    rw [hdiv] at hmem
    exact (hall q hmem hq.le).1 hq
  have hqle : groups * per / tp ≤ l := by
    rw [hdiv]
    refine le_trans (Nat.le_of_mul_le_mul_right ?_ htp) hle
    rw [← hq, Nat.mul_right_comm]
    exact Nat.mul_le_mul_right per (le_ceilTo htp)
  obtain ⟨hmem, hlo, -⟩ := targetLocal_spec hl hqle
  refine legalStep_legal htp hper hlegal ?_ hl hqle hdvd (hall _ hmem ?_).2
  · rw [hdiv, hq]
  · exact hq.le.trans (Nat.mul_le_mul_right tp (hdiv.symm.le.trans hlo))

/-- **When the geometry that is left is legal**: exactly under the condition on heads, groups and
ranks. -/
theorem padGeometry_legal_iff (htp : 0 < tp) (hgroups : 0 < groups) (hper : 0 < per) :
    LegalGeometry tp groups per (padGeometry tp (groups * per) groups).1
      (padGeometry tp (groups * per) groups).2 ↔ PadCondition tp groups per := by
  constructor
  · intro h
    refine ⟨(exists_legalGeometry_iff htp hper).mp ⟨_, _, h⟩, fun hheads => ?_⟩
    exact or_iff_not_imp_left.mpr fun hnot l hl hle =>
      target_of_padGeometry_legal htp hgroups hper hheads hnot h hl hle
  · rintro ⟨⟨l, hl, hdvd, hle⟩, hcond⟩
    by_cases hheads : tp ∣ groups * per → tp ∣ groups
    · exact padGeometry_legal_of_groups htp hgroups hper hheads hl hdvd hle
    · obtain ⟨hheads, hnot⟩ := Classical.not_imp.mp hheads
      exact padGeometry_legal_of_target htp hgroups hper hheads hl hdvd hle
        ((hcond hheads).resolve_left hnot)

/-! ## The configuration that is left -/

/-- Padding the draft experts leaves the heads and the groups as they were. -/
theorem padDraft_geometry (text : TextConfig) :
    (padDraft tp text).numAttentionHeads = text.numAttentionHeads ∧
      (padDraft tp text).oGroups = text.oGroups := by
  rw [padDraft]
  split
  · exact ⟨rfl, rfl⟩
  · exact ⟨rfl, rfl⟩

/-- In a text configuration with heads and groups the heads and the groups are those of the padded
geometry. -/
theorem padText_geometry (tp : ℕ) {text : TextConfig} {heads : ℕ}
    (hheads : text.numAttentionHeads = some heads) (hgroups : text.oGroups = some groups)
    (hpos : heads ≠ 0 ∧ groups ≠ 0) :
    (padText tp text).numAttentionHeads = some (padGeometry tp heads groups).1 ∧
      (padText tp text).oGroups = some (padGeometry tp heads groups).2 := by
  rw [padText, (padDraft_geometry _).1, (padDraft_geometry _).2, padHeads, hheads, hgroups]
  simp only [Option.getD_some]
  by_cases hsame : padGeometry tp heads groups = (heads, groups)
  · rw [if_neg fun h => h.2.2 hsame, hheads, hgroups, hsame]
    exact ⟨rfl, rfl⟩
  · rw [if_pos ⟨hpos.1, hpos.2, hsame⟩]
    exact ⟨rfl, rfl⟩

/-- The number of draft experts is padded to a multiple of the ranks, so each rank has as many. -/
theorem padDraft_dvd (text : TextConfig) :
    tp ∣ (padDraft tp text).dsparkNRoutedExperts.getD 0 := by
  rw [padDraft]
  split
  next => exact ceilTo_dvd _ _
  next hno =>
    by_contra hnot
    refine hno ⟨fun h0 => hnot ?_, fun h0 => hnot (Nat.dvd_of_mod_eq_zero h0)⟩
    rw [h0]
    exact dvd_zero tp

/-- A text configuration whose geometry and draft experts need no padding stays. -/
theorem padText_self {text : TextConfig} {heads : ℕ}
    (hheads : text.numAttentionHeads = some heads) (hgroups : text.oGroups = some groups)
    (hsame : padGeometry tp heads groups = (heads, groups))
    (hdraft : tp ∣ text.dsparkNRoutedExperts.getD 0) : padText tp text = text := by
  have hkeep : padHeads tp text = text := by
    rw [padHeads, hheads, hgroups]
    exact if_neg fun h => h.2.2 hsame
  rw [padText, hkeep, padDraft, if_neg fun h => h.2 (Nat.mod_eq_zero_of_dvd hdraft)]

/-- Padding the vision heads a second time leaves them as the first time did. -/
theorem padVision_padVision (vis : VisionConfig) :
    padVision tp (padVision tp vis) = padVision tp vis := by
  by_cases hpad : visionHeads vis ≠ 0 ∧ visionHeads vis % tp ≠ 0
  · have hnew : padVision tp vis =
        ⟨vis.numAttentionHeads.map fun _ => ceilTo (visionHeads vis) tp,
          vis.numHeads.map fun _ => ceilTo (visionHeads vis) tp⟩ := if_pos hpad
    -- each field that there is becomes one multiple
    have hdvd : tp ∣ visionHeads (padVision tp vis) := by
      have hfield : ∀ field : Option ℕ,
          tp ∣ (field.map fun _ => ceilTo (visionHeads vis) tp).getD 0 := by
        intro field
        cases field with
        | none => exact dvd_zero tp
        | some _ => exact ceilTo_dvd _ tp
      rw [hnew, visionHeads]
      split
      · exact hfield _
      · exact hfield _
    exact if_neg fun h => h.2 (Nat.mod_eq_zero_of_dvd hdvd)
  · have hkeep : padVision tp vis = vis := if_neg hpad
    rw [hkeep, hkeep]

/-- The text configuration of a configuration that is padded is the padded text configuration. -/
theorem padDsv41HfConfig_text (hf : HfConfig) :
    (padDsv41HfConfig tp hf).text = padText tp hf.text := by
  rw [padDsv41HfConfig, HfConfig.text, HfConfig.text]
  cases hf.textConfig with
  | none => rfl
  | some text => rfl

/-- Padding a configuration twice is padding it once, when this holds of its text configuration. -/
theorem padDsv41HfConfig_idem {hf : HfConfig}
    (h : padText tp (padText tp hf.text) = padText tp hf.text) :
    padDsv41HfConfig tp (padDsv41HfConfig tp hf) = padDsv41HfConfig tp hf := by
  have hvision : ((hf.visionConfig.map (padVision tp)).map (padVision tp)) =
      hf.visionConfig.map (padVision tp) := by
    cases hf.visionConfig with
    | none => rfl
    | some vis => exact congrArg some (padVision_padVision vis)
  obtain ⟨own, text, vision⟩ := hf
  cases text with
  | none =>
    simp only [padDsv41HfConfig, HfConfig.text, Option.getD_none] at h hvision ⊢
    rw [h, hvision]
  | some text =>
    simp only [padDsv41HfConfig, HfConfig.text, Option.getD_some] at h hvision ⊢
    rw [h, hvision]
    exact congrArg (fun own => HfConfig.mk own _ _) (if_neg (not_not.mpr rfl))

/-- Copying the geometry into the model's attributes leaves the configuration itself alone. -/
theorem copyText_hfConfig (text : TextConfig) (self : ModelConfig) :
    (copyText text self).hfConfig = self.hfConfig := by
  rw [copyText.eq_def]
  split
  next => rfl
  next => rfl
  next => split <;> rfl

/-- The wrapper pads once when a text configuration that is padded stays. -/
theorem wrappedInit_hfConfig {hf : HfConfig} {self : ModelConfig} (hself : self.hfConfig = some hf)
    (h : (padDsv41HfConfig tp (padDsv41HfConfig tp hf).text.alone).own =
      (padDsv41HfConfig tp hf).text) :
    (wrappedInit tp self).hfConfig = some (padDsv41HfConfig tp hf) := by
  rw [wrappedInit, hself]
  dsimp only
  generalize padDsv41HfConfig tp hf = hf' at h ⊢
  obtain ⟨own, text, vision⟩ := hf'
  cases text with
  | none => rfl
  | some text =>
    rw [HfConfig.text, Option.getD_some] at h
    dsimp only
    rw [h, copyText_hfConfig]

/-- **When the padding is right.** For every number of ranks and every configuration with whole
groups, what is left is a legal geometry, no smaller, which padding again does not change, when
such a geometry exists and, where the ranks share the heads and not the groups, the heads of a
rank are not already legal, nor is a number from there on below the size of a group; and only
then. -/
theorem pad_dsv41_hf_config_iff {tp groups per : ℕ} (htp : 2 ≤ tp) (hgroups : 0 < groups)
    (hper : 0 < per) (hf : HfConfig)
    (hheads : hf.text.numAttentionHeads = some (groups * per))
    (hoGroups : hf.text.oGroups = some groups) :
    PadsWell tp groups per hf ↔ PadCondition tp groups per := by
  have hpos : 0 < tp := by omega
  have hne : groups * per ≠ 0 ∧ groups ≠ 0 := ⟨(Nat.mul_pos hgroups hper).ne', hgroups.ne'⟩
  obtain ⟨hnew, hnewGroups⟩ := padText_geometry tp hheads hoGroups hne
  rw [← padGeometry_legal_iff hpos hgroups hper, PadsWell, padDsv41HfConfig_text, hnew, hnewGroups]
  constructor
  · rintro ⟨⟨heads', groups', hheads', hgroups', hlegal⟩, -⟩
    obtain rfl := Option.some.inj hheads'
    obtain rfl := Option.some.inj hgroups'
    exact hlegal
  · intro hlegal
    have hidem : padText tp (padText tp hf.text) = padText tp hf.text :=
      padText_self hnew hnewGroups (padGeometry_of_legal hper hgroups hlegal) (padDraft_dvd _)
    have halone : (padDsv41HfConfig tp (padDsv41HfConfig tp hf).text.alone).own =
        (padDsv41HfConfig tp hf).text := by
      rw [padDsv41HfConfig_text]
      exact hidem
    refine ⟨⟨_, _, rfl, rfl, hlegal⟩, padDsv41HfConfig_idem hidem, hidem, fun self hself => ?_⟩
    exact wrappedInit_hfConfig hself halone

/-- With 64 heads in 8 groups over 3 ranks the configuration is padded well. -/
theorem pad_dsv41_hf_config_three :
    PadsWell 3 8 8 ⟨⟨some 64, some 8, some 128⟩, none, none⟩ :=
  (pad_dsv41_hf_config_iff (by decide) (by decide) (by decide) _ rfl rfl).mpr (by decide)

/-- **128 heads in 8 groups over 16 ranks are left as they are**, with half a group for a rank,
although 256 heads in 16 groups are a legal geometry. -/
theorem pad_dsv41_hf_config_sixteen :
    ¬ PadsWell 16 8 16 ⟨⟨some 128, some 8, none⟩, none, none⟩ ∧ LegalGeometry 16 8 16 256 16 ∧
      padDsv41HfConfig 16 ⟨⟨some 128, some 8, none⟩, none, none⟩ =
        ⟨⟨some 128, some 8, none⟩, none, none⟩ := by
  refine ⟨?_, ⟨by decide, by decide, by decide, by decide, by decide, by decide⟩, by decide⟩
  rintro ⟨⟨heads', groups', -, hgroups', hlegal⟩, -⟩
  have hleft : (padDsv41HfConfig 16 ⟨⟨some 128, some 8, none⟩, none, none⟩).text.oGroups =
      some 8 := by decide
  rw [hleft] at hgroups'
  obtain rfl := Option.some.inj hgroups'
  exact absurd hlegal.dvd_groups (by decide)

end LuzServing
