import LuzServing.Machine
import LuzServing.RequestWindowLayout

/-!
# The request window over whole runs

A run is any schedule of forwards and slot resets. A forward takes rows of distinct
slots, each slot's from the first position it has not committed; afterwards any prefix
of the new rows is kept, as long as no more are rejected than the ring has to spare.

The invariant (`WindowInv`) says what the rings are for: of each slot, the window behind
its next position is in the slot's ring, tagged. It ties together the three ways to name
a cached row: the slot and position it was written for, the ring row, the workspace row.
From it `window_exact` reads off what attention sees at every layer of every forward.
-/

namespace LuzServing

namespace RequestWindow

variable {K : Type} (c : WindowConfig)

/-! ## One layer -/

/-- The history of a layer is in front of a workspace. -/
def HistoryIn (w : RequestWindow K) (L : WindowLayout) (layer : ℕ) (kv : ℤ → K) : Prop :=
  ∀ h, h < L.historyRows → kv h = w.state layer (historySrc c L h)

/-- **What `buffer` does**: the history of the layer is in front of the workspace, and
nothing else changes. -/
structure Buffered (w w' : RequestWindow K) (ws ws' : WindowPool K) (L : WindowLayout)
    (layer : ℕ) : Prop where
  /-- the rings are read only -/
  state : w'.state = w.state
  /-- and so are the tags -/
  tags : w'.tags = w.tags
  /-- the layout stays -/
  layout : w'.layout = w.layout
  /-- the workspace after the call -/
  workspace : w'.workspace = some ws'
  /-- it is the same -/
  size : ws'.size = ws.size
  /-- with the history in front -/
  history : w.HistoryIn c L layer ws'.kv
  /-- and the rows after it as they were -/
  rows : ∀ i : ℕ, ws'.kv (L.historyRows + i) = ws.kv (L.historyRows + i)
  /-- it is prepared for the layer -/
  prepared : ∃ inCapture, w'.prepared = some (layer, inCapture)

variable {c} {w : RequestWindow K} {ws : WindowPool K} {object : ℕ} {L : WindowLayout} {layer : ℕ}

/-- After `buffer` the history rows of the workspace hold the window of every request, copied or
found there. -/
theorem buffer_spec (hlayout : w.layout = some (object, L)) (hws : w.workspace = some ws)
    (hloc : ∀ h, L.historyLoc h = h) (htag : w.historyTagged c L layer = true)
    (hprep : (∃ inCapture, w.prepared = some (layer, inCapture)) → w.HistoryIn c L layer ws.kv)
    (inCapture : Bool) :
    ∃ w' ws', w.buffer c layer inCapture = .ok w' ∧ Buffered c w w' ws ws' L layer := by
  unfold buffer
  split
  next heq =>
    exact ⟨w, ws, rfl, rfl, rfl, rfl, hws, rfl, hprep ⟨_, heq⟩, fun _ => rfl, _, heq⟩
  next hne =>
    simp only [hlayout, hws, htag, Bool.not_true, Bool.and_false, Bool.false_eq_true, if_false]
    refine ⟨_, _, rfl, rfl, rfl, hlayout.symm, rfl, rfl, fun h hh => ?_, fun i => ?_, _, rfl⟩
    · refine storeAll_eq (fun s hs hsh => ?_)
        ⟨(h, w.state layer (historySrc c L h)), ?_, rfl⟩
      · obtain ⟨h', -, rfl⟩ := List.mem_map.mp hs
        rw [hloc] at hsh
        rw [Nat.cast_injective (R := ℤ) hsh]
      · exact List.mem_map.mpr ⟨h, List.mem_range.mpr hh, by rw [hloc]⟩
    · refine storeAll_map_of_ne fun h hh => ?_
      have := List.mem_range.mp hh
      rw [hloc]
      omega

variable (c) in
/-- **What attention reads**: the history of the layer, then the new rows. -/
structure LayerView (w : RequestWindow K) (L : WindowLayout) (layer : ℕ) (newK : ℕ → K)
    (kv : ℤ → K) : Prop where
  /-- the history -/
  history : w.HistoryIn c L layer kv
  /-- the new rows -/
  rows : ∀ i : ℕ, i < L.numRows → kv (L.historyRows + i) = newK i

variable (c layer) in
/-- After `set_key_buffer` the new rows stand in the workspace behind the history rows. -/
theorem setKeyBuffer_spec (hlayout : w.layout = some (object, L)) (hws : w.workspace = some ws)
    (hloc : ∀ i, L.writeLoc i = L.historyRows + i) (newK : ℕ → K) :
    ∃ ws', w.setKeyBuffer newK = { w with workspace := some ws' } ∧ ws'.size = ws.size ∧
      (w.HistoryIn c L layer ws.kv → LayerView c w L layer newK ws'.kv) := by
  refine ⟨⟨ws.size, storeAll ws.kv ((List.range L.numRows).map fun i => (L.writeLoc i, newK i))⟩,
    ?_, rfl, fun hhist => ⟨fun h hh => ?_, fun i hi => ?_⟩⟩
  · simp only [setKeyBuffer, hlayout, hws]
  · rw [← hhist h hh]
    refine storeAll_map_of_ne fun i _ => ?_
    rw [hloc]
    omega
  · rw [← hloc i]
    apply storeAll_map_eq L.writeLoc newK (List.mem_range.mpr hi)
    intro i' _ heq
    rw [hloc, hloc] at heq
    rw [show i' = i by omega]

variable (c) in
/-- The ring rows of a layer once the new rows are committed. -/
def committedState (L : WindowLayout) (newK : ℕ → K) (kv : ℤ → K) : ℤ → K :=
  storeAll kv ((List.range L.numRows).map fun i => (commitDst c L i, newK i))

variable (c) in
/-- The tags of the ring rows after a commit. -/
def committedTags (L : WindowLayout) (tags : ℤ → ℤ) : ℤ → ℤ :=
  storeAll tags ((List.range L.numRows).map fun i => (commitDst c L i, L.pos i))

/-- `commit` writes the new rows and their positions to the rings of the layer. -/
theorem commit_spec (hlayout : w.layout = some (object, L)) (hws : w.workspace = some ws)
    (hhloc : ∀ h, L.historyLoc h = h) (hwloc : ∀ i, L.writeLoc i = L.historyRows + i)
    (htag : w.historyTagged c L layer = true) {newK : ℕ → K}
    (hview : LayerView c w L layer newK ws.kv) (inCapture : Bool) :
    ∃ w' ws', w.commit c layer inCapture = .ok w' ∧ w'.layout = some (object, L) ∧
      w'.workspace = some ws' ∧ ws'.size = ws.size ∧ (∃ ph, w'.prepared = some (layer, ph)) ∧
      w'.state = Function.update w.state layer (committedState c L newK (w.state layer)) ∧
      w'.tags = Function.update w.tags layer (committedTags c L (w.tags layer)) := by
  obtain ⟨w₁, ws₁, hbuf, hb⟩ :=
    buffer_spec hlayout hws hhloc htag (fun _ => hview.history) inCapture
  have hcopy : copyPackedTokens ws₁.kv (w.state layer) L.numRows L.writeLoc (commitDst c L) =
      committedState c L newK (w.state layer) := by
    rw [copyPackedTokens, committedState]
    congr 1
    refine List.map_congr_left fun i hi => ?_
    rw [hwloc, hb.rows, hview.rows i (List.mem_range.mp hi)]
  refine ⟨{ w₁ with
    state := Function.update w.state layer (committedState c L newK (w.state layer))
    tags := Function.update w.tags layer (committedTags c L (w.tags layer)) }, ws₁, ?_,
    hb.layout.trans hlayout, hb.workspace, hb.size, hb.prepared, rfl, rfl⟩
  simp only [commit, hbuf, bind, Except.bind, hb.layout.trans hlayout, hb.workspace, hb.state,
    hb.tags, hcopy, committedTags]
  rfl

variable (c) in
/-- **One layer**: attention reads the history and the new rows, and the new rows are
committed. -/
theorem forwardLayer_spec (hlayout : w.layout = some (object, L)) (hws : w.workspace = some ws)
    (hhloc : ∀ h, L.historyLoc h = h) (hwloc : ∀ i, L.writeLoc i = L.historyRows + i)
    (htag : w.historyTagged c L layer = true)
    (hprep : ∀ inCapture, w.prepared ≠ some (layer, inCapture)) (ph : WindowPhases)
    (newK : ℕ → K) :
    ∃ w' ws' view, w.forwardLayer c layer ph newK = .ok (w', view) ∧
      LayerView c w L layer newK view.kv ∧ view.size = ws.size ∧
      w'.layout = some (object, L) ∧ w'.workspace = some ws' ∧ ws'.size = ws.size ∧
      (∃ ph, w'.prepared = some (layer, ph)) ∧
      w'.state = Function.update w.state layer (committedState c L newK (w.state layer)) ∧
      w'.tags = Function.update w.tags layer (committedTags c L (w.tags layer)) := by
  -- the store's buffer, the new rows, the read's buffer, the commit
  obtain ⟨w₁, ws₁, hstore, h₁⟩ := buffer_spec hlayout hws hhloc htag
    (fun ⟨ph, hph⟩ => absurd hph (hprep ph)) ph.store
  obtain ⟨ws₂, hset, hsize, hview⟩ := setKeyBuffer_spec c layer
    (h₁.layout.trans hlayout) h₁.workspace hwloc newK
  have hhist₁ : w₁.HistoryIn c L layer ws₁.kv := by
    intro h hh
    rw [h₁.history h hh, h₁.state]
  have htag₁ : w₁.historyTagged c L layer = true := by
    rw [historyTagged, h₁.tags]
    exact htag
  obtain ⟨w₃, ws₃, hread, h₃⟩ := buffer_spec (w := { w₁ with workspace := some ws₂ })
    (h₁.layout.trans hlayout) rfl hhloc htag₁ (fun _ => (hview hhist₁).history) ph.read
  have hview₃ : LayerView c w₃ L layer newK ws₃.kv := by
    constructor
    · intro h hh
      rw [h₃.history h hh, h₃.state]
    · intro i hi
      rw [h₃.rows, (hview hhist₁).rows i hi]
  have htag₃ : w₃.historyTagged c L layer = true := by
    rw [historyTagged, h₃.tags]
    exact htag₁
  have hstate : w₃.state = w.state := h₃.state.trans h₁.state
  have htags : w₃.tags = w.tags := h₃.tags.trans h₁.tags
  obtain ⟨w₄, ws₄, hcommit, hlayout₄, hws₄, hsize₄, hprep₄, hstate₄, htags₄⟩ :=
    commit_spec (h₃.layout.trans (h₁.layout.trans hlayout)) h₃.workspace hhloc hwloc htag₃ hview₃
      ph.commit
  refine ⟨w₄, ws₄, ws₃, ?_, ⟨fun h hh => ?_, hview₃.rows⟩, ?_, hlayout₄, hws₄, ?_, hprep₄, ?_, ?_⟩
  · simp only [forwardLayer, hstore, bind, Except.bind, hset, hread, h₃.workspace, hcommit]
    rfl
  · rw [hview₃.history h hh, hstate]
  · rw [h₃.size, hsize, h₁.size]
  · rw [hsize₄, h₃.size, hsize, h₁.size]
  · rw [hstate₄, hstate]
  · rw [htags₄, htags]

variable (c) in
/-- **The layers of a forward**: each reads its own history and rows, and commits its own
rows, whatever the order of the layers. -/
theorem forwardLayers_spec (hhloc : ∀ h, L.historyLoc h = h)
    (hwloc : ∀ i, L.writeLoc i = L.historyRows + i) (ph : ℕ → WindowPhases) (newK : ℕ → ℕ → K)
    (layers : List ℕ) (hnodup : layers.Nodup) {w : RequestWindow K} {ws : WindowPool K}
    (hlayout : w.layout = some (object, L)) (hws : w.workspace = some ws)
    (htag : ∀ layer ∈ layers, w.historyTagged c L layer = true)
    (hprep : ∀ layer ∈ layers, ∀ inCapture, w.prepared ≠ some (layer, inCapture)) :
    ∃ w' views, w.forwardLayers c ph newK layers = .ok (w', views) ∧
      views.map Prod.fst = layers ∧
      (∀ v ∈ views, LayerView c w L v.1 (newK v.1) v.2.kv ∧ v.2.size = ws.size) ∧
      (∀ layer, w'.state layer =
        if layer ∈ layers then committedState c L (newK layer) (w.state layer)
        else w.state layer) ∧
      ∀ layer, w'.tags layer =
        if layer ∈ layers then committedTags c L (w.tags layer) else w.tags layer := by
  induction layers generalizing w ws with
  | nil => exact ⟨w, [], rfl, rfl, fun _ hv => absurd hv (List.not_mem_nil), by simp, by simp⟩
  | cons layer layers ih =>
    obtain ⟨hnot, hnodup⟩ := List.nodup_cons.mp hnodup
    obtain ⟨w₁, ws₁, view, hrun, hview, hsize, hlayout₁, hws₁, hsize₁, ⟨ph₁, hprep₁⟩, hstate₁,
      htags₁⟩ := forwardLayer_spec c hlayout hws hhloc hwloc (htag layer (List.mem_cons_self ..))
        (hprep layer (List.mem_cons_self ..)) (ph layer) (newK layer)
    -- a layer leaves the rings of the others alone
    have hother : ∀ l, l ≠ layer → w₁.state l = w.state l ∧ w₁.tags l = w.tags l := by
      intro l hl
      rw [hstate₁, htags₁]
      exact ⟨Function.update_of_ne hl .., Function.update_of_ne hl ..⟩
    have hne : ∀ l ∈ layers, l ≠ layer := fun l hl heq => hnot (heq ▸ hl)
    obtain ⟨w₂, views, hruns, hmap, hviews, hstate, htags⟩ := ih hnodup hlayout₁ hws₁
      (fun l hl => by
        rw [historyTagged, (hother l (hne l hl)).2]
        exact htag l (List.mem_cons_of_mem _ hl))
      (fun l hl inCapture heq => by
        rw [hprep₁] at heq
        exact hne l hl (by simpa using (congrArg (Option.map Prod.fst) heq).symm))
    refine ⟨w₂, (layer, view) :: views, ?_, ?_, fun v hv => ?_, fun l => ?_, fun l => ?_⟩
    · simp only [forwardLayers, hrun, bind, Except.bind, hruns]
      rfl
    · rw [List.map_cons, hmap]
    · rcases List.mem_cons.mp hv with rfl | hv
      · exact ⟨hview, hsize⟩
      · obtain ⟨hv₁, hv₂⟩ := hviews v hv
        have hmem : v.1 ∈ layers := hmap ▸ List.mem_map_of_mem hv
        refine ⟨⟨fun h hh => ?_, hv₁.rows⟩, hv₂.trans hsize₁⟩
        rw [hv₁.history h hh, (hother _ (hne _ hmem)).1]
    · rw [hstate l]
      by_cases hl : l = layer
      · subst hl
        rw [if_neg hnot, if_pos (List.mem_cons_self ..), hstate₁, Function.update_self]
      · rw [(hother l hl).1]
        exact if_congr (by simp [hl]) rfl rfl
    · rw [htags l]
      by_cases hl : l = layer
      · subst hl
        rw [if_neg hnot, if_pos (List.mem_cons_self ..), htags₁, Function.update_self]
      · rw [(hother l hl).2]
        exact if_congr (by simp [hl]) rfl rfl

end RequestWindow

/-! ## Ring rows -/

namespace WindowConfig

variable (c : WindowConfig)

/-- Rounding a number of rows up to whole pages never makes it smaller. -/
theorem le_wholePages (x : ℕ) : x ≤ c.wholePages x := by
  have hpos : 0 < c.pageSize := by
    have := c.two_le_pageSize
    omega
  have hdiv := Nat.div_add_mod (x + c.pageSize - 1) c.pageSize
  have hmod := Nat.mod_lt (x + c.pageSize - 1) hpos
  rw [wholePages, Nat.mul_comm]
  omega

/-- The ring of a slot has at least as many rows as the attention window. -/
theorem window_le_capacity : swaWindow ≤ c.capacity :=
  c.window_le.trans (c.le_wholePages _)

theorem capacity_pos : (0 : ℤ) < c.capacity := by
  have := c.window_le_capacity
  rw [swaWindow] at this
  omega

variable {c}

/-- The ring rows of every slot lie below the spare page, so a write to the spare page hits none of
them. -/
theorem ringRow_lt {slot : ℕ} (hslot : slot < c.numSlots) (p : ℤ) :
    c.ringRow slot p < c.sinkRow := by
  have hmod := Int.emod_lt_of_pos p c.capacity_pos
  have hle : ((slot + 1 : ℕ) : ℤ) * c.capacity ≤ (c.numSlots : ℤ) * c.capacity :=
    mul_le_mul_of_nonneg_right (Int.ofNat_le.mpr hslot) c.capacity_pos.le
  rw [ringRow, sinkRow, rows]
  push_cast at hle ⊢
  linarith

/-- A ring row is one slot's, and one position's modulo the capacity. -/
theorem ringRow_inj {slot slot' : ℕ} {p p' : ℤ} (h : c.ringRow slot p = c.ringRow slot' p') :
    slot = slot' ∧ p % c.capacity = p' % c.capacity := by
  have hpos := c.capacity_pos
  have hdiv : ∀ (slot : ℕ) (p : ℤ), c.ringRow slot p / c.capacity = slot := by
    intro slot p
    rw [ringRow, add_comm, Int.add_mul_ediv_right _ _ hpos.ne',
      Int.ediv_eq_zero_of_lt (Int.emod_nonneg p hpos.ne') (Int.emod_lt_of_pos p hpos), zero_add]
  have hslot : (slot : ℤ) = slot' := by rw [← hdiv slot p, h, hdiv]
  refine ⟨Nat.cast_injective hslot, ?_⟩
  rw [ringRow, ringRow, hslot] at h
  linarith

/-- Positions on one ring row are equal or a ring apart. -/
theorem eq_of_emod_eq {p p' : ℤ} (h : p % c.capacity = p' % c.capacity)
    (hlt : p < p' + c.capacity) (hlt' : p' < p + c.capacity) : p = p' := by
  have hdvd : (c.capacity : ℤ) ∣ p - p' := Int.ModEq.dvd (Int.ModEq.symm h)
  have := Int.eq_zero_of_abs_lt_dvd hdvd (abs_lt.mpr ⟨by linarith, by linarith⟩)
  linarith

end WindowConfig

/-! ## Runs -/

/-- One forward: its batch, what its layers compute, and how many rows of each request
are kept afterwards. -/
structure WindowStep (K : Type) : Type where
  /-- the identity of the layout object -/
  object : ℕ
  /-- the number of requests -/
  bs : ℕ
  /-- their slots -/
  slots : ℕ → ℕ
  /-- their new rows -/
  lens : ℕ → ℕ
  /-- their floors -/
  floor : Option (ℕ → ℤ)
  /-- `num_groups` -/
  numGroups : Option ℕ
  /-- what the memory of a first workspace holds -/
  memory : ℤ → K
  /-- the layers, as they run -/
  order : List ℕ
  /-- the phases at their calls -/
  phases : ℕ → WindowPhases
  /-- the K they compute for each row -/
  newK : ℕ → ℕ → K
  /-- the rows that are kept -/
  accepted : ℕ → ℕ

/-- The window during a run, and what the run knows of each slot. -/
structure WindowState (K : Type) : Type where
  /-- the window -/
  window : RequestWindow K
  /-- the position that the owner of the slot began at -/
  base : ℕ → ℕ
  /-- the first position that is not committed -/
  next : ℕ → ℕ
  /-- the K written most recently by the owner of the slot, by layer, slot and position -/
  written : ℕ → ℕ × ℤ → Option K

namespace WindowStep

variable {K : Type} (b : WindowStep K) (s : WindowState K)

/-- The rows of the batch. -/
def numRows : ℕ := segStart b.lens b.bs

/-- The request of a row. -/
def row (i : ℕ) : ℕ := (segRows b.lens b.bs).getD i 0

/-- The slot of a row. -/
def req (i : ℕ) : ℕ := b.slots (b.row i)

/-- The position of a row: its request's go on from the first that is not committed. -/
def pos (i : ℕ) : ℤ := s.next (b.req i) + ((i : ℤ) - segStart b.lens (b.row i))

/-- The lowest position that a request reads. -/
def lowest (r : ℕ) : ℤ := lowestPos (b.floor.map fun fl => fl r)

/-- The layout of the batch. -/
def layout (c : WindowConfig) : Except String WindowLayout :=
  windowLayout b.numRows b.req (b.pos s) swaWindow c.capacity
    (b.floor.map fun fl i => fl (b.row i)) b.numGroups

/-- The workspace rows that the batch needs. -/
def size : ℕ := b.numGroups.getD b.numRows * swaWindow + b.numRows

/-- The forward. Yields the layout and what attention reads at each layer. -/
def run (c : WindowConfig) :
    Except String (RequestWindow K × WindowLayout × List (ℕ × WindowPool K)) := do
  let layout ← b.layout s c
  let w ← s.window.activate c b.memory (b.object, layout)
  let (w, views) ← w.forwardLayers c b.phases b.newK b.order
  pure (w, layout, views)

/-- What the slots' owners have written most recently once a layer has its new rows. -/
def written (layer : ℕ) : ℕ × ℤ → Option K :=
  storeAll (s.written layer)
    ((List.range b.numRows).map fun i => ((b.req i, b.pos s i), some (b.newK layer i)))

/-- The state after the forward: the kept rows are committed. -/
def after (w : RequestWindow K) : WindowState K where
  window := w
  base := s.base
  next := storeAll s.next
    ((List.range b.bs).map fun r => (b.slots r, s.next (b.slots r) + b.accepted r))
  written := b.written s

/-- The forwards that a run makes. -/
structure Legal (c : WindowConfig) : Prop where
  /-- there is a request -/
  bs_pos : 0 < b.bs
  /-- the slots are the pool's -/
  slot_lt : ∀ r, r < b.bs → b.slots r < c.numSlots
  /-- and distinct -/
  slot_inj : ∀ r r', r < b.bs → r' < b.bs → b.slots r = b.slots r' → r = r'
  /-- every request has rows -/
  len_pos : ∀ r, r < b.bs → 0 < b.lens r
  /-- there is a group for each request -/
  groups : ∀ g ∈ b.numGroups, b.bs ≤ g
  /-- nobody reads below where the slot's owner began; `0` for an owner that began at the
  start of its sequence -/
  base_le : ∀ r, r < b.bs →
    (s.base (b.slots r) : ℤ) ≤ max (b.lowest r) (s.next (b.slots r) - swaWindow)
  /-- every layer runs once -/
  order : b.order.Perm (List.range c.layers)
  /-- the layout is a new object -/
  fresh : ∀ active ∈ s.window.layout, active.1 ≠ b.object
  /-- a prefix of the rows is kept -/
  accepted_le : ∀ r, r < b.bs → b.accepted r ≤ b.lens r
  /-- and no more are rejected than the ring has to spare -/
  rejected_le : ∀ r, r < b.bs → b.lens r - b.accepted r ≤ c.capacity - swaWindow

end WindowStep

/-- A slot changes owner: `reset`, and the new owner begins at `bases`. -/
def WindowState.reset {K : Type} (c : WindowConfig) (s : WindowState K) (slots : List ℕ)
    (bases : ℕ → ℕ) : WindowState K where
  window := s.window.reset c slots
  base slot := if slot ∈ slots then bases slot else s.base slot
  next slot := if slot ∈ slots then bases slot else s.next slot
  written layer p := if p.1 ∈ slots then none else s.written layer p

/-- What a run does: a forward over a batch, or a reset that gives slots new owners. -/
inductive WindowAct (K : Type) : Type where
  /-- a forward -/
  | forward (b : WindowStep K)
  /-- new owners, who begin at `bases` -/
  | reset (slots : List ℕ) (bases : ℕ → ℕ)

/-- **The runs of the request window**: forwards that return, and resets. -/
def windowMachine (K : Type) (c : WindowConfig) : Machine (WindowState K) (WindowAct K) where
  init s := (∃ state memory rows, s.window = .create c state memory rows) ∧ s.base = s.next ∧
    ∀ layer p, s.written layer p = none
  step s a s' :=
    match a with
    | .forward b => b.Legal s c ∧ ∃ w out, b.run s c = .ok (w, out) ∧ s' = b.after s w
    | .reset slots bases => s' = s.reset c slots bases

/-! ## The invariant -/

/-- **The invariant.** Of each slot, the window behind its next position, from where its
owner began, is in the slot's ring at every layer: tagged, and as it was written. -/
def WindowInv {K : Type} (c : WindowConfig) (s : WindowState K) : Prop :=
  ∀ slot layer, slot < c.numSlots → layer < c.layers → ∀ p : ℤ, s.base slot ≤ p →
    s.next slot - swaWindow ≤ p → p < s.next slot →
      s.window.tags layer (c.ringRow slot p) = p ∧
        s.written layer (slot, p) = some (s.window.state layer (c.ringRow slot p))

/-- Before the first forward no slot has a window, so the invariant holds. -/
theorem windowInv_init {K : Type} {c : WindowConfig} {s : WindowState K}
    (hs : (windowMachine K c).init s) : WindowInv c s := by
  intro slot layer _ _ p hbase _ hnext
  rw [hs.2.1] at hbase
  omega

/-- A new owner has no window yet, and the other slots keep theirs. -/
theorem windowInv_reset {K : Type} {c : WindowConfig} {s : WindowState K} (hs : WindowInv c s)
    (slots : List ℕ) (bases : ℕ → ℕ) : WindowInv c (s.reset c slots bases) := by
  intro slot layer hslot hlayer p hbase hlow hnext
  dsimp only [WindowState.reset] at hbase hlow hnext ⊢
  by_cases hmem : slot ∈ slots
  · rw [if_pos hmem] at hbase hnext
    omega
  · rw [if_neg hmem] at hbase hlow hnext
    rw [if_neg hmem]
    obtain ⟨htag, hkv⟩ := hs slot layer hslot hlayer p hbase hlow hnext
    refine ⟨?_, hkv⟩
    refine (storeAll_of_ne fun st hst heq => ?_).trans htag
    obtain ⟨a, ha, rfl⟩ := List.mem_map.mp hst
    obtain ⟨slot', hslot', ha⟩ := List.mem_flatMap.mp ha
    obtain ⟨k, hk, rfl⟩ := List.mem_map.mp ha
    have hk := List.mem_range.mp hk
    -- a row of the ring of `slot'`, as a ring row
    have hrow : c.ringRow slot' (k : ℤ) = slot' * c.capacity + k := by
      rw [WindowConfig.ringRow, Int.emod_eq_of_lt (by omega) (by omega)]
    have := (WindowConfig.ringRow_inj (hrow.trans heq)).1
    exact hmem (this ▸ hslot')

namespace WindowStep

variable {K : Type} {c : WindowConfig} {b : WindowStep K} {s : WindowState K}

/-! ## A legal forward -/

/-- The request of a batch row is the one in whose segment the row lies. -/
theorem row_eq (b : WindowStep K) {r j : ℕ} (hr : r < b.bs) (hj : j < b.lens r) :
    b.row (segStart b.lens r + j) = r :=
  getD_segRows hr hj 0

/-- The position of a batch row is its offset after the next position of its request's slot. -/
theorem pos_eq (b : WindowStep K) (s : WindowState K) {r j : ℕ} (hr : r < b.bs)
    (hj : j < b.lens r) : b.pos s (segStart b.lens r + j) = s.next (b.slots r) + j := by
  rw [pos, req, b.row_eq hr hj]
  push_cast
  ring

/-- The rows of a legal batch are laid out flat, each request's after the one before. -/
theorem Legal.flat (hb : b.Legal s c) : FlatRows b.lens b.slots b.bs b.req where
  pos := hb.len_pos
  inj := hb.slot_inj
  req_eq r j hr hj := by rw [req, b.row_eq hr hj]

/-- What the layout of the batch says. -/
abbrev Spec (b : WindowStep K) (s : WindowState K) (c : WindowConfig) (L : WindowLayout) : Prop :=
  LayoutSpec b.lens b.slots (fun r => s.next (b.slots r)) b.lowest b.bs swaWindow c.capacity
    (b.numGroups.getD b.numRows) L

/-- A legal batch gets a layout without an error, and it is the layout that the batch should
have. -/
theorem Legal.layout_spec (hb : b.Legal s c) :
    ∃ L, b.layout s c = .ok L ∧
      b.Spec s c L := by
  refine windowLayout_spec hb.bs_pos hb.flat (fun r j hr hj => b.pos_eq s hr hj)
    (fun r j hr hj => ?_) (fun fl hfl r j hr hj => ?_)
  · rw [lowest, Option.map_map]
    congr 2
    funext fl
    exact congrArg fl (b.row_eq hr hj)
  · obtain ⟨fl', -, rfl⟩ := Option.map_eq_some_iff.mp hfl
    have hrow := b.row_eq hr (hb.len_pos r hr)
    rw [Nat.add_zero] at hrow
    simp only [b.row_eq hr hj, hrow]

/-- A history row that is copied is one of a request's window, from the lowest position
it reads. -/
theorem history_of_valid {L : WindowLayout} (hL : b.Spec s c L) {h : ℕ}
    (hvalid : L.historyValid h = true) :
    ∃ r, r < b.bs ∧ ∃ m, m < swaWindow ∧ h = r * swaWindow + m ∧
      b.lowest r ≤ s.next (b.slots r) - swaWindow + m := by
  have hm : h % swaWindow < swaWindow := Nat.mod_lt _ (by decide)
  have hh : h = h / swaWindow * swaWindow + h % swaWindow := by
    rw [Nat.mul_comm]
    exact (Nat.div_add_mod h swaWindow).symm
  by_cases hr : h / swaWindow < b.bs
  · refine ⟨_, hr, _, hm, hh, (hL.historyValid _ _ hr hm).mp ?_⟩
    rwa [← hh]
  · rw [hh, hL.historyDead _ _ (not_lt.mp hr) hm] at hvalid
    exact absurd hvalid (by decide)

/-- **The history is there**: a ring row that a batch copies has the position it is read
for, and the K last written for it. -/
theorem Legal.history_spec (hb : b.Legal s c) (hs : WindowInv c s) {L : WindowLayout}
    (hL : b.Spec s c L) {layer r m : ℕ} (hlayer : layer < c.layers)
    (hr : r < b.bs) (hm : m < swaWindow)
    (hlow : b.lowest r ≤ s.next (b.slots r) - swaWindow + m) :
    let h := r * swaWindow + m
    let p : ℤ := s.next (b.slots r) - swaWindow + m
    s.window.tags layer (RequestWindow.historySrc c L h) = p ∧
      s.written layer (b.slots r, p) =
        some (s.window.state layer (RequestWindow.historySrc c L h)) := by
  intro h p
  have hsrc : RequestWindow.historySrc c L h = c.ringRow (b.slots r) p := by
    rw [RequestWindow.historySrc, if_pos ((hL.historyValid r m hr hm).mpr hlow),
      hL.historyReq r m hr hm, hL.historyPos r m hr hm]
  have hbase := hb.base_le r hr
  rw [hsrc]
  refine hs (b.slots r) layer (hb.slot_lt r hr) hlayer p ?_ ?_ ?_
  · rcases le_max_iff.mp hbase with hle | hle
    · exact hle.trans hlow
    · exact hle.trans (by omega)
  · omega
  · omega

/-- In a state that keeps the invariant the history of each request of a legal batch is tagged
right. -/
theorem Legal.historyTagged (hb : b.Legal s c) (hs : WindowInv c s) {L : WindowLayout}
    (hL : b.Spec s c L) {layer : ℕ} (hlayer : layer < c.layers) :
    s.window.historyTagged c L layer = true := by
  refine List.all_eq_true.mpr fun h _ => ?_
  cases hvalid : L.historyValid h with
  | false => rfl
  | true =>
    obtain ⟨r, hr, m, hm, rfl, hlow⟩ := history_of_valid hL hvalid
    rw [(hb.history_spec hs hL hlayer hr hm hlow).1, hL.historyPos r m hr hm]
    simp

/-- The layout of a legal batch is a new object, so it is not taken for the active one. -/
theorem Legal.not_active (hb : b.Legal s c) :
    s.window.layout.any (fun active => active.1 == b.object) = false := by
  rw [Option.any_eq_false]
  intro active hactive
  simpa using hb.fresh active hactive

/-- The workspace rows that the layout of a batch needs are as many as the batch needs. -/
theorem size_eq {L : WindowLayout}
    (hL : b.Spec s c L) : L.size = b.size := by
  rw [hL.size, hL.historyRows, hL.numRows, size]
  rfl

/-- Activation makes the new layout the active one, with a workspace it fits in. -/
theorem Legal.activate_spec (hb : b.Legal s c) (L : WindowLayout)
    (hroom : ∀ ws ∈ s.window.workspace, L.size ≤ ws.size) :
    ∃ w ws, s.window.activate c b.memory (b.object, L) = .ok w ∧ w.state = s.window.state ∧
      w.tags = s.window.tags ∧ w.layout = some (b.object, L) ∧ w.workspace = some ws ∧
      w.prepared = none ∧ L.size ≤ ws.size := by
  rw [RequestWindow.activate, hb.not_active]
  cases hws : s.window.workspace with
  | none => exact ⟨_, _, rfl, rfl, rfl, rfl, rfl, rfl, c.le_wholePages _⟩
  | some ws =>
    have hle := hroom ws hws
    exact ⟨_, ws, if_neg (not_lt.mpr hle), rfl, rfl, rfl, rfl, rfl, hle⟩

/-- **A forward**: when its layout fits in the workspace it returns; every layer's
attention reads the layer's history and new rows, and the new rows are committed. -/
theorem Legal.run_spec (hb : b.Legal s c) (hs : WindowInv c s)
    (hroom : ∀ ws ∈ s.window.workspace, b.size ≤ ws.size) :
    ∃ w L views, b.run s c = .ok (w, L, views) ∧
      b.Spec s c L ∧
      views.map Prod.fst = b.order ∧
      (∀ v ∈ views, RequestWindow.LayerView c s.window L v.1 (b.newK v.1) v.2.kv ∧
        L.size ≤ v.2.size) ∧
      ∀ layer, layer < c.layers →
        w.state layer =
          RequestWindow.committedState c L (b.newK layer) (s.window.state layer) ∧
        w.tags layer = RequestWindow.committedTags c L (s.window.tags layer) := by
  obtain ⟨L, hlayout, hL⟩ := hb.layout_spec
  have hsize := size_eq hL
  obtain ⟨w, ws, hact, hstate, htags, hwl, hws, hprep, hfit⟩ :=
    hb.activate_spec L fun ws hws => hsize.le.trans (hroom ws hws)
  have hmem : ∀ layer, layer ∈ b.order ↔ layer < c.layers := fun layer => by
    rw [hb.order.mem_iff, List.mem_range]
  obtain ⟨w', views, hrun, hmap, hviews, hstate', htags'⟩ :=
    RequestWindow.forwardLayers_spec c hL.historyLoc hL.writeLoc b.phases b.newK b.order
      (hb.order.nodup_iff.mpr List.nodup_range) hwl hws
      (fun layer hl => by
        rw [RequestWindow.historyTagged, htags]
        exact hb.historyTagged hs hL ((hmem layer).mp hl))
      (fun layer _ inCapture => by simp [hprep])
  refine ⟨w', L, views, ?_, hL, hmap, fun v hv => ?_, fun layer hl => ?_⟩
  · simp only [run, hlayout, hact, hrun, bind, Except.bind]
    rfl
  · obtain ⟨⟨hhist, hrows⟩, hvs⟩ := hviews v hv
    refine ⟨⟨fun h hh => ?_, hrows⟩, hfit.trans hvs.ge⟩
    rw [hhist h hh, hstate]
  · rw [hstate', htags', if_pos ((hmem layer).mpr hl), if_pos ((hmem layer).mpr hl), hstate, htags]
    exact ⟨rfl, rfl⟩

/-! ## What a forward leaves -/

/-- A row that is committed goes to the ring row of its position, and one too early for the ring to
the spare page. -/
theorem commitDst_eq {L : WindowLayout}
    (hL : b.Spec s c L) {r j : ℕ} (hr : r < b.bs) (hj : j < b.lens r) :
    RequestWindow.commitDst c L (segStart b.lens r + j) =
      if b.lens r - 1 - j < c.capacity then
        c.ringRow (b.slots r) (s.next (b.slots r) + j)
      else c.sinkRow := by
  rw [RequestWindow.commitDst, hL.req r j hr hj, hL.pos r j hr hj]
  exact if_congr (hL.commitMask r j hr hj) rfl rfl

/-- What is stored for each row of the batch is, in a ring row, what it was before unless a
committed row went there. -/
theorem storeAll_commit_of_ne {α : Type*} {L : WindowLayout}
    (hL : b.Spec s c L) (m : ℤ → α) (values : ℕ → α) {slot : ℕ} {p : ℤ}
    (hslot : slot < c.numSlots)
    (hother : ∀ r j, r < b.bs → j < b.lens r → b.lens r - 1 - j < c.capacity →
      b.slots r = slot → (s.next slot + j : ℤ) % c.capacity ≠ p % c.capacity) :
    storeAll m ((List.range L.numRows).map fun i => (RequestWindow.commitDst c L i, values i))
      (c.ringRow slot p) = m (c.ringRow slot p) := by
  refine storeAll_map_of_ne fun i hi heq => ?_
  rw [hL.numRows, List.mem_range] at hi
  obtain ⟨r, hr, j, hj, rfl⟩ := exists_seg hi
  rw [commitDst_eq hL hr hj] at heq
  split at heq
  next hlt =>
    obtain ⟨hslots, hmod⟩ := WindowConfig.ringRow_inj heq
    rw [hslots] at hmod
    exact hother r j hr hj hlt hslots hmod
  next => exact absurd heq (WindowConfig.ringRow_lt hslot p).ne'

/-- A committed row's ring row has what is stored for it. -/
theorem storeAll_commit_eq {α : Type*} (hb : b.Legal s c) {L : WindowLayout}
    (hL : b.Spec s c L) (m : ℤ → α) (values : ℕ → α) {r j : ℕ}
    (hr : r < b.bs) (hj : j < b.lens r) (hlast : b.lens r - 1 - j < c.capacity) :
    storeAll m ((List.range L.numRows).map fun i => (RequestWindow.commitDst c L i, values i))
        (c.ringRow (b.slots r) (s.next (b.slots r) + j)) =
      values (segStart b.lens r + j) := by
  have hdst : RequestWindow.commitDst c L (segStart b.lens r + j) =
      c.ringRow (b.slots r) (s.next (b.slots r) + j) := by
    rw [commitDst_eq hL hr hj, if_pos hlast]
  have hrow : segStart b.lens r + j ∈ List.range L.numRows := by
    rw [hL.numRows]
    exact List.mem_range.mpr (seg_lt hr hj)
  rw [← hdst]
  apply storeAll_map_eq (RequestWindow.commitDst c L) values hrow
  intro i hi heq
  rw [hL.numRows, List.mem_range] at hi
  obtain ⟨r', hr', j', hj', rfl⟩ := exists_seg hi
  rw [hdst, commitDst_eq hL hr' hj'] at heq
  split at heq
  next hlt =>
    obtain ⟨hslots, hmod⟩ := WindowConfig.ringRow_inj heq
    obtain rfl := hb.slot_inj _ _ hr' hr hslots
    have := WindowConfig.eq_of_emod_eq hmod (by omega) (by omega)
    rw [show j' = j by omega]
  next => exact absurd heq (WindowConfig.ringRow_lt (hb.slot_lt r hr) _).ne'

/-- The K written most recently for a position that the batch does not write. -/
theorem written_of_ne (b : WindowStep K) (s : WindowState K) (layer : ℕ) {slot : ℕ} {p : ℤ}
    (hother : ∀ r j, r < b.bs → j < b.lens r → b.slots r = slot → (s.next slot + j : ℤ) ≠ p) :
    b.written s layer (slot, p) = s.written layer (slot, p) := by
  refine storeAll_map_of_ne fun i hi heq => ?_
  obtain ⟨r, hr, j, hj, rfl⟩ := exists_seg (List.mem_range.mp hi)
  obtain ⟨hslot, hp⟩ := Prod.mk.inj heq
  rw [req, b.row_eq hr hj] at hslot
  rw [b.pos_eq s hr hj, hslot] at hp
  exact hother r j hr hj hslot hp

/-- The K written most recently for the position of a row. -/
theorem Legal.written_eq (hb : b.Legal s c) (layer : ℕ) {r j : ℕ} (hr : r < b.bs)
    (hj : j < b.lens r) :
    b.written s layer (b.slots r, s.next (b.slots r) + j) =
      some (b.newK layer (segStart b.lens r + j)) := by
  refine storeAll_eq (fun st hst heq => ?_)
    ⟨((b.slots r, s.next (b.slots r) + j), some (b.newK layer (segStart b.lens r + j))),
      List.mem_map.mpr ⟨segStart b.lens r + j, List.mem_range.mpr (seg_lt hr hj), ?_⟩, rfl⟩
  · obtain ⟨i, hi, rfl⟩ := List.mem_map.mp hst
    obtain ⟨r', hr', j', hj', rfl⟩ := exists_seg (List.mem_range.mp hi)
    obtain ⟨hslot, hp⟩ := Prod.mk.inj heq
    rw [req, b.row_eq hr' hj'] at hslot
    obtain rfl := hb.slot_inj _ _ hr' hr hslot
    rw [b.pos_eq s hr hj'] at hp
    rw [show j' = j by omega]
  · rw [req, b.row_eq hr hj, b.pos_eq s hr hj]

/-- After a forward the next position of a request's slot has moved on by the tokens that were
accepted. -/
theorem Legal.next_eq (hb : b.Legal s c) (w : RequestWindow K) {r : ℕ} (hr : r < b.bs) :
    (b.after s w).next (b.slots r) = s.next (b.slots r) + b.accepted r := by
  apply storeAll_map_eq b.slots (fun r => s.next (b.slots r) + b.accepted r)
    (List.mem_range.mpr hr)
  intro r' hr' heq
  rw [hb.slot_inj _ _ (List.mem_range.mp hr') hr heq]

/-- The slots that have no request in the batch keep their next position. -/
theorem next_of_ne (b : WindowStep K) (s : WindowState K) (w : RequestWindow K) {slot : ℕ}
    (hother : ∀ r, r < b.bs → b.slots r ≠ slot) : (b.after s w).next slot = s.next slot := by
  exact storeAll_map_of_ne fun r hr => hother r (List.mem_range.mp hr)

/-- **A forward keeps the invariant.** Old rows of the window are not overwritten: a row
that would is a whole ring further on. New ones are among the rows that are committed. -/
theorem Legal.windowInv_after (hb : b.Legal s c) (hs : WindowInv c s) {L : WindowLayout}
    (hL : b.Spec s c L) {w : RequestWindow K}
    (hw : ∀ layer, layer < c.layers →
      w.state layer = RequestWindow.committedState c L (b.newK layer) (s.window.state layer) ∧
      w.tags layer = RequestWindow.committedTags c L (s.window.tags layer)) :
    WindowInv c (b.after s w) := by
  intro slot layer hslot hlayer p hbase hlow hnext
  dsimp only [after] at hbase ⊢
  rw [(hw layer hlayer).1, (hw layer hlayer).2]
  -- a position that no row of the batch takes the ring row of
  have hold : s.next slot - swaWindow ≤ p → p < s.next slot →
      (∀ r j, r < b.bs → j < b.lens r → b.lens r - 1 - j < c.capacity → b.slots r = slot →
        (s.next slot + j : ℤ) % c.capacity ≠ p % c.capacity) →
      RequestWindow.committedTags c L (s.window.tags layer) (c.ringRow slot p) = p ∧
        b.written s layer (slot, p) =
          some (RequestWindow.committedState c L (b.newK layer) (s.window.state layer)
            (c.ringRow slot p)) := by
    intro hlow' hnext' hother
    obtain ⟨htag, hkv⟩ := hs slot layer hslot hlayer p hbase hlow' hnext'
    rw [RequestWindow.committedTags, RequestWindow.committedState,
      storeAll_commit_of_ne hL _ _ hslot hother, storeAll_commit_of_ne hL _ _ hslot hother,
      b.written_of_ne s layer fun r j hr hj _ => by omega]
    exact ⟨htag, hkv⟩
  by_cases hmem : ∃ r, r < b.bs ∧ b.slots r = slot
  · obtain ⟨r, hr, rfl⟩ := hmem
    rw [hb.next_eq w hr] at hlow hnext
    push_cast at hlow hnext
    have hacc := hb.accepted_le r hr
    have hrej := hb.rejected_le r hr
    have hcap := c.window_le_capacity
    by_cases hnew : p < s.next (b.slots r)
    · refine hold (by omega) hnew fun r' j' hr' hj' _ hslots hmod => ?_
      obtain rfl := hb.slot_inj _ _ hr' hr hslots
      have := WindowConfig.eq_of_emod_eq hmod (by omega) (by omega)
      omega
    · obtain ⟨j, hj⟩ : ∃ j : ℕ, p = s.next (b.slots r) + j :=
        ⟨(p - s.next (b.slots r)).toNat, by omega⟩
      subst hj
      have hjlen : j < b.lens r := by omega
      have hlast : b.lens r - 1 - j < c.capacity := by omega
      rw [RequestWindow.committedTags, RequestWindow.committedState,
        storeAll_commit_eq hb hL _ _ hr hjlen hlast, storeAll_commit_eq hb hL _ _ hr hjlen hlast,
        hL.pos r j hr hjlen, hb.written_eq layer hr hjlen]
      exact ⟨rfl, rfl⟩
  · have hother : ∀ r, r < b.bs → b.slots r ≠ slot := fun r hr heq => hmem ⟨r, hr, heq⟩
    rw [b.next_of_ne s w hother] at hlow hnext
    exact hold hlow hnext fun r _ hr _ _ hslots => absurd hslots (hother r hr)

/-- When a forward of a legal batch returns, the workspace had room for the rows of the batch. -/
theorem Legal.room_of_run (hb : b.Legal s c) {w : RequestWindow K}
    {out : WindowLayout × List (ℕ × WindowPool K)} (hrun : b.run s c = .ok (w, out)) :
    ∀ ws ∈ s.window.workspace, b.size ≤ ws.size := by
  intro ws hws
  obtain ⟨L, hlayout, hL⟩ := hb.layout_spec
  have hsize := size_eq hL
  by_contra hlt
  have hact : ∃ e, s.window.activate c b.memory (b.object, L) = .error e := by
    rw [RequestWindow.activate, hb.not_active, Option.mem_def.mp hws]
    exact ⟨_, if_pos (hsize ▸ not_le.mp hlt)⟩
  obtain ⟨e, hact⟩ := hact
  simp [run, hlayout, hact, bind, Except.bind] at hrun

end WindowStep

/-! ## Every run -/

section

variable {K : Type} {c : WindowConfig} {s : WindowState K}

/-- The invariant of the window holds in every state that a run of forwards reaches. -/
theorem windowInv_reach (hs : (windowMachine K c).Reach s) : WindowInv c s := by
  induction hs with
  | init hi => exact windowInv_init hi
  | @step s s' a _ hst ih =>
    cases a with
    | forward b =>
      obtain ⟨hb, w, out, hrun, rfl⟩ := hst
      obtain ⟨w', L, views, hrun', hL, -, -, hw⟩ := hb.run_spec ih (hb.room_of_run hrun)
      obtain ⟨rfl, -⟩ := Prod.mk.inj (Except.ok.inj (hrun.symm.trans hrun'))
      exact hb.windowInv_after ih hL hw
    | reset slots bases =>
      obtain rfl : s' = s.reset c slots bases := hst
      exact windowInv_reset ih slots bases

/-- **What attention sees.** In every state that a run reaches, a forward whose layout fits
in the workspace returns; at every layer a row's look-back to a position that it may read
is a workspace row with the K last written for that request, position and layer, every
other look-back is `-1`, and the lengths count the look-backs. -/
theorem window_exact (hs : (windowMachine K c).Reach s) {b : WindowStep K} (hb : b.Legal s c)
    (hroom : ∀ ws ∈ s.window.workspace, b.size ≤ ws.size) :
    ∃ w L views, b.run s c = .ok (w, L, views) ∧ views.map Prod.fst = b.order ∧
      ∀ v ∈ views, ∀ r j, r < b.bs → j < b.lens r →
        (∀ t : ℕ, t < swaWindow →
          if b.lowest r ≤ s.next (b.slots r) + j - t then
            ∃ row : ℤ, L.indices (segStart b.lens r + j) t = row ∧ 0 ≤ row ∧ row < v.2.size ∧
              b.written s v.1 (b.slots r, s.next (b.slots r) + j - t) = some (v.2.kv row)
          else L.indices (segStart b.lens r + j) t = -1) ∧
        L.lengths (segStart b.lens r + j) =
          (List.range swaWindow).countP fun t : ℕ => b.lowest r ≤ s.next (b.slots r) + j - t := by
  have hinv := windowInv_reach hs
  obtain ⟨w, L, views, hrun, hL, hmap, hviews, -⟩ := hb.run_spec hinv hroom
  refine ⟨w, L, views, hrun, hmap, fun v hv r j hr hj => ⟨fun t ht => ?_, ?_⟩⟩
  · obtain ⟨hview, hsize⟩ := hviews v hv
    have hlayer : v.1 < c.layers := by
      have hmem : v.1 ∈ b.order := hmap ▸ List.mem_map_of_mem hv
      exact List.mem_range.mp (hb.order.mem_iff.mp hmem)
    have hfit : L.historyRows + L.numRows ≤ v.2.size := hL.size ▸ hsize
    have hrow : segStart b.lens r + j < segStart b.lens b.bs := seg_lt hr hj
    rw [hL.indices r j hr hj t]
    split
    next hlow =>
      refine ⟨_, rfl, ?_⟩
      split
      next hjt =>
        -- the history: the request's block is in front of the workspace
        have hgroups : b.bs ≤ b.numGroups.getD b.numRows := by
          cases hg : b.numGroups with
          | none => exact le_segStart hb.len_pos
          | some g => exact hb.groups g hg
        have hh : r * swaWindow + (swaWindow + j - t) < L.historyRows := by
          have hmul := Nat.mul_le_mul_right swaWindow (show r + 1 ≤ _ from hr.trans_le hgroups)
          rw [hL.historyRows]
          rw [Nat.succ_mul] at hmul
          omega
        obtain ⟨-, hkv⟩ := hb.history_spec hinv hL hlayer hr
          (m := swaWindow + j - t) (by omega) (by omega)
        have hcast : (r : ℤ) * swaWindow + (swaWindow + j - t) =
            ((r * swaWindow + (swaWindow + j - t) : ℕ) : ℤ) := by
          push_cast [Nat.cast_sub (show t ≤ swaWindow + j by omega)]
          ring
        rw [hcast]
        refine ⟨by omega, by omega, ?_⟩
        rw [hview.history _ hh, ← hkv, b.written_of_ne s v.1 fun r' j' _ _ _ => by omega]
        congr 2
        omega
      next hjt =>
        -- a new row of the same request
        have hcast : (L.historyRows : ℤ) + (segStart b.lens r + j - t) =
            L.historyRows + ((segStart b.lens r + (j - t) : ℕ) : ℤ) := by
          push_cast [Nat.cast_sub (not_lt.mp hjt)]
          ring
        have hrow' : segStart b.lens r + (j - t) < segStart b.lens b.bs :=
          seg_lt hr (show j - t < b.lens r by omega)
        rw [hcast]
        rw [hL.numRows] at hfit
        refine ⟨by omega, by omega, ?_⟩
        rw [hview.rows _ (by rw [hL.numRows]; exact hrow'),
          ← hb.written_eq v.1 hr (show j - t < b.lens r by omega)]
        congr 2
        omega
    next => rfl
  · exact hL.lengths r j hr hj

end

/-! ## A small run -/

/-- Two slots, two layers, room for eight drafts. -/
def smallWindow : WindowConfig where
  numSlots := 2
  layers := 2
  pageSize := 128
  two_le_pageSize := by decide
  askedCapacity := 136
  window_le := by decide

/-- The state of the example before its first forward. -/
def freshWindow : WindowState ℕ where
  window := .create smallWindow (fun _ _ => 0) (fun _ => 0) none
  base _ := 0
  next _ := 0
  written _ _ := none

/-- Two prompts, of one and of three tokens. -/
def twoPrompts : WindowStep ℕ where
  object := 0
  bs := 2
  slots r := r
  lens r := 2 * r + 1
  floor := none
  numGroups := some 3
  memory _ := 0
  order := [0, 1]
  phases _ := ⟨true, false, false⟩
  newK layer i := 10 * layer + i + 1
  accepted r := 2 * r + 1

/-- The second prompt's last row reads the one before it at either layer. -/
theorem window_exact_twoPrompts :
    ∃ w L views, twoPrompts.run freshWindow smallWindow = .ok (w, L, views) ∧
      views.map Prod.fst = [0, 1] ∧
      ∀ v ∈ views, ∃ row : ℤ, L.indices 3 1 = row ∧
        twoPrompts.written freshWindow v.1 (1, 1) = some (v.2.kv row) := by
  have hreach : (windowMachine ℕ smallWindow).Reach freshWindow :=
    .init ⟨⟨fun _ _ => 0, fun _ => 0, none, rfl⟩, rfl, fun _ _ => rfl⟩
  have hlegal : twoPrompts.Legal freshWindow smallWindow := by
    constructor
    case bs_pos => decide
    case slot_lt => exact fun r hr => hr
    case slot_inj => exact fun r r' _ _ h => h
    case len_pos => exact fun r _ => Nat.succ_pos _
    case groups =>
      rintro g ⟨⟩
      decide
    case base_le => exact fun r _ => le_max_of_le_left le_rfl
    case order => exact .refl _
    case fresh =>
      rintro active ⟨⟩
    case accepted_le => exact fun r _ => le_rfl
    case rejected_le => exact fun r _ => (Nat.sub_self _).le.trans (Nat.zero_le _)
  obtain ⟨w, L, views, hrun, hmap, hviews⟩ := window_exact hreach hlegal (by rintro ws ⟨⟩)
  refine ⟨w, L, views, hrun, hmap, fun v hv => ?_⟩
  have hread := (hviews v hv 1 2 (by decide) (by decide)).1 1 (by decide)
  rw [if_pos (by decide)] at hread
  obtain ⟨row, hrow, -, -, hkv⟩ := hread
  exact ⟨row, hrow, hkv⟩

end LuzServing
