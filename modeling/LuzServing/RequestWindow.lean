import LuzServing.Segments
import LuzServing.Stores

/-!
# The request window

The sliding-window K of a request lives in a ring of `capacity` rows that its slot owns.
Attention does not read the rings: before a layer runs, the last 128 rows of each request
of the batch are copied into one shared workspace, in front of the batch's new rows, and
after the layer the newest rows are copied back. `windowLayout` computes every address of
this, `RequestWindow` does the copying and keeps, beside each ring row, the position it
holds (`tags`).

This file is the code. A tensor is a function of its indices, a cache row (its data and
scale bytes) is an element of `K`, row addresses are integers.
-/

namespace LuzServing

/-- The sliding window, `SWA_WINDOW`. -/
def swaWindow : ℕ := 128

/-! ## The layout of a forward -/

/-- `WindowLayout`: the addresses of one forward. -/
structure WindowLayout : Type where
  /-- the number of rows, `req.numel()` -/
  numRows : ℕ
  /-- the number of history rows, `history_loc.numel()` -/
  historyRows : ℕ
  /-- the slot of each row -/
  req : ℕ → ℕ
  /-- the position of each row -/
  pos : ℕ → ℤ
  /-- the workspace row that each row is written to -/
  writeLoc : ℕ → ℤ
  /-- the workspace rows that each row reads, by look-back -/
  indices : ℕ → ℕ → ℤ
  /-- how many rows each row reads -/
  lengths : ℕ → ℕ
  /-- the slot of each history row -/
  historyReq : ℕ → ℕ
  /-- the position of each history row -/
  historyPos : ℕ → ℤ
  /-- the workspace row of each history row -/
  historyLoc : ℕ → ℤ
  /-- whether a history row is read from a ring -/
  historyValid : ℕ → Bool
  /-- the rows that are committed to the rings -/
  commitMask : ℕ → Bool
  /-- the workspace rows the forward needs -/
  size : ℕ

/-- The rows that begin a run of one slot: `starts`. -/
def rowStarts (req : ℕ → ℕ) (i : ℕ) : Bool := i == 0 || req i != req (i - 1)

/-- The rows that end one: `ends`. -/
def rowEnds (n : ℕ) (req : ℕ → ℕ) (i : ℕ) : Bool := i == n - 1 || rowStarts req (i + 1)

/-- `group`: the run of a row, by a running sum. -/
def rowGroup (req : ℕ → ℕ) (i : ℕ) : ℕ :=
  scan (· + ·) (fun k => (rowStarts req k).toNat) i - 1

/-- `group_first`: the first row of a row's run, by a running maximum. -/
def groupFirst (req : ℕ → ℕ) : ℕ → ℕ := scan max fun k => if rowStarts req k then k else 0

/-- `group_last`: the last row of a row's run, by a running minimum from the back. -/
def groupLast (n : ℕ) (req : ℕ → ℕ) (i : ℕ) : ℕ :=
  scan min (fun k => if rowEnds n req (n - 1 - k) then n - 1 - k else n - 1) (n - 1 - i)

/-- `zeros(groups).scatter_(0, group, values)`. -/
def scatterGroups {α : Type*} (n : ℕ) (req : ℕ → ℕ) (zero : α) (values : ℕ → α) : ℕ → α :=
  storeAll (fun _ => zero) ((List.range n).map fun i => (rowGroup req i, values i))

/-- `first_pos`: the position of the first row of a row's run. -/
def firstPos (req : ℕ → ℕ) (pos : ℕ → ℤ) (i : ℕ) : ℤ := pos i - ((i : ℤ) - groupFirst req i)

/-- `valid`: the look-back of a row is to no negative position and to none below its floor. -/
def rowValid (pos : ℕ → ℤ) (floor : Option (ℕ → ℤ)) (i t : ℕ) : Bool :=
  0 ≤ pos i - t && floor.all fun fl => fl i ≤ pos i - t

/-- `history_pos`: the positions in front of each run. -/
def historyPosition (n : ℕ) (req : ℕ → ℕ) (pos : ℕ → ℤ) (window h : ℕ) : ℤ :=
  scatterGroups n req 0 (firstPos req pos) (h / window) - window + (h % window : ℕ)

/-- `history_valid`: a history row of a run that there is, at a position it may read. -/
def historyIsValid (n : ℕ) (req : ℕ → ℕ) (pos : ℕ → ℤ) (window : ℕ) (floor : Option (ℕ → ℤ))
    (h : ℕ) : Bool :=
  (0 ≤ historyPosition n req pos window h &&
      scatterGroups n req false (fun _ => true) (h / window)) &&
    floor.all fun fl => scatterGroups n req 0 fl (h / window) ≤ historyPosition n req pos window h

/-- `window_layout`. -/
def windowLayout (n : ℕ) (req : ℕ → ℕ) (pos : ℕ → ℤ) (window capacity : ℕ)
    (floor : Option (ℕ → ℤ)) (numGroups : Option ℕ) : Except String WindowLayout :=
  if n = 0 then .error "request-window layout needs at least one query"
  else
    let groups := numGroups.getD n
    let historyRows := groups * window
    let seenPos : ℕ → ℕ → ℤ := fun i t => pos i - t
    let oldLoc : ℕ → ℕ → ℤ := fun i t =>
      rowGroup req i * window + (seenPos i t - (firstPos req pos i - window))
    let newLoc : ℕ → ℕ → ℤ := fun i t =>
      historyRows + groupFirst req i + seenPos i t - firstPos req pos i
    .ok
      { numRows := n
        historyRows := historyRows
        req := req
        pos := pos
        writeLoc := fun i => historyRows + i
        indices := fun i t =>
          if rowValid pos floor i t then
            if seenPos i t < firstPos req pos i then oldLoc i t else newLoc i t
          else -1
        lengths := fun i => (List.range window).countP (rowValid pos floor i)
        historyReq := fun h => scatterGroups n req 0 req (h / window)
        historyPos := historyPosition n req pos window
        historyLoc := fun h => h
        historyValid := historyIsValid n req pos window floor
        commitMask := fun i => (groupLast n req i : ℤ) - i < capacity
        size := historyRows + n }

/-! ## The rings and the workspace -/

/-- What the constructor of `RequestWindow` is given. -/
structure WindowConfig : Type where
  /-- `num_slots` -/
  numSlots : ℕ
  /-- `layers` -/
  layers : ℕ
  /-- `page_size` -/
  pageSize : ℕ
  /-- a spare page has the zero row and the sink row -/
  two_le_pageSize : 2 ≤ pageSize
  /-- `capacity`, before it is rounded up -/
  askedCapacity : ℕ
  /-- the pool asks for the sliding window and the draft tokens -/
  window_le : swaWindow ≤ askedCapacity

namespace WindowConfig

variable (c : WindowConfig)

/-- `x` rows, in whole pages. -/
def wholePages (x : ℕ) : ℕ := (x + c.pageSize - 1) / c.pageSize * c.pageSize

/-- The rows of a slot's ring. -/
def capacity : ℕ := c.wholePages c.askedCapacity

/-- The rows of all rings. -/
def rows : ℕ := c.numSlots * c.capacity

/-- The row that invalid history is copied from. -/
def zeroRow : ℤ := c.rows

/-- The row that uncommitted rows are copied to. -/
def sinkRow : ℤ := c.rows + 1

/-- The ring row of a position of a slot. -/
def ringRow (slot : ℕ) (pos : ℤ) : ℤ := slot * c.capacity + pos % c.capacity

end WindowConfig

/-- A buffer that `pool_factory` made: its rows, and what they hold. -/
structure WindowPool (K : Type) : Type where
  /-- `size` -/
  size : ℕ
  /-- `kv_buffer[0]` -/
  kv : ℤ → K

/-- The mutable fields of `RequestWindow`. A layout object has an identity, which
`activate` compares. -/
structure RequestWindow (K : Type) : Type where
  /-- `state.kv_buffer`, by layer and row -/
  state : ℕ → ℤ → K
  /-- the position that each row holds, by layer and row -/
  tags : ℕ → ℤ → ℤ
  /-- `workspace` -/
  workspace : Option (WindowPool K)
  /-- the active layout, with its identity -/
  layout : Option (ℕ × WindowLayout)
  /-- the layer and phase that the workspace is prepared for -/
  prepared : Option (ℕ × Bool)

/-- The phase at the calls of one layer: at the store, at the read, at the commit. -/
structure WindowPhases : Type where
  /-- at the store -/
  store : Bool
  /-- at the read -/
  read : Bool
  /-- at the commit -/
  commit : Bool

namespace RequestWindow

variable {K : Type} (c : WindowConfig)

/-- `copy_packed_tokens`: read every source row, then write the destinations. -/
def copyPackedTokens (src dst : ℤ → K) (n : ℕ) (srcLoc dstLoc : ℕ → ℤ) : ℤ → K :=
  storeAll dst ((List.range n).map fun i => (dstLoc i, src (srcLoc i)))

/-- `RequestWindow.__init__`, over what the memory of the pools holds. -/
def create (state : ℕ → ℤ → K) (memory : ℤ → K) (workspaceRows : Option ℕ) :
    RequestWindow K where
  state := state
  tags _ _ := -1
  workspace :=
    match workspaceRows with
    | none => none
    | some 0 => none
    | some rows => some ⟨c.wholePages rows, memory⟩
  layout := none
  prepared := none

/-- `reset`: the slots' rows hold no position any more. -/
def reset (w : RequestWindow K) (slots : List ℕ) : RequestWindow K :=
  let loc := slots.flatMap fun slot : ℕ =>
    (List.range c.capacity).map fun k : ℕ => (slot * c.capacity + k : ℤ)
  { w with
    tags := fun layer => storeAll (w.tags layer) (loc.map fun a => (a, -1))
    prepared := none }

/-- `activate`, over what the memory of a first workspace holds. -/
def activate (w : RequestWindow K) (memory : ℤ → K) (layout : ℕ × WindowLayout) :
    Except String (RequestWindow K) :=
  if w.layout.any fun active => active.1 == layout.1 then .ok w
  else
    let w' := { w with layout := some layout, prepared := none }
    match w.workspace with
    | none => .ok { w' with workspace := some ⟨c.wholePages layout.2.size, memory⟩ }
    | some workspace =>
      if workspace.size < layout.2.size then
        .error (s!"request-window workspace too small: {workspace.size} rows " ++
          s!"for a layout of {layout.2.size}")
      else .ok w'

/-- `_history_src`. -/
def historySrc (layout : WindowLayout) (h : ℕ) : ℤ :=
  if layout.historyValid h then c.ringRow (layout.historyReq h) (layout.historyPos h)
  else c.zeroRow

/-- Every valid history row holds the position it is read for. -/
def historyTagged (w : RequestWindow K) (layout : WindowLayout) (layer : ℕ) : Bool :=
  (List.range layout.historyRows).all fun h =>
    !layout.historyValid h || w.tags layer (historySrc c layout h) == layout.historyPos h

/-- `buffer`: the workspace, with the history of the layer in front. `inCapture` is what
`get_is_capture_mode() or _capturing()` says at the call. -/
def buffer (w : RequestWindow K) (layer : ℕ) (inCapture : Bool) :
    Except String (RequestWindow K) :=
  if w.prepared = some (layer, inCapture) then .ok w
  else
    match w.layout, w.workspace with
    | none, _ => .error "request-window metadata was not activated"
    | _, none => .error "request-window workspace was not made"
    | some (_, layout), some workspace =>
      if !inCapture && !w.historyTagged c layout layer then
        .error "SWA history is missing: replay or window ownership is invalid"
      else
        .ok
          { w with
            workspace := some
              { workspace with
                kv := copyPackedTokens (w.state layer) workspace.kv layout.historyRows
                  (historySrc c layout) layout.historyLoc }
            prepared := some (layer, inCapture) }

/-- The new rows of a layer go to the rows `write_loc` of its buffer. -/
def setKeyBuffer (w : RequestWindow K) (newK : ℕ → K) : RequestWindow K :=
  match w.layout, w.workspace with
  | some (_, layout), some workspace =>
    { w with
      workspace := some
        { workspace with
          kv := storeAll workspace.kv
            ((List.range layout.numRows).map fun i => (layout.writeLoc i, newK i)) } }
  | _, _ => w

/-- The ring rows that `commit` writes. -/
def commitDst (layout : WindowLayout) (i : ℕ) : ℤ :=
  if layout.commitMask i then c.ringRow (layout.req i) (layout.pos i) else c.sinkRow

/-- `commit`: copy the newest rows back to the rings and tag them. -/
def commit (w : RequestWindow K) (layer : ℕ) (inCapture : Bool) :
    Except String (RequestWindow K) := do
  let w ← w.buffer c layer inCapture
  match w.layout, w.workspace with
  | some (_, layout), some workspace =>
    pure
      { w with
        state := Function.update w.state layer
          (copyPackedTokens workspace.kv (w.state layer) layout.numRows layout.writeLoc
            (commitDst c layout))
        tags := Function.update w.tags layer
          (storeAll (w.tags layer)
            ((List.range layout.numRows).map fun i => (commitDst c layout i, layout.pos i))) }
  | _, _ => .error "request-window metadata was not activated"

/-! ## A forward -/

/-- One layer of a forward: store the new rows in the layer's buffer, take the buffer for
attention, commit. Yields what attention reads. -/
def forwardLayer (w : RequestWindow K) (layer : ℕ) (ph : WindowPhases) (newK : ℕ → K) :
    Except String (RequestWindow K × WindowPool K) := do
  let w ← w.buffer c layer ph.store
  let w ← (w.setKeyBuffer newK).buffer c layer ph.read
  match w.workspace with
  | some view =>
    let w ← w.commit c layer ph.commit
    pure (w, view)
  | none => .error "request-window workspace was not made"

/-- The layers of a forward, one after the other. Yields what each layer's attention reads. -/
def forwardLayers (ph : ℕ → WindowPhases) (newK : ℕ → ℕ → K) :
    RequestWindow K → List ℕ → Except String (RequestWindow K × List (ℕ × WindowPool K))
  | w, [] => .ok (w, [])
  | w, layer :: layers => do
    let (w, view) ← w.forwardLayer c layer (ph layer) (newK layer)
    let (w, views) ← forwardLayers ph newK w layers
    pure (w, (layer, view) :: views)

end RequestWindow

end LuzServing
