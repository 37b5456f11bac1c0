import MemFabric.AccOffload.Lru.FusedV3
import MemFabric.AccOffload.Lru.Legacy

/-!
# One compact call

`AccOffloadLruCompact` chooses the kernel by the shape of the call: the fused
kernel for the production shape, the phased kernels where their plan fits the
workspace, the legacy kernel otherwise.  Fused and phased rows are submitted one
after the other and use workspace slice `row % 8`.  The lanes of the legacy
kernel take the rows in strides and use parts of the slices as scratch.

The row buffers are flat; row `r` starts at `r * capacity` or `r * topk`.
-/

namespace MemFabric.AccOffload.Lru

open Simt

structure Call where
  numReqs : Int
  shape : Shape
  reqIds : Int → Int
  topkIndices : Int → Int
  stablePrefixLens : Int → Int

def Call.input (c : Call) (row : Int) : RowInput where
  reqId := c.reqIds row
  topkIndices := viewAt (row * c.shape.topk) c.topkIndices
  stablePrefixLen := c.stablePrefixLens row

@[ext] structure State where
  lastReqIds : Int → Int
  slotToToken : Int → Int
  lruSlots : Int → Int
  currentSlots : Int → Int
  missCount : Int → Int
  missTokens : Int → Int
  missSlots : Int → Int

def State.row (sh : Shape) (st : State) (row : Int) : Row where
  lastReqId := st.lastReqIds row
  slotToToken := viewAt (row * sh.capacity) st.slotToToken
  lruSlots := viewAt (row * sh.capacity) st.lruSlots
  currentSlots := viewAt (row * sh.topk) st.currentSlots
  missCount := st.missCount row
  missTokens := viewAt (row * sh.topk) st.missTokens
  missSlots := viewAt (row * sh.topk) st.missSlots

def State.putRow (sh : Shape) (st : State) (row : Int) (r : Row) : State where
  lastReqIds := Function.update st.lastReqIds row r.lastReqId
  slotToToken := storeAt (row * sh.capacity) r.slotToToken
  lruSlots := storeAt (row * sh.capacity) r.lruSlots
  currentSlots := storeAt (row * sh.topk) r.currentSlots
  missCount := Function.update st.missCount row r.missCount
  missTokens := storeAt (row * sh.topk) r.missTokens
  missSlots := storeAt (row * sh.topk) r.missSlots

/-- `token_mark`, `token_pos` and `epochs`: eight slices of `max_token` cells. -/
@[ext] structure Slices where
  tokenMark : Int → Int
  tokenPos : Int → Int
  epochs : Int → Int

/-- `LRU_COMPACT_WORKSPACE_THREADS` and `LRU_FUSED_V3_WORKSPACE_THREADS`. -/
def workspaceThreads : Int := 8

def Slices.slice (maxToken : Int) (sl : Slices) (k : Int) : Workspace where
  tokenMark := viewAt (k * maxToken) sl.tokenMark
  tokenPos := viewAt (k * maxToken) sl.tokenPos
  epoch := sl.epochs k

def Slices.putSlice (maxToken : Int) (sl : Slices) (k : Int) (ws : Workspace) : Slices where
  tokenMark := storeAt (k * maxToken) ws.tokenMark
  tokenPos := storeAt (k * maxToken) ws.tokenPos
  epochs := Function.update sl.epochs k ws.epoch

@[ext] structure Device where
  state : State
  slices : Slices

def Device.work (sh : Shape) (d : Device) (row : Int) : Work :=
  ⟨d.state.row sh row, d.slices.slice sh.maxToken (row % workspaceThreads)⟩

def Device.putWork (sh : Shape) (d : Device) (row : Int) (w : Work) : Device where
  state := d.state.putRow sh row w.toRow
  slices := d.slices.putSlice sh.maxToken (row % workspaceThreads) w.toWorkspace

/-- What a call leaves to the machine: the lane orders, and what the local memory
of the fused kernel holds when it starts. -/
structure Schedules where
  fusedV3 : Int → FusedV3.Schedule
  fusedV3Ub : Int → FusedV3.Ub
  phased : Int → Phased.Orders
  legacy : (lanes : Nat) → LaneOrder lanes

/-! ## The fused kernel -/

def IsCompactV3Shape (numReqs : Int) (sh : Shape) : Prop :=
  numReqs > 0 ∧ sh.topk = 2048 ∧ sh.capacity = 4096 ∧ sh.maxToken = 4096

instance (numReqs : Int) (sh : Shape) : Decidable (IsCompactV3Shape numReqs sh) :=
  instDecidableAnd

/-- `LaunchFusedV3`, with profiling off. -/
def launchFusedV3 (s : Schedules) (c : Call) (row : Int) (d : Device) : Device :=
  d.putWork c.shape row (FusedV3.offloadLruCompactFusedV3Kernel (s.fusedV3 row) (s.fusedV3Ub row)
    (c.input row) (d.work c.shape row))

/-! ## The phased kernels -/

def launchPhasedRow (s : Schedules) (c : Call) (row : Int) (d : Device) : Option Device :=
  (Phased.phasedRow (s.phased row) c.shape (c.input row) (d.work c.shape row)).map
    (d.putWork c.shape row)

def launchProductionPhasedLru (s : Schedules) (c : Call) (d : Device) : Option Device :=
  forLoop 0 c.numReqs (fun row acc => acc.bind (launchPhasedRow s c row)) (some d)

/-! ## The legacy kernel -/

namespace Legacy

def maxGridDim : Int := 8

def gridDim (numReqs : Int) : Nat :=
  if numReqs > maxGridDim then maxGridDim.toNat else if numReqs > 0 then numReqs.toNat else 1

/-- `threads_per_block`: as many lanes as have room for their scratch. -/
def blockDim (sh : Shape) : Nat :=
  if sh.capacity > 0 ∧ sh.maxToken ≥ sh.capacity then
    let workspaceThreads := sh.maxToken / sh.capacity
    if workspaceThreads > Phased.threadsPerBlock then Phased.threadsPerBlock
    else workspaceThreads.toNat
  else 1

def lanes (c : Call) : Nat := gridDim c.numReqs * blockDim c.shape

def scratchBase (sh : Shape) (blockIdx threadIdx : Int) : Int :=
  blockIdx * sh.maxToken + threadIdx * sh.capacity

def laneRow (c : Call) (blockIdx threadIdx row : Int) (d : Device) : Device :=
  let base := scratchBase c.shape blockIdx threadIdx
  let out := legacyRow c.shape (c.input row) (d.state.row c.shape row)
    (viewAt base d.slices.tokenMark)
  { state := d.state.putRow c.shape row out.1
    slices := { d.slices with tokenMark := storeAt base out.2 } }

/-- Lane `blockIdx + threadIdx * gridDim` starts at the row of the same number. -/
def lane (c : Call) (lane : Int) (d : Device) : Device :=
  if c.shape.topk ≤ 0 ∨ c.shape.capacity ≤ 0 ∨ c.shape.maxToken ≤ 0 then
    forStride lane c.numReqs (lanes c) (fun row d =>
      { d with state := { d.state with missCount := Function.update d.state.missCount row 0 } }) d
  else
    forStride lane c.numReqs (lanes c)
      (laneRow c (lane % gridDim c.numReqs) (lane / gridDim c.numReqs)) d

def offloadLruCompactLegacySimtOps (c : Call) (o : LaneOrder (lanes c)) (d : Device) : Device :=
  o.run (lane c) d

end Legacy

/-! ## Dispatch -/

def launchLegacyLruCompact (s : Schedules) (c : Call) (d : Device) : Device :=
  Legacy.offloadLruCompactLegacySimtOps c (s.legacy (Legacy.lanes c)) d

def offloadOpsLruCompact (s : Schedules) (c : Call) (d : Device) : Option Device :=
  if Phased.CanUseProductionPhasedLru c.numReqs c.shape then launchProductionPhasedLru s c d
  else some (launchLegacyLruCompact s c d)

/-- There is no result when a 32-bit counter of the phased kernels overflows. -/
def accOffloadLruCompact (s : Schedules) (c : Call) (d : Device) : Option Device :=
  if IsCompactV3Shape c.numReqs c.shape then
    some (forLoop 0 c.numReqs (launchFusedV3 s c) d)
  else offloadOpsLruCompact s c d

end MemFabric.AccOffload.Lru
