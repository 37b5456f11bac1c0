import MemFabric.AccOffload.Lru.Phased
import MemFabric.Simt.Scan

/-!
# The fused compact kernel

`acc_offload_lru_compact_fused_v3.cpp`: one block of 1024 lanes compacts one row
of the production shape in local memory (UB) and then writes the result to
global memory.  The kernel is a sequence of phases separated by
`asc_syncthreads`; every phase takes its own lane order from a `Schedule`.

A lane's registers are functions of the lane index.  A phase reads the tables in
the state it starts from wherever no lane writes a cell another lane reads.  The
content of UB before the kernel is arbitrary: only the three staged tables are
loaded, and only in range.  `RecordV3Stage` writes profiling stamps and is not
modelled.
-/

namespace MemFabric.AccOffload.Lru.FusedV3

open Simt Function

/-- `LRU_FUSED_V3_THREADS`: 32 warps of 32 lanes. -/
abbrev threads : Nat := 2 ^ 5 * 2 ^ 5

/-- `LRU_FUSED_V3_TOPK`, `LRU_FUSED_V3_CAPACITY`, `LRU_FUSED_V3_MAX_TOKEN`. -/
def fusedV3Shape : Shape := ⟨2048, 4096, 4096⟩

def fusedV3Epoch : Int := -2

abbrev Schedule := Nat → LaneOrder threads

structure ScanBufs where
  evictA : Int → Int
  evictB : Int → Int
  hitA : Int → Int
  hitB : Int → Int

/-- Local memory.  `missCount` and `epoch` are the control cells
`CONTROL_MISS_COUNT` and `CONTROL_CURRENT_EPOCH`; `lastReqId` is the row's cell
in global memory. -/
structure Ub extends Work where
  topkIndices : Int → Int
  scan : ScanBufs
  evictableCount : Int
  hitCount : Int
  resetRow : Int
  stablePrefix : Int
  hasMiss : Int

def copyGmToUb (destination source : Int → Int) (n : Int) : Int → Int := fun i =>
  if 0 ≤ i ∧ i < n then source i else destination i

/-! ## Block-wide scans -/

def warpScanPair1024 (o : Schedule) (evictFlag hitFlag : Int → Int) (sb : ScanBufs) : ScanBufs :=
  let evictInclusive := warpInclusiveScan 5 evictFlag
  let hitInclusive := warpInclusiveScan 5 hitFlag
  let sb1 := (o 0).run (fun thread sb =>
    if thread % 2 ^ 5 = 2 ^ 5 - 1 then
      { sb with
        evictA := update sb.evictA (thread / 2 ^ 5) (evictInclusive thread)
        hitA := update sb.hitA (thread / 2 ^ 5) (hitInclusive thread) }
    else sb) sb
  -- in warp 0 the lane number is the thread number
  let sb2 := (o 1).run (fun thread sb =>
    if thread / 2 ^ 5 = 0 then
      { sb with
        evictB := update sb.evictB (thread % 2 ^ 5)
          (warpInclusiveScan 5 sb1.evictA thread - sb1.evictA thread)
        hitB := update sb.hitB (thread % 2 ^ 5)
          (warpInclusiveScan 5 sb1.hitA thread - sb1.hitA thread) }
    else sb) sb1
  (o 2).run (fun thread sb =>
    { sb with
      evictA := update sb.evictA thread
        (sb2.evictB (thread / 2 ^ 5) + evictInclusive thread)
      hitA := update sb.hitA thread
        (sb2.hitB (thread / 2 ^ 5) + hitInclusive thread) }) sb2

def stableScanPair1024 (o : Schedule) (evictFlag hitFlag : Int → Int) (ub : Ub) : Ub :=
  { ub with scan := warpScanPair1024 o evictFlag hitFlag ub.scan }

/-- `BlockAny1024`; the result every lane returns is `control[CONTROL_HAS_MISS]`. -/
def blockAny1024 (o : Schedule) (predicate : Int → Int) (ub : Ub) : Ub :=
  let any := warpAny 5 predicate
  let ub1 := (o 0).run (fun thread ub =>
    if thread % 2 ^ 5 = 2 ^ 5 - 1 then
      { ub with scan := { ub.scan with
          evictA := update ub.scan.evictA (thread / 2 ^ 5) (any thread) } }
    else ub) ub
  (o 1).run (fun thread ub =>
    if thread / 2 ^ 5 = 0 ∧ thread % 2 ^ 5 = 2 ^ 5 - 1 then
      { ub with hasMiss := warpAny 5 ub1.scan.evictA thread }
    else ub) ub1

def flag (p : Prop) [Decidable p] : Int := if p then 1 else 0

/-! ## Reset and prepare -/

/-- One iteration over the positions in `FusedV3ResetPrepareUb`. -/
def resetPreparePos (pos : Int) (ub : Ub) : Ub :=
  { ub with
    currentSlots := update ub.currentSlots pos (-1)
    missTokens := update ub.missTokens pos (-1)
    missSlots := update ub.missSlots pos (-1) }

/-- One iteration over the slots in `FusedV3ResetPrepareUb`. -/
def resetPrepareSlot (resetRow stablePrefixLen slot : Int) (ub : Ub) : Ub :=
  if resetRow ≠ 0 then
    { ub with
      slotToToken := update ub.slotToToken slot (-1)
      lruSlots := update ub.lruSlots slot (int32 slot) }
  else
    let token := ub.slotToToken slot
    if fusedV3Shape.IsToken token ∧ stablePrefixLen ≤ token then
      { ub with slotToToken := update ub.slotToToken slot (-1) }
    else ub

/-- The control cells thread `0` writes first. -/
def initControl (inp : RowInput) (ub : Ub) : Ub :=
  { ub with
    epoch := fusedV3Epoch
    evictableCount := 0
    hitCount := 0
    missCount := 0
    resetRow := flag (ub.lastReqId ≠ inp.reqId)
    stablePrefix := clampPrefix fusedV3Shape inp.stablePrefixLen }

def fusedV3ResetPrepareUb (o : Schedule) (inp : RowInput) (ub : Ub) : Ub :=
  let ub := (o 0).run (fun thread ub => if thread = 0 then initControl inp ub else ub) ub
  let resetRow := ub.resetRow
  let stablePrefixLen := ub.stablePrefix
  (o 1).run (fun thread ub =>
    forStride thread fusedV3Shape.capacity threads (resetPrepareSlot resetRow stablePrefixLen)
      (forStride thread fusedV3Shape.topk threads resetPreparePos ub)) ub

/-! ## The reset fast path -/

/-- What a lane of the fast path writes; `rank` is its position among the valid
ones. -/
def resetFastLane (valid : Int → Prop) [DecidablePred valid] (topkIndices rank : Int → Int)
    (tile thread : Int) (acc : Ub) : Ub :=
  let pos := tile + thread
  let token := topkIndices pos
  if valid pos ∧ rank thread < fusedV3Shape.capacity then
    { acc with
      currentSlots := update acc.currentSlots pos (rank thread)
      missTokens := update acc.missTokens (rank thread) token
      missSlots := update acc.missSlots (rank thread) (rank thread)
      slotToToken := update acc.slotToToken (rank thread) token }
  else acc

/-- One tile of 1024 positions.  `missBase` is a register with the same value in
every lane. -/
def resetFastTile (o : Schedule) (tile : Int) (st : Int × Ub) : Int × Ub :=
  let missBase := st.1
  let valid := fun pos => fusedV3Shape.IsToken (st.2.topkIndices pos)
  let validFlag := fun thread => flag (valid (tile + thread))
  let ub := stableScanPair1024 o validFlag (fun _ => 0) st.2
  let scanResult := ub.scan.evictA
  let rank := fun thread => missBase + scanResult thread - validFlag thread
  (missBase + scanResult (threads - 1), (o 3).run (resetFastLane valid ub.topkIndices rank tile) ub)

/-- One iteration of the loop that rewrites the use order. -/
def resetFastEntry (assignCount output : Int) (ub : Ub) : Ub :=
  let remainingCount := fusedV3Shape.capacity - assignCount
  { ub with
    lruSlots := update ub.lruSlots output
      (if int32 output < remainingCount then assignCount + int32 output
        else int32 output - remainingCount) }

def fusedV3ResetFastPath (o : Schedule) (ub : Ub) : Ub :=
  let st := forStride 0 fusedV3Shape.topk threads
    (fun tile => resetFastTile (fun i => o (tile.toNat + i)) tile) (0, ub)
  let missBase := st.1
  let assignCount := if missBase > fusedV3Shape.capacity then fusedV3Shape.capacity else missBase
  (o 2048).run (fun thread ub =>
    forStride thread fusedV3Shape.capacity threads (resetFastEntry assignCount)
      (if thread = 0 then { ub with missCount := assignCount } else ub)) st.2

/-! ## The normal plan -/

def initMark (token : Int) (ub : Ub) : Ub :=
  { ub with
    tokenMark := update ub.tokenMark token (-1)
    tokenPos := update ub.tokenPos token (int32 fusedV3Shape.topk) }

def initMarks (o : LaneOrder threads) (ub : Ub) : Ub :=
  o.run (fun thread => forStride thread fusedV3Shape.maxToken threads initMark) ub

def minPosition (topkIndices : Int → Int) (pos : Int) (acc : Ub) : Ub :=
  { acc with
    tokenPos := atomicMin (fun pos => fusedV3Shape.IsToken (topkIndices pos)) topkIndices int32
      pos acc.tokenPos }

def minPositions (o : LaneOrder threads) (ub : Ub) : Ub :=
  o.run (fun thread => forStride thread fusedV3Shape.topk threads (minPosition ub.topkIndices)) ub

/-- The entry names a slot whose token is requested. -/
def IsHitEntry (ub : Ub) (order : Int) : Prop :=
  fusedV3Shape.IsSlot (ub.lruSlots order) ∧
    fusedV3Shape.IsToken (ub.slotToToken (ub.lruSlots order)) ∧
    ub.tokenPos (ub.slotToToken (ub.lruSlots order)) < fusedV3Shape.topk

instance (ub : Ub) : DecidablePred (IsHitEntry ub) := fun _ => instDecidableAnd

/-- One old LRU entry is encoded, and `asc_atomic_max` elects the greatest order
of every resident token; `ub` is the state the phase starts from. -/
def encodeEntry (ub : Ub) (order : Int) (acc : Ub) : Ub :=
  let slot := ub.lruSlots order
  let encoded := if ¬ fusedV3Shape.IsSlot slot then -1
    else if IsHitEntry ub order then -slot - 2 else slot
  { acc with
    tokenMark := atomicMax (IsHitEntry ub) (fun order => ub.slotToToken (ub.lruSlots order)) int32
      order acc.tokenMark
    lruSlots := update acc.lruSlots order encoded }

def encodeAndElect (o : LaneOrder threads) (ub : Ub) : Ub :=
  o.run (fun thread => forStride thread fusedV3Shape.capacity threads (encodeEntry ub)) ub

/-- The elected entry of a token serves the token's first position. -/
def resolveHit (ub : Ub) (order : Int) (acc : Ub) : Ub :=
  let encoded := ub.lruSlots order
  let slot := -encoded - 2
  let token := ub.slotToToken slot
  if encoded ≤ -2 ∧ ub.tokenMark token = int32 order then
    { acc with currentSlots := update acc.currentSlots (ub.tokenPos token) slot }
  else acc

def resolveHits (o : LaneOrder threads) (ub : Ub) : Ub :=
  o.run (fun thread => forStride thread fusedV3Shape.capacity threads (resolveHit ub)) ub

/-- The two running totals of the classifying tiles; registers with the same
value in every lane. -/
structure StackBases where
  evictBase : Int
  hitBase : Int
  ub : Ub

/-- What a lane writes to the two stacks at its two addresses. -/
def stackLane (encoded evictAddr hitAddr : Int → Int) (thread : Int) (acc : Ub) : Ub :=
  let acc := if fusedV3Shape.IsSlot (encoded thread) then
    { acc with tokenMark := update acc.tokenMark (evictAddr thread) (encoded thread) }
    else acc
  if encoded thread ≤ -2 then
    { acc with tokenMark := update acc.tokenMark (hitAddr thread) (-encoded thread - 2) }
  else acc

def stackTile (o : Schedule) (tile : Int) (st : StackBases) : StackBases :=
  let encoded := fun thread => st.ub.lruSlots (tile + thread)
  let evictFlag := fun thread => flag (fusedV3Shape.IsSlot (encoded thread))
  let hitFlag := fun thread => flag (encoded thread ≤ -2)
  let ub := stableScanPair1024 o evictFlag hitFlag st.ub
  let scanEvictResult := ub.scan.evictA
  let scanHitResult := ub.scan.hitA
  let evictRank := fun thread => scanEvictResult thread - evictFlag thread
  let hitRank := fun thread => scanHitResult thread - hitFlag thread
  { evictBase := st.evictBase + scanEvictResult (threads - 1)
    hitBase := st.hitBase + scanHitResult (threads - 1)
    ub := (o 3).run (stackLane encoded (fun thread => st.evictBase + evictRank thread)
      (fun thread => fusedV3Shape.maxToken - 1 - st.hitBase - hitRank thread)) ub }

def IsMiss (ub : Ub) (pos : Int) : Prop :=
  fusedV3Shape.IsToken (ub.topkIndices pos) ∧ ub.currentSlots pos < 0

instance (ub : Ub) : DecidablePred (IsMiss ub) := fun _ => instDecidableAnd

def localHasMiss (ub : Ub) (thread : Int) : Int :=
  forStride thread fusedV3Shape.topk threads (fun pos any => if IsMiss ub pos then 1 else any) 0

def missLane (miss : Int → Prop) [DecidablePred miss] (topkIndices addr : Int → Int)
    (tile thread : Int) (acc : Ub) : Ub :=
  let pos := tile + thread
  if miss pos then
    { acc with
      missTokens := update acc.missTokens (addr thread) (topkIndices pos)
      tokenPos := update acc.tokenPos (addr thread) (int32 pos) }
  else acc

def missTile (o : Schedule) (tile : Int) (st : Int × Ub) : Int × Ub :=
  let missBase := st.1
  let missFlag := fun thread => flag (IsMiss st.2 (tile + thread))
  let ub := stableScanPair1024 o missFlag (fun _ => 0) st.2
  let scanEvictResult := ub.scan.evictA
  let missRank := fun thread => scanEvictResult thread - missFlag thread
  (missBase + scanEvictResult (threads - 1),
    (o 3).run (missLane (IsMiss st.2) ub.topkIndices (fun thread => missBase + missRank thread)
      tile) ub)

def fusedV3NormalPlan (o : Schedule) (ub : Ub) : Ub :=
  let ub := initMarks (o 0) ub
  let ub := minPositions (o 1) ub
  let ub := encodeAndElect (o 2) ub
  let ub := resolveHits (o 3) ub
  let st := forStride 0 fusedV3Shape.capacity threads
    (fun tile => stackTile (fun i => o (4 + tile.toNat + i)) tile) ⟨0, 0, ub⟩
  let evictBase := st.evictBase
  let hitBase := st.hitBase
  let ub := blockAny1024 (fun i => o (4096 + i)) (localHasMiss st.ub) st.ub
  let ms := if ub.hasMiss ≠ 0 then
      forStride 0 fusedV3Shape.topk threads
        (fun tile => missTile (fun i => o (4098 + tile.toNat + i)) tile) (0, ub)
    else (0, ub)
  let missBase := ms.1
  (o 8192).run (fun thread ub =>
    if thread = 0 then
      { ub with
        evictableCount := evictBase
        hitCount := hitBase
        missCount := if missBase < evictBase then missBase else evictBase
        tokenPos := update
          (update ub.tokenPos (fusedV3Shape.maxToken - 2) evictBase)
          (fusedV3Shape.maxToken - 1) hitBase }
    else ub) ms.2

def fusedV3AssignRebuildUb (o : Schedule) (ub : Ub) : Ub :=
  { ub with
    toWork := rebuildPhase (o 1) fusedV3Shape (assignPhase (o 0) fusedV3Shape ub.toWork) }

/-! ## Publication and the kernel -/

/-- One iteration over the slots in `PublishFusedV3StateDirectGm`. -/
def publishSlot (ub : Ub) (index : Int) (w : Work) : Work :=
  { w with
    slotToToken := update w.slotToToken index (ub.slotToToken index)
    lruSlots := update w.lruSlots index (ub.lruSlots index) }

/-- One iteration over the positions in `PublishFusedV3StateDirectGm`. -/
def publishPos (ub : Ub) (index : Int) (w : Work) : Work :=
  { w with
    currentSlots := update w.currentSlots index (ub.currentSlots index)
    missTokens := update w.missTokens index (ub.missTokens index)
    missSlots := update w.missSlots index (ub.missSlots index) }

def publishControl (inp : RowInput) (ub : Ub) (w : Work) : Work :=
  { w with lastReqId := inp.reqId, missCount := ub.missCount, epoch := fusedV3Epoch }

def publishFusedV3StateDirectGm (o : LaneOrder threads) (inp : RowInput) (ub : Ub) (w : Work) :
    Work :=
  o.run (fun thread w =>
    let w := forStride thread fusedV3Shape.capacity threads (publishSlot ub) w
    let w := forStride thread fusedV3Shape.topk threads (publishPos ub) w
    if thread = 0 then publishControl inp ub w else w) w

def lruCompactFusedV3Body (o : Schedule) (inp : RowInput) (ub : Ub) (w : Work) : Work :=
  let ub := fusedV3ResetPrepareUb o inp ub
  let ub := if ub.resetRow ≠ 0 then fusedV3ResetFastPath (fun i => o (2 + i)) ub
    else fusedV3AssignRebuildUb (fun i => o (8195 + i)) (fusedV3NormalPlan (fun i => o (2 + i)) ub)
  publishFusedV3StateDirectGm (o 8197) inp ub w

/-- One row.  `ub0` is the content of UB before the three tables are staged. -/
def offloadLruCompactFusedV3Kernel (o : Schedule) (ub0 : Ub) (inp : RowInput) (w : Work) : Work :=
  let ub := { ub0 with
    lastReqId := w.lastReqId
    topkIndices := copyGmToUb ub0.topkIndices inp.topkIndices fusedV3Shape.topk
    slotToToken := copyGmToUb ub0.slotToToken w.slotToToken fusedV3Shape.capacity
    lruSlots := copyGmToUb ub0.lruSlots w.lruSlots fusedV3Shape.capacity }
  lruCompactFusedV3Body o inp ub w

end MemFabric.AccOffload.Lru.FusedV3
