import MemFabric.AccOffload.Lru.Row
import MemFabric.Simt.Lanes

/-!
# The phased compact kernels

`acc_offload_lru_compact_simt.cpp`: one row is compacted by five kernels
submitted to the same stream.  `Reset` and `SimtOps` run on one thread;
`Prepare`, `Assign` and `Rebuild` run on one block of 128 lanes, which may be
scheduled in any order.  The rows are given through their row pointers and the
workspace through the pointers of the row's slice.

`SimtOps` builds the plan in place.  It first marks the requested tokens in
`token_mark` with the current epoch, then encodes the hits in `lru_slots`, and
then reuses `token_mark` for the evictable slots (from the front) and the hit
slots (from the back), and `token_pos` for the missing positions.
-/

namespace MemFabric.AccOffload.Lru

open Simt Function

@[ext] structure Work extends Row, Workspace

namespace Phased

abbrev threadsPerBlock : Nat := 128

/-- `LRU_EPOCH_RESET_THRESHOLD = 1 << 30`. -/
def epochResetThreshold : Int := 2 ^ 30

structure Orders where
  prepare : LaneOrder threadsPerBlock
  assign : LaneOrder threadsPerBlock
  rebuild : LaneOrder threadsPerBlock

def resetSlot (slot : Int) (row : Row) : Row :=
  { row with
    slotToToken := update row.slotToToken slot (-1)
    lruSlots := update row.lruSlots slot (int32 slot) }

def offloadLruCompactResetPhasedSimtOps (sh : Shape) (inp : RowInput) (row : Row) : Row :=
  if row.lastReqId = inp.reqId then row
  else { forLoop 0 sh.capacity resetSlot row with lastReqId := inp.reqId }

def clearOutputs (pos : Int) (row : Row) : Row :=
  { row with
    currentSlots := update row.currentSlots pos (-1)
    missTokens := update row.missTokens pos (-1)
    missSlots := update row.missSlots pos (-1) }

/-- One iteration of the loop that drops the tokens past the stable prefix. -/
def invalidateSlot (sh : Shape) (stablePrefixLen slot : Int) (row : Row) : Row :=
  let token := row.slotToToken slot
  if sh.IsToken token ∧ stablePrefixLen ≤ token then
    { row with slotToToken := update row.slotToToken slot (-1) }
  else row

/-- One lane of `OffloadLruCompactPreparePhasedSimtOps`. -/
def prepareLane (sh : Shape) (inp : RowInput) (thread : Int) (row : Row) : Row :=
  let row := forStride thread sh.topk threadsPerBlock clearOutputs row
  let row := if thread = 0 then { row with missCount := 0 } else row
  let stablePrefixLen := clampPrefix sh inp.stablePrefixLen
  forStride thread sh.capacity threadsPerBlock (invalidateSlot sh stablePrefixLen) row

def offloadLruCompactPreparePhasedSimtOps (o : LaneOrder threadsPerBlock) (sh : Shape)
    (inp : RowInput) (row : Row) : Row :=
  o.run (prepareLane sh inp) row

/-! ## The planning kernel -/

/-- The stored epoch forces a clear: the slice was never used by this kernel, or
its epochs are about to run out. -/
def NeedsClear (epoch : Int) : Prop := epoch ≥ -1 ∨ epoch ≤ 1 - epochResetThreshold

instance : DecidablePred NeedsClear := fun epoch =>
  inferInstanceAs (Decidable (epoch ≥ -1 ∨ epoch ≤ 1 - epochResetThreshold))

def currentEpoch (previousEpoch : Int) : Int :=
  if NeedsClear previousEpoch then -2 else previousEpoch - 1

def clearMarks (sh : Shape) (ws : Workspace) : Workspace :=
  forLoop 0 sh.maxToken (fun token ws =>
    { ws with
      tokenMark := update ws.tokenMark token 0
      tokenPos := update ws.tokenPos token (-1) }) ws

/-- The slice the marking loop starts from. -/
def epochStart (sh : Shape) (ws : Workspace) : Workspace :=
  if NeedsClear ws.epoch then clearMarks sh ws else ws

/-- `token_pos` records the first position of every requested token. -/
def markTopk (sh : Shape) (topkIndices : Int → Int) (epoch : Int) (ws : Workspace) : Workspace :=
  forLoop 0 sh.topk (fun pos ws =>
    let token := topkIndices pos
    if sh.IsToken token ∧ ws.tokenMark token ≠ epoch then
      { ws with
        tokenMark := update ws.tokenMark token epoch
        tokenPos := update ws.tokenPos token (int32 pos) }
    else ws) ws

structure Encoded where
  lruSlots : Int → Int
  currentSlots : Int → Int

/-- The hit predicate is encoded in the old LRU row: `-slot - 2` for a hit. -/
def encodeHits (sh : Shape) (ws : Workspace) (epoch : Int)
    (slotToToken lruSlots currentSlots : Int → Int) : Encoded :=
  forLoop 0 sh.capacity (fun order enc =>
    let slot := enc.lruSlots order
    if ¬ sh.IsSlot slot then
      { enc with lruSlots := update enc.lruSlots order (-1) }
    else
      let token := slotToToken slot
      if sh.IsToken token ∧ ws.tokenMark token = epoch then
        { currentSlots := update enc.currentSlots (ws.tokenPos token) slot
          lruSlots := update enc.lruSlots order (-slot - 2) }
      else
        { enc with lruSlots := update enc.lruSlots order slot }) ⟨lruSlots, currentSlots⟩

/-- `token_mark` as two stacks growing towards each other. -/
structure Stacks where
  tokenMark : Int → Int
  evictableCount : Int
  hitCount : Int

def buildStacks (sh : Shape) (lruSlots tokenMark : Int → Int) : Stacks :=
  forLoop 0 sh.capacity (fun order st =>
    let encoded := lruSlots order
    if encoded ≤ -2 then
      { st with
        tokenMark := update st.tokenMark (sh.maxToken - 1 - st.hitCount) (-encoded - 2)
        hitCount := st.hitCount + 1 }
    else if sh.IsSlot encoded then
      { st with
        tokenMark := update st.tokenMark st.evictableCount encoded
        evictableCount := st.evictableCount + 1 }
    else st) ⟨tokenMark, 0, 0⟩

structure MissList where
  missTokens : Int → Int
  tokenPos : Int → Int
  count : Int

def collectMisses (sh : Shape) (topkIndices currentSlots missTokens tokenPos : Int → Int) :
    MissList :=
  forLoop 0 sh.topk (fun pos ms =>
    let token := topkIndices pos
    if sh.IsToken token ∧ currentSlots pos < 0 then
      { missTokens := update ms.missTokens ms.count token
        tokenPos := update ms.tokenPos ms.count (int32 pos)
        count := ms.count + 1 }
    else ms) ⟨missTokens, tokenPos, 0⟩

def offloadLruCompactSimtOps (sh : Shape) (inp : RowInput) (w : Work) : Work :=
  let epoch := currentEpoch w.epoch
  let ws := markTopk sh inp.topkIndices epoch (epochStart sh w.toWorkspace)
  let enc := encodeHits sh ws epoch w.slotToToken w.lruSlots w.currentSlots
  let st := buildStacks sh enc.lruSlots ws.tokenMark
  let ms := collectMisses sh inp.topkIndices enc.currentSlots w.missTokens ws.tokenPos
  let assignCount := if ms.count < st.evictableCount then ms.count else st.evictableCount
  { w with
    lruSlots := enc.lruSlots
    currentSlots := enc.currentSlots
    missTokens := ms.missTokens
    missCount := assignCount
    tokenMark := st.tokenMark
    -- the two plan counts live in the last cells of `token_pos`
    tokenPos := update
      (update ms.tokenPos (sh.maxToken - 2) st.evictableCount)
      (sh.maxToken - 1) st.hitCount
    epoch := epoch }

end Phased

/-! ## Publishing a plan

`OffloadLruCompactAssignPhasedSimtOps` and `OffloadLruCompactRebuildPhasedSimtOps`
have the same bodies as the two halves of `FusedV3AssignRebuildUb`; only the
number of lanes differs.  No lane of these phases writes a cell another lane
reads, so the tables are read in the state the phase starts from.

`miss_idx` is an `int32_t` stepped by the number of lanes.  `assignPhase` counts
exactly; the phased kernel, whose counts may come close to `2^31`, has no result
when the counter overflows. -/

/-- One iteration of the assigning loop; `w` is the state the phase starts from. -/
def assignMiss (sh : Shape) (w : Work) (missIdx : Int) (acc : Work) : Work :=
  let slot := w.tokenMark missIdx
  let token := w.missTokens missIdx
  let pos := w.tokenPos missIdx
  if sh.IsSlot slot ∧ 0 ≤ pos ∧ pos < sh.topk then
    { acc with
      slotToToken := update acc.slotToToken slot token
      currentSlots := update acc.currentSlots pos slot
      missSlots := update acc.missSlots missIdx slot }
  else acc

def assignPhase {n : Nat} (o : LaneOrder n) (sh : Shape) (w : Work) : Work :=
  o.run (fun thread => forStride thread w.missCount n (assignMiss sh w)) w

/-- The slot that the rebuilding loop writes at `output`. -/
def rebuiltSlot (sh : Shape) (w : Work) (output : Int) : Int :=
  let assignCount := w.missCount
  let evictableCount := w.tokenPos (sh.maxToken - 2)
  let hitCount := w.tokenPos (sh.maxToken - 1)
  let unassignedCount := evictableCount - assignCount
  let validCount := evictableCount + hitCount
  if output < unassignedCount then w.tokenMark (assignCount + output)
  else if output < evictableCount then w.missSlots (output - unassignedCount)
  else if output < validCount then
    let hitIdx := int32 output - evictableCount
    w.tokenMark (sh.maxToken - 1 - hitIdx)
  else -1

def rebuildPhase {n : Nat} (o : LaneOrder n) (sh : Shape) (w : Work) : Work :=
  o.run (fun thread => forStride thread sh.capacity n fun output acc =>
    { acc with lruSlots := update acc.lruSlots output (rebuiltSlot sh w output) }) w

namespace Phased

def offloadLruCompactAssignPhasedSimtOps (o : LaneOrder threadsPerBlock) (sh : Shape)
    (w : Work) : Option Work :=
  o.run (fun thread acc =>
    acc.bind (forStride32 thread w.missCount threadsPerBlock (assignMiss sh w))) (some w)

def offloadLruCompactRebuildPhasedSimtOps (o : LaneOrder threadsPerBlock) (sh : Shape)
    (w : Work) : Work := rebuildPhase o sh w

/-- `CanUseProductionPhasedLru`: the shapes the phased kernels are launched for. -/
def CanUseProductionPhasedLru (numReqs : Int) (sh : Shape) : Prop :=
  numReqs > 0 ∧ sh.topk > 0 ∧ sh.capacity > 0 ∧ sh.maxToken ≥ 3 ∧
  sh.capacity ≤ sh.maxToken ∧ sh.topk ≤ sh.maxToken - 2 ∧
  sh.topk < 2 ^ 31 - 1 ∧ sh.capacity < 2 ^ 31 - 1 ∧ sh.maxToken ≤ 2 ^ 31 - 1 ∧
  numReqs ≤ (2 ^ 63 - 1) / sh.topk ∧ numReqs ≤ (2 ^ 63 - 1) / sh.capacity ∧
  sh.maxToken ≤ (2 ^ 63 - 1) / 8

instance (numReqs : Int) (sh : Shape) : Decidable (CanUseProductionPhasedLru numReqs sh) :=
  instDecidableAnd

/-- The five kernels `LaunchProductionPhasedLru` submits for one row. -/
def phasedRow (o : Orders) (sh : Shape) (inp : RowInput) (w : Work) : Option Work :=
  let row := offloadLruCompactResetPhasedSimtOps sh inp w.toRow
  let row := offloadLruCompactPreparePhasedSimtOps o.prepare sh inp row
  let w := offloadLruCompactSimtOps sh inp ⟨row, w.toWorkspace⟩
  (offloadLruCompactAssignPhasedSimtOps o.assign sh w).map
    (offloadLruCompactRebuildPhasedSimtOps o.rebuild sh)

end Phased

end MemFabric.AccOffload.Lru
