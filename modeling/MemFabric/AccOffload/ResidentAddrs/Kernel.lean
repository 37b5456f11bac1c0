import MemFabric.Simt.Compact
import MemFabric.Simt.Word

/-!
# Copy descriptors of the misses

`acc_offload_lru_resident_addrs_simt.cpp` and
`acc_offload_lru_resident_addrs_mixed_parallel.cpp` turn the misses of a compact
call into copy descriptors: a source address in the host pool, a destination in
the resident buffer and a size, first for every K part and then for every V
part.  Misses without a token, a slot or a block are left out.

The first kernel gives every lane whole rows.  The second handles one row and
gives every lane two of its misses.

Addresses are 64-bit sums; they wrap once at the end, which is the same as
wrapping at every step.
-/

namespace MemFabric.AccOffload.ResidentAddrs

open Simt Function

structure Call where
  missCount : Int → Int
  missTokens : Int → Int
  missSlots : Int → Int
  blockTable : Int → Int
  blockSize : Int
  tokenSizeBytesK : Int
  tokenSizeBytesV : Int
  gvasKBase : Int
  gvasVBase : Int
  addrKBase : Int
  addrVBase : Int
  residentCapacity : Int
  numReqs : Int
  topk : Int
  maxNumBlocks : Int

@[ext] structure Cells where
  gvasBuffer : Int → Int
  addrBuffer : Int → Int
  sizeBuffer : Int → Int

@[ext] structure Descriptors extends Cells where
  /-- `*num_tokens_buffer` -/
  numTokens : Int

/-- What both kernels keep of a miss they translate. -/
structure Item where
  slot : Int
  blockIndex : Int
  offsetInBlock : Int
deriving DecidableEq

/-! ## The row kernel -/

def clampCount (c : Call) (count : Int) : Int :=
  if count < 0 then 0 else if count > c.topk then int32 c.topk else count

/-- Miss `i` of row `r`; there is none where the loops `continue`. -/
def item? (c : Call) (r i : Int) : Option Item :=
  let offset := r * c.topk + i
  let token := c.missTokens offset
  let slot := c.missSlots offset
  if token < 0 ∨ slot < 0 ∨ slot ≥ c.residentCapacity then none
  else
    let blockId := token.tdiv c.blockSize
    if blockId < 0 ∨ blockId ≥ c.maxNumBlocks then none
    else
      let blockIndex := c.blockTable (r * c.maxNumBlocks + blockId)
      if blockIndex < 0 then none else some ⟨slot, blockIndex, token.tmod c.blockSize⟩

def countItem (c : Call) (r i count : Int) : Int :=
  if (item? c r i).isSome then count + 1 else count

def validCount (c : Call) (r : Int) : Int :=
  forLoop 0 (clampCount c (c.missCount r)) (countItem c r) 0

def sumRow (c : Call) (req r : Int) (s : Int × Int) : Int × Int :=
  (s.1 + validCount c r, if r < req then s.2 + validCount c r else s.2)

/-- `(total_valid, req_start)` as the lane that starts with row `req` forms them. -/
def rowSums (c : Call) (req : Int) : Int × Int := forLoop 0 c.numReqs (sumRow c req) (0, 0)

/-- `req_start` of a later row of the same lane. -/
def nextStart (c : Call) (nextReq : Int) : Int :=
  forLoop 0 nextReq (fun r => forLoop 0 (clampCount c (c.missCount r)) (countItem c r)) 0

def gva (base blockSize tokenSizeBytes : Int) (it : Item) : Int :=
  let blockBytes := blockSize * tokenSizeBytes
  int64 (base + it.blockIndex * blockBytes + it.offsetInBlock * tokenSizeBytes)

def addr (c : Call) (base tokenSizeBytes req : Int) (it : Item) : Int :=
  int64 (base + (req * c.residentCapacity + it.slot) * tokenSizeBytes)

def putItem (c : Call) (totalValid req packedIndex : Int) (it : Item) (d : Cells) : Cells :=
  let kPos := packedIndex
  let vPos := totalValid + packedIndex
  { gvasBuffer := update
      (update d.gvasBuffer kPos (gva c.gvasKBase c.blockSize c.tokenSizeBytesK it))
      vPos (gva c.gvasVBase c.blockSize c.tokenSizeBytesV it)
    addrBuffer := update
      (update d.addrBuffer kPos (addr c c.addrKBase c.tokenSizeBytesK req it))
      vPos (addr c c.addrVBase c.tokenSizeBytesV req it)
    sizeBuffer := update
      (update d.sizeBuffer kPos c.tokenSizeBytesK) vPos c.tokenSizeBytesV }

/-- One iteration of the loop over the misses of a row; the state carries
`packed_index`. -/
def packItem (c : Call) (totalValid req i : Int) (s : Int × Cells) : Int × Cells :=
  match item? c req i with
  | none => s
  | some it => (s.1 + 1, putItem c totalValid req s.1 it s.2)

/-- One iteration of a lane's loop over its rows; the state carries `req_start`. -/
def packRow (c : Call) (totalValid rowStride req : Int) (s : Int × Cells) : Int × Cells :=
  let d := (forLoop 0 (clampCount c (c.missCount req)) (packItem c totalValid req) s).2
  let nextReq := req + rowStride
  (if nextReq < c.numReqs then nextStart c nextReq else s.1, d)

def IsEmpty (c : Call) : Prop :=
  c.numReqs ≤ 0 ∨ c.blockSize ≤ 0 ∨ c.residentCapacity ≤ 0 ∨ c.topk ≤ 0 ∨ c.maxNumBlocks ≤ 0

instance (c : Call) : Decidable (IsEmpty c) := instDecidableOr

def maxGridDim : Int := 8

def gridDim (numReqs : Int) : Nat :=
  if numReqs > maxGridDim then maxGridDim.toNat else if numReqs > 0 then numReqs.toNat else 1

def lanes (c : Call) : Nat := gridDim c.numReqs * 128

/-- The lane with `blockIdx + threadIdx * gridDim = req`; it starts at row `req`,
and lane `0` is thread `0` of block `0`. -/
def lane (c : Call) (req : Int) (d : Descriptors) : Descriptors :=
  if IsEmpty c then if req = 0 then { d with numTokens := 0 } else d
  else if req ≥ c.numReqs then d
  else
    let totalValid := (rowSums c req).1
    let reqStart := (rowSums c req).2
    let d := if req = 0 then { d with numTokens := int32 (totalValid * 2) } else d
    { d with
      toCells := (forStride req c.numReqs (lanes c) (packRow c totalValid (lanes c))
        (reqStart, d.toCells)).2 }

def offloadComputeLruResidentAddrsSimtOps (c : Call) (o : LaneOrder (lanes c))
    (d : Descriptors) : Descriptors :=
  o.run (lane c) d

/-! ## The kernel for one row -/

namespace Parallel

/-- `RESIDENT_ADDRS_THREADS`: 32 warps of 32 lanes. -/
abbrev threads : Nat := 2 ^ 5 * 2 ^ 5

def maxTopk : Int := 2048

abbrev Schedule := Nat → LaneOrder threads

/-- Local memory; `count` and `total` are the two control cells. -/
structure Ub where
  warpTotals : Int → Int
  warpBases : Int → Int
  count : Int
  total : Int

/-- The ranks in their lanes, and the local memory with the sum in `total`. -/
def warpExclusiveScan1024 (o : Schedule) (flag : Int → Int) (ub : Ub) : (Int → Int) × Ub :=
  let inclusive := warpInclusiveScan 5 flag
  let ub1 := { ub with warpTotals := publishTotals 5 (o 0) inclusive ub.warpTotals }
  let ub2 := { ub1 with warpBases := scanTotals 5 (o 1) ub1.warpTotals ub1.warpBases }
  let exclusive := fun thread => ub2.warpBases (thread / 2 ^ 5) + inclusive thread - flag thread
  (exclusive, (o 2).run (fun thread ub =>
    if thread = 0 then
      { ub with total := ub2.warpBases (2 ^ 5 - 1) + ub2.warpTotals (2 ^ 5 - 1) }
    else ub) ub2)

def publishResidentAddressItem (c : Call) (rank totalValid : Int) (it : Item) (d : Cells) : Cells :=
  let kPos := rank
  let vPos := totalValid + rank
  { gvasBuffer := update
      (update d.gvasBuffer kPos (gva c.gvasKBase c.blockSize c.tokenSizeBytesK it))
      vPos (gva c.gvasVBase c.blockSize c.tokenSizeBytesV it)
    addrBuffer := update
      (update d.addrBuffer kPos (int64 (c.addrKBase + it.slot * c.tokenSizeBytesK)))
      vPos (int64 (c.addrVBase + it.slot * c.tokenSizeBytesV))
    sizeBuffer := update
      (update d.sizeBuffer kPos c.tokenSizeBytesK) vPos c.tokenSizeBytesV }

def launchCount (c : Call) : Int :=
  if c.topk > 0 ∧ c.topk ≤ maxTopk ∧ c.blockSize > 0 ∧ c.residentCapacity > 0 ∧
      c.maxNumBlocks > 0 then clampCount c (c.missCount 0)
  else 0

/-- The register record of one input position; there is none where its valid
flag is `0`. -/
def loadItem (c : Call) (count index : Int) : Option Item :=
  if index < count then
    let token := c.missTokens index
    let candidateSlot := c.missSlots index
    if token ≥ 0 ∧ candidateSlot ≥ 0 ∧ candidateSlot < c.residentCapacity then
      let blockId := token.tdiv c.blockSize
      if blockId < c.maxNumBlocks then
        let candidateBlock := c.blockTable blockId
        if candidateBlock ≥ 0 then some ⟨candidateSlot, candidateBlock, token.tmod c.blockSize⟩
        else none
      else none
    else none
  else none

def validFlag (it : Option Item) : Int := if it.isSome then 1 else 0

def publishRecord (c : Call) (totalValid rank : Int) (it : Option Item) (d : Cells) : Cells :=
  match it with
  | none => d
  | some it => publishResidentAddressItem c rank totalValid it d

def residentAddrsParallelVf (o : Schedule) (ub : Ub) (c : Call) (d : Descriptors) : Descriptors :=
  let ub := (o 0).run (fun thread ub =>
    if thread = 0 then { ub with count := launchCount c } else ub) ub
  let count := ub.count
  let item0 := fun thread => loadItem c count thread
  let item1 := fun thread => loadItem c count (thread + threads)
  let scan0 :=
    warpExclusiveScan1024 (fun i => o (1 + i)) (fun thread => validFlag (item0 thread)) ub
  let rank0 := scan0.1
  let total0 := scan0.2.total
  let scan1 := warpExclusiveScan1024 (fun i => o (4 + i)) (fun thread => validFlag (item1 thread))
    scan0.2
  let totalValid := total0 + scan1.2.total
  let rank1 := fun thread => total0 + scan1.1 thread
  (o 7).run (fun thread d =>
    let d := if thread = 0 then { d with numTokens := totalValid * 2 } else d
    { d with
      toCells := publishRecord c totalValid (rank1 thread) (item1 thread)
        (publishRecord c totalValid (rank0 thread) (item0 thread) d.toCells) }) d

def offloadOpsComputeLruResidentAddrsMixedParallel (o : Schedule) (ub : Ub) (c : Call)
    (d : Descriptors) : Descriptors :=
  if c.numReqs ≠ 1 ∨ c.topk ≤ 0 ∨ c.topk > maxTopk then d
  else residentAddrsParallelVf o ub c d

end Parallel

/-! ## Dispatch -/

def IsResidentAddrsParallelShape (numReqs topk : Int) : Prop :=
  numReqs = 1 ∧ topk > 0 ∧ topk ≤ 2048

instance (numReqs topk : Int) : Decidable (IsResidentAddrsParallelShape numReqs topk) :=
  instDecidableAnd

structure Schedules where
  serial : (lanes : Nat) → LaneOrder lanes
  parallel : Parallel.Schedule
  parallelUb : Parallel.Ub

def accOffloadComputeLruResidentAddrs (s : Schedules) (c : Call) (d : Descriptors) : Descriptors :=
  if IsResidentAddrsParallelShape c.numReqs c.topk then
    Parallel.offloadOpsComputeLruResidentAddrsMixedParallel s.parallel s.parallelUb c d
  else offloadComputeLruResidentAddrsSimtOps c (s.serial (lanes c)) d

end MemFabric.AccOffload.ResidentAddrs
