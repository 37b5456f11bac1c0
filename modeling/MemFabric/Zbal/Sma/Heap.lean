import MemFabric.Machine.Intervals
import MemFabric.Machine.Word64

/-!
# The heap of shared memory addresses

`SplitMemoryHeap`: the free blocks are kept twice, by address and in buckets by the
logarithm of their sizes.  Requests below a threshold are placed from low to high addresses,
the others from high to low.

Addresses and sizes are 64 bit words.  An entry of the maps from address to size is kept as
an extent.
-/

namespace MemFabric.Zbal.Sma

open Machine

/-- `__builtin_clzll`, for `n ≠ 0`. -/
def builtinClzll (n : Nat) : Nat := 63 - Nat.log2 n

def align64 : Nat := 64

@[ext] structure SplitMemoryHeap where
  initialized : Bool
  splitThreshold : Nat
  usedBytes : Nat
  globalFreeMap : Ordered Extent.offset
  sizeBuckets : List (Ordered (id : Nat → Nat))
  allocatedRecords : Ordered Extent.offset

namespace SplitMemoryHeap

/-! ## The free structures -/

def getBucketIndex (size : Nat) : Nat :=
  if size = 0 then 0 else align64 - builtinClzll size - 1

def addToFreeStructures (block : Extent) (h : SplitMemoryHeap) : SplitMemoryHeap :=
  if block.size = 0 then h
  else
    { h with
      globalFreeMap := h.globalFreeMap.assign block
      -- nothing happens if there is no bucket of that index
      sizeBuckets := h.sizeBuckets.modify (getBucketIndex block.size) (·.emplace block.offset) }

def removeFromFreeStructures (block : Extent) (h : SplitMemoryHeap) : SplitMemoryHeap :=
  { h with
    globalFreeMap := h.globalFreeMap.erase block.offset
    sizeBuckets := h.sizeBuckets.modify (getBucketIndex block.size) (·.erase block.offset) }

def start (base size threshold : Nat) : SplitMemoryHeap :=
  let h : SplitMemoryHeap :=
    { initialized := false, splitThreshold := threshold, usedBytes := 0, globalFreeMap := ∅,
      sizeBuckets := List.replicate align64 ∅, allocatedRecords := ∅ }
  if base ≠ 0 ∧ 0 < size then { h.addToFreeStructures ⟨base, size⟩ with initialized := true } else h

/-! ## alignedAllocate -/

/-- `global_free_map_[addr]`. -/
def freeBlock (addr : Nat) (h : SplitMemoryHeap) : Extent :=
  (h.globalFreeMap.find addr).getD ⟨addr, 0⟩

/-- The blocks in the buckets from `startIdx` on, those of a bucket in the given order. -/
def blocksFrom (startIdx : Nat) (order : Ordered (id : Nat → Nat) → List Nat)
    (h : SplitMemoryHeap) : List Extent :=
  (h.sizeBuckets.drop startIdx).flatMap fun bucket => (order bucket).map h.freeBlock

def recordAllocation (ptr reqSize : Nat) (h : SplitMemoryHeap) : SplitMemoryHeap :=
  { h with
    allocatedRecords := h.allocatedRecords.assign ⟨ptr, reqSize⟩
    usedBytes := Word64.add h.usedBytes reqSize }

def alignedAddr (alignment : Nat) (block : Extent) : Nat :=
  Word64.add block.offset (Word64.sub alignment 1) &&& Word64.compl (Word64.sub alignment 1)

def padding (alignment : Nat) (block : Extent) : Nat :=
  Word64.sub (alignedAddr alignment block) block.offset

def totalNeeded (alignment reqSize : Nat) (block : Extent) : Nat :=
  Word64.add reqSize (padding alignment block)

def takeLow (alignment reqSize : Nat) (block : Extent) (h : SplitMemoryHeap) : SplitMemoryHeap :=
  let h := h.removeFromFreeStructures block
  let h :=
    if 0 < padding alignment block then
      h.addToFreeStructures ⟨block.offset, padding alignment block⟩
    else h
  let remaining := Word64.sub block.size (totalNeeded alignment reqSize block)
  let h :=
    if 0 < remaining then
      h.addToFreeStructures ⟨Word64.add (alignedAddr alignment block) reqSize, remaining⟩
    else h
  h.recordAllocation (alignedAddr alignment block) reqSize

/-- The null pointer is `none`. -/
def allocateLowToHigh (startIdx alignment reqSize : Nat) (h : SplitMemoryHeap) :
    Option Nat × SplitMemoryHeap :=
  match (h.blocksFrom startIdx Ordered.toList).find? fun block =>
      decide (totalNeeded alignment reqSize block ≤ block.size) with
  | none => (none, h)
  | some block => (some (alignedAddr alignment block), h.takeLow alignment reqSize block)

/-- `aligned_start`: the last aligned address from which the request ends in the block. -/
def alignedStart (alignment reqSize : Nat) (block : Extent) : Nat :=
  Word64.sub (Word64.add block.offset block.size) reqSize &&& Word64.compl (Word64.sub alignment 1)

def takeHigh (alignment reqSize : Nat) (block : Extent) (h : SplitMemoryHeap) : SplitMemoryHeap :=
  let h := h.removeFromFreeStructures block
  let remainLow := Word64.sub (alignedStart alignment reqSize block) block.offset
  let h := if 0 < remainLow then h.addToFreeStructures ⟨block.offset, remainLow⟩ else h
  -- the padding behind the request is discarded
  h.recordAllocation (alignedStart alignment reqSize block) reqSize

/-- The block that `allocateHighToLow` takes. -/
def findHigh (startIdx alignment reqSize : Nat) (h : SplitMemoryHeap) : Option Extent :=
  (h.blocksFrom startIdx fun bucket => bucket.toList.reverse).find? fun block =>
    decide (block.offset ≤ alignedStart alignment reqSize block)

def allocateHighToLow (startIdx alignment reqSize : Nat) (h : SplitMemoryHeap) :
    Option Nat × SplitMemoryHeap :=
  match h.findHigh startIdx alignment reqSize with
  | none => (none, h)
  | some block => (some (alignedStart alignment reqSize block), h.takeHigh alignment reqSize block)

def alignedAllocate (alignment size : Nat) (h : SplitMemoryHeap) : Option Nat × SplitMemoryHeap :=
  if h.initialized = false ∨ size = 0 then (none, h)
  else
    let alignment := if alignment = 0 then 1 else alignment
    let startIdx := getBucketIndex size
    if size < h.splitThreshold then h.allocateLowToHigh startIdx alignment size
    else h.allocateHighToLow startIdx alignment size

/-! ## release -/

def mergeRight (block : Extent) (h : SplitMemoryHeap) : Extent × SplitMemoryHeap :=
  let stop := Word64.add block.offset block.size
  match h.globalFreeMap.lowerBound stop with
  | none => (block, h)
  | some next =>
    if next.offset = stop then
      (⟨block.offset, Word64.add block.size next.size⟩, h.removeFromFreeStructures next)
    else (block, h)

def mergeLeft (block : Extent) (h : SplitMemoryHeap) : Extent × SplitMemoryHeap :=
  match h.globalFreeMap.before block.offset with
  | none => (block, h)
  | some prev =>
    if Word64.add prev.offset prev.size = block.offset then
      (⟨prev.offset, Word64.add block.size prev.size⟩, h.removeFromFreeStructures prev)
    else (block, h)

def coalesceAndInsert (block : Extent) (h : SplitMemoryHeap) : SplitMemoryHeap :=
  let (block, h) := h.mergeRight block
  let (block, h) := h.mergeLeft block
  h.addToFreeStructures block

def release (address : Nat) (h : SplitMemoryHeap) : Int × SplitMemoryHeap :=
  if address = 0 then (-1, h)
  else
    match h.allocatedRecords.find address with
    | none => (-1, h)
    | some block =>
      let h :=
        { h with
          allocatedRecords := h.allocatedRecords.erase address
          usedBytes := Word64.sub h.usedBytes block.size }
      (0, h.coalesceAndInsert block)

def allocatedSize (address : Nat) (h : SplitMemoryHeap) : Option Nat :=
  (h.allocatedRecords.find address).map Extent.size

/-! ## Calls -/

inductive Call
  | alignedAllocate (alignment size : Nat)
  | release (address : Nat)

inductive Result
  | allocated (alignment size : Nat) (address : Option Nat)
  | released (address : Nat) (ret : Int)
deriving DecidableEq

def step (h : SplitMemoryHeap) : Call → SplitMemoryHeap × List Result
  | .alignedAllocate alignment size =>
    ((h.alignedAllocate alignment size).2,
      [.allocated alignment size (h.alignedAllocate alignment size).1])
  | .release address => ((h.release address).2, [.released address (h.release address).1])

end SplitMemoryHeap

end MemFabric.Zbal.Sma
