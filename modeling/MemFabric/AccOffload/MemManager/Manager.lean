import Mathlib.Data.Prod.Lex
import MemFabric.Machine.Intervals

/-!
# The memory manager

`AccOffloadMemManager`: a pool of host memory from which aligned blocks are allocated.  The
idle ranges are kept twice, by offset and by size; the used ones by offset.  An entry of the
maps from offset to size is kept as a range.

Offsets and sizes are `uint64_t` and their sums wrap.  Pointers point into or right behind
the pool, which is one object in memory, so their arithmetic does not wrap.
-/

namespace MemFabric.AccOffload

open Machine

abbrev MemoryRange := Extent

def add64 (a b : Nat) : Nat := (a + b) % 2 ^ 64

/-- The key of `addressIdleTree_` and `addressUsedTree_`. -/
def byAddress (r : MemoryRange) : Nat := r.offset

/-- The key of `sizeIdleTree_`: `RangeSizeFirst` compares the sizes first. -/
def bySize (r : MemoryRange) : ℕ ×ₗ ℕ := toLex (r.size, r.offset)

@[ext] structure MemManager where
  base : Nat
  size : Nat
  addressIdleTree : Ordered byAddress
  addressUsedTree : Ordered byAddress
  sizeIdleTree : Ordered bySize

namespace MemManager

def start (base size : Nat) : MemManager where
  base := base
  size := size
  addressIdleTree := Ordered.emplace ∅ ⟨0, size⟩
  addressUsedTree := ∅
  sizeIdleTree := Ordered.emplace ∅ ⟨0, size⟩

/-- `~(alignSize - 1UL)` in 64 bits. -/
def alignSizeMask : Nat := 2 ^ 64 - 16

def allocatedSizeAlignUp (inputSize : Nat) : Nat := add64 inputSize 15 &&& alignSizeMask

/-! ## The trees of idle ranges -/

def insertIdle (r : MemoryRange) (m : MemManager) : MemManager :=
  { m with
    addressIdleTree := m.addressIdleTree.emplace r
    sizeIdleTree := m.sizeIdleTree.emplace r }

def eraseIdle (r : MemoryRange) (m : MemManager) : MemManager :=
  { m with
    addressIdleTree := m.addressIdleTree.erase r.offset
    sizeIdleTree := m.sizeIdleTree.erase (bySize r) }

/-! ## Allocate -/

def take (target : MemoryRange) (alignedSize : Nat) (m : MemManager) : MemManager :=
  let m := m.eraseIdle target
  let m := { m with addressUsedTree := m.addressUsedTree.emplace ⟨target.offset, alignedSize⟩ }
  if alignedSize < target.size then
    m.insertIdle ⟨add64 target.offset alignedSize, target.size - alignedSize⟩
  else m

/-- The null pointer is `none`. -/
def allocate (size : Nat) (m : MemManager) : Option Nat × MemManager :=
  if size = 0 ∨ m.size < size ∨ m.base = 0 then (none, m)
  else
    let alignedSize := allocatedSizeAlignUp size
    match m.sizeIdleTree.lowerBound (bySize ⟨0, alignedSize⟩) with
    | none => (none, m)
    | some target =>
      match m.addressIdleTree.find target.offset with
      | none => (none, m)
      | some _ => (some (m.base + target.offset), m.take target alignedSize)

/-! ## Release -/

def mergePrev (offset : Nat) (final : MemoryRange) (m : MemManager) : MemoryRange × MemManager :=
  match m.addressIdleTree.before offset with
  | none => (final, m)
  | some prev =>
    if add64 prev.offset prev.size = offset then
      (⟨prev.offset, add64 final.size prev.size⟩, m.eraseIdle prev)
    else (final, m)

def mergeNext (stop : Nat) (final : MemoryRange) (m : MemManager) : MemoryRange × MemManager :=
  match m.addressIdleTree.find stop with
  | none => (final, m)
  | some next => (⟨final.offset, add64 final.size next.size⟩, m.eraseIdle next)

def give (pos : MemoryRange) (m : MemManager) : MemManager :=
  let m := { m with addressUsedTree := m.addressUsedTree.erase pos.offset }
  let (final, m) := m.mergePrev pos.offset pos
  let (final, m) := m.mergeNext (add64 pos.offset pos.size) final
  m.insertIdle final

def release (address : Nat) (m : MemManager) : Int × MemManager :=
  if address < m.base ∨ m.base + m.size ≤ address then (-1, m)
  else
    match m.addressUsedTree.find (address - m.base) with
    | none => (-1, m)
    | some pos => (0, m.give pos)

/-! ## Calls -/

inductive Input
  | allocate (size : Nat)
  | release (address : Nat)

inductive Event
  | allocated (size : Nat) (address : Option Nat)
  | released (address : Nat) (ret : Int)
deriving DecidableEq

def step (m : MemManager) : Input → MemManager × List Event
  | .allocate size => ((m.allocate size).2, [.allocated size (m.allocate size).1])
  | .release address => ((m.release address).2, [.released address (m.release address).1])

end MemManager

end MemFabric.AccOffload
