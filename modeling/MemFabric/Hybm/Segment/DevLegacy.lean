import MemFabric.Hybm.Segment.Common

/-!
# Segments on the heap of global addresses

`HybmDevLegacySegment` of `hybm_dev_legacy_segment.cpp`: memory of a device at addresses of
a heap that all ranks keep at the same place.  What the heap has handed out, or opened for
another rank, is mapped; it is given back by its first address.
-/

namespace MemFabric.Hybm

open Machine

/-- Of what is exported only the numbers of the slices are kept. -/
structure HybmDevLegacySegment extends MemSegment where
  globalVirtualAddress : Nat := 0
  totalVirtualSize : Nat := 0
  lvaBase : Nat := 0
  allocatedSize : Nat := 0
  slices : SliceTable := ∅
  exportMap : Ordered (id : Nat → Nat) := ∅

namespace HybmDevLegacySegment

variable (s : HybmDevLegacySegment) (driver : Driver)

/-! ## Address space -/

def validateOptions (options : MemSegmentOptions) : Int :=
  if options.segType ≠ .hbm ∨ options.maxSize = 0 ∨ options.devId < 0 ∨
      options.maxSize % largePageSize ≠ 0 then bmInvalidParam
  else if (2 ^ 64 - 1) / options.maxSize < options.rankCnt then bmInvalidParam
  else bmOk

/-- `ReserveMemorySpace`.  With addresses of 56 bits the global addresses are reserved as
well, and it is not looked at whether that has succeeded. -/
def reserveMemorySpace : Int × HybmDevLegacySegment :=
  if validateOptions s.options ≠ bmOk then (bmInvalidParam, s)
  else if s.globalVirtualAddress ≠ 0 then (bmNotInitialized, s)
  else if s.options.rankCnt ≤ s.options.rankId then (bmInvalidParam, s)
  else
    let total := s.options.rankCnt * s.options.maxSize
    let base := driver.address .gvaReserveMemory
    if driver.result .gvaReserveMemory ≠ 0 ∨ base = 0 then
      (bmMallocFailed, { s with totalVirtualSize := total })
    else
      let gvaInfo := s.reserved.allocReserveGva s.options.rankId total total .device true
      (bmOk,
        { s with
          totalVirtualSize := total
          lvaBase := base + s.options.maxSize * s.options.rankId
          reserved := if s.options.enable56BitsGva then gvaInfo.2 else s.reserved
          globalVirtualAddress := if s.options.enable56BitsGva then gvaInfo.1.va hvmGva else base
          allocatedSize := 0
          sliceCount := 0 })

/-! ## Local memory -/

def nextSlice (size : Nat) : MemSlice :=
  s.newSlice .device
    (s.globalVirtualAddress + s.options.maxSize * s.options.rankId + s.allocatedSize)
    (s.lvaBase + s.allocatedSize) size

/-- The slice is in the table, and the addresses up to its end are in use. -/
def placed (hal : Hal) (size : Nat) : HybmDevLegacySegment :=
  { s with
    toMemSegment := { s.counted with hal }
    allocatedSize := (s.allocatedSize + size) % 2 ^ 64
    slices := s.slices.emplace ⟨s.nextSlice size, 0⟩ }

/-- `AllocLocalMemory`.  A slice of size zero has the address of the next one. -/
def allocLocalMemory (size : Nat) : Int × MemSlice × HybmDevLegacySegment :=
  let slice := s.nextSlice size
  if s.options.refuses s.allocatedSize size then (bmInvalidParam, slice, s)
  else if size = 0 then (bmOk, slice, s.placed s.hal size)
  else if driver.result .gvaAlloc ≠ 0 then (bmDlFunctionFailed, slice, s)
  else
    let s := s.placed (s.hal.memMap bmOk slice.vAddress size 0) size
    let added := s.va.addVaInfoOfBase
      ⟨MemSegment.addresses slice.gva slice.vAddress slice.vAddress, size, .device⟩ s.options.rankId
    if added.1 ≠ bmOk then
      (added.1, slice,
        { s with
          hal := s.hal.memUnmap (driver.result .gvaFree) slice.vAddress
          slices := s.slices.erase slice.index })
    else (bmOk, slice, { s with va := added.2 })

/-- `ReleaseSliceMemory`: memory outside of the global addresses of the segment is taken for
memory of the user. -/
def releaseSliceMemory (slice : MemSlice) : Int × HybmDevLegacySegment :=
  match s.slices.find slice.index with
  | none => (bmInvalidParam, s)
  | some status =>
    if status.slice ≠ slice then (bmInvalidParam, s)
    else
      let inRange :=
        memoryInRange s.globalVirtualAddress s.totalVirtualSize slice.vAddress slice.size
      (bmOk,
        { s with
          hal := if inRange then s.hal.memUnmap (driver.result .gvaFree) slice.vAddress else s.hal
          va := s.va.removeOneVaInfo slice.vAddress hvmDva
          slices := s.slices.erase slice.index
          exportMap := s.exportMap.erase slice.index })

end HybmDevLegacySegment

end MemFabric.Hybm
