import MemFabric.Hybm.Segment.Common

/-!
# Segments on the driver's virtual memory

`HybmVmmBasedSegment` of `hybm_vmm_based_segment.cpp`, for memory of a device or of the
host: physical memory is created, exported and mapped at the next address of the part of
the space that belongs to the rank.
-/

namespace MemFabric.Hybm

open Machine

/-! ## What is exchanged -/

def segmentTypeVmm : Nat := 1

structure HostSdmaExportInfo where
  magic : Nat := dramSliceExportInfoMagic
  segmentType : Nat := segmentTypeVmm
  gva : Nat := 0
  deviceVa : Nat := 0
  sliceIndex : Nat := 0
  sdid : Nat := 0
  serverId : Nat := 0
  superPodId : Nat := 0
  rankId : Nat := 0
  logicDevId : Nat := 0
  size : Nat := 0
  shareHandle : Nat := 0
deriving DecidableEq

structure RegisteredSlice where
  slice : MemSlice
  realAddr : Nat
deriving DecidableEq

def RegisteredSlice.index (registered : RegisteredSlice) : Nat := registered.slice.index

structure HybmVmmBasedSegment extends MemSegment where
  imports : List HostSdmaExportInfo := []
  globalVirtualAddress : Nat := 0
  localVirtualAddress : Nat := 0
  totalVirtualSize : Nat := 0
  allocatedSize : Nat := 0
  slices : SliceTable := ∅
  registerSlices : Ordered RegisteredSlice.index := ∅
  exportMap : Ordered (Prod.fst : Nat × HostSdmaExportInfo → Nat) := ∅
  mappedGvaMem : Ordered (Prod.fst : Nat × Nat → Nat) := ∅
  reservedLva : List Nat := []

namespace HybmVmmBasedSegment

variable (s : HybmVmmBasedSegment) (driver : Driver)

/-! ## Address space -/

def checkAlignment (size align : Nat) : Bool :=
  !decide (size = 0 ∨ (align ≠ 0 ∧ size % align ≠ 0))

def validateOptions (options : MemSegmentOptions) : Int :=
  let align := if options.segType = .dram then gigabyte else largePageSize
  if options.size ≠ 0 ∧ ¬ checkAlignment options.size align then bmInvalidParam
  else if ¬ checkAlignment options.maxSize gigabyte then bmInvalidParam
  else if (2 ^ 64 - 1) / options.maxSize < options.rankCnt then bmInvalidParam
  else if gvmMaxPoolSize < options.maxSize * options.rankCnt ∧ ¬ options.enable56BitsGva then
    bmInvalidParam
  else bmOk

def reserveMemorySpace : Int × HybmVmmBasedSegment :=
  if validateOptions s.options ≠ bmOk then (bmInvalidParam, s)
  else if s.globalVirtualAddress ≠ 0 then (bmNotInitialized, s)
  else if s.options.rankCnt ≤ s.options.rankId then (bmInvalidParam, s)
  else
    let total := s.options.rankCnt * s.options.maxSize
    let gvaInfo := s.reserved.allocReserveGva s.options.rankId total s.options.localSize
      s.options.memType s.options.enable56BitsGva
    let s := { s with totalVirtualSize := total, reserved := gvaInfo.2 }
    if gvaInfo.1.va hvmGva = 0 then (bmError, s)
    else
      let s := { s with globalVirtualAddress := gvaInfo.1.va hvmGva }
      if driver.result .memAddressReserve ≠ 0 then (bmMallocFailed, s)
      else
        (bmOk,
          { s with
            localVirtualAddress := gvaInfo.1.va hvmDva
            allocatedSize := 0
            sliceCount := 0
            reservedLva := s.reservedLva ++ [gvaInfo.1.va hvmDva] })

def localVirtualBase : Nat :=
  s.localVirtualAddress +
    if s.options.enable56BitsGva then 0 else s.options.maxSize * s.options.rankId

def globalVirtualBase : Nat := s.globalVirtualAddress + s.options.maxSize * s.options.rankId

/-! ## Local memory -/

def exportMagic (options : MemSegmentOptions) : Nat :=
  if options.segType = .dram then vmmBaseDramSliceExportInfoMagic
  else vmmBaseHbmSliceExportInfoMagic

def exportInfo (slice : MemSlice) (gva deviceVa shareHandle : Nat) : HostSdmaExportInfo where
  magic := exportMagic s.options
  gva := gva
  deviceVa := deviceVa
  sliceIndex := slice.index
  sdid := s.device.sdid
  serverId := s.device.serverId
  superPodId := s.device.superPodId
  rankId := s.options.rankId
  logicDevId := s.device.logicDeviceId
  size := slice.size
  shareHandle := shareHandle

def nextSlice (size : Nat) : MemSlice :=
  s.newSlice s.options.memType (s.globalVirtualBase + s.allocatedSize)
    (s.localVirtualBase + s.allocatedSize) size

def placed (hal : Hal) (handle size : Nat) : HybmVmmBasedSegment :=
  { s with
    toMemSegment := { s.counted with hal }
    allocatedSize := (s.allocatedSize + size) % 2 ^ 64
    slices := s.slices.emplace ⟨s.nextSlice size, handle⟩ }

/-- `MallocEmptySlice`: the slice has the address at which the next one will be, and both
addresses of the export info are the local one. -/
def mallocEmptySlice : Int × MemSlice × HybmVmmBasedSegment :=
  let slice := s.nextSlice 0
  let info := s.exportInfo slice slice.vAddress slice.vAddress 0
  (bmOk, slice,
    { s with
      toMemSegment := s.counted
      slices := s.slices.emplace ⟨slice, 0⟩
      exportMap := s.exportMap.assign (slice.index, info) })

def halOutOfMemoryError : Int := 6

/-- `MallocFromHost`: with giant pages, and if there are none, with huge ones.  The flags of
the options choose the NUMA node only. -/
def mallocFromHost : Int × Nat × Hal :=
  let page := if s.device.socType = .ascend950 ∨ driver.result .memGetAllocationGranularity ≠ 0
    then .huge else .giant
  let created := s.hal.memCreate (driver.result (.memCreate page))
  if created.1 = halOutOfMemoryError ∧ page = .giant then
    s.hal.memCreate (driver.result (.memCreate .huge))
  else created

def mallocFromDevice : Int × Nat × Hal := s.hal.memCreate (driver.result (.memCreate .huge))

/-- The memory of the type of the segment, and `BM_INVALID_PARAM` for other types. -/
def malloc : Int × Nat × Hal :=
  match s.options.segType with
  | .hbm => s.mallocFromDevice driver
  | .dram => s.mallocFromHost driver
  | .hbmUser | .butt => (bmInvalidParam, 0, s.hal)

/-- `ExportInner`: the result, the handle for others, and the segment. -/
def exportInner (slice : MemSlice) : Int × Nat × HybmVmmBasedSegment :=
  match s.va.findAllocByVa slice.vAddress hvmDva with
  | (_, false) => (bmInvalidParam, 0, s)
  | (gvaInfo, true) =>
    let handle := ((s.slices.find slice.index).map MemSliceStatus.handle).getD 0
    if driver.result .memExport ≠ 0 then (bmDlFunctionFailed, 0, s)
    else if (s.device.socType = .ascend910B ∨ s.device.socType = .ascend910C) ∧
        (driver.result .memTransShareableHandle ≠ 0 ∨
          driver.result .memShareHandleSetAttribute ≠ 0) then (bmError, 0, s)
    else
      let info := s.exportInfo slice (gvaInfo.base.va hvmGva) (gvaInfo.base.va hvmDva) handle
      (bmOk, handle, { s with exportMap := s.exportMap.assign (slice.index, info) })

/-- The slice leaves the table again, and a handle is released. -/
def dropped (slice : MemSlice) (handle : Nat) : HybmVmmBasedSegment :=
  { s with
    hal := s.hal.memRelease (driver.result .memRelease) handle
    slices := s.slices.erase slice.index }

/-- The memory is mapped through a second handle, which is an import of the first. -/
def mapsImport : Bool :=
  decide (s.options.segType = .dram) && s.options.shared && !s.options.dramMapHostVa

def setsAccess : Bool :=
  decide (s.options.segType = .dram) && s.options.shared && s.options.dramMapHostVa

/-- The end of `AllocLocalMemory`: the memory is mapped. -/
def mapSlice (slice : MemSlice) (dHandle : Nat) : Int × HybmVmmBasedSegment :=
  if driver.result .memMap ≠ 0 then (bmDlFunctionFailed, s.dropped driver slice dHandle)
  else
    let s := { s with hal := s.hal.memMap bmOk slice.vAddress slice.size dHandle }
    if s.setsAccess ∧ driver.result .memSetAccess ≠ 0 then
      (bmDlFunctionFailed, s.dropped driver slice dHandle)
    else (bmOk, s)

/-- Before that, the memory is imported if it is to be mapped as others map it. -/
def importSlice (slice : MemSlice) (handle : Nat) : Int × HybmVmmBasedSegment :=
  if s.mapsImport then
    let imported := s.hal.memCreate (driver.result .memImport)
    if imported.1 ≠ bmOk then (bmError, s)
    else ({ s with hal := imported.2.2 } : HybmVmmBasedSegment).mapSlice driver slice imported.2.1
  else s.mapSlice driver slice handle

/-- Before that, the memory is exported. -/
def shareSlice (slice : MemSlice) (handle : Nat) : Int × HybmVmmBasedSegment :=
  let exported := s.exportInner driver slice
  if exported.1 ≠ bmOk then (bmError, exported.2.2.dropped driver slice handle)
  else exported.2.2.importSlice driver slice handle

/-- Before that, its addresses are recorded. -/
def recordSlice (slice : MemSlice) (handle : Nat) : Int × HybmVmmBasedSegment :=
  let added := s.va.addVaInfoOfBase
    ⟨MemSegment.addresses slice.gva slice.vAddress slice.vAddress, slice.size, s.options.memType⟩
    s.options.rankId
  if added.1 ≠ bmOk then (added.1, s.dropped driver slice handle)
  else ({ s with va := added.2 } : HybmVmmBasedSegment).shareSlice driver slice handle

/-- `AllocLocalMemory`.  The slice is meaningless if the call fails. -/
def allocLocalMemory (size : Nat) : Int × MemSlice × HybmVmmBasedSegment :=
  let slice := s.nextSlice size
  if s.options.refuses s.allocatedSize size then (bmInvalidParam, slice, s)
  else if s.localVirtualAddress = 0 then (bmNotInitialized, slice, s)
  else if size = 0 then s.mallocEmptySlice
  else if s.options.segType ≠ .hbm ∧ s.options.segType ≠ .dram then (bmInvalidParam, slice, s)
  else
    let created := s.malloc driver
    if created.1 ≠ bmOk then (bmDlFunctionFailed, slice, s)
    else
      let allocated := (s.placed created.2.2 created.2.1 size).recordSlice driver slice created.2.1
      (allocated.1, slice, allocated.2)

/-- `ReleaseSliceMemory`; what is exported stays in the table of exports. -/
def releaseSliceMemory (slice : MemSlice) : Int × HybmVmmBasedSegment :=
  match s.slices.find slice.index with
  | some status =>
    if status.slice ≠ slice then (bmInvalidParam, s)
    else
      let hal := s.hal.memUnmap (driver.result .memUnmap) slice.vAddress
      (bmOk,
        { s with
          hal := hal.memRelease (driver.result .memRelease) status.handle
          va := s.va.removeOneVaInfo slice.vAddress hvmDva
          slices := s.slices.erase slice.index })
  | none =>
    match s.registerSlices.find slice.index with
    | some registered =>
      if registered.slice ≠ slice then (bmInvalidParam, s)
      else
        (bmOk,
          { s with
            va := s.va.removeOneVaInfo slice.vAddress hvmHva
            registerSlices := s.registerSlices.erase slice.index })
    | none => (bmInvalidParam, s)

end HybmVmmBasedSegment

def vmmStart : HybmVmmBasedSegment :=
  (({ options := twoRanks } : HybmVmmBasedSegment).reserveMemorySpace heapDriver).2

end MemFabric.Hybm
