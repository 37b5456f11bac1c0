import MemFabric.Hybm.Reserve

/-!
# Segments of memory

What the kinds of segments have in common: their options, the device, slices, and the
driver below them (`hybm_mem_segment.cpp`, `hybm_mem_common.h`, `hybm_mem_slice.h`).

A segment is one state together with what it shares with the other segments of the
process: the manager of virtual addresses and the driver.  What a call of the driver
returns is chosen by the environment.
-/

namespace MemFabric.Hybm

open Machine

/-! ## Options -/

def bmInvalidParam : Int := -2
def bmMallocFailed : Int := -3
def bmDlFunctionFailed : Int := -6
def bmNotInitialized : Int := -9
def bmNotSupported : Int := -100

def largePageSize : Nat := 0x200000

def gigabyte : Nat := 0x40000000

inductive MemSegType
  | hbm
  | dram
  | hbmUser
  | butt
deriving DecidableEq

structure MemSegmentOptions where
  devId : Int := 0
  dataOpType : Nat := 2
  segType : MemSegType := .hbm
  shared : Bool := true
  size : Nat := 0
  maxSize : Nat := 0
  rankId : Nat := 0
  rankCnt : Nat := 0
  flags : Nat := 0
  shmFd : Int := -1
  enable56BitsGva : Bool := false
deriving DecidableEq

namespace MemSegmentOptions

variable (options : MemSegmentOptions)

def sdma : Bool := options.dataOpType.testBit 1

def dramMapHostVa : Bool := options.flags.testBit 9

def memType : HybmMemType := if options.segType = .hbm then .device else .host

/-- The size of the local addresses that are reserved: those of the rank if the global ones
are of 56 bits. -/
def localSize : Nat :=
  if options.enable56BitsGva then options.maxSize else options.rankCnt * options.maxSize

/-- The size is not a multiple of the large page, or does not fit any more. -/
def refuses (allocatedSize size : Nat) : Bool :=
  decide (size % largePageSize ≠ 0 ∨ options.maxSize < (size + allocatedSize) % 2 ^ 64)

end MemSegmentOptions

def twoRanks : MemSegmentOptions := { maxSize := gigabyte, rankCnt := 2 }

/-! ## The device -/

structure DeviceInfo where
  deviceId : Nat := 0
  logicDeviceId : Nat := 0
  pid : Nat := 0
  sdid : Nat := 0
  serverId : Nat := 0
  superPodId : Nat := 0
  socType : AscendSocType := .unknown
deriving DecidableEq

def invalidSuperPodId : Nat := 0xFFFFFFFF

def asc910BConnRanks : Nat := 8

namespace DeviceInfo

variable (d : DeviceInfo)

/-- Devices of a 910B are connected in groups. -/
def connected (deviceId : Nat) : Bool :=
  decide (d.socType ≠ .ascend910B ∨ deviceId / asc910BConnRanks = d.deviceId / asc910BConnRanks)

def canSdmaReaches (superPodId serverId deviceId : Nat) : Bool :=
  if serverId = d.serverId then d.connected deviceId
  else if superPodId = invalidSuperPodId ∨ d.superPodId = invalidSuperPodId then false
  else decide (superPodId = d.superPodId)

end DeviceInfo

/-! ## The driver -/

inductive PageType
  | giant
  | huge
deriving DecidableEq

/-- The calls of the driver and of the system whose results are looked at. -/
inductive HalCall
  | memAddressReserve
  | memAddressFree
  | memGetAllocationGranularity
  | memCreate (page : PageType)
  | memRelease
  | memExport
  | memTransShareableHandle
  | memShareHandleSetAttribute
  | memImport
  | memMap
  | memUnmap
  | memSetAccess
  | memAlloc
  | hostRegister
  | enableP2P
  | gvaReserveMemory
  | gvaAlloc
  | gvaFree
  | gvaOpen
  | gvaClose
  | ipcSetMemoryName
  | ipcDestroyMemoryName
  | setIpcMemorySuperPodPid
  | ipcOpenMemory
  | mmapReserve
  | mmapHuge
  | mmap
  | fstat
  | ftruncate
deriving DecidableEq

/-- What the calls return, and the addresses they hand out.  A call that is asked for one
address and hands out another has failed. -/
structure Driver where
  result : HalCall → Int := fun _ => 0
  address : HalCall → Nat := fun _ => 0

def Driver.Succeeds (driver : Driver) : Prop := ∀ call, driver.result call = 0

structure Mapping where
  address : Nat
  size : Nat
  handle : Nat
deriving DecidableEq

/-- The memory that the driver has handed out.  Handles are numbers from one on, and zero
is `nullptr`. -/
structure Hal where
  made : Nat := 0
  handles : List Nat := []
  mapped : Ordered Mapping.address := ∅

namespace Hal

variable (hal : Hal)

/-- A handle, by `HalMemCreate` or `HalMemImport`, unless the call returns an error. -/
def memCreate (ret : Int) : Int × Nat × Hal :=
  if ret = bmOk then
    (bmOk, hal.made + 1,
      { hal with made := hal.made + 1, handles := (hal.made + 1) :: hal.handles })
  else (ret, 0, hal)

def memRelease (ret : Int) (handle : Nat) : Hal :=
  if ret = bmOk then { hal with handles := hal.handles.erase handle } else hal

def memMap (ret : Int) (address size handle : Nat) : Hal :=
  if ret = bmOk then { hal with mapped := hal.mapped.assign ⟨address, size, handle⟩ } else hal

/-- The mapping that begins at the address; the size of it is not given. -/
def memUnmap (ret : Int) (address : Nat) : Hal :=
  if ret = bmOk then { hal with mapped := hal.mapped.erase address } else hal

end Hal

def heapDriver : Driver := { address := fun _ => 0x100000000000 }

/-! ## Slices -/

/-- `object` stands for the place of the object, by which pointers to slices are compared. -/
structure MemSlice where
  object : Nat
  index : Nat
  memType : HybmMemType
  gva : Nat
  vAddress : Nat
  size : Nat
deriving DecidableEq

structure MemSliceStatus where
  slice : MemSlice
  handle : Nat := 0
deriving DecidableEq

def MemSliceStatus.index (status : MemSliceStatus) : Nat := status.slice.index

abbrev SliceTable := Ordered MemSliceStatus.index

/-! ## What is exchanged -/

def dramSliceExportInfoMagic : Nat := 0xAABB1234FFFFEE02
def vmmBaseHbmSliceExportInfoMagic : Nat := 0xAABB1234FFFFEE03
def vmmBaseDramSliceExportInfoMagic : Nat := 0xAABB1234FFFFEE04

/-! ## Segments -/

structure MemSegment where
  options : MemSegmentOptions := {}
  device : DeviceInfo := {}
  sliceCount : Nat := 0
  /-- The number of slices that have been made. -/
  objects : Nat := 0
  va : HybmVaManager := {}
  reserved : ReservedVas := {}
  hal : Hal := {}

namespace MemSegment

variable (s : MemSegment)

def newSlice (memType : HybmMemType) (gva vAddress size : Nat) : MemSlice :=
  ⟨s.objects, s.sliceCount, memType, gva, vAddress, size⟩

/-- `sliceCount_++`, which is a `uint32_t`. -/
def counted : MemSegment :=
  { s with sliceCount := (s.sliceCount + 1) % 2 ^ 32, objects := s.objects + 1 }

def addresses (gva dva hva : Nat) (i : Fin hvmButt) : Nat :=
  if i = hvmGva then gva else if i = hvmDva then dva else hva

end MemSegment

def memoryInRange (globalVirtualAddress totalVirtualSize va size : Nat) : Bool :=
  if va < globalVirtualAddress then false
  else if globalVirtualAddress + totalVirtualSize < va + size then false
  else true

end MemFabric.Hybm
