import MemFabric.Hybm.Segment.Common

/-!
# Segments of user memory

`HybmDevUserLegacySegment` of `hybm_dev_user_legacy_segment.cpp`: memory of the user is
registered one piece after the other at the next global address of the rank, under a name by
which other ranks open it.  What is exchanged is the offset from the first global address,
as the segment is at different addresses in different processes.
-/

namespace MemFabric.Hybm

open Machine

/-! ## What is exchanged -/

structure HbmExportDeviceInfo where
  sdid : Nat := 0
  pid : Nat := 0
  serverId : Nat := 0
  superPodId : Nat := 0
  rankId : Nat := 0
  logicDeviceId : Nat := 0
deriving DecidableEq

/-- Names are numbers that the driver hands out. -/
structure UserHbmExportSliceInfo where
  serverId : Nat := 0
  gvaOffset : Nat := 0
  address : Nat := 0
  size : Nat := 0
  superPodId : Nat := 0
  rankId : Nat := 0
  logicDeviceId : Nat := 0
  name : Nat := 0
deriving DecidableEq

/-- What `Import` reads: the magic says which of the two it is, or none. -/
inductive UserExportInfo
  | device (info : HbmExportDeviceInfo)
  | slice (info : UserHbmExportSliceInfo)
  | invalid
deriving DecidableEq

structure NamedSlice where
  slice : MemSlice
  name : Nat
deriving DecidableEq

def NamedSlice.index (named : NamedSlice) : Nat := named.slice.index

def maxDeviceCount : Nat := 16

structure HybmDevUserLegacySegment extends MemSegment where
  globalVirtualAddress : Nat := 0
  totalVirtualSize : Nat := 0
  lvaBase : Nat := 0
  allocatedSize : Nat := 0
  enablePeerDevices : List Nat := []
  registerSlices : Ordered NamedSlice.index := ∅
  remoteSlices : Ordered NamedSlice.index := ∅
  rankToRemoteSlices : Ordered (Prod.fst : Nat × List MemSlice → Nat) := ∅
  importedDeviceInfo : Ordered HbmExportDeviceInfo.rankId := ∅
  importedSliceInfo : Ordered UserHbmExportSliceInfo.name := ∅
  registerAddrs : Ordered (id : Nat → Nat) := ∅
  memNames : List Nat := []

namespace HybmDevUserLegacySegment

variable (s : HybmDevUserLegacySegment) (driver : Driver)

/-! ## Address space -/

/-- `ReserveMemorySpace`: global addresses without local ones. -/
def reserveMemorySpace : Int × HybmDevUserLegacySegment :=
  if ¬ s.options.enable56BitsGva then (bmInvalidParam, s)
  else if s.options.rankCnt ≤ s.options.rankId then (bmInvalidParam, s)
  else
    let total := s.options.rankCnt * s.options.maxSize
    let gvaInfo := s.reserved.allocReserveGva s.options.rankId total 0 .device
      s.options.enable56BitsGva true
    let s := { s with totalVirtualSize := total, reserved := gvaInfo.2 }
    if gvaInfo.1.va hvmGva = 0 then (bmError, s)
    else
      (bmOk,
        { s with
          globalVirtualAddress := gvaInfo.1.va hvmGva
          lvaBase := gvaInfo.1.va hvmGva + s.options.maxSize * s.options.rankId })

/-! ## Local memory -/

def nextSlice (addr size : Nat) : MemSlice :=
  s.newSlice .device ((s.lvaBase + s.allocatedSize) % 2 ^ 64) addr size

/-- Another device that can reach this one is given access to the name, and that fails. -/
def shareFails : Bool :=
  (s.importedDeviceInfo.toList.any fun info =>
    s.device.canSdmaReaches info.superPodId info.serverId info.logicDeviceId) &&
    decide (driver.result .setIpcMemorySuperPodPid ≠ 0)

/-- `RegisterMemory`: the size is not compared with what is left for the rank. -/
def registerMemory (addr size : Nat) : Int × MemSlice × HybmDevUserLegacySegment :=
  let slice := s.nextSlice addr size
  if addr = 0 ∨ size = 0 then (bmInvalidParam, slice, s)
  else if s.registerSlices.toList.any fun named => decide (named.slice.vAddress = addr) then
    (bmError, slice, s)
  else if driver.result .ipcSetMemoryName ≠ 0 then (bmDlFunctionFailed, slice, s)
  else if s.shareFails driver then (bmDlFunctionFailed, slice, s)
  else
    let name := driver.address .ipcSetMemoryName
    let added := s.va.addVaInfoOfBase
      ⟨MemSegment.addresses slice.gva slice.vAddress slice.vAddress, size, .device⟩
      s.options.rankId true
    let s := { s with toMemSegment := s.counted }
    if added.1 ≠ bmOk then (added.1, slice, s)
    else
      (bmOk, slice,
        { s with
          va := added.2
          memNames := s.memNames ++ [name]
          registerSlices := s.registerSlices.emplace ⟨slice, name⟩
          allocatedSize := (s.allocatedSize + size) % 2 ^ 64 })

/-- `ReleaseSliceMemory`: what is recorded stays, and so do the addresses in use. -/
def releaseSliceMemory (slice : MemSlice) : Int × HybmDevUserLegacySegment :=
  match s.registerSlices.find slice.index with
  | none => (bmInvalidParam, s)
  | some _ =>
    if driver.result .ipcDestroyMemoryName ≠ 0 then (bmDlFunctionFailed, s)
    else (bmOk, { s with registerSlices := s.registerSlices.erase slice.index })

/-! ## Memory of others -/

def exportSlice (slice : MemSlice) : Int × UserHbmExportSliceInfo :=
  match s.registerSlices.find slice.index with
  | none => (bmInvalidParam, {})
  | some named =>
    (bmOk,
      { gvaOffset := (named.slice.gva + 2 ^ 64 - s.globalVirtualAddress) % 2 ^ 64
        address := named.slice.vAddress
        size := named.slice.size
        logicDeviceId := s.device.logicDeviceId
        rankId := s.options.rankId
        serverId := s.device.serverId
        superPodId := s.device.superPodId
        name := named.name })

def needsP2P (logicDeviceId : Nat) : Bool :=
  decide (logicDeviceId ≠ s.device.logicDeviceId) && !s.enablePeerDevices.contains logicDeviceId

def enabledPeer (logicDeviceId : Nat) : HybmDevUserLegacySegment :=
  if s.needsP2P logicDeviceId then
    { s with enablePeerDevices := logicDeviceId :: s.enablePeerDevices }
  else s

def importDeviceInfo (info : HbmExportDeviceInfo) : Int × HybmDevUserLegacySegment :=
  if maxDeviceCount ≤ info.logicDeviceId then (bmError, s)
  else if s.needsP2P info.logicDeviceId ∧ driver.result .enableP2P ≠ 0 then (bmDlFunctionFailed, s)
  else
    let s := s.enabledPeer info.logicDeviceId
    if s.registerSlices.toList ≠ [] ∧ driver.result .setIpcMemorySuperPodPid ≠ 0 then
      (bmDlFunctionFailed, s)
    else (bmOk, { s with importedDeviceInfo := s.importedDeviceInfo.emplace info })

def opens (info : UserHbmExportSliceInfo) : Bool :=
  s.options.sdma && s.device.canSdmaReaches info.superPodId info.serverId info.logicDeviceId

def remotes (rank : Nat) : List MemSlice :=
  ((s.rankToRemoteSlices.find rank).map Prod.snd).getD []

/-- The end of `ImportSliceInfo`: the slice at the address at which it has been opened. -/
def recordRemote (info : UserHbmExportSliceInfo) (address : Nat) :
    Int × Option MemSlice × HybmDevUserLegacySegment :=
  let slice :=
    s.newSlice .device ((info.gvaOffset + s.globalVirtualAddress) % 2 ^ 64) address info.size
  let added := s.va.addVaInfoFromExternal
    ⟨MemSegment.addresses slice.gva slice.vAddress 0, slice.size, .device⟩
    s.options.rankId info.rankId
  (added.1, some slice,
    { s with
      toMemSegment := { s.counted with va := added.2 }
      rankToRemoteSlices :=
        s.rankToRemoteSlices.assign (info.rankId, s.remotes info.rankId ++ [slice])
      remoteSlices := s.remoteSlices.emplace ⟨slice, info.name⟩
      importedSliceInfo := s.importedSliceInfo.emplace info })

/-- `ImportSliceInfo`; without SDMA the slice has no local address. -/
def importSliceInfo (info : UserHbmExportSliceInfo) :
    Int × Option MemSlice × HybmDevUserLegacySegment :=
  if maxDeviceCount ≤ info.logicDeviceId then (bmError, none, s)
  else if s.opens info then
    if s.needsP2P info.logicDeviceId ∧ driver.result .enableP2P ≠ 0 then
      (bmDlFunctionFailed, none, s)
    else
      let s := s.enabledPeer info.logicDeviceId
      if driver.result .ipcOpenMemory ≠ 0 then (bmDlFunctionFailed, none, s)
      else
        let address := driver.address .ipcOpenMemory
        ({ s with registerAddrs := s.registerAddrs.emplace address } :
          HybmDevUserLegacySegment).recordRemote info address
  else s.recordRemote info 0

/-- One info of `Import`, with the slice if it is one of a slice. -/
def importOne : UserExportInfo → Int × Option MemSlice × HybmDevUserLegacySegment
  | .device info =>
    let imported := s.importDeviceInfo driver info
    (imported.1, none, imported.2)
  | .slice info => s.importSliceInfo driver info
  | .invalid => (bmInvalidParam, none, s)

/-- `Import`: one info after the other, until one cannot be imported.  What the caller gets
are the global addresses of the slices. -/
def importInfos (s : HybmDevUserLegacySegment) (driver : Nat → Driver) :
    List UserExportInfo → Int × List (Option MemSlice) × HybmDevUserLegacySegment
  | [] => (bmOk, [], s)
  | info :: infos =>
    let imported := s.importOne (driver 0) info
    if imported.1 ≠ bmOk then (imported.1, [], imported.2.2)
    else
      let rest := importInfos imported.2.2 (fun i => driver (i + 1)) infos
      (rest.1, imported.2.1 :: rest.2.1, rest.2.2)

/-- One slice of another rank is forgotten.  Closing it changes nothing that is kept here. -/
def removeRemote (s : HybmDevUserLegacySegment) (slice : MemSlice) : HybmDevUserLegacySegment :=
  let s :=
    { s with
      registerAddrs := s.registerAddrs.erase slice.vAddress
      va := s.va.removeOneVaInfo slice.gva hvmGva }
  match s.remoteSlices.find slice.index with
  | none => s
  | some named =>
    { s with
      importedSliceInfo := s.importedSliceInfo.erase named.name
      remoteSlices := s.remoteSlices.erase slice.index }

def removeSliceInfo (s : HybmDevUserLegacySegment) (rank : Nat) : HybmDevUserLegacySegment :=
  let removed := (s.remotes rank).foldl removeRemote s
  { removed with rankToRemoteSlices := removed.rankToRemoteSlices.erase rank }

def removeImported (ranks : List Nat) : Int × HybmDevUserLegacySegment :=
  (bmOk,
    ranks.foldl
      (fun s rank =>
        ({ s with importedDeviceInfo := s.importedDeviceInfo.erase rank } :
          HybmDevUserLegacySegment).removeSliceInfo rank) s)

end HybmDevUserLegacySegment

end MemFabric.Hybm
