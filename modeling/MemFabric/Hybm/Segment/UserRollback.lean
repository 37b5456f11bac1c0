import MemFabric.Hybm.Segment.DevUser

/-!
# A failed import of user memory

When an info cannot be imported, `Import` closes what it has handed to the caller: the global
addresses of the slices, not the addresses at which they have been opened.  The tables stay as
they are then.
-/

namespace MemFabric.Hybm.HybmDevUserLegacySegment

variable (s : HybmDevUserLegacySegment)

/-- The address that `RtIpcOpenMemory` returns, if `ImportSliceInfo` comes to it. -/
def openedAt (driver : Driver) : UserExportInfo → Option Nat
  | .slice info =>
    if info.logicDeviceId < maxDeviceCount ∧ s.opens info ∧
        ¬ (s.needsP2P info.logicDeviceId ∧ driver.result .enableP2P ≠ 0) ∧
        driver.result .ipcOpenMemory = 0 then
      some (driver.address .ipcOpenMemory)
    else none
  | _ => none

/-- The memories that `Import` opens. -/
def openedBy (s : HybmDevUserLegacySegment) (driver : Nat → Driver) : List UserExportInfo → List Nat
  | [] => []
  | info :: infos =>
    let imported := s.importOne (driver 0) info
    (s.openedAt (driver 0) info).toList ++
      if imported.1 ≠ bmOk then [] else imported.2.2.openedBy (fun i => driver (i + 1)) infos

/-- The addresses that go to `RtIpcCloseMemory`. -/
def rollbackIpcMemory (addresses : List (Option MemSlice)) : List Nat :=
  (addresses.map fun slice => (slice.map MemSlice.gva).getD 0).filter fun address => address ≠ 0

/-- `Import` with what it closes; the caller may not ask for the addresses. -/
def importAll (driver : Nat → Driver) (hasAddresses : Bool) (infos : List UserExportInfo) :
    Int × HybmDevUserLegacySegment × List Nat :=
  let out := s.importInfos driver infos
  (out.1, out.2.2, if out.1 ≠ bmOk ∧ hasAddresses then rollbackIpcMemory out.2.1 else [])

/-- What a failed import is to leave alone. -/
def tables :=
  (s.remoteSlices, s.rankToRemoteSlices, s.importedSliceInfo, s.registerAddrs, s.va)

/-- `ImportSliceInfo` returns before anything is opened or recorded. -/
def StopsEarly (driver : Driver) (info : UserHbmExportSliceInfo) : Prop :=
  maxDeviceCount ≤ info.logicDeviceId ∨ s.opens info = true ∧
    (s.needsP2P info.logicDeviceId = true ∧ driver.result .enableP2P ≠ 0 ∨
      driver.result .ipcOpenMemory ≠ 0)

variable {s} {driver : Driver} {drivers : Nat → Driver} {info : UserExportInfo}
  {before after : List UserExportInfo} {rank : Nat}

/-! ## One info -/

theorem tables_importDeviceInfo (driver : Driver) (info : HbmExportDeviceInfo) :
    (s.importDeviceInfo driver info).2.tables = s.tables := by
  unfold importDeviceInfo enabledPeer
  dsimp only
  split_ifs <;> rfl

theorem remotes_of_tables {s' : HybmDevUserLegacySegment} (h : s'.tables = s.tables) (rank : Nat) :
    s'.remotes rank = s.remotes rank := by
  have htable : s'.rankToRemoteSlices = s.rankToRemoteSlices := (Prod.ext_iff.mp
    (Prod.ext_iff.mp h).2).1
  rw [remotes, remotes, htable]

theorem remotes_recordRemote (info : UserHbmExportSliceInfo) (address rank : Nat) :
    ((s.recordRemote info address).2.2.remotes rank).length =
      (s.remotes rank).length + if info.rankId = rank then 1 else 0 := by
  unfold recordRemote remotes
  dsimp only
  rw [Machine.Ordered.find_assign]
  split_ifs with hrank
  · obtain rfl : info.rankId = rank := hrank
    simp
  · rfl

theorem StopsEarly.importSliceInfo {info : UserHbmExportSliceInfo} (h : s.StopsEarly driver info) :
    s.openedAt driver (.slice info) = none ∧ (s.importSliceInfo driver info).1 ≠ bmOk ∧
      (s.importSliceInfo driver info).2.2.tables = s.tables := by
  unfold HybmDevUserLegacySegment.importSliceInfo enabledPeer
  rcases h with hdevice | ⟨hopens, hfails⟩
  · refine ⟨if_neg fun hopened => absurd hopened.1 (by omega), ?_⟩
    rw [if_pos hdevice]
    exact ⟨by simp [bmError, bmOk], rfl⟩
  · refine ⟨if_neg fun hopened => hfails.elim hopened.2.2.1 (· hopened.2.2.2), ?_⟩
    rw [if_pos hopens]
    split_ifs with hlarge hp2p hneeds hopen hopen
    · exact ⟨by simp [bmError, bmOk], rfl⟩
    · exact ⟨by simp [bmDlFunctionFailed, bmOk], rfl⟩
    · exact ⟨by simp [bmDlFunctionFailed, bmOk], rfl⟩
    · exact absurd (hfails.resolve_left hp2p) hopen
    · exact ⟨by simp [bmDlFunctionFailed, bmOk], rfl⟩
    · exact absurd (hfails.resolve_left hp2p) hopen

/-- A slice that does not stop early is recorded, also if its addresses are refused then. -/
theorem remotes_importSliceInfo {info : UserHbmExportSliceInfo} (h : ¬ s.StopsEarly driver info) :
    ((s.importSliceInfo driver info).2.2.remotes rank).length =
      (s.remotes rank).length + if info.rankId = rank then 1 else 0 := by
  unfold HybmDevUserLegacySegment.importSliceInfo
  rw [if_neg fun hlarge => h (.inl hlarge)]
  by_cases hopens : s.opens info = true
  · rw [if_pos hopens, if_neg fun hp2p => h (.inr ⟨hopens, .inl hp2p⟩),
      if_neg fun hfails => h (.inr ⟨hopens, .inr hfails⟩), remotes_recordRemote]
    unfold enabledPeer
    cases s.needsP2P info.logicDeviceId <;> rfl
  · rw [if_neg hopens]
    exact remotes_recordRemote info 0 rank

theorem remotes_importOne (driver : Driver) (info : UserExportInfo) (rank : Nat) :
    (s.remotes rank).length ≤ ((s.importOne driver info).2.2.remotes rank).length := by
  cases info with
  | device info =>
    exact (congrArg List.length (remotes_of_tables (tables_importDeviceInfo _ _) _)).ge
  | invalid => exact Nat.le_refl _
  | slice info =>
    by_cases h : s.StopsEarly driver info
    · exact (congrArg List.length (remotes_of_tables h.importSliceInfo.2.2 rank)).ge
    · exact (remotes_importSliceInfo h).ge.trans' (Nat.le_add_right _ _)

/-- The import of the info opens and records nothing. -/
def LeavesNothing (s : HybmDevUserLegacySegment) (driver : Driver) : UserExportInfo → Prop
  | .slice info => s.StopsEarly driver info
  | _ => True

theorem LeavesNothing.importOne (h : s.LeavesNothing driver info) :
    s.openedAt driver info = none ∧ (s.importOne driver info).2.2.tables = s.tables := by
  cases info with
  | device info => exact ⟨rfl, tables_importDeviceInfo driver info⟩
  | invalid => exact ⟨rfl, rfl⟩
  | slice info =>
    obtain ⟨hopened, -, hsame⟩ := StopsEarly.importSliceInfo h
    exact ⟨hopened, hsame⟩

theorem remotes_of_not_leavesNothing (h : ¬ s.LeavesNothing driver info) :
    ∃ rank, (s.remotes rank).length < ((s.importOne driver info).2.2.remotes rank).length := by
  cases info with
  | device info => exact absurd trivial h
  | invalid => exact absurd trivial h
  | slice info =>
    refine ⟨info.rankId, ?_⟩
    have hlength : ((s.importOne driver (.slice info)).2.2.remotes info.rankId).length = _ :=
      remotes_importSliceInfo h
    rw [hlength, if_pos rfl]
    exact Nat.lt_succ_self _

/-! ## The infos in front of the one that fails -/

/-- All that is in front of the failing info has been imported. -/
theorem importInfos_append (s : HybmDevUserLegacySegment) (drivers : Nat → Driver)
    (after : List UserExportInfo) (hok : (s.importInfos drivers before).1 = bmOk)
    (hfails : ((s.importInfos drivers before).2.2.importOne (drivers before.length) info).1 ≠
      bmOk) :
    s.importInfos drivers (before ++ info :: after) =
        (((s.importInfos drivers before).2.2.importOne (drivers before.length) info).1,
          (s.importInfos drivers before).2.1,
          ((s.importInfos drivers before).2.2.importOne (drivers before.length) info).2.2) ∧
      s.openedBy drivers (before ++ info :: after) =
        s.openedBy drivers before ++
          ((s.importInfos drivers before).2.2.openedAt (drivers before.length) info).toList := by
  induction before generalizing s drivers with
  | nil =>
    have hfails' : (s.importOne (drivers 0) info).1 ≠ bmOk := hfails
    constructor
    · exact (if_pos hfails').trans rfl
    · change _ ++ ite _ _ _ = _
      rw [if_pos hfails', List.append_nil]
      rfl
  | cons first before ih =>
    rw [importInfos] at hok hfails
    rw [List.cons_append, importInfos, importInfos, openedBy, openedBy]
    dsimp only at hok hfails ⊢
    by_cases hfirst : (s.importOne (drivers 0) first).1 = bmOk
    · rw [if_neg (not_not.mpr hfirst)] at hok hfails
      obtain ⟨hrest, hopened⟩ := ih _ _ hok hfails
      simp only [if_neg (not_not.mpr hfirst), hrest, hopened, List.append_assoc]
      exact ⟨rfl, rfl⟩
    · rw [if_pos hfirst] at hok
      exact absurd hok hfirst

theorem remotes_importInfos (s : HybmDevUserLegacySegment) (drivers : Nat → Driver)
    (infos : List UserExportInfo) (rank : Nat) :
    (s.remotes rank).length ≤ ((s.importInfos drivers infos).2.2.remotes rank).length := by
  induction infos generalizing s drivers with
  | nil => exact Nat.le_refl _
  | cons info infos ih =>
    rw [importInfos]
    dsimp only
    split_ifs
    · exact remotes_importOne _ _ rank
    · exact (remotes_importOne _ _ rank).trans (ih _ _)

/-- An imported slice is in the tables. -/
theorem importInfos_tables (s : HybmDevUserLegacySegment) (drivers : Nat → Driver)
    (hok : (s.importInfos drivers before).1 = bmOk) :
    (∀ info ∈ before, ∃ device, info = .device device) ∧
        (s.importInfos drivers before).2.2.tables = s.tables ∧ s.openedBy drivers before = [] ∧
        rollbackIpcMemory (s.importInfos drivers before).2.1 = [] ∨
      (¬ ∀ info ∈ before, ∃ device, info = .device device) ∧
        ∃ rank, (s.remotes rank).length <
          ((s.importInfos drivers before).2.2.remotes rank).length := by
  induction before generalizing s drivers with
  | nil => exact .inl ⟨by simp, rfl, rfl, rfl⟩
  | cons first before ih =>
    rw [importInfos] at hok ⊢
    rw [openedBy]
    dsimp only at hok ⊢
    by_cases hfirst : (s.importOne (drivers 0) first).1 = bmOk
    · rw [if_neg (not_not.mpr hfirst)] at hok
      simp only [if_neg (not_not.mpr hfirst)]
      cases first with
      | invalid => exact absurd hfirst (by decide : bmInvalidParam ≠ bmOk)
      | device device =>
        have hsame : (s.importOne (drivers 0) (.device device)).2.2.tables = s.tables :=
          tables_importDeviceInfo _ _
        rcases ih _ _ hok with ⟨hall, htables, hopened, hclosed⟩ | ⟨hnot, rank, hlt⟩
        · exact .inl ⟨by simpa using hall, htables.trans hsame, hopened, hclosed⟩
        · rw [remotes_of_tables hsame rank] at hlt
          exact .inr ⟨by simpa using hnot, rank, hlt⟩
      | slice info =>
        refine .inr ⟨by simp, ?_⟩
        have hrecorded : ¬ s.LeavesNothing (drivers 0) (.slice info) := fun hearly =>
          (StopsEarly.importSliceInfo hearly).2.1 hfirst
        obtain ⟨rank, hlt⟩ := remotes_of_not_leavesNothing hrecorded
        exact ⟨rank, hlt.trans_le (remotes_importInfos _ _ _ rank)⟩
    · rw [if_pos hfirst] at hok
      exact absurd hok hfirst

/-- If one info cannot be imported, `Import` returns an error.  It leaves the tables alone and
closes what it has opened if that is nothing, and then only: the infos in front are of devices,
and a slice fails before it is opened or recorded. -/
theorem importAll_undone (s : HybmDevUserLegacySegment) (drivers : Nat → Driver)
    (hasAddresses : Bool) (before after : List UserExportInfo) (info : UserExportInfo)
    (hok : (s.importInfos drivers before).1 = bmOk)
    (hfails : ((s.importInfos drivers before).2.2.importOne (drivers before.length) info).1 ≠
      bmOk) :
    let out := s.importAll drivers hasAddresses (before ++ info :: after)
    out.1 ≠ bmOk ∧
      (out.2.1.tables = s.tables ∧ out.2.2 = s.openedBy drivers (before ++ info :: after) ↔
        (∀ first ∈ before, ∃ device, first = .device device) ∧
          (s.importInfos drivers before).2.2.LeavesNothing (drivers before.length) info) := by
  obtain ⟨heq, hopened⟩ := importInfos_append s drivers after hok hfails
  rw [importAll, heq, hopened]
  refine ⟨hfails, ?_⟩
  dsimp only
  rcases importInfos_tables s drivers hok with ⟨hall, htables, hnone, hclosed⟩ | ⟨hnot, rank, hlt⟩
  · by_cases hleaves : (s.importInfos drivers before).2.2.LeavesNothing (drivers before.length) info
    · refine iff_of_true ⟨hleaves.importOne.2.trans htables, ?_⟩ ⟨hall, hleaves⟩
      rw [hnone, hclosed, hleaves.importOne.1]
      exact ite_self _
    · refine iff_of_false (fun hundone => ?_) fun h => hleaves h.2
      obtain ⟨rank, hlt⟩ := remotes_of_not_leavesNothing hleaves
      rw [remotes_of_tables hundone.1 rank, remotes_of_tables htables rank] at hlt
      exact Nat.lt_irrefl _ hlt
  · refine iff_of_false (fun hundone => ?_) fun h => hnot h.1
    have hle := hlt.trans_le (remotes_importOne (drivers before.length) info rank)
    rw [remotes_of_tables hundone.1 rank] at hle
    exact Nat.lt_irrefl _ hle

def importer : HybmDevUserLegacySegment := { globalVirtualAddress := 0x1000000 }

/-- The second call to the driver fails, whatever it is. -/
def secondFails : Nat → Driver := fun i =>
  { result := fun _ => if i = 1 then 1 else 0
    address := fun _ => 0x7000 }

theorem importAll_undone_deviceFirst :
    (importer.importAll secondFails true [.device {}, .slice {}]).2.1.tables = importer.tables ∧
      (importer.importAll secondFails true [.device {}, .slice {}]).2.2 =
        importer.openedBy secondFails [.device {}, .slice {}] :=
  (importAll_undone importer secondFails true [.device {}] [] (.slice {}) (by decide +kernel)
    (by decide +kernel)).2.mpr ⟨by simp, .inr (by decide +kernel)⟩

/-- Two slices, and the second one cannot be opened: the first one is closed at its global
address, though it has been opened at another one, and it stays in the tables. -/
theorem rollback_closes_gva :
    let infos : List UserExportInfo :=
      [.slice { size := 4096, name := 1 }, .slice { gvaOffset := 4096, size := 4096, name := 2 }]
    let out := importer.importAll secondFails true infos
    out.1 ≠ bmOk ∧ importer.openedBy secondFails infos = [0x7000] ∧ out.2.2 = [0x1000000] ∧
      out.2.1.registerAddrs.toList = [0x7000] ∧
      out.2.1.remoteSlices.toList.map NamedSlice.name = [1] ∧
      out.2.1.importedSliceInfo.toList.map UserHbmExportSliceInfo.name = [1] := by
  decide +kernel

end MemFabric.Hybm.HybmDevUserLegacySegment
