import MemFabric.Hybm.Segment.Slices
import MemFabric.Hybm.Segment.Vmm

/-!
# Allocation of virtual memory

What `AllocLocalMemory` does, step by step: the steps that can fail, and the segment after
a call in which none has.
-/

namespace MemFabric.Hybm

open HybmVaManager

/-! ## The driver -/

namespace Hal

variable {hal : Hal} {ret : Int} {handle : Nat}

theorem memCreate_fst : (hal.memCreate ret).1 = ret := by
  unfold memCreate
  split
  · next h => exact h.symm
  · rfl

@[simp] theorem mapped_memCreate : (hal.memCreate ret).2.2.mapped = hal.mapped := by
  unfold memCreate
  split <;> rfl

theorem mapped_memMap {address size : Nat} :
    (hal.memMap bmOk address size handle).mapped = hal.mapped.assign ⟨address, size, handle⟩ := by
  rw [memMap, if_pos rfl]

end Hal

namespace HybmVmmBasedSegment

variable {s : HybmVmmBasedSegment} {driver : Driver} {size handle dHandle : Nat} {slice : MemSlice}

/-! ## The steps -/

/-- The steps of the driver and of the manager that a call takes, in their order. -/
inductive AllocStep
  | create
  | register
  | share
  | reimport
  | map
  | setAccess

/-- The request is not refused before the first of them. -/
structure Accepts (s : HybmVmmBasedSegment) (size : Nat) : Prop where
  notRefused : s.options.refuses s.allocatedSize size = false
  ready : s.localVirtualAddress ≠ 0
  notEmpty : size ≠ 0
  segType : s.options.segType = .hbm ∨ s.options.segType = .dram

/-- Handles are made shareable in two more calls. -/
def ShareFails (s : HybmVmmBasedSegment) (driver : Driver) : Prop :=
  driver.result .memExport ≠ 0 ∨
    (s.device.socType = .ascend910B ∨ s.device.socType = .ascend910C) ∧
      (driver.result .memTransShareableHandle ≠ 0 ∨ driver.result .memShareHandleSetAttribute ≠ 0)

def Fails (s : HybmVmmBasedSegment) (driver : Driver) (size : Nat) : AllocStep → Prop
  | .create => (s.malloc driver).1 ≠ bmOk
  | .register => (s.va.addVaInfo ((s.nextSlice size).info s.options.rankId)).1 ≠ bmOk
  | .share => s.ShareFails driver
  | .reimport => s.mapsImport = true ∧ driver.result .memImport ≠ 0
  | .map => driver.result .memMap ≠ 0
  | .setAccess => s.setsAccess = true ∧ driver.result .memSetAccess ≠ 0

theorem mapSlice_fails
    (h : driver.result .memMap ≠ 0 ∨ s.setsAccess = true ∧ driver.result .memSetAccess ≠ 0) :
    (s.mapSlice driver slice dHandle).1 ≠ bmOk := by
  unfold mapSlice
  split
  · exact (by decide : bmDlFunctionFailed ≠ bmOk)
  · next hmap =>
    dsimp only
    split
    · exact (by decide : bmDlFunctionFailed ≠ bmOk)
    · next haccess => exact absurd (h.resolve_left hmap) haccess

theorem importSlice_fails
    (h : (s.mapsImport = true ∧ driver.result .memImport ≠ 0) ∨ driver.result .memMap ≠ 0 ∨
      s.setsAccess = true ∧ driver.result .memSetAccess ≠ 0) :
    (s.importSlice driver slice handle).1 ≠ bmOk := by
  unfold importSlice
  split
  · dsimp only
    rw [Hal.memCreate_fst]
    split
    · exact (by decide : bmError ≠ bmOk)
    · next himport =>
      refine mapSlice_fails ?_
      exact h.resolve_left fun hfails => himport hfails.2
  · next hmaps => exact mapSlice_fails (h.resolve_left fun hfails => hmaps hfails.1)

theorem exportInner_fails (h : s.ShareFails driver) : (s.exportInner driver slice).1 ≠ bmOk := by
  unfold exportInner
  split
  · exact (by decide : bmInvalidParam ≠ bmOk)
  · split
    · exact (by decide : bmDlFunctionFailed ≠ bmOk)
    · next hexport =>
      rw [if_pos (h.resolve_left hexport)]
      exact (by decide : bmError ≠ bmOk)

theorem exportInner_eq (s : HybmVmmBasedSegment) (driver : Driver) (slice : MemSlice) :
    ∃ exportMap, (s.exportInner driver slice).2.2 = { s with exportMap } := by
  unfold exportInner
  split
  · exact ⟨s.exportMap, rfl⟩
  · split
    · exact ⟨s.exportMap, rfl⟩
    · split
      · exact ⟨s.exportMap, rfl⟩
      · exact ⟨_, rfl⟩

theorem shareSlice_fails
    (h : s.ShareFails driver ∨ (s.mapsImport = true ∧ driver.result .memImport ≠ 0) ∨
      driver.result .memMap ≠ 0 ∨ s.setsAccess = true ∧ driver.result .memSetAccess ≠ 0) :
    (s.shareSlice driver slice handle).1 ≠ bmOk := by
  unfold shareSlice
  dsimp only
  split
  · exact (by decide : bmError ≠ bmOk)
  · next hok =>
    obtain ⟨exportMap, heq⟩ := exportInner_eq s driver slice
    rw [heq]
    exact importSlice_fails (h.resolve_left fun hshare => hok (exportInner_fails hshare))

theorem recordSlice_eq (hinfo : slice.memType = s.options.memType) :
    s.recordSlice driver slice handle =
      if (s.va.addVaInfo (slice.info s.options.rankId)).1 ≠ bmOk then
        ((s.va.addVaInfo (slice.info s.options.rankId)).1, s.dropped driver slice handle)
      else
        ({ s with va := (s.va.addVaInfo (slice.info s.options.rankId)).2 } :
          HybmVmmBasedSegment).shareSlice driver slice handle := by
  unfold recordSlice addVaInfoOfBase MemSlice.info
  rw [hinfo]

theorem Accepts.allocLocalMemory_eq (h : s.Accepts size) :
    s.allocLocalMemory driver size =
      if (s.malloc driver).1 ≠ bmOk then (bmDlFunctionFailed, s.nextSlice size, s)
      else
        (((s.placed (s.malloc driver).2.2 (s.malloc driver).2.1 size).recordSlice driver
            (s.nextSlice size) (s.malloc driver).2.1).1, s.nextSlice size,
          ((s.placed (s.malloc driver).2.2 (s.malloc driver).2.1 size).recordSlice driver
            (s.nextSlice size) (s.malloc driver).2.1).2) := by
  have hsegType : ¬ (s.options.segType ≠ .hbm ∧ s.options.segType ≠ .dram) := by
    rintro ⟨hhbm, hdram⟩
    exact h.segType.elim hhbm hdram
  unfold allocLocalMemory
  rw [h.notRefused, if_neg Bool.false_ne_true, if_neg h.ready, if_neg h.notEmpty, if_neg hsegType]

theorem Accepts.allocLocalMemory_fails (h : s.Accepts size) {step : AllocStep}
    (hstep : s.Fails driver size step) : (s.allocLocalMemory driver size).1 ≠ bmOk := by
  rw [h.allocLocalMemory_eq]
  split
  · exact (by decide : bmDlFunctionFailed ≠ bmOk)
  · next hcreate =>
    rw [recordSlice_eq rfl]
    split
    · next hregister => exact hregister
    · next hregister =>
      refine shareSlice_fails ?_
      cases step with
      | create => exact absurd hstep hcreate
      | register => exact absurd hstep hregister
      | share => exact .inl hstep
      | reimport => exact .inr (.inl hstep)
      | map => exact .inr (.inr (.inl hstep))
      | setAccess => exact .inr (.inr (.inr hstep))

/-! ## Success -/

/-- The segment after a call that has succeeded: the slice is in the table, recorded and
mapped. -/
structure Allocated (s : HybmVmmBasedSegment) (size : Nat) (s' : HybmVmmBasedSegment) : Prop where
  slices : ∃ handle, s'.slices = s.slices.emplace ⟨s.nextSlice size, handle⟩
  mapped : ∃ dHandle,
    s'.hal.mapped = s.hal.mapped.assign ⟨(s.nextSlice size).vAddress, size, dHandle⟩
  va : s'.va = s.va.recorded ((s.nextSlice size).info s.options.rankId)
  exportMap : ∃ shareHandle, s'.exportMap = s.exportMap.assign ((s.nextSlice size).index,
    s.exportInfo (s.nextSlice size) (s.nextSlice size).gva (s.nextSlice size).vAddress shareHandle)
  allocatedSize : s'.allocatedSize = (s.allocatedSize + size) % 2 ^ 64
  sliceCount : s'.sliceCount = (s.sliceCount + 1) % 2 ^ 32
  options : s'.options = s.options
  device : s'.device = s.device
  globalVirtualAddress : s'.globalVirtualAddress = s.globalVirtualAddress
  localVirtualAddress : s'.localVirtualAddress = s.localVirtualAddress
  registerSlices : s'.registerSlices = s.registerSlices
  reserved : s'.reserved = s.reserved
  reservedLva : s'.reservedLva = s.reservedLva
  imports : s'.imports = s.imports
  mappedGvaMem : s'.mappedGvaMem = s.mappedGvaMem

theorem malloc_eq (hdriver : driver.Succeeds)
    (hsegType : s.options.segType = .hbm ∨ s.options.segType = .dram) :
    s.malloc driver = s.hal.memCreate bmOk := by
  have hcreate : ∀ page, driver.result (.memCreate page) = bmOk := fun page => hdriver _
  unfold malloc
  rcases hsegType with heq | heq
  · rw [heq]
    exact congrArg s.hal.memCreate (hcreate _)
  · rw [heq]
    unfold mallocFromHost
    dsimp only
    rw [hcreate, if_neg]
    rw [Hal.memCreate_fst]
    exact fun houtOfMemory => absurd houtOfMemory.1 (by decide)

theorem importSlice_eq (hdriver : driver.Succeeds) (s : HybmVmmBasedSegment) (slice : MemSlice)
    (handle : Nat) : ∃ (hal : Hal) (dHandle : Nat), hal.mapped = s.hal.mapped ∧
      s.importSlice driver slice handle =
        (bmOk, { s with hal := hal.memMap bmOk slice.vAddress slice.size dHandle }) := by
  have hmap : ∀ (s : HybmVmmBasedSegment) dHandle, s.mapSlice driver slice dHandle =
      (bmOk, { s with hal := s.hal.memMap bmOk slice.vAddress slice.size dHandle }) := by
    intro s dHandle
    unfold mapSlice
    rw [if_neg (not_not.mpr (hdriver _)), if_neg fun haccess => haccess.2 (hdriver _)]
  unfold importSlice
  split
  · refine ⟨(s.hal.memCreate bmOk).2.2, (s.hal.memCreate bmOk).2.1, Hal.mapped_memCreate, ?_⟩
    have himport : driver.result .memImport = bmOk := hdriver _
    rw [himport, if_neg (not_not.mpr Hal.memCreate_fst), hmap]
  · exact ⟨s.hal, handle, rfl, hmap s handle⟩

theorem exportInner_succeeds (hdriver : driver.Succeeds) {rankId : Nat}
    (hfound : s.va.findAllocByVa slice.vAddress hvmDva = (slice.info rankId, true)) :
    ∃ shareHandle, s.exportInner driver slice =
      (bmOk, shareHandle,
        { s with
          exportMap := s.exportMap.assign
            (slice.index, s.exportInfo slice slice.gva slice.vAddress shareHandle) }) := by
  unfold exportInner
  rw [hfound]
  dsimp only
  rw [if_neg (not_not.mpr (hdriver _)), if_neg]
  · exact ⟨_, rfl⟩
  · rintro ⟨-, hfails | hfails⟩
    · exact hfails (hdriver _)
    · exact hfails (hdriver _)

theorem findAllocByVa_entered {m : HybmVaManager} {rankId : Nat} (hm : Ranges m)
    (hinfo : (slice.info rankId).Fits) (hclear : Clear m (slice.info rankId) false)
    (haddr : slice.vAddress ≠ 0) :
    (m.entered (slice.info rankId) false).findAllocByVa slice.vAddress hvmDva =
      (slice.info rankId, true) := by
  have hit : (slice.vAddress, slice.info rankId) ∈
      (m.entered (slice.info rankId) false).allocatedMap hvmDva :=
    mem_entered.mpr (.inl ⟨rfl, records_false.mpr haddr⟩)
  have hva : slice.vAddress ∈ (slice.info rankId).range hvmDva :=
    ⟨Nat.le_refl _, Nat.lt_add_of_pos_right hinfo.pos⟩
  rw [findAllocByVa, (hm.entered hinfo hclear).lookup_eq hit hva]

theorem recordSlice_succeeds (hdriver : driver.Succeeds) (hva : Ranges s.va)
    (hinfo : (slice.info s.options.rankId).Fits)
    (hvacant : Vacant s.va (slice.info s.options.rankId))
    (haddr : slice.vAddress ≠ 0) (htype : slice.memType = s.options.memType) (handle : Nat) :
    ∃ (hal : Hal) (dHandle shareHandle : Nat), hal.mapped = s.hal.mapped ∧
      s.recordSlice driver slice handle =
        (bmOk,
          { s with
            va := s.va.recorded (slice.info s.options.rankId)
            exportMap := s.exportMap.assign
              (slice.index, s.exportInfo slice slice.gva slice.vAddress shareHandle)
            hal := hal.memMap bmOk slice.vAddress slice.size dHandle }) := by
  have hne : slice.memType ≠ .butt := by
    rw [htype, MemSegmentOptions.memType]
    split <;> decide
  have hadd := addVaInfo_of_vacant hva hinfo hvacant hne
  have hfound := findAllocByVa_entered hva hinfo (clear_false.mpr hvacant.free) haddr
  rw [entered_false] at hfound
  have hexported := exportInner_succeeds (s := { s with
    va := s.va.recorded (slice.info s.options.rankId) }) hdriver hfound
  obtain ⟨shareHandle, hexport⟩ := hexported
  obtain ⟨hal, dHandle, hhal, himport⟩ := importSlice_eq hdriver
    { s with
      va := s.va.recorded (slice.info s.options.rankId)
      exportMap := s.exportMap.assign
        (slice.index, s.exportInfo slice slice.gva slice.vAddress shareHandle) } slice handle
  rw [recordSlice_eq htype, hadd]
  unfold shareSlice
  rw [hexport]
  exact ⟨hal, dHandle, shareHandle, hhal, himport⟩

theorem Accepts.allocated (h : s.Accepts size) (hdriver : driver.Succeeds) (hva : Ranges s.va)
    (hinfo : ((s.nextSlice size).info s.options.rankId).Fits)
    (hvacant : Vacant s.va ((s.nextSlice size).info s.options.rankId)) :
    (s.allocLocalMemory driver size).1 = bmOk ∧
      (s.allocLocalMemory driver size).2.1 = s.nextSlice size ∧
      s.Allocated size (s.allocLocalMemory driver size).2.2 := by
  have haddr : (s.nextSlice size).vAddress ≠ 0 := by
    have hready := h.ready
    change s.localVirtualAddress + _ + s.allocatedSize ≠ 0
    omega
  rw [h.allocLocalMemory_eq, malloc_eq hdriver h.segType]
  obtain ⟨hal, dHandle, shareHandle, hhal, hrecord⟩ := recordSlice_succeeds hdriver
    (s := s.placed (s.hal.memCreate bmOk).2.2 (s.hal.memCreate bmOk).2.1 size)
    hva hinfo hvacant haddr rfl (s.hal.memCreate bmOk).2.1
  rw [hrecord]
  refine ⟨rfl, rfl, ?_⟩
  constructor
  case slices => exact ⟨_, rfl⟩
  case exportMap => exact ⟨shareHandle, rfl⟩
  case mapped =>
    refine ⟨dHandle, Hal.mapped_memMap.trans ?_⟩
    rw [hhal]
    change (s.hal.memCreate bmOk).2.2.mapped.assign _ = _
    rfl
  all_goals rfl

/-! ## Failure -/

/-- Nothing of the call is left in the segment, in the manager or in the driver. -/
structure Undone (s s' : HybmVmmBasedSegment) : Prop where
  allocatedSize : s'.allocatedSize = s.allocatedSize
  slices : s'.slices = s.slices
  exportMap : s'.exportMap = s.exportMap
  va : s'.va = s.va
  hal : s'.hal = s.hal

theorem mapSlice_snd (s : HybmVmmBasedSegment) (driver : Driver) (slice : MemSlice)
    (dHandle : Nat) :
    ∃ hal slices, (s.mapSlice driver slice dHandle).2 = { s with hal, slices } := by
  unfold mapSlice dropped
  split
  · exact ⟨_, _, rfl⟩
  · dsimp only
    split
    · exact ⟨_, _, rfl⟩
    · exact ⟨_, s.slices, rfl⟩

theorem importSlice_snd (s : HybmVmmBasedSegment) (driver : Driver) (slice : MemSlice)
    (handle : Nat) :
    ∃ hal slices, (s.importSlice driver slice handle).2 = { s with hal, slices } := by
  unfold importSlice
  split
  · dsimp only
    split
    · exact ⟨s.hal, s.slices, rfl⟩
    · obtain ⟨hal, slices, heq⟩ := mapSlice_snd
        { s with hal := (s.hal.memCreate (driver.result .memImport)).2.2 } driver slice
        (s.hal.memCreate (driver.result .memImport)).2.1
      exact ⟨hal, slices, heq⟩
  · exact mapSlice_snd s driver slice handle

/-- Behind the first step, neither the size in use nor the bases of the addresses are touched,
whichever step fails. -/
theorem recordSlice_snd (s : HybmVmmBasedSegment) (driver : Driver) (slice : MemSlice)
    (handle : Nat) : ∃ hal slices va exportMap,
      (s.recordSlice driver slice handle).2 = { s with hal, slices, va, exportMap } := by
  unfold recordSlice shareSlice
  dsimp only
  split
  · exact ⟨_, _, s.va, s.exportMap, rfl⟩
  · obtain ⟨exportMap, hexport⟩ := exportInner_eq
      { s with
        va := (s.va.addVaInfoOfBase
          ⟨MemSegment.addresses slice.gva slice.vAddress slice.vAddress, slice.size,
            s.options.memType⟩ s.options.rankId).2 } driver slice
    rw [hexport]
    split
    · exact ⟨_, _, _, exportMap, rfl⟩
    · obtain ⟨hal, slices, heq⟩ := importSlice_snd
        { s with
          exportMap
          va := (s.va.addVaInfoOfBase
            ⟨MemSegment.addresses slice.gva slice.vAddress slice.vAddress, slice.size,
              s.options.memType⟩ s.options.rankId).2 } driver slice handle
      exact ⟨hal, slices, _, exportMap, heq⟩

theorem allocLocalMemory_slice (hsize : size ≠ 0) :
    (s.allocLocalMemory driver size).2.1 = s.nextSlice size := by
  unfold allocLocalMemory
  dsimp only
  rw [if_neg hsize]
  split_ifs <;> rfl

/-- Behind the first step the addresses of the slice are in use, and stay in use. -/
theorem Accepts.allocatedSize_moved (h : s.Accepts size) (hcreate : (s.malloc driver).1 = bmOk) :
    (s.allocLocalMemory driver size).2.2.allocatedSize = (s.allocatedSize + size) % 2 ^ 64 ∧
      (s.allocLocalMemory driver size).2.2.localVirtualBase = s.localVirtualBase := by
  obtain ⟨hal, slices, va, exportMap, heq⟩ :=
    recordSlice_snd (s.placed (s.malloc driver).2.2 (s.malloc driver).2.1 size) driver
      (s.nextSlice size) (s.malloc driver).2.1
  rw [h.allocLocalMemory_eq, if_neg (not_not.mpr hcreate)]
  dsimp only
  rw [heq]
  exact ⟨rfl, rfl⟩

/-- A call in which a step fails returns an error.  It is undone if the step is the first one,
and then only: a second call is given the same address after a failure of the first step, and
another address after a failure of any other. -/
theorem allocLocalMemory_undone (h : s.Accepts size) (hsize : size < 2 ^ 64)
    {step : AllocStep} (hstep : s.Fails driver size step) :
    (s.allocLocalMemory driver size).1 ≠ bmOk ∧
      (s.Undone (s.allocLocalMemory driver size).2.2 ↔ s.Fails driver size .create) ∧
      ∀ retry, ((s.allocLocalMemory driver size).2.2.allocLocalMemory retry size).2.1.vAddress =
        (s.nextSlice size).vAddress ↔ s.Fails driver size .create := by
  refine ⟨h.allocLocalMemory_fails hstep, ?_⟩
  have hpos := h.notEmpty
  by_cases hcreate : (s.malloc driver).1 = bmOk
  · have hnot : ¬ s.Fails driver size .create := fun hfails => hfails hcreate
    obtain ⟨hmoved, hbase⟩ := h.allocatedSize_moved hcreate
    have hne : (s.allocatedSize + size) % 2 ^ 64 ≠ s.allocatedSize := by omega
    refine ⟨iff_of_false (fun hundone => hne (hmoved ▸ hundone.allocatedSize)) hnot, ?_⟩
    refine fun retry => iff_of_false (fun hsame => ?_) hnot
    rw [allocLocalMemory_slice hpos] at hsame
    change HybmVmmBasedSegment.localVirtualBase _ + HybmVmmBasedSegment.allocatedSize _ =
      s.localVirtualBase + s.allocatedSize at hsame
    rw [hmoved, hbase] at hsame
    exact hne (Nat.add_left_cancel hsame)
  · have hsame : (s.allocLocalMemory driver size).2.2 = s := by
      rw [h.allocLocalMemory_eq, if_pos hcreate]
    rw [hsame]
    refine ⟨iff_of_true ⟨rfl, rfl, rfl, rfl, rfl⟩ hcreate, fun retry => iff_of_true ?_ hcreate⟩
    rw [allocLocalMemory_slice hpos]

def failingDriver (failing : HalCall) : Driver where
  result call := if call = failing then -1 else 0

theorem allocLocalMemory_undone_create :
    vmmStart.Undone
      (vmmStart.allocLocalMemory (failingDriver (.memCreate .huge)) largePageSize).2.2 ∧
    ¬ vmmStart.Undone (vmmStart.allocLocalMemory (failingDriver .memExport) largePageSize).2.2 := by
  have haccepts : vmmStart.Accepts largePageSize :=
    ⟨by decide +kernel, by decide +kernel, by decide, .inl rfl⟩
  have hfails : vmmStart.Fails (failingDriver (.memCreate .huge)) largePageSize .create := by
    change (vmmStart.malloc (failingDriver (.memCreate .huge))).1 ≠ bmOk
    decide +kernel
  have hcreated : ¬ vmmStart.Fails (failingDriver .memExport) largePageSize .create := by
    change ¬ (vmmStart.malloc (failingDriver .memExport)).1 ≠ bmOk
    decide +kernel
  have hshare : vmmStart.Fails (failingDriver .memExport) largePageSize .share :=
    .inl (by decide)
  constructor
  · exact (allocLocalMemory_undone haccepts (by decide) hfails).2.1.mpr hfails
  · exact fun hundone =>
      hcreated ((allocLocalMemory_undone haccepts (by decide) hshare).2.1.mp hundone)

/-- When the memory cannot be mapped, the slice is taken out of the table, but its addresses
stay in use, recorded and exported, and a second call is given the next ones. -/
theorem map_failure_leaves_traces :
    let failed := (vmmStart.allocLocalMemory (failingDriver .memMap) largePageSize).2.2
    let address := (vmmStart.nextSlice largePageSize).vAddress
    (vmmStart.allocLocalMemory (failingDriver .memMap) largePageSize).1 = bmDlFunctionFailed ∧
      vmmStart.allocatedSize = 0 ∧ failed.allocatedSize = largePageSize ∧
      failed.slices.toList = [] ∧
      vmmStart.exportMap.toList = [] ∧ failed.exportMap.toList ≠ [] ∧
      (vmmStart.va.findAllocByVa address hvmDva).2 = false ∧
      (failed.va.findAllocByVa address hvmDva).2 = true ∧
      (failed.allocLocalMemory {} largePageSize).1 = bmOk ∧
      (failed.allocLocalMemory {} largePageSize).2.1.vAddress = address + largePageSize := by
  decide +kernel

end HybmVmmBasedSegment

end MemFabric.Hybm
