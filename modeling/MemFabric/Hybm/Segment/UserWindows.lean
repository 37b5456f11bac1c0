import MemFabric.Hybm.ReserveCalls
import MemFabric.Hybm.Segment.DevUser

/-!
# Windows of user memory

All ranks register memory and import what others have registered.  Each rank has its part of
the global addresses of the segment, which is at a place of its own in every process, so
ranges are compared by their offset.
-/

namespace MemFabric.Hybm

open Machine Nat Ordered List Function

/-! ## Registered ranges -/

namespace HybmDevUserLegacySegment

def offsetRange (s : HybmDevUserLegacySegment) (slice : MemSlice) : Extent :=
  ⟨slice.gva - s.globalVirtualAddress, slice.size⟩

/-- The segment of a rank: registered ranges begin where the last one has ended, and the
last one ends in the window of the rank. -/
structure Member (maxSize rankCnt rank : Nat) (s : HybmDevUserLegacySegment) : Prop where
  maxSize_eq : s.options.maxSize = maxSize
  rankId_eq : s.options.rankId = rank
  rank_lt : rank < rankCnt
  base : s.lvaBase = s.globalVirtualAddress + maxSize * rank
  noWrap : s.globalVirtualAddress + rankCnt * maxSize < 2 ^ 64
  cursor : s.allocatedSize ≤ maxSize
  inside : ∀ named ∈ s.registerSlices, 0 < named.slice.size ∧ s.lvaBase ≤ named.slice.gva ∧
    named.slice.gva + named.slice.size ≤ s.lvaBase + s.allocatedSize
  apart : ∀ named ∈ s.registerSlices, ∀ named' ∈ s.registerSlices, named ≠ named' →
    ¬ (s.offsetRange named.slice).Meets (s.offsetRange named'.slice)

/-- The registrations, and the addresses at which they are, are the same. -/
def SameRegistrations (s s' : HybmDevUserLegacySegment) : Prop :=
  s'.options = s.options ∧ s'.globalVirtualAddress = s.globalVirtualAddress ∧
    s'.lvaBase = s.lvaBase ∧ s'.allocatedSize = s.allocatedSize ∧
    s'.registerSlices = s.registerSlices

section Steps

variable {maxSize rankCnt rank : Nat} {s s' s'' : HybmDevUserLegacySegment} {driver : Driver}

theorem SameRegistrations.refl (s : HybmDevUserLegacySegment) : s.SameRegistrations s :=
  ⟨rfl, rfl, rfl, rfl, rfl⟩

theorem SameRegistrations.trans (h : s.SameRegistrations s') (h' : s'.SameRegistrations s'') :
    s.SameRegistrations s'' :=
  ⟨h'.1.trans h.1, h'.2.1.trans h.2.1, h'.2.2.1.trans h.2.2.1, h'.2.2.2.1.trans h.2.2.2.1,
    h'.2.2.2.2.trans h.2.2.2.2⟩

section

variable (h : s.Member maxSize rankCnt rank)

include h

theorem Member.congr (hsame : s.SameRegistrations s') :
    s'.Member maxSize rankCnt rank := by
  obtain ⟨hoptions, hgva, hbase, hallocated, hregister⟩ := hsame
  obtain ⟨hmaxSize, hrankId, hlt, hb, hnoWrap, hcursor, hinside, hapart⟩ := h
  refine ⟨?_, ?_, hlt, ?_, ?_, ?_, ?_, ?_⟩
  · rw [hoptions, hmaxSize]
  · rw [hoptions, hrankId]
  · rw [hbase, hgva, hb]
  · rw [hgva]
    exact hnoWrap
  · rw [hallocated]
    exact hcursor
  · rw [hregister, hbase, hallocated]
    exact hinside
  · unfold offsetRange
    rw [hregister, hgva]
    exact hapart

/-- The part of a rank ends before the last address of the segment. -/
theorem Member.window_le :
    maxSize * rank + maxSize ≤ rankCnt * maxSize := by
  calc maxSize * rank + maxSize
      = maxSize * (rank + 1) := (mul_succ _ _).symm
    _ ≤ maxSize * rankCnt := mul_le_mul_left _ h.rank_lt
    _ = rankCnt * maxSize := mul_comm _ _

theorem Member.nextSlice_gva (addr size : Nat) :
    (s.nextSlice addr size).gva = s.lvaBase + s.allocatedSize := by
  have hbase := h.base
  have hnoWrap := h.noWrap
  have hcursor := h.cursor
  have hwindow := h.window_le
  exact mod_eq_of_lt (by omega)

end

theorem registerMemory_cases (s : HybmDevUserLegacySegment) (driver : Driver) (addr size : Nat) :
    (s.registerMemory driver addr size).1 ≠ bmOk ∧
        s.SameRegistrations (s.registerMemory driver addr size).2.2 ∨
      (size ≠ 0 ∧ (s.registerMemory driver addr size).1 = bmOk ∧
          (s.registerMemory driver addr size).2.1 = s.nextSlice addr size) ∧
        ∃ name va memNames, (s.registerMemory driver addr size).2.2 =
          { s with
            toMemSegment := { s.counted with va }
            memNames
            registerSlices := s.registerSlices.emplace ⟨s.nextSlice addr size, name⟩
            allocatedSize := (s.allocatedSize + size) % 2 ^ 64 } := by
  unfold registerMemory
  dsimp only
  split
  · exact .inl ⟨(by decide : bmInvalidParam ≠ bmOk), .refl s⟩
  next hvalid =>
  split
  · exact .inl ⟨(by decide : bmError ≠ bmOk), .refl s⟩
  split
  · exact .inl ⟨(by decide : bmDlFunctionFailed ≠ bmOk), .refl s⟩
  split
  · exact .inl ⟨(by decide : bmDlFunctionFailed ≠ bmOk), .refl s⟩
  split
  · next hfails => exact .inl ⟨hfails, rfl, rfl, rfl, rfl, rfl⟩
  · exact .inr ⟨⟨fun hzero => hvalid (.inr hzero), rfl, rfl⟩, _, _, _, rfl⟩

/-- The range of the next slice is behind those that are registered. -/
theorem Member.register (h : s.Member maxSize rankCnt rank) {addr size : Nat}
    (hfits : s.allocatedSize + size ≤ maxSize) :
    (s.registerMemory driver addr size).2.2.Member maxSize rankCnt rank := by
  rcases s.registerMemory_cases driver addr size with
    ⟨-, hsame⟩ | ⟨⟨hsize, -⟩, name, va, memNames, heq⟩
  · exact h.congr hsame
  have hgva := h.nextSlice_gva addr size
  have hnoWrap := h.noWrap
  have hwindow := h.window_le
  have hallocated : (s.allocatedSize + size) % 2 ^ 64 = s.allocatedSize + size :=
    mod_eq_of_lt (by omega)
  have hbase := h.base
  have hnew : ∀ named ∈ s.registerSlices,
      ¬ (s.offsetRange (s.nextSlice addr size)).Meets (s.offsetRange named.slice) := by
    intro named hnamed
    obtain ⟨hpos, hge, hle⟩ := h.inside named hnamed
    have hnextSize : (s.nextSlice addr size).size = size := rfl
    rw [Extent.meets_iff (by simp only [offsetRange]; omega) hpos]
    simp only [offsetRange]
    omega
  rw [heq, hallocated]
  refine { h with cursor := hfits, inside := ?_, apart := ?_ }
  · intro named hnamed
    rcases eq_or_mem_of_mem_emplace hnamed with rfl | hnamed
    · dsimp only
      rw [hgva]
      refine ⟨pos_of_ne_zero hsize, by omega, ?_⟩
      change s.lvaBase + s.allocatedSize + size ≤ s.lvaBase + (s.allocatedSize + size)
      omega
    · obtain ⟨hpos, hge, hle⟩ := h.inside named hnamed
      exact ⟨hpos, hge, hle.trans (by dsimp only; omega)⟩
  · intro named hnamed named' hnamed' hne
    rcases eq_or_mem_of_mem_emplace hnamed with rfl | hnamed <;>
      rcases eq_or_mem_of_mem_emplace hnamed' with rfl | hnamed'
    · exact absurd rfl hne
    · exact hnew named' hnamed'
    · exact fun hmeets => hnew named hnamed hmeets.symm
    · exact h.apart named hnamed named' hnamed' hne

theorem Member.release (h : s.Member maxSize rankCnt rank) (slice : MemSlice) :
    (s.releaseSliceMemory driver slice).2.Member maxSize rankCnt rank := by
  unfold releaseSliceMemory
  split
  · exact h
  split
  · exact h
  refine { h with inside := ?_, apart := ?_ }
  · exact fun named hnamed => h.inside named (mem_erase.mp hnamed).1
  · exact fun named hnamed named' hnamed' =>
      h.apart named (mem_erase.mp hnamed).1 named' (mem_erase.mp hnamed').1

theorem Member.start {s0 : HybmDevUserLegacySegment} {live : List Reservation}
    (hlive : Reserved s0.reserved live) (hregister : s0.registerSlices = ∅)
    (hallocated : s0.allocatedSize = 0) (hmaxSize : s0.options.maxSize = maxSize)
    (hrankCnt : s0.options.rankCnt = rankCnt) (hrankId : s0.options.rankId = rank)
    (hreserve : s0.reserveMemorySpace = (bmOk, s)) : s.Member maxSize rankCnt rank := by
  unfold reserveMemorySpace at hreserve
  split at hreserve
  · exact absurd (Prod.mk.inj hreserve).1 (by decide)
  next h56 =>
  split at hreserve
  · exact absurd (Prod.mk.inj hreserve).1 (by decide)
  next hrank =>
  dsimp only at hreserve
  split at hreserve
  · exact absurd (Prod.mk.inj hreserve).1 (by decide)
  next hgva =>
  have hsizes : s0.options.enable56BitsGva = false → s0.options.rankCnt * s0.options.maxSize = 0 :=
    fun hoff => absurd (not_not.mp h56) (hoff ▸ Bool.false_ne_true)
  obtain ⟨hpos, info, hplaced, heq⟩ := hlive.of_allocReserveGva hsizes hgva
  have hnoWrap : info.va hvmGva + s0.options.rankCnt * s0.options.maxSize < 2 ^ 64 :=
    (hplaced.proper.global_bounds hpos).2
  rw [heq] at hreserve
  obtain rfl := (Prod.mk.inj hreserve).2
  subst hmaxSize hrankCnt hrankId
  refine ⟨rfl, rfl, not_le.mp hrank, rfl, hnoWrap, ?_, ?_, ?_⟩
  · rw [hallocated]
    exact zero_le _
  all_goals
    rw [hregister]
    exact fun named hnamed => absurd hnamed (notMem_empty named)

/-! ### Imports -/

section

variable (s : HybmDevUserLegacySegment)

theorem same_enabledPeer (logicDeviceId : Nat) :
    s.SameRegistrations (s.enabledPeer logicDeviceId) := by
  unfold enabledPeer
  split
  · exact ⟨rfl, rfl, rfl, rfl, rfl⟩
  · exact .refl s

theorem same_importDeviceInfo (driver : Driver)
    (info : HbmExportDeviceInfo) : s.SameRegistrations (s.importDeviceInfo driver info).2 := by
  unfold importDeviceInfo
  split
  · exact .refl s
  split
  · exact .refl s
  dsimp only
  split
  · exact s.same_enabledPeer info.logicDeviceId
  · exact (s.same_enabledPeer info.logicDeviceId).trans ⟨rfl, rfl, rfl, rfl, rfl⟩

theorem same_importSliceInfo (driver : Driver)
    (info : UserHbmExportSliceInfo) : s.SameRegistrations (s.importSliceInfo driver info).2.2 := by
  unfold importSliceInfo
  split
  · exact .refl s
  split
  · split
    · exact .refl s
    split
    · exact s.same_enabledPeer info.logicDeviceId
    · exact (s.same_enabledPeer info.logicDeviceId).trans ⟨rfl, rfl, rfl, rfl, rfl⟩
  · exact ⟨rfl, rfl, rfl, rfl, rfl⟩

end

theorem importSliceInfo_slice {info : UserHbmExportSliceInfo} {slice : MemSlice}
    (h : (s.importSliceInfo driver info).2.1 = some slice) :
    slice.gva = (info.gvaOffset + s.globalVirtualAddress) % 2 ^ 64 ∧ slice.size = info.size := by
  unfold importSliceInfo at h
  split at h
  · cases h
  split at h
  · split at h
    · cases h
    split at h
    · cases h
    · obtain rfl := Option.some.inj h
      refine ⟨?_, rfl⟩
      change (info.gvaOffset + (s.enabledPeer info.logicDeviceId).globalVirtualAddress) % 2 ^ 64 = _
      rw [(s.same_enabledPeer info.logicDeviceId).2.1]
  · obtain rfl := Option.some.inj h
    exact ⟨rfl, rfl⟩

section

variable (s : HybmDevUserLegacySegment)

theorem same_removeRemote (slice : MemSlice) :
    s.SameRegistrations (s.removeRemote slice) := by
  unfold removeRemote
  dsimp only
  split
  · exact ⟨rfl, rfl, rfl, rfl, rfl⟩
  · exact ⟨rfl, rfl, rfl, rfl, rfl⟩

theorem same_foldl_removeRemote (slices : List MemSlice) :
    s.SameRegistrations (slices.foldl removeRemote s) := by
  induction slices generalizing s with
  | nil => exact .refl s
  | cons slice slices ih => exact (s.same_removeRemote slice).trans (ih _)

theorem same_removeImported (ranks : List Nat) :
    s.SameRegistrations (s.removeImported ranks).2 := by
  unfold removeImported
  induction ranks generalizing s with
  | nil => exact .refl s
  | cons rank ranks ih =>
    refine SameRegistrations.trans ?_ (ih _)
    have herased : s.SameRegistrations
        { s with importedDeviceInfo := s.importedDeviceInfo.erase rank } :=
      ⟨rfl, rfl, rfl, rfl, rfl⟩
    exact herased.trans (same_foldl_removeRemote _ _)

theorem same_importOne (driver : Driver) (info : UserExportInfo) :
    s.SameRegistrations (s.importOne driver info).2.2 := by
  cases info with
  | device info => exact s.same_importDeviceInfo driver info
  | slice info => exact s.same_importSliceInfo driver info
  | invalid => exact .refl s

theorem same_importInfos (drivers : Nat → Driver)
    (infos : List UserExportInfo) : s.SameRegistrations (s.importInfos drivers infos).2.2 := by
  induction infos generalizing s drivers with
  | nil => exact .refl s
  | cons info infos ih =>
    have hone := s.same_importOne (drivers 0) info
    rw [importInfos]
    split
    · exact hone
    · exact hone.trans (ih _ _)

end

end Steps

end HybmDevUserLegacySegment

/-! ## Entered ranges -/

/-- A range that a call has entered, memory of the rank `owner`, and the first address of the
segment there. -/
structure EnteredRange where
  owner : Nat
  base : Nat
  gva : Nat
  size : Nat
deriving DecidableEq

def EnteredRange.InWindow (maxSize : Nat) (range : EnteredRange) : Prop :=
  range.base + range.owner * maxSize ≤ range.gva ∧
    range.gva + range.size ≤ range.base + (range.owner + 1) * maxSize

instance (maxSize : Nat) (range : EnteredRange) : Decidable (range.InWindow maxSize) :=
  inferInstanceAs (Decidable (_ ∧ _))

def importedRange (base : Nat) : UserExportInfo → Option MemSlice → Option EnteredRange
  | .slice info, some slice => some ⟨info.rankId, base, slice.gva, slice.size⟩
  | _, _ => none

def importedRanges (base : Nat) (infos : List UserExportInfo) (slices : List (Option MemSlice)) :
    List EnteredRange :=
  (zipWith (importedRange base) infos slices).filterMap id

structure UserHbmExportSliceInfo.InWindow (maxSize rankCnt : Nat) (info : UserHbmExportSliceInfo) :
    Prop where
  rank_lt : info.rankId < rankCnt
  ge : maxSize * info.rankId ≤ info.gvaOffset
  le : info.gvaOffset + info.size ≤ maxSize * info.rankId + maxSize

namespace HybmDevUserLegacySegment

variable {maxSize rankCnt rank : Nat} {s s' : HybmDevUserLegacySegment} {driver : Driver}

variable (h : s.Member maxSize rankCnt rank)

include h

theorem Member.registeredRange {addr size : Nat} (hfits : s.allocatedSize + size ≤ maxSize)
    (hok : (s.registerMemory driver addr size).1 = bmOk) :
    (⟨rank, s.globalVirtualAddress, (s.registerMemory driver addr size).2.1.gva,
      (s.registerMemory driver addr size).2.1.size⟩ : EnteredRange).InWindow maxSize := by
  rcases s.registerMemory_cases driver addr size with ⟨hfails, -⟩ | ⟨⟨-, -, hslice⟩, -⟩
  · exact absurd hok hfails
  have hbase := h.base
  unfold EnteredRange.InWindow
  dsimp only
  rw [hslice, h.nextSlice_gva addr size, succ_mul, mul_comm rank]
  change _ ∧ s.lvaBase + s.allocatedSize + size ≤ _
  omega

/-- An import enters the range of the info at the base of the segment. -/
theorem Member.importedRange {info : UserHbmExportSliceInfo}
    (hinfo : info.InWindow maxSize rankCnt) {slice : MemSlice}
    (hslice : (s.importSliceInfo driver info).2.1 = some slice) :
    (⟨info.rankId, s.globalVirtualAddress, slice.gva, slice.size⟩ : EnteredRange).InWindow
      maxSize := by
  obtain ⟨hgva, hsize⟩ := importSliceInfo_slice hslice
  have hnoWrap := h.noWrap
  have hge := hinfo.ge
  have hle := hinfo.le
  have hlast : maxSize * info.rankId + maxSize ≤ rankCnt * maxSize := by
    rw [mul_comm rankCnt]
    exact mul_le_mul_left _ hinfo.rank_lt
  unfold EnteredRange.InWindow
  dsimp only
  rw [succ_mul, mul_comm info.rankId]
  omega

theorem Member.importedRanges {base : Nat}
    (hbase : s.globalVirtualAddress = base) {infos : List UserExportInfo}
    (hinfos : ∀ info, .slice info ∈ infos → info.InWindow maxSize rankCnt) {drivers : Nat → Driver}
    {range : EnteredRange}
    (hrange : range ∈ MemFabric.Hybm.importedRanges base infos (s.importInfos drivers infos).2.1) :
    range.InWindow maxSize := by
  induction infos generalizing s drivers with
  | nil => cases hrange
  | cons info infos ih =>
    rw [importInfos] at hrange
    split at hrange
    · cases hrange
    have hsame := s.same_importOne (drivers 0) info
    unfold MemFabric.Hybm.importedRanges at hrange
    rw [mem_filterMap] at hrange
    obtain ⟨range', hmem, hsome⟩ := hrange
    obtain rfl : range' = some range := hsome
    rcases mem_cons.mp hmem with heq | hmem
    · cases info with
      | device info => cases heq
      | invalid => cases heq
      | slice info =>
        cases hslice : (s.importOne (drivers 0) (.slice info)).2.1 with
        | none =>
          rw [hslice] at heq
          cases heq
        | some slice =>
          rw [hslice] at heq
          obtain rfl := Option.some.inj heq
          rw [← hbase]
          exact h.importedRange (hinfos info mem_cons_self) hslice
    · exact ih (h.congr hsame) (hsame.2.1.trans hbase)
        (fun info hinfo => hinfos info (mem_cons_of_mem _ hinfo))
        (mem_filterMap.mpr ⟨_, hmem, rfl⟩)

theorem Member.exportSlice {slice : MemSlice}
    (hok : (s.exportSlice slice).1 = bmOk) : (s.exportSlice slice).2.InWindow maxSize rankCnt := by
  unfold HybmDevUserLegacySegment.exportSlice at hok ⊢
  split at hok
  · exact absurd hok (by decide)
  next named hfind =>
  obtain ⟨-, hge, hle⟩ := h.inside named (find_eq_some.mp hfind).1
  have hbase := h.base
  have hnoWrap := h.noWrap
  have hwindow := h.window_le
  have hcursor := h.cursor
  have hoffset : (named.slice.gva + 2 ^ 64 - s.globalVirtualAddress) % 2 ^ 64 =
      named.slice.gva - s.globalVirtualAddress := by
    rw [show named.slice.gva + 2 ^ 64 - s.globalVirtualAddress =
      named.slice.gva - s.globalVirtualAddress + 2 ^ 64 by omega, add_mod_right]
    exact mod_eq_of_lt (by omega)
  refine ⟨?_, ?_, ?_⟩
  · rw [h.rankId_eq]
    exact h.rank_lt
  · dsimp only
    rw [h.rankId_eq]
    omega
  · dsimp only
    rw [h.rankId_eq]
    omega

end HybmDevUserLegacySegment

/-! ## All ranks -/

structure UserRanks (n : Nat) where
  ranks : Fin n → HybmDevUserLegacySegment
  sent : List UserHbmExportSliceInfo := []

inductive UserCall (n : Nat)
  | register (rank : Fin n) (addr size : Nat) (driver : Driver)
  | release (rank : Fin n) (slice : MemSlice) (driver : Driver)
  | exportSlice (rank : Fin n) (slice : MemSlice)
  | imports (rank : Fin n) (infos : List UserExportInfo) (drivers : Nat → Driver)
  | removeImported (rank : Fin n) (ranks : List Nat)

namespace UserRanks

variable {n : Nat}

def set (u : UserRanks n) (rank : Fin n) (s : HybmDevUserLegacySegment) : UserRanks n :=
  { u with ranks := update u.ranks rank s }

/-- A call of a rank; what is put out are the ranges that it has entered, if it succeeds. -/
def step (u : UserRanks n) : UserCall n → UserRanks n × List EnteredRange
  | .register rank addr size driver =>
    let s := u.ranks rank
    let registered := s.registerMemory driver addr size
    (u.set rank registered.2.2,
      if registered.1 = bmOk then
        [⟨rank, s.globalVirtualAddress, registered.2.1.gva, registered.2.1.size⟩]
      else [])
  | .release rank slice driver =>
    (u.set rank ((u.ranks rank).releaseSliceMemory driver slice).2, [])
  | .exportSlice rank slice =>
    let exported := (u.ranks rank).exportSlice slice
    (if exported.1 = bmOk then { u with sent := exported.2 :: u.sent } else u, [])
  | .imports rank infos drivers =>
    let s := u.ranks rank
    let imported := s.importInfos drivers infos
    (u.set rank imported.2.2,
      if imported.1 = bmOk then importedRanges s.globalVirtualAddress infos imported.2.1 else [])
  | .removeImported rank ranks => (u.set rank ((u.ranks rank).removeImported ranks).2, [])

/-- What is registered fits into the window of the rank, and only what has been exported is
imported. -/
def Allowed (maxSize : Nat) (u : UserRanks n) : UserCall n → Prop
  | .register rank _ size _ => (u.ranks rank).allocatedSize + size ≤ maxSize
  | .release _ _ _ => True
  | .exportSlice _ _ => True
  | .imports _ infos _ => ∀ info, .slice info ∈ infos → info ∈ u.sent
  | .removeImported _ _ => True

/-- Each rank has reserved the addresses of a new segment; nothing has been exported. -/
structure Started (maxSize rankCnt : Nat) (u : UserRanks n) : Prop where
  sent : u.sent = []
  reserved : ∀ rank : Fin n, ∃ (s0 : HybmDevUserLegacySegment) (live : List Reservation),
    Reserved s0.reserved live ∧ s0.registerSlices = ∅ ∧ s0.allocatedSize = 0 ∧
      s0.options.maxSize = maxSize ∧ s0.options.rankCnt = rankCnt ∧ s0.options.rankId = rank ∧
      s0.reserveMemorySpace = (bmOk, u.ranks rank)

/-- All ranks are members, and what has been exported is in their windows. -/
structure Sound (maxSize rankCnt : Nat) (u : UserRanks n) : Prop where
  member : ∀ rank, (u.ranks rank).Member maxSize rankCnt rank
  sent : ∀ info ∈ u.sent, info.InWindow maxSize rankCnt

section

variable {maxSize rankCnt : Nat} {u : UserRanks n} {s : HybmDevUserLegacySegment}

theorem Sound.set (h : u.Sound maxSize rankCnt) {rank : Fin n}
    (hs : s.Member maxSize rankCnt rank) :
    (u.set rank s).Sound maxSize rankCnt where
  member r := by
    by_cases hr : r = rank
    · subst hr
      change (update u.ranks r s r).Member maxSize rankCnt r
      rw [update_self]
      exact hs
    · change (update u.ranks rank s r).Member maxSize rankCnt r
      rw [update_of_ne hr]
      exact h.member r
  sent := h.sent

theorem Sound.next (h : u.Sound maxSize rankCnt) (call : UserCall n)
    (hallowed : u.Allowed maxSize call) :
    (u.step call).1.Sound maxSize rankCnt ∧ ∀ range ∈ (u.step call).2, range.InWindow maxSize := by
  cases call with
  | register rank addr size driver =>
    have hmember := h.member rank
    refine ⟨h.set (hmember.register hallowed), fun range hrange => ?_⟩
    dsimp only [step] at hrange
    split at hrange
    · next hok =>
      rw [mem_singleton.mp hrange]
      exact hmember.registeredRange hallowed hok
    · cases hrange
  | release rank slice driver =>
    exact ⟨h.set ((h.member rank).release slice), fun range hrange => by cases hrange⟩
  | exportSlice rank slice =>
    refine ⟨?_, fun range hrange => by cases hrange⟩
    dsimp only [step]
    split
    · next hok =>
      refine ⟨h.member, fun info hinfo => ?_⟩
      rcases mem_cons.mp hinfo with rfl | hinfo
      · exact (h.member rank).exportSlice hok
      · exact h.sent info hinfo
    · exact h
  | imports rank infos drivers =>
    have hmember := h.member rank
    refine ⟨h.set (hmember.congr ((u.ranks rank).same_importInfos drivers infos)), ?_⟩
    intro range hrange
    dsimp only [step] at hrange
    split at hrange
    · exact hmember.importedRanges rfl (fun info hinfo => h.sent info (hallowed info hinfo)) hrange
    · cases hrange
  | removeImported rank ranks =>
    exact ⟨h.set ((h.member rank).congr ((u.ranks rank).same_removeImported ranks)),
      fun range hrange => by cases hrange⟩

theorem Started.sound (h : u.Started maxSize rankCnt) : u.Sound maxSize rankCnt where
  sent info hinfo := by
    rw [h.sent] at hinfo
    cases hinfo
  member rank := by
    obtain ⟨s0, live, hlive, hregister, hallocated, hmaxSize, hrankCnt, hrankId, hreserve⟩ :=
      h.reserved rank
    exact .start hlive hregister hallocated hmaxSize hrankCnt hrankId hreserve

theorem Sound.apart (h : u.Sound maxSize rankCnt) {r r' : Fin n} {named named' : NamedSlice}
    (hnamed : named ∈ (u.ranks r).registerSlices) (hnamed' : named' ∈ (u.ranks r').registerSlices)
    (hne : r ≠ r' ∨ named ≠ named') :
    ¬ ((u.ranks r).offsetRange named.slice).Meets ((u.ranks r').offsetRange named'.slice) := by
  by_cases hr : r = r'
  · subst hr
    exact (h.member r).apart named hnamed named' hnamed' (hne.resolve_left (not_not.mpr rfl))
  obtain ⟨hpos, hge, hle⟩ := (h.member r).inside named hnamed
  obtain ⟨hpos', hge', hle'⟩ := (h.member r').inside named' hnamed'
  have hbase := (h.member r).base
  have hbase' := (h.member r').base
  have hcursor := (h.member r).cursor
  have hcursor' := (h.member r').cursor
  rw [Extent.meets_iff hpos hpos']
  simp only [HybmDevUserLegacySegment.offsetRange]
  have hval : (r : Nat) ≠ r' := fun heq => hr (Fin.ext heq)
  rcases hval.lt_or_gt with hlt | hlt
  · have hwindow := mul_le_mul_left maxSize hlt
    rw [mul_succ] at hwindow
    omega
  · have hwindow := mul_le_mul_left maxSize hlt
    rw [mul_succ] at hwindow
    omega

/-- After any calls of any ranks: the ranges that have been entered are in the windows of
their owners, and those of registered memory are apart. -/
theorem ranges_in_windows {start : UserRanks n} (hstart : start.Started maxSize rankCnt)
    {log : List EnteredRange} (h : Trace step (Allowed maxSize) start log u) :
    (∀ range ∈ log, range.InWindow maxSize) ∧
      ∀ (r r' : Fin n) (named named' : NamedSlice), named ∈ (u.ranks r).registerSlices →
        named' ∈ (u.ranks r').registerSlices → r ≠ r' ∨ named ≠ named' →
        ¬ ((u.ranks r).offsetRange named.slice).Meets ((u.ranks r').offsetRange named'.slice) := by
  have hrun : u.Sound maxSize rankCnt ∧ ∀ range ∈ log, range.InWindow maxSize := by
    refine h.invariant
      (P := fun log u => u.Sound maxSize rankCnt ∧ ∀ range ∈ log, range.InWindow maxSize)
      ⟨hstart.sound, fun range hrange => by cases hrange⟩ ?_
    rintro log u call ⟨hsound, hlog⟩ hallowed
    obtain ⟨hnext, hentered⟩ := hsound.next call hallowed
    refine ⟨hnext, fun range hrange => ?_⟩
    rcases mem_append.mp hrange with hrange | hrange
    · exact hlog range hrange
    · exact hentered range hrange
  exact ⟨hrun.2, fun r r' named named' hnamed hnamed' hne => hrun.1.apart hnamed hnamed' hne⟩

end

/-! ## Two ranks -/

def transReserveHbmVaSize : Nat := 128 * gigabyte

def userSegment (rankId : Nat) : HybmDevUserLegacySegment where
  options :=
    { segType := .hbmUser, rankCnt := 512, rankId, maxSize := transReserveHbmVaSize
      enable56BitsGva := true }

def userStart : UserRanks 2 where
  ranks rank := (userSegment rank).reserveMemorySpace.2

def firstSlice (addr size : Nat) : MemSlice := ((userStart.ranks 0).nextSlice addr size)

/-- The first rank registers memory and exports it, the second one registers memory and
imports that of the first. -/
def sharedCalls : List (UserCall 2) :=
  [.register 0 0x100000000000 (100 * gigabyte) heapDriver,
    .exportSlice 0 (firstSlice 0x100000000000 (100 * gigabyte)),
    .register 1 0x100000000000 (100 * gigabyte) heapDriver,
    .imports 1
      [.slice { gvaOffset := 0, address := 0x100000000000, size := 100 * gigabyte, rankId := 0
                name := 0x100000000000 }] fun _ => {}]

theorem userStart_started : userStart.Started transReserveHbmVaSize 512 where
  sent := rfl
  reserved rank := by
    refine ⟨userSegment rank, [], reserved_start _, rfl, rfl, rfl, rfl, rfl, Prod.ext ?_ rfl⟩
    revert rank
    decide +kernel

theorem ranges_in_windows_shared :
    (run step userStart sharedCalls).2.map (fun range => (range.owner, range.size)) =
        [(0, 100 * gigabyte), (1, 100 * gigabyte), (0, 100 * gigabyte)] ∧
      ∀ range ∈ (run step userStart sharedCalls).2, range.InWindow transReserveHbmVaSize := by
  have hallowed : AllAllowed step (Allowed transReserveHbmVaSize) userStart sharedCalls := by
    refine ⟨?_, trivial, ?_, fun info hinfo => ?_, trivial⟩
    · dsimp only [Allowed]
      decide +kernel
    · dsimp only [Allowed]
      decide +kernel
    · obtain rfl := UserExportInfo.slice.inj (mem_singleton.mp hinfo)
      decide +kernel
  refine ⟨by decide +kernel, ?_⟩
  exact (ranges_in_windows userStart_started (trace_run_of_allowed hallowed)).1

/-- The first rank registers two pieces of 100 GB and the second one a piece of 100 GB.  The
second piece is not in the window of 128 GB of the first rank, and it overlaps the piece of the
second rank. -/
theorem registration_leaves_window :
    let calls : List (UserCall 2) :=
      [.register 0 0x100000000000 (100 * gigabyte) heapDriver,
        .register 0 0x110000000000 (100 * gigabyte) heapDriver,
        .register 1 0x100000000000 (100 * gigabyte) heapDriver]
    (run step userStart calls).2.map
        (fun range => (range.owner, range.gva - range.base, range.size)) =
        [(0, 0, 100 * gigabyte), (0, 100 * gigabyte, 100 * gigabyte),
          (1, 128 * gigabyte, 100 * gigabyte)] ∧
      (∃ range ∈ (run step userStart calls).2, ¬ range.InWindow transReserveHbmVaSize) ∧
      ((run step userStart calls).1.ranks 0).registerSlices.toList.map
          ((run step userStart calls).1.ranks 0 |>.offsetRange ·.slice) =
        [⟨0, 100 * gigabyte⟩, ⟨100 * gigabyte, 100 * gigabyte⟩] ∧
      ((run step userStart calls).1.ranks 1).registerSlices.toList.map
          ((run step userStart calls).1.ranks 1 |>.offsetRange ·.slice) =
        [⟨128 * gigabyte, 100 * gigabyte⟩] ∧
      (⟨100 * gigabyte, 100 * gigabyte⟩ : Extent).Meets ⟨128 * gigabyte, 100 * gigabyte⟩ := by
  refine ⟨by decide +kernel, by decide +kernel, by decide +kernel, by decide +kernel,
    150 * gigabyte, ?_, ?_⟩
  · rw [Extent.mem_iff]
    decide
  · rw [Extent.mem_iff]
    decide

end UserRanks

end MemFabric.Hybm
