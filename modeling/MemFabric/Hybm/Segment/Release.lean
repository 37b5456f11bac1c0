import MemFabric.Hybm.ReserveCalls
import MemFabric.Hybm.Segment.VmmAlloc
import MemFabric.Hybm.Segment.DevLegacy

/-!
# Releasing slices

Slices are allocated and released in any order.  A slice of size zero is at the address
where the next slice will be, and what is at the address of a slice is released with it.
-/

namespace MemFabric.Hybm

open Machine HybmVaManager Ordered MemSegmentOptions

inductive SliceCall
  | alloc (size : Nat)
  | release (slice : MemSlice)

theorem MemSegmentOptions.memType_ne (options : MemSegmentOptions) : options.memType ≠ .butt := by
  unfold memType
  split <;> decide

theorem MemSegmentOptions.rank_end_le {options : MemSegmentOptions}
    (h : options.rankId < options.rankCnt) :
    options.maxSize * options.rankId + options.maxSize ≤ options.rankCnt * options.maxSize := by
  calc options.maxSize * options.rankId + options.maxSize
      = options.maxSize * (options.rankId + 1) := (Nat.mul_succ _ _).symm
    _ ≤ options.maxSize * options.rankCnt := Nat.mul_le_mul_left _ h
    _ = options.rankCnt * options.maxSize := Nat.mul_comm _ _

theorem MemSegmentOptions.le_of_accepts {options : MemSegmentOptions} {allocatedSize size : Nat}
    (h : options.refuses allocatedSize size = false) (hlt : allocatedSize + size < 2 ^ 64) :
    allocatedSize + size ≤ options.maxSize := by
  have haccepts := of_decide_eq_false h
  omega

/-! ## Virtual memory -/

namespace HybmVmmBasedSegment

def sliceStep (driver : Driver) (s : HybmVmmBasedSegment) :
    SliceCall → HybmVmmBasedSegment × List Int
  | .alloc size => ((s.allocLocalMemory driver size).2.2, [(s.allocLocalMemory driver size).1])
  | .release slice =>
    ((s.releaseSliceMemory driver slice).2, [(s.releaseSliceMemory driver slice).1])

/-- The counters do not wrap, and an empty slice is released only if nothing is at its
address. -/
def SliceAllowed (s : HybmVmmBasedSegment) : SliceCall → Prop
  | .alloc size => s.allocatedSize + size < 2 ^ 64 ∧ s.sliceCount + 1 < 2 ^ 32
  | .release slice => 0 < slice.size ∨ Pool.Bare s.va s.hal.mapped slice

structure Uses (p : Pool) (base : HybmVaManager) (s : HybmVmmBasedSegment) : Prop where
  holds : p.Holds base s.slices s.va s.hal.mapped s.allocatedSize s.sliceCount
  globalBase : s.globalVirtualBase = p.globalBase
  localBase : s.localVirtualBase = p.localBase
  maxSize : s.options.maxSize = p.maxSize
  rankId : s.options.rankId = p.rankId
  registerSlices : s.registerSlices = ∅

section Steps

variable {p : Pool} {base : HybmVaManager} {s s' : HybmVmmBasedSegment} {driver : Driver}
  {size : Nat} {status : MemSliceStatus}

theorem nextSlice_inside (hglobal : s.globalVirtualBase = p.globalBase)
    (hlocal : s.localVirtualBase = p.localBase) (size : Nat) :
    p.Inside (s.allocatedSize + size) (s.nextSlice size) :=
  Pool.inside_next (s.nextSlice size) (congrArg (· + s.allocatedSize) hlocal)
    (congrArg (· + s.allocatedSize) hglobal) s.options.memType_ne

theorem Uses.inside (h : Uses p base s) (size : Nat) :
    p.Inside (s.allocatedSize + size) (s.nextSlice size) :=
  nextSlice_inside h.globalBase h.localBase size

/-- A request is refused, or is one for an empty slice, or is taken to the driver. -/
theorem allocLocalMemory_cases (s : HybmVmmBasedSegment) (driver : Driver) (size : Nat) :
    (s.allocLocalMemory driver size).2.2 = s ∨
      size = 0 ∧ (s.allocLocalMemory driver size).2.2 = s.mallocEmptySlice.2.2 ∨
      s.Accepts size := by
  unfold allocLocalMemory
  split
  · exact .inl rfl
  next hrefuses =>
  split
  · exact .inl rfl
  next hready =>
  split
  · next hzero => exact .inr (.inl ⟨hzero, rfl⟩)
  next hzero =>
  split
  · exact .inl rfl
  · exact .inr (.inr ⟨Bool.eq_false_of_not_eq_true hrefuses, hready, hzero, by tauto⟩)

theorem Uses.alloc (h : Uses p base s) (hunused : p.Unused base) (hdriver : driver.Succeeds)
    (hallowed : s.SliceAllowed (.alloc size)) :
    Uses p base (s.allocLocalMemory driver size).2.2 := by
  obtain ⟨hlt, hcount⟩ := hallowed
  have hindex : (s.sliceCount + 1) % 2 ^ 32 = s.sliceCount + 1 := Nat.mod_eq_of_lt hcount
  rcases s.allocLocalMemory_cases driver size with heq | ⟨rfl, heq⟩ | haccepts
  · rw [heq]
    exact h
  · rw [heq]
    refine { h with holds := ?_ }
    change p.Holds base (s.slices.emplace ⟨s.nextSlice 0, 0⟩) s.va s.hal.mapped s.allocatedSize
      ((s.sliceCount + 1) % 2 ^ 32)
    rw [hindex]
    exact h.holds.allocatedEmpty (h.inside 0) rfl rfl
  · have hle := le_of_accepts haccepts.notRefused hlt
    rw [h.maxSize] at hle
    have hpos : 0 < size := Nat.pos_of_ne_zero haccepts.notEmpty
    have haddr : (s.nextSlice size).vAddress = p.localBase + s.allocatedSize :=
      congrArg (· + s.allocatedSize) h.localBase
    have hvacant := h.holds.vacant hunused (h.inside size) hle hpos haddr
    have hfits := (h.inside size).fits hle hpos
    rw [← h.rankId] at hvacant hfits
    obtain ⟨-, -, hallocated⟩ := haccepts.allocated hdriver h.holds.ledger.ranges hfits hvacant
    obtain ⟨handle, hslices⟩ := hallocated.slices
    obtain ⟨dHandle, hmapped⟩ := hallocated.mapped
    constructor
    case holds =>
      rw [hslices, hmapped, hallocated.va, hallocated.allocatedSize, hallocated.sliceCount, hindex,
        Nat.mod_eq_of_lt hlt, h.rankId]
      exact h.holds.allocated hunused (h.inside size) hle hpos haddr rfl rfl
    case globalBase =>
      rw [← h.globalBase, globalVirtualBase, hallocated.globalVirtualAddress, hallocated.options]
      rfl
    case localBase =>
      rw [← h.localBase, localVirtualBase, hallocated.localVirtualAddress, hallocated.options]
      rfl
    case maxSize => rw [hallocated.options, h.maxSize]
    case rankId => rw [hallocated.options, h.rankId]
    case registerSlices => rw [hallocated.registerSlices, h.registerSlices]

theorem releaseSliceMemory_eq (hdriver : driver.Succeeds) (hstatus : status ∈ s.slices) :
    s.releaseSliceMemory driver status.slice =
      (bmOk,
        { s with
          hal := (s.hal.memUnmap bmOk status.slice.vAddress).memRelease bmOk status.handle
          va := Pool.released s.va status.slice
          slices := s.slices.erase status.index }) := by
  have hfind : s.slices.find status.slice.index = some status :=
    find_eq_some.mpr ⟨hstatus, rfl⟩
  have hunmap : driver.result .memUnmap = bmOk := hdriver _
  have hrelease : driver.result .memRelease = bmOk := hdriver _
  unfold releaseSliceMemory
  rw [hfind, hunmap, hrelease]
  dsimp only
  rw [if_neg (not_not.mpr rfl)]
  rfl

theorem releaseSliceMemory_none {slice : MemSlice}
    (hnone : ∀ status ∈ s.slices, status.slice ≠ slice) (hregister : s.registerSlices = ∅) :
    s.releaseSliceMemory driver slice = (bmInvalidParam, s) := by
  unfold releaseSliceMemory
  split
  · next status hfind =>
    rw [if_pos (hnone status (find_eq_some.mp hfind).1)]
  · rw [hregister]
    rfl

theorem Uses.release (h : Uses p base s) (hdriver : driver.Succeeds) {slice : MemSlice}
    (hallowed : s.SliceAllowed (.release slice)) :
    Uses p base (s.releaseSliceMemory driver slice).2 := by
  by_cases hex : ∃ status ∈ s.slices, status.slice = slice
  · obtain ⟨status, hstatus, rfl⟩ := hex
    rw [releaseSliceMemory_eq hdriver hstatus]
    refine { h with holds := ?_ }
    exact h.holds.release hstatus hallowed
  · rw [releaseSliceMemory_none (fun status hstatus heq => hex ⟨status, hstatus, heq⟩)
      h.registerSlices]
    exact h

end Steps

/-! ### The start -/

section

variable {s0 s : HybmVmmBasedSegment} {driver : Driver} {live : List Reservation}

theorem reserveMemorySpace_ok (h : s0.reserveMemorySpace driver = (bmOk, s)) :
    s0.options.rankId < s0.options.rankCnt ∧
      ∃ gvaInfo, s0.reserved.allocReserveGva s0.options.rankId
          (s0.options.rankCnt * s0.options.maxSize) s0.options.localSize
          s0.options.memType s0.options.enable56BitsGva = gvaInfo ∧
        gvaInfo.1.va hvmGva ≠ 0 ∧
        s = { s0 with
              totalVirtualSize := s0.options.rankCnt * s0.options.maxSize
              reserved := gvaInfo.2
              globalVirtualAddress := gvaInfo.1.va hvmGva
              localVirtualAddress := gvaInfo.1.va hvmDva
              allocatedSize := 0
              sliceCount := 0
              reservedLva := s0.reservedLva ++ [gvaInfo.1.va hvmDva] } := by
  unfold reserveMemorySpace at h
  iterate 3
    split at h
    · exact absurd (Prod.mk.inj h).1 (by decide)
  dsimp only at h
  iterate 2
    split at h
    · exact absurd (Prod.mk.inj h).1 (by decide)
  next hrank hgva _ =>
  exact ⟨not_le.mp hrank, _, rfl, hgva, (congrArg Prod.snd h).symm⟩

/-- The addresses of the rank are part of what has been reserved. -/
theorem reserveMemorySpace_pool (hreserved : Reserved s0.reserved live)
    (h : s0.reserveMemorySpace driver = (bmOk, s)) :
    ∃ p : Pool, p.globalBase = s.globalVirtualBase ∧ p.localBase = s.localVirtualBase ∧
      p.maxSize = s.options.maxSize ∧ p.rankId = s.options.rankId := by
  obtain ⟨hrank, gvaInfo, hgvaInfo, hgva, rfl⟩ := reserveMemorySpace_ok h
  subst hgvaInfo
  obtain ⟨hpos, info, hplaced, heq⟩ :=
    hreserved.of_allocReserveGva (fun h56 => by rw [localSize, h56]; rfl) hgva
  rw [heq] at hgva ⊢
  have hgvaPos : info.va hvmGva ≠ 0 := hgva
  have hmax : 0 < s0.options.maxSize := Nat.pos_of_mul_pos_left hpos
  have hrankEnd := rank_end_le hrank
  have hgvaLt := (hplaced.proper.global_bounds hpos).2
  have hlocalPos : 0 < s0.options.localSize := by
    unfold localSize
    split
    · exact hmax
    · exact hpos
  obtain ⟨hlva, hlvaLt⟩ := hplaced.proper.local_bounds hlocalPos
  simp only [Reservation.gva, Reservation.lva] at hgvaLt hlvaLt hlva
  refine ⟨⟨info.va hvmGva + s0.options.maxSize * s0.options.rankId,
    info.va hvmDva + if s0.options.enable56BitsGva then 0
      else s0.options.maxSize * s0.options.rankId,
    s0.options.maxSize, s0.options.rankId, by omega, by omega, by omega, ?_⟩, rfl, rfl, rfl, rfl⟩
  unfold localSize at hlvaLt
  split at hlvaLt
  · next h56 =>
    rw [if_pos h56]
    omega
  · next h56 =>
    rw [if_neg h56]
    omega

end

/-- The addresses of a new segment have been reserved, and nothing else is recorded there. -/
structure Begins (driver : Driver) (s0 start : HybmVmmBasedSegment) (live : List Reservation) :
    Prop where
  slices : s0.slices = ∅
  registerSlices : s0.registerSlices = ∅
  ranges : Ranges s0.va
  reserved : Reserved s0.reserved live
  reserves : s0.reserveMemorySpace driver = (bmOk, start)
  noneIn : NoneIn s0.va start.globalVirtualBase start.localVirtualBase start.options.maxSize

/-- The segment is reached from such a start by allocating and releasing slices. -/
def SlicesReached (driver : Driver) (s : HybmVmmBasedSegment) : Prop :=
  ∃ s0 start live, Begins driver s0 start live ∧ Reachable (sliceStep driver) SliceAllowed start s

theorem Begins.uses {driver : Driver} {s0 start : HybmVmmBasedSegment} {live : List Reservation}
    (h : Begins driver s0 start live) : ∃ p : Pool, p.Unused s0.va ∧ Uses p s0.va start := by
  obtain ⟨p, hglobal, hlocal, hmax, hrank⟩ := reserveMemorySpace_pool h.reserved h.reserves
  obtain ⟨-, gvaInfo, -, -, heq⟩ := reserveMemorySpace_ok h.reserves
  refine ⟨p, ?_, ?_, hglobal.symm, hlocal.symm, hmax.symm, hrank.symm, ?_⟩
  · rw [Pool.Unused, hglobal, hlocal, hmax]
    exact h.noneIn
  · subst heq
    rw [h.slices]
    exact Pool.holds_start h.ranges _ _
  · subst heq
    exact h.registerSlices

theorem SlicesReached.uses {driver : Driver} {s : HybmVmmBasedSegment}
    (h : SlicesReached driver s) (hdriver : driver.Succeeds) :
    ∃ p base, p.Unused base ∧ Uses p base s := by
  obtain ⟨s0, start, live, hbegins, hreach⟩ := h
  obtain ⟨p, hunused, huses⟩ := hbegins.uses
  refine ⟨p, s0.va, hunused, hreach.invariant huses fun s call hs hcall => ?_⟩
  cases call with
  | alloc size => exact hs.alloc hunused hdriver hcall
  | release slice => exact hs.release hdriver hcall

end HybmVmmBasedSegment

/-! ## The heap of global addresses -/

namespace HybmDevLegacySegment

def sliceStep (driver : Driver) (s : HybmDevLegacySegment) :
    SliceCall → HybmDevLegacySegment × List Int
  | .alloc size => ((s.allocLocalMemory driver size).2.2, [(s.allocLocalMemory driver size).1])
  | .release slice =>
    ((s.releaseSliceMemory driver slice).2, [(s.releaseSliceMemory driver slice).1])

def SliceAllowed (s : HybmDevLegacySegment) : SliceCall → Prop
  | .alloc size => s.allocatedSize + size < 2 ^ 64 ∧ s.sliceCount + 1 < 2 ^ 32
  | .release slice => 0 < slice.size ∨ Pool.Bare s.va s.hal.mapped slice

/-- The segment uses the addresses of the pool, which are global ones as well. -/
structure Uses (p : Pool) (base : HybmVaManager) (s : HybmDevLegacySegment) : Prop where
  holds : p.Holds base s.slices s.va s.hal.mapped s.allocatedSize s.sliceCount
  globalBase : s.globalVirtualAddress + s.options.maxSize * s.options.rankId = p.globalBase
  localBase : s.lvaBase = p.localBase
  same : p.globalBase = p.localBase
  maxSize : s.options.maxSize = p.maxSize
  rankId : s.options.rankId = p.rankId
  inTotal : p.globalBase + p.maxSize ≤ s.globalVirtualAddress + s.totalVirtualSize

section Steps

variable {p : Pool} {base : HybmVaManager} {s : HybmDevLegacySegment} {driver : Driver}
  {size : Nat} {status : MemSliceStatus}

theorem Uses.inside (h : Uses p base s) (size : Nat) :
    p.Inside (s.allocatedSize + size) (s.nextSlice size) :=
  Pool.inside_next (s.nextSlice size) (congrArg (· + s.allocatedSize) h.localBase)
    (congrArg (· + s.allocatedSize) h.globalBase) (by decide : HybmMemType.device ≠ .butt)

theorem allocLocalMemory_eq (hdriver : driver.Succeeds) (hzero : size ≠ 0)
    (haccepts : s.options.refuses s.allocatedSize size = false) (hva : Ranges s.va)
    (hinfo : ((s.nextSlice size).info s.options.rankId).Fits)
    (hvacant : Vacant s.va ((s.nextSlice size).info s.options.rankId)) :
    s.allocLocalMemory driver size =
      (bmOk, s.nextSlice size,
        { s.placed (s.hal.memMap bmOk (s.nextSlice size).vAddress size 0) size with
          va := s.va.recorded ((s.nextSlice size).info s.options.rankId) }) := by
  have hadd := addVaInfo_of_vacant hva hinfo hvacant (by decide : HybmMemType.device ≠ .butt)
  unfold allocLocalMemory
  rw [haccepts, if_neg Bool.false_ne_true, if_neg hzero, if_neg (not_not.mpr (hdriver _))]
  change (if (s.va.addVaInfo ((s.nextSlice size).info s.options.rankId)).1 ≠ bmOk then _
    else (bmOk, s.nextSlice size,
      { s.placed (s.hal.memMap bmOk (s.nextSlice size).vAddress size 0) size with
        va := (s.va.addVaInfo ((s.nextSlice size).info s.options.rankId)).2 })) = _
  rw [hadd, if_neg (not_not.mpr rfl)]

theorem Uses.alloc (h : Uses p base s) (hunused : p.Unused base) (hdriver : driver.Succeeds)
    (hallowed : s.SliceAllowed (.alloc size)) :
    Uses p base (s.allocLocalMemory driver size).2.2 := by
  obtain ⟨hlt, hcount⟩ := hallowed
  have hindex : (s.sliceCount + 1) % 2 ^ 32 = s.sliceCount + 1 := Nat.mod_eq_of_lt hcount
  have hcursor : (s.allocatedSize + size) % 2 ^ 64 = s.allocatedSize + size := Nat.mod_eq_of_lt hlt
  cases haccepts : s.options.refuses s.allocatedSize size with
  | true =>
    rw [allocLocalMemory, if_pos haccepts]
    exact h
  | false =>
    have hle := le_of_accepts haccepts hlt
    rw [h.maxSize] at hle
    by_cases hzero : size = 0
    · subst hzero
      rw [allocLocalMemory, haccepts]
      refine { h with holds := ?_ }
      change p.Holds base (s.slices.emplace ⟨s.nextSlice 0, 0⟩) s.va s.hal.mapped
        ((s.allocatedSize + 0) % 2 ^ 64) ((s.sliceCount + 1) % 2 ^ 32)
      rw [hindex, hcursor]
      exact h.holds.allocatedEmpty (h.inside 0) rfl rfl
    · have hpos : 0 < size := Nat.pos_of_ne_zero hzero
      have haddr : (s.nextSlice size).vAddress = p.localBase + s.allocatedSize :=
        congrArg (· + s.allocatedSize) h.localBase
      have hvacant := h.holds.vacant hunused (h.inside size) hle hpos haddr
      have hfits := (h.inside size).fits hle hpos
      rw [← h.rankId] at hvacant hfits
      rw [allocLocalMemory_eq hdriver hzero haccepts h.holds.ledger.ranges hfits hvacant]
      refine { h with holds := ?_ }
      change p.Holds base (s.slices.emplace ⟨s.nextSlice size, 0⟩)
        (s.va.recorded ((s.nextSlice size).info s.options.rankId))
        (s.hal.memMap bmOk (s.nextSlice size).vAddress size 0).mapped
        ((s.allocatedSize + size) % 2 ^ 64) ((s.sliceCount + 1) % 2 ^ 32)
      rw [hindex, hcursor, h.rankId]
      exact h.holds.allocated hunused (h.inside size) hle hpos haddr rfl rfl

/-- The slices lie in the global addresses of the segment, so their memory is given back. -/
theorem Uses.memoryInRange (h : Uses p base s) (hstatus : status ∈ s.slices) :
    memoryInRange s.globalVirtualAddress s.totalVirtualSize status.slice.vAddress
      status.slice.size = true := by
  have hinside := h.holds.inside status hstatus
  have hlocal := hinside.local_le
  have hcursor := hinside.le_cursor
  have hmax := h.holds.cursor_le
  have hglobal := h.globalBase
  have hsame := h.same
  have htotal := h.inTotal
  unfold Hybm.memoryInRange
  rw [if_neg (by omega), if_neg (by omega)]

theorem Uses.releaseSliceMemory_eq (h : Uses p base s) (hdriver : driver.Succeeds)
    (hstatus : status ∈ s.slices) :
    s.releaseSliceMemory driver status.slice =
      (bmOk,
        { s with
          hal := s.hal.memUnmap bmOk status.slice.vAddress
          va := Pool.released s.va status.slice
          slices := s.slices.erase status.index
          exportMap := s.exportMap.erase status.index }) := by
  have hfind : s.slices.find status.slice.index = some status :=
    find_eq_some.mpr ⟨hstatus, rfl⟩
  have hfree : driver.result .gvaFree = bmOk := hdriver _
  unfold releaseSliceMemory
  rw [hfind]
  dsimp only
  rw [if_neg (not_not.mpr rfl), h.memoryInRange hstatus, hfree]
  rfl

theorem releaseSliceMemory_none {slice : MemSlice}
    (hnone : ∀ status ∈ s.slices, status.slice ≠ slice) :
    s.releaseSliceMemory driver slice = (bmInvalidParam, s) := by
  unfold releaseSliceMemory
  split
  · rfl
  · next status hfind =>
    rw [if_pos (hnone status (find_eq_some.mp hfind).1)]

theorem Uses.release (h : Uses p base s) (hdriver : driver.Succeeds) {slice : MemSlice}
    (hallowed : s.SliceAllowed (.release slice)) :
    Uses p base (s.releaseSliceMemory driver slice).2 := by
  by_cases hex : ∃ status ∈ s.slices, status.slice = slice
  · obtain ⟨status, hstatus, rfl⟩ := hex
    rw [h.releaseSliceMemory_eq hdriver hstatus]
    refine { h with holds := ?_ }
    exact h.holds.release hstatus hallowed
  · rw [releaseSliceMemory_none fun status hstatus heq => hex ⟨status, hstatus, heq⟩]
    exact h

end Steps

/-! ### The start -/

section

variable {s0 s : HybmDevLegacySegment} {driver : Driver}

theorem reserveMemorySpace_ok (h56 : s0.options.enable56BitsGva = false)
    (h : s0.reserveMemorySpace driver = (bmOk, s)) :
    (s0.options.rankId < s0.options.rankCnt ∧ driver.address .gvaReserveMemory ≠ 0) ∧
      s = { s0 with
            totalVirtualSize := s0.options.rankCnt * s0.options.maxSize
            lvaBase := driver.address .gvaReserveMemory + s0.options.maxSize * s0.options.rankId
            globalVirtualAddress := driver.address .gvaReserveMemory
            allocatedSize := 0
            sliceCount := 0 } := by
  unfold reserveMemorySpace at h
  iterate 3
    split at h
    · exact absurd (Prod.mk.inj h).1 (by decide)
  dsimp only at h
  split at h
  · exact absurd (Prod.mk.inj h).1 (by decide)
  next hrank hbase =>
  rw [h56] at h
  exact ⟨⟨not_le.mp hrank, fun hzero => hbase (.inr hzero)⟩, (congrArg Prod.snd h).symm⟩

end

/-- The addresses of a new segment have been reserved, without addresses of 56 bits, and
nothing else is recorded there.  The heap hands out addresses that do not wrap. -/
structure Begins (driver : Driver) (s0 start : HybmDevLegacySegment) : Prop where
  slices : s0.slices = ∅
  ranges : Ranges s0.va
  noGva56 : s0.options.enable56BitsGva = false
  reserves : s0.reserveMemorySpace driver = (bmOk, start)
  noWrap : start.globalVirtualAddress + start.totalVirtualSize < 2 ^ 64
  noneIn : NoneIn s0.va start.lvaBase start.lvaBase start.options.maxSize

def SlicesReached (driver : Driver) (s : HybmDevLegacySegment) : Prop :=
  ∃ s0 start, Begins driver s0 start ∧ Reachable (sliceStep driver) SliceAllowed start s

theorem SlicesReached.uses {driver : Driver} {s : HybmDevLegacySegment}
    (h : SlicesReached driver s) (hdriver : driver.Succeeds) :
    ∃ p base, p.Unused base ∧ Uses p base s := by
  obtain ⟨s0, start, hbegins, hreach⟩ := h
  obtain ⟨⟨hrank, hbase⟩, rfl⟩ := reserveMemorySpace_ok hbegins.noGva56 hbegins.reserves
  have hlt := hbegins.noWrap
  have hrankEnd := rank_end_le hrank
  dsimp only at hlt
  let p : Pool :=
    ⟨driver.address .gvaReserveMemory + s0.options.maxSize * s0.options.rankId,
      driver.address .gvaReserveMemory + s0.options.maxSize * s0.options.rankId,
      s0.options.maxSize, s0.options.rankId, by omega, by omega, by omega, by omega⟩
  have hunused : p.Unused s0.va := hbegins.noneIn
  refine ⟨p, s0.va, hunused, hreach.invariant ⟨?_, rfl, rfl, rfl, rfl, rfl, ?_⟩
    fun s call hs hcall => ?_⟩
  · rw [hbegins.slices]
    exact Pool.holds_start hbegins.ranges _ _
  · change driver.address .gvaReserveMemory + s0.options.maxSize * s0.options.rankId +
      s0.options.maxSize ≤
        driver.address .gvaReserveMemory + s0.options.rankCnt * s0.options.maxSize
    omega
  · cases call with
    | alloc size => exact hs.alloc hunused hdriver hcall
    | release slice => exact hs.release hdriver hcall

end HybmDevLegacySegment

/-! ## Both kinds -/

/-- Releasing a slice takes its info and its mapping away and no others, if the slice has
memory, or if nothing is at its address. -/
theorem releaseSliceMemory_local {driver : Driver} (hdriver : driver.Succeeds) :
    (∀ s : HybmVmmBasedSegment, HybmVmmBasedSegment.SlicesReached driver s →
      ∀ status ∈ s.slices, 0 < status.slice.size ∨ Pool.Bare s.va s.hal.mapped status.slice →
        (s.releaseSliceMemory driver status.slice).1 = bmOk ∧
          Pool.ReleasesOnly s.options.rankId status.slice s.slices s.va s.hal.mapped
            (s.releaseSliceMemory driver status.slice).2.slices
            (s.releaseSliceMemory driver status.slice).2.va
            (s.releaseSliceMemory driver status.slice).2.hal.mapped) ∧
      ∀ s : HybmDevLegacySegment, HybmDevLegacySegment.SlicesReached driver s →
        ∀ status ∈ s.slices, 0 < status.slice.size ∨ Pool.Bare s.va s.hal.mapped status.slice →
          (s.releaseSliceMemory driver status.slice).1 = bmOk ∧
            Pool.ReleasesOnly s.options.rankId status.slice s.slices s.va s.hal.mapped
              (s.releaseSliceMemory driver status.slice).2.slices
              (s.releaseSliceMemory driver status.slice).2.va
              (s.releaseSliceMemory driver status.slice).2.hal.mapped := by
  constructor
  · intro s hs status hstatus hslice
    obtain ⟨p, base, hunused, huses⟩ := hs.uses hdriver
    rw [HybmVmmBasedSegment.releaseSliceMemory_eq hdriver hstatus, huses.rankId]
    exact ⟨rfl, huses.holds.releasesOnly hunused hstatus hslice⟩
  · intro s hs status hstatus hslice
    obtain ⟨p, base, hunused, huses⟩ := hs.uses hdriver
    rw [huses.releaseSliceMemory_eq hdriver hstatus, huses.rankId]
    exact ⟨rfl, huses.holds.releasesOnly hunused hstatus hslice⟩

def twoPages : List SliceCall := [.alloc largePageSize, .alloc largePageSize]

def devLegacyStart : HybmDevLegacySegment :=
  (({ options := twoRanks } : HybmDevLegacySegment).reserveMemorySpace heapDriver).2

theorem vmmStart_begins :
    HybmVmmBasedSegment.Begins heapDriver { options := twoRanks } vmmStart [] where
  slices := rfl
  registerSlices := rfl
  ranges := ranges_start
  reserved := reserved_start .unknown
  reserves := Prod.ext (by decide +kernel) rfl
  noneIn _ it hit := absurd hit (notMem_empty it)

theorem devLegacyStart_begins :
    HybmDevLegacySegment.Begins heapDriver { options := twoRanks } devLegacyStart where
  slices := rfl
  ranges := ranges_start
  noGva56 := rfl
  reserves := Prod.ext (by decide +kernel) rfl
  noWrap := by decide +kernel
  noneIn _ it hit := absurd hit (notMem_empty it)

def vmmTwoPages : HybmVmmBasedSegment :=
  (run (HybmVmmBasedSegment.sliceStep heapDriver) vmmStart twoPages).1

def devLegacyTwoPages : HybmDevLegacySegment :=
  (run (HybmDevLegacySegment.sliceStep heapDriver) devLegacyStart twoPages).1

theorem vmmTwoPages_reached : HybmVmmBasedSegment.SlicesReached heapDriver vmmTwoPages := by
  have hcalls : AllAllowed (HybmVmmBasedSegment.sliceStep heapDriver)
      HybmVmmBasedSegment.SliceAllowed vmmStart twoPages :=
    ⟨⟨by decide +kernel, by decide +kernel⟩, ⟨by decide +kernel, by decide +kernel⟩, trivial⟩
  exact ⟨_, _, _, vmmStart_begins, (trace_run_of_allowed hcalls).reachable⟩

theorem devLegacyTwoPages_reached :
    HybmDevLegacySegment.SlicesReached heapDriver devLegacyTwoPages := by
  have hcalls : AllAllowed (HybmDevLegacySegment.sliceStep heapDriver)
      HybmDevLegacySegment.SliceAllowed devLegacyStart twoPages :=
    ⟨⟨by decide +kernel, by decide +kernel⟩, ⟨by decide +kernel, by decide +kernel⟩, trivial⟩
  exact ⟨_, _, devLegacyStart_begins, (trace_run_of_allowed hcalls).reachable⟩

/-- The first of two pages is released. -/
theorem releaseSliceMemory_local_twoPages :
    (∃ status ∈ vmmTwoPages.slices, status.index = 0 ∧
      Pool.ReleasesOnly 0 status.slice vmmTwoPages.slices vmmTwoPages.va vmmTwoPages.hal.mapped
        (vmmTwoPages.releaseSliceMemory heapDriver status.slice).2.slices
        (vmmTwoPages.releaseSliceMemory heapDriver status.slice).2.va
        (vmmTwoPages.releaseSliceMemory heapDriver status.slice).2.hal.mapped) ∧
      ∃ status ∈ devLegacyTwoPages.slices, status.index = 0 ∧
        Pool.ReleasesOnly 0 status.slice devLegacyTwoPages.slices devLegacyTwoPages.va
          devLegacyTwoPages.hal.mapped
          (devLegacyTwoPages.releaseSliceMemory heapDriver status.slice).2.slices
          (devLegacyTwoPages.releaseSliceMemory heapDriver status.slice).2.va
          (devLegacyTwoPages.releaseSliceMemory heapDriver status.slice).2.hal.mapped := by
  have hdriver : heapDriver.Succeeds := fun _ => rfl
  have hvmm : ∃ status ∈ vmmTwoPages.slices.toList, status.index = 0 ∧ 0 < status.slice.size := by
    decide +kernel
  have hdev : ∃ status ∈ devLegacyTwoPages.slices.toList,
      status.index = 0 ∧ 0 < status.slice.size := by
    decide +kernel
  obtain ⟨status, hstatus, hindex, hpos⟩ := hvmm
  obtain ⟨status', hstatus', hindex', hpos'⟩ := hdev
  have hlocal := (releaseSliceMemory_local hdriver).1 _ vmmTwoPages_reached status hstatus
    (.inl hpos)
  have hlocal' := (releaseSliceMemory_local hdriver).2 _ devLegacyTwoPages_reached status' hstatus'
    (.inl hpos')
  exact ⟨⟨status, hstatus, hindex, hlocal.2⟩, status', hstatus', hindex', hlocal'.2⟩

/-- An empty slice is allocated, then a page, and the empty slice is released: the page is
still a slice of the segment, but its info and its mapping are gone. -/
theorem release_of_empty_slice :
    (let s := (run (HybmVmmBasedSegment.sliceStep heapDriver) vmmStart
      [.alloc 0, .alloc largePageSize]).1
      ∃ empty ∈ s.slices.toList, ∃ page ∈ s.slices.toList, empty.slice.size = 0 ∧
        page.slice.size = largePageSize ∧
        (s.va.findAllocByVa page.slice.vAddress hvmDva).2 = true ∧
        (s.hal.mapped.find page.slice.vAddress).isSome = true ∧
        (s.releaseSliceMemory heapDriver empty.slice).1 = bmOk ∧
        page ∈ (s.releaseSliceMemory heapDriver empty.slice).2.slices.toList ∧
        ((s.releaseSliceMemory heapDriver empty.slice).2.va.findAllocByVa
          page.slice.vAddress hvmDva).2 = false ∧
        ((s.releaseSliceMemory heapDriver empty.slice).2.hal.mapped.find
          page.slice.vAddress).isSome = false) ∧
      let s := (run (HybmDevLegacySegment.sliceStep heapDriver) devLegacyStart
        [.alloc 0, .alloc largePageSize]).1
      ∃ empty ∈ s.slices.toList, ∃ page ∈ s.slices.toList, empty.slice.size = 0 ∧
        page.slice.size = largePageSize ∧
        (s.va.findAllocByVa page.slice.vAddress hvmDva).2 = true ∧
        (s.hal.mapped.find page.slice.vAddress).isSome = true ∧
        (s.releaseSliceMemory heapDriver empty.slice).1 = bmOk ∧
        page ∈ (s.releaseSliceMemory heapDriver empty.slice).2.slices.toList ∧
        ((s.releaseSliceMemory heapDriver empty.slice).2.va.findAllocByVa
          page.slice.vAddress hvmDva).2 = false ∧
        ((s.releaseSliceMemory heapDriver empty.slice).2.hal.mapped.find
          page.slice.vAddress).isSome = false := by
  decide +kernel

end MemFabric.Hybm
