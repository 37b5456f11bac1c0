import MemFabric.Hybm.VaLedger
import MemFabric.Hybm.Segment.Common

/-!
# Slices of the addresses of a rank

Two kinds of segments hand out the addresses of their rank in order, each slice behind the
one before.  While the slices that have memory are recorded and mapped, and nothing else
is in the addresses of the rank, the record and the mapping of one slice can be taken away
without touching those of another.
-/

namespace MemFabric.Hybm

open Machine HybmVaManager Ordered

def MemSlice.info (slice : MemSlice) (rankId : Nat) : AllocatedGvaInfo where
  base := ⟨MemSegment.addresses slice.gva slice.vAddress slice.vAddress, slice.size, slice.memType⟩
  localRankId := rankId

/-- The addresses of type `j`, from the base in the global space or on the device. -/
def ownWindow (globalBase localBase maxSize : Nat) (j : Fin hvmButt) : Extent :=
  ⟨if j = hvmGva then globalBase else localBase, maxSize⟩

def NoneIn (m : HybmVaManager) (globalBase localBase maxSize : Nat) : Prop :=
  ∀ j, ∀ it ∈ m.allocatedMap j, ¬ (it.2.range j).Meets (ownWindow globalBase localBase maxSize j)

/-- The addresses that belong to the rank, in the global space and on the device. -/
structure Pool where
  globalBase : Nat
  localBase : Nat
  maxSize : Nat
  rankId : Nat
  globalBase_pos : 0 < globalBase
  localBase_pos : 0 < localBase
  global_lt : globalBase + maxSize < 2 ^ 64
  local_lt : localBase + maxSize < 2 ^ 64

namespace Pool

def window (p : Pool) (j : Fin hvmButt) : Extent :=
  ownWindow p.globalBase p.localBase p.maxSize j

abbrev Unused (p : Pool) (base : HybmVaManager) : Prop :=
  NoneIn base p.globalBase p.localBase p.maxSize

/-- The slice lies at the same place in both address spaces, below the cursor. -/
structure Inside (p : Pool) (cursor : Nat) (slice : MemSlice) : Prop where
  local_le : p.localBase ≤ slice.vAddress
  le_cursor : slice.vAddress + slice.size ≤ p.localBase + cursor
  gva_eq : slice.gva + p.localBase = p.globalBase + slice.vAddress
  memType_ne : slice.memType ≠ .butt

def Recorded (p : Pool) (slices : SliceTable) (info : AllocatedGvaInfo) : Prop :=
  ∃ status ∈ slices, 0 < status.slice.size ∧ info = status.slice.info p.rankId

variable {α : Type} {key : α → Nat}

/-- The slices that have memory are recorded and mapped, at addresses of their own. -/
structure Holds (p : Pool) (base : HybmVaManager) (slices : SliceTable) (va : HybmVaManager)
    (mapped : Ordered key) (cursor count : Nat) : Prop where
  ledger : Ledger base (p.Recorded slices) va
  inside : ∀ status ∈ slices, p.Inside cursor status.slice
  cursor_le : cursor ≤ p.maxSize
  mappings : ∀ status ∈ slices, 0 < status.slice.size → ∃ a ∈ mapped, key a = status.slice.vAddress
  distinct : ∀ status ∈ slices, ∀ other ∈ slices, 0 < status.slice.size → 0 < other.slice.size →
    status.slice.vAddress = other.slice.vAddress → status = other
  index_lt : ∀ status ∈ slices, status.index < count

variable {p : Pool} {base va : HybmVaManager} {slices : SliceTable} {mapped mapped' : Ordered key}
  {cursor count handle : Nat} {slice : MemSlice} {status : MemSliceStatus} {j : Fin hvmButt}

theorem holds_start (hbase : Ranges base) (mapped : Ordered key) (count : Nat) :
    p.Holds base ∅ base mapped 0 count where
  ledger := hbase.ledger.congr fun info => by
    refine iff_of_false ?_ id
    rintro ⟨status, hstatus, -⟩
    exact notMem_empty status hstatus
  inside status hstatus := absurd hstatus (notMem_empty status)
  cursor_le := Nat.zero_le _
  mappings status hstatus := absurd hstatus (notMem_empty status)
  distinct status hstatus := absurd hstatus (notMem_empty status)
  index_lt status hstatus := absurd hstatus (notMem_empty status)

/-! ## The info of a slice -/

theorem inside_next (slice : MemSlice) (hlocal : slice.vAddress = p.localBase + cursor)
    (hgva : slice.gva = p.globalBase + cursor) (htype : slice.memType ≠ .butt) :
    p.Inside (cursor + slice.size) slice :=
  ⟨by omega, by omega, by omega, htype⟩

theorem Inside.mono {cursor' : Nat} (h : p.Inside cursor slice) (hle : cursor ≤ cursor') :
    p.Inside cursor' slice :=
  { h with le_cursor := h.le_cursor.trans (by omega) }

/-- The address of type `j` of a slice, relative to where the addresses of the rank begin. -/
theorem Inside.va_eq (h : p.Inside cursor slice) (j : Fin hvmButt) :
    (slice.info p.rankId).base.va j = (p.window j).offset + (slice.vAddress - p.localBase) := by
  have hlocal := h.local_le
  have hgva := h.gva_eq
  simp only [MemSlice.info, MemSegment.addresses, window, ownWindow]
  by_cases hj : j = hvmGva
  · rw [if_pos hj, if_pos hj]
    omega
  · rw [if_neg hj, if_neg hj]
    have hsame : (if j = hvmDva then slice.vAddress else slice.vAddress) = slice.vAddress :=
      ite_self _
    omega

theorem window_pos (p : Pool) (j : Fin hvmButt) : 0 < (p.window j).offset := by
  simp only [window, ownWindow]
  split
  · exact p.globalBase_pos
  · exact p.localBase_pos

theorem window_lt (p : Pool) (j : Fin hvmButt) : (p.window j).offset + p.maxSize < 2 ^ 64 := by
  simp only [window, ownWindow]
  split
  · exact p.global_lt
  · exact p.local_lt

theorem Inside.va_ne_zero (h : p.Inside cursor slice) (j : Fin hvmButt) :
    (slice.info p.rankId).base.va j ≠ 0 := by
  have hpos := p.window_pos j
  rw [h.va_eq]
  omega

theorem Inside.fits (h : p.Inside cursor slice) (hcursor : cursor ≤ p.maxSize)
    (hpos : 0 < slice.size) : (slice.info p.rankId).Fits where
  pos := hpos
  noWrap j := by
    have hlt := p.window_lt j
    have hle := h.le_cursor
    have hlocal := h.local_le
    rw [h.va_eq]
    simp only [MemSlice.info]
    omega

theorem Inside.mem_window (h : p.Inside cursor slice) (hcursor : cursor ≤ p.maxSize) {x : Nat}
    (hx : x ∈ (slice.info p.rankId).range j) : x ∈ p.window j := by
  have hle := h.le_cursor
  have hlocal := h.local_le
  rw [Extent.mem_iff] at hx ⊢
  simp only [AllocatedGvaInfo.range, h.va_eq] at hx
  simp only [MemSlice.info, window, ownWindow] at hx ⊢
  omega

/-! ## The next slice -/

section

variable (h : p.Holds base slices va mapped cursor count)

include h

theorem Holds.vacant (hunused : p.Unused base)
    {cursor' : Nat} (hslice : p.Inside cursor' slice) (hcursor : cursor' ≤ p.maxSize)
    (hpos : 0 < slice.size) (haddr : slice.vAddress = p.localBase + cursor) :
    Vacant va (slice.info p.rankId) := by
  intro j hva it hit hmeets
  rcases h.ledger.mem_iff.mp hit with hit | ⟨info, ⟨status, hstatus, hstatusPos, rfl⟩, -, rfl⟩
  · obtain ⟨x, hx, hx'⟩ := hmeets
    exact hunused j it hit ⟨x, hx, hslice.mem_window hcursor hx'⟩
  · have hinside := h.inside status hstatus
    have hstatusLe := hinside.le_cursor
    have hlocal := hinside.local_le
    rw [Extent.meets_iff hstatusPos hpos] at hmeets
    simp only [AllocatedGvaInfo.range, hslice.va_eq, hinside.va_eq] at hmeets
    simp only [MemSlice.info] at hmeets
    omega

theorem Holds.index_ne
    (hindex : slice.index = count) (other : MemSliceStatus) (hother : other ∈ slices) :
    other.index ≠ MemSliceStatus.index ⟨slice, handle⟩ := by
  have hlt := h.index_lt other hother
  change other.index ≠ slice.index
  omega

theorem Holds.mem_emplace (hindex : slice.index = count) :
    status ∈ slices.emplace ⟨slice, handle⟩ ↔ status = ⟨slice, handle⟩ ∨ status ∈ slices :=
  Ordered.mem_emplace (h.index_ne hindex)

theorem Holds.emplaced {cursor' : Nat} {va' : HybmVaManager}
    (hledger : Ledger base
      (fun info => 0 < slice.size ∧ info = slice.info p.rankId ∨ p.Recorded slices info) va')
    (hslice : p.Inside cursor' slice) (hindex : slice.index = count) (hcursor : cursor ≤ cursor')
    (hle : cursor' ≤ p.maxSize)
    (hnew : 0 < slice.size → ∃ a ∈ mapped', key a = slice.vAddress)
    (hapart : 0 < slice.size → ∀ status ∈ slices, 0 < status.slice.size →
      status.slice.vAddress ≠ slice.vAddress)
    (hkept : ∀ a ∈ mapped, (0 < slice.size → key a ≠ slice.vAddress) → a ∈ mapped') :
    p.Holds base (slices.emplace ⟨slice, handle⟩) va' mapped' cursor' (count + 1) where
  ledger := by
    refine hledger.congr fun info => ?_
    constructor
    · rintro ⟨status, hstatus, hpos, rfl⟩
      rcases (h.mem_emplace hindex).mp hstatus with rfl | hstatus
      · exact .inl ⟨hpos, rfl⟩
      · exact .inr ⟨status, hstatus, hpos, rfl⟩
    · rintro (⟨hpos, rfl⟩ | ⟨status, hstatus, hpos, rfl⟩)
      · exact ⟨⟨slice, handle⟩, (h.mem_emplace hindex).mpr (.inl rfl), hpos, rfl⟩
      · exact ⟨status, (h.mem_emplace hindex).mpr (.inr hstatus), hpos, rfl⟩
  inside status hstatus := by
    rcases (h.mem_emplace hindex).mp hstatus with rfl | hstatus
    · exact hslice
    · exact (h.inside status hstatus).mono hcursor
  cursor_le := hle
  mappings status hstatus hpos := by
    rcases (h.mem_emplace hindex).mp hstatus with rfl | hstatus
    · exact hnew hpos
    · obtain ⟨a, ha, hkey⟩ := h.mappings status hstatus hpos
      exact ⟨a, hkept a ha fun hslicePos => hkey ▸ hapart hslicePos status hstatus hpos, hkey⟩
  distinct status hstatus other hother hpos hotherPos heq := by
    rcases (h.mem_emplace hindex).mp hstatus with rfl | hstatus
    · rcases (h.mem_emplace hindex).mp hother with rfl | hother
      · rfl
      · exact absurd heq.symm (hapart hpos other hother hotherPos)
    · rcases (h.mem_emplace hindex).mp hother with rfl | hother
      · exact absurd heq (hapart hotherPos status hstatus hpos)
      · exact h.distinct status hstatus other hother hpos hotherPos heq
  index_lt status hstatus := by
    rcases (h.mem_emplace hindex).mp hstatus with rfl | hstatus
    · change slice.index < count + 1
      omega
    · exact (h.index_lt status hstatus).trans (Nat.lt_succ_self count)

theorem Holds.allocated (hunused : p.Unused base)
    (hslice : p.Inside (cursor + slice.size) slice) (hle : cursor + slice.size ≤ p.maxSize)
    (hpos : 0 < slice.size) (haddr : slice.vAddress = p.localBase + cursor)
    (hindex : slice.index = count) {mapping : α} (hkey : key mapping = slice.vAddress) :
    p.Holds base (slices.emplace ⟨slice, handle⟩) (va.recorded (slice.info p.rankId))
      (mapped.assign mapping) (cursor + slice.size) (count + 1) := by
  have hvacant := h.vacant hunused hslice hle hpos haddr
  refine h.emplaced ((h.ledger.recorded (hslice.fits hle hpos) hvacant).congr fun info => ?_)
    hslice hindex (Nat.le_add_right _ _) hle (fun _ => ⟨_, mem_assign.mpr (.inl rfl), hkey⟩)
    (fun _ status hstatus hstatusPos => ?_)
    fun a ha hne => mem_assign.mpr (.inr ⟨ha, hkey ▸ hne hpos⟩)
  · rw [and_iff_right hpos]
  · -- an older slice ends where the new one begins
    have hinside := (h.inside status hstatus).le_cursor
    omega

theorem Holds.allocatedEmpty
    (hslice : p.Inside cursor slice) (hzero : slice.size = 0) (hindex : slice.index = count) :
    p.Holds base (slices.emplace ⟨slice, handle⟩) va mapped cursor (count + 1) := by
  have hempty : ¬ 0 < slice.size := by omega
  exact h.emplaced (h.ledger.congr fun info => by simp [hzero]) hslice hindex le_rfl
    h.cursor_le (fun hpos => absurd hpos hempty) (fun hpos => absurd hpos hempty) fun a ha _ => ha

end

/-! ## Releasing -/

def Bare (va : HybmVaManager) (mapped : Ordered key) (slice : MemSlice) : Prop :=
  (∀ info, (slice.vAddress, info) ∉ va.allocatedMap hvmDva) ∧ ∀ a ∈ mapped, key a ≠ slice.vAddress

def released (va : HybmVaManager) (slice : MemSlice) : HybmVaManager :=
  va.removeOneVaInfo slice.vAddress hvmDva

theorem Holds.released_eq (h : p.Holds base slices va mapped cursor count)
    (hstatus : status ∈ slices) (hpos : 0 < status.slice.size) :
    released va status.slice = va.without (status.slice.info p.rankId) := by
  have hva : (status.slice.info p.rankId).base.va hvmDva = status.slice.vAddress := rfl
  have hne := (h.inside status hstatus).va_ne_zero hvmDva
  have hremoved := h.ledger.removeOneVaInfo_eq ⟨status, hstatus, hpos, rfl⟩ hvmDva hne
  rwa [hva] at hremoved

theorem Bare.released_eq (h : Bare va mapped slice) : released va slice = va :=
  removeOneVaInfo_eq_self fun _ info => h.1 info

section

variable (h : p.Holds base slices va mapped cursor count) (hstatus : status ∈ slices)

include h hstatus

theorem Holds.recorded_erase {info : AllocatedGvaInfo} :
    p.Recorded (slices.erase status.index) info ↔
      p.Recorded slices info ∧ (0 < status.slice.size → info ≠ status.slice.info p.rankId) := by
  constructor
  · rintro ⟨other, hother, hotherPos, rfl⟩
    obtain ⟨hother, hindex⟩ := mem_erase.mp hother
    refine ⟨⟨other, hother, hotherPos, rfl⟩, fun hpos heq => ?_⟩
    have hva : other.slice.vAddress = status.slice.vAddress :=
      congrArg (fun info : AllocatedGvaInfo => info.base.va hvmDva) heq
    exact hindex (congrArg _ (h.distinct other hother status hstatus hotherPos hpos hva))
  · rintro ⟨⟨other, hother, hotherPos, rfl⟩, hne⟩
    refine ⟨other, mem_erase.mpr ⟨hother, fun hindex => ?_⟩, hotherPos, rfl⟩
    obtain rfl := eq_of_key hother hstatus hindex
    exact hne hotherPos rfl

theorem Holds.release (hslice : 0 < status.slice.size ∨ Bare va mapped status.slice) :
    p.Holds base (slices.erase status.index) (released va status.slice)
      (mapped.erase status.slice.vAddress) cursor count where
  ledger := by
    by_cases hpos : 0 < status.slice.size
    · rw [h.released_eq hstatus hpos]
      refine (h.ledger.without ⟨status, hstatus, hpos, rfl⟩).congr fun info => ?_
      rw [h.recorded_erase hstatus]
      exact and_congr_right fun _ => ⟨fun hne => hne hpos, fun hne _ => hne⟩
    · have hbare := hslice.resolve_left hpos
      rw [hbare.released_eq]
      refine h.ledger.congr fun info => ?_
      rw [h.recorded_erase hstatus]
      exact and_iff_left fun hpos' => absurd hpos' hpos
  inside other hother := h.inside other (mem_erase.mp hother).1
  cursor_le := h.cursor_le
  mappings other hother hotherPos := by
    obtain ⟨hother, hindex⟩ := mem_erase.mp hother
    obtain ⟨a, ha, hkey⟩ := h.mappings other hother hotherPos
    refine ⟨a, mem_erase.mpr ⟨ha, fun heq => ?_⟩, hkey⟩
    by_cases hpos : 0 < status.slice.size
    · have hva := hkey.symm.trans heq
      exact hindex (congrArg _ (h.distinct other hother status hstatus hotherPos hpos hva))
    · exact (hslice.resolve_left hpos).2 a ha heq
  distinct other hother other' hother' := h.distinct other (mem_erase.mp hother).1 other'
    (mem_erase.mp hother').1
  index_lt other hother := h.index_lt other (mem_erase.mp hother).1

end

/-- Releasing the slice takes its entry, its info and its mapping away, and leaves those of
all other slices where they are. -/
structure ReleasesOnly (rankId : Nat) (slice : MemSlice) (slices : SliceTable) (va : HybmVaManager)
    (mapped : Ordered key) (slices' : SliceTable) (va' : HybmVaManager) (mapped' : Ordered key) :
    Prop where
  slices : ∀ status, status ∈ slices' ↔ status ∈ slices ∧ status.slice ≠ slice
  infos : ∀ j it, it ∈ va'.allocatedMap j ↔ it ∈ va.allocatedMap j ∧ it.2 ≠ slice.info rankId
  mappings : ∀ a, a ∈ mapped' ↔ a ∈ mapped ∧ key a ≠ slice.vAddress
  others : ∀ status ∈ slices', 0 < status.slice.size →
    (∀ j, ((status.slice.info rankId).base.va j, status.slice.info rankId) ∈ va'.allocatedMap j) ∧
      ∃ a ∈ mapped', key a = status.slice.vAddress

section

variable (h : p.Holds base slices va mapped cursor count) (hunused : p.Unused base)
  (hstatus : status ∈ slices)

include h hunused hstatus

theorem Holds.ne_info {it : Nat × AllocatedGvaInfo} (hit : it ∈ base.allocatedMap j) :
    it.2 ≠ status.slice.info p.rankId := by
  intro heq
  have hpos := (h.ledger.ranges.fits j it (h.ledger.mem_iff.mpr (.inl hit))).pos
  have hx : (it.2.range j).offset ∈ it.2.range j := by
    rw [Extent.mem_iff]
    simp only [AllocatedGvaInfo.range]
    omega
  have hwindow := (h.inside status hstatus).mem_window h.cursor_le (heq ▸ hx)
  exact hunused j it hit ⟨_, hx, heq ▸ hwindow⟩

theorem Holds.releasesOnly (hslice : 0 < status.slice.size ∨ Bare va mapped status.slice) :
    ReleasesOnly p.rankId status.slice slices va mapped (slices.erase status.index)
      (released va status.slice) (mapped.erase status.slice.vAddress) := by
  have hrelease := h.release hstatus hslice
  refine ⟨fun other => ?_, fun j it => ?_, fun a => mem_erase, fun other hother hpos => ?_⟩
  · rw [mem_erase]
    refine and_congr_right fun hother => not_congr ⟨fun hindex => ?_, fun heq => ?_⟩
    · rw [eq_of_key hother hstatus hindex]
    · exact congrArg MemSlice.index heq
  · rw [hrelease.ledger.mem_iff, h.ledger.mem_iff]
    constructor
    · rintro (hit | ⟨info, hinfo, hva, rfl⟩)
      · exact ⟨.inl hit, h.ne_info hunused hstatus hit⟩
      · obtain ⟨hinfo, hne⟩ := (h.recorded_erase hstatus).mp hinfo
        refine ⟨.inr ⟨info, hinfo, hva, rfl⟩, fun heq => ?_⟩
        obtain ⟨other, hother, hotherPos, rfl⟩ := hinfo
        have hsize : other.slice.size = status.slice.size :=
          congrArg (fun info : AllocatedGvaInfo => info.base.size) heq
        exact hne (by omega) heq
    · rintro ⟨hit | ⟨info, hinfo, hva, rfl⟩, hne⟩
      · exact .inl hit
      · exact .inr ⟨info, (h.recorded_erase hstatus).mpr ⟨hinfo, fun _ => hne⟩, hva, rfl⟩
  · refine ⟨fun j => ?_, hrelease.mappings other hother hpos⟩
    have hva := (hrelease.inside other hother).va_ne_zero j
    exact hrelease.ledger.own_mem ⟨other, hother, hpos, rfl⟩ hva

end

end Pool

end MemFabric.Hybm
