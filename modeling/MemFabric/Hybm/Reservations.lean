import MemFabric.Hybm.Reserve

/-!
# Reservations are apart

A list of the live reservations is kept beside the maps of reserved ranges.  The maps hold
the ranges of these reservations and no other ones, apart from an empty range that a
reservation without device addresses leaves at address zero.  The ranges are disjoint and
in their windows, and a request is served from the lowest gap.
-/

namespace MemFabric.Hybm

open Machine Extent List Ordered

/-! ## Gaps -/

/-- The `size` addresses from `p` on are in the window, and none of the ranges has one of them. -/
structure FreeGap (window : Window) (ranges : List Extent) (size p : Nat) : Prop where
  pos : 0 < size
  start_le : window.start ≤ p
  le_stop : p + size ≤ window.stop
  free : ∀ e ∈ ranges, ¬ e.Meets ⟨p, size⟩

def LowestGap (window : Window) (ranges : List Extent) (size p : Nat) : Prop :=
  FreeGap window ranges size p ∧ ∀ q, FreeGap window ranges size q → p ≤ q

namespace ReservedVas

variable {s : ReservedVas} {window : Window} {ranges : List Extent} {type : Fin hvmButt}
  {size p : Nat}

/-- The entries of the map that begin in the window are those of the ranges; the other
ranges are elsewhere. -/
structure Shows (s : ReservedVas) (type : Fin hvmButt) (window : Window) (ranges : List Extent) :
    Prop where
  noWrap : window.stop < 2 ^ 64
  inside : ∀ it ∈ s.reservedMap type, window.start ≤ it.2.va type → it.2.va type < window.stop →
    0 < it.2.size ∧ it.2.va type + it.2.size ≤ window.stop ∧
      (⟨it.2.va type, it.2.size⟩ : Extent) ∈ ranges
  outside : ∀ e ∈ ranges, (∃ it ∈ s.reservedMap type, window.start ≤ it.2.va type ∧
      it.2.va type < window.stop ∧ e = ⟨it.2.va type, it.2.size⟩) ∨
    ∀ x ∈ e, ¬ (window.start ≤ x ∧ x < window.stop)

variable {start stop : Nat}

theorem mem_usedRanges {r : Nat × Nat} :
    r ∈ s.usedRanges start stop type ↔ ∃ it ∈ s.reservedMap type,
      (start ≤ it.2.va type ∧ it.2.va type < stop) ∧
        r = (it.2.va type, (it.2.va type + it.2.size) % 2 ^ 64) := by
  rw [usedRanges, mem_map]
  constructor
  · rintro ⟨it, hit, rfl⟩
    obtain ⟨hmem, hin⟩ := mem_filter.mp hit
    exact ⟨it, hmem, of_decide_eq_true hin, rfl⟩
  · rintro ⟨it, hmem, hin, rfl⟩
    exact ⟨it, mem_filter.mpr ⟨hmem, decide_eq_true hin⟩, rfl⟩

theorem Shows.avoids_iff (h : Shows s type window ranges) (hsize : 0 < size)
    (hstart : window.start ≤ p) (hstop : p + size ≤ window.stop) :
    (∀ r ∈ s.usedRanges window.start window.stop type, Avoids p size r) ↔
      ∀ e ∈ ranges, ¬ e.Meets ⟨p, size⟩ := by
  have hentry : ∀ it ∈ s.reservedMap type, window.start ≤ it.2.va type →
      it.2.va type < window.stop →
      (Avoids p size (it.2.va type, (it.2.va type + it.2.size) % 2 ^ 64) ↔
        ¬ (⟨it.2.va type, it.2.size⟩ : Extent).Meets ⟨p, size⟩) := by
    intro it hit hge hlt
    obtain ⟨hpos, hle, -⟩ := h.inside it hit hge hlt
    have hwrap := h.noWrap
    rw [meets_iff hpos hsize, Avoids]
    dsimp only
    omega
  constructor
  · intro havoids e he hmeets
    rcases h.outside e he with ⟨it, hit, hge, hlt, rfl⟩ | hout
    · refine (hentry it hit hge hlt).mp (havoids _ ?_) hmeets
      exact mem_usedRanges.mpr ⟨it, hit, ⟨hge, hlt⟩, rfl⟩
    · obtain ⟨x, hxe, hx⟩ := hmeets
      rw [mem_iff] at hx
      refine hout x hxe ?_
      dsimp only at hx
      omega
  · intro hfree r hr
    obtain ⟨it, hit, ⟨hge, hlt⟩, rfl⟩ := mem_usedRanges.mp hr
    exact (hentry it hit hge hlt).mpr (hfree _ (h.inside it hit hge hlt).2.2)

theorem rangeLe_sorted (l : List (Nat × Nat)) :
    (l.mergeSort rangeLe).Pairwise fun r r' => r.1 ≤ r'.1 := by
  refine (pairwise_mergeSort ?_ ?_ l).imp fun {r r'} hle => ?_
  · intro a b c hab hbc
    simp only [rangeLe, decide_eq_true_eq] at hab hbc ⊢
    omega
  · simp only [rangeLe, Bool.or_eq_true, decide_eq_true_eq]
    omega
  · simp only [rangeLe, decide_eq_true_eq] at hle
    omega

/-- The search is one for the first gap, also if no range is used. -/
theorem findFreeSpace_eq (h : 0 < size ∧ start < stop ∧ size ≤ stop - start) :
    s.findFreeSpace start stop size type =
      firstGap size stop start ((s.usedRanges start stop type).mergeSort rangeLe) := by
  rw [findFreeSpace, if_neg (by omega)]
  split
  · next hnil =>
    rw [hnil, mergeSort_nil, firstGap, if_pos (by omega)]
  · rfl

theorem Shows.findFreeSpace_some (h : Shows s type window ranges)
    (hfound : s.findFreeSpace window.start window.stop size type = some p) :
    LowestGap window ranges size p := by
  have hvalid : 0 < size ∧ window.start < window.stop ∧ size ≤ window.stop - window.start := by
    by_contra hinvalid
    rw [findFreeSpace, if_pos (by omega)] at hfound
    cases hfound
  rw [findFreeSpace_eq hvalid] at hfound
  obtain ⟨hle, hstop, havoids⟩ := firstGap_some (rangeLe_sorted _) (fun r hr => by
    obtain ⟨it, -, ⟨-, hlt⟩, rfl⟩ := mem_usedRanges.mp (mem_mergeSort.mp hr)
    exact hlt.le) hfound
  refine ⟨⟨hvalid.1, hle, hstop, ?_⟩, fun q hq => ?_⟩
  · refine (h.avoids_iff hvalid.1 hle hstop).mp fun r hr => havoids r ?_
    exact mem_mergeSort.mpr hr
  · have hq' := (h.avoids_iff hq.pos hq.start_le hq.le_stop).mpr hq.free
    obtain ⟨p', hp', hle'⟩ := firstGap_le hvalid.1 hq.start_le hq.le_stop
      fun r hr => hq' r (mem_mergeSort.mp hr)
    rw [hfound] at hp'
    obtain rfl := Option.some.inj hp'
    exact hle'

theorem Shows.findFreeSpace_none (h : Shows s type window ranges)
    (hnone : s.findFreeSpace window.start window.stop size type = none) (q : Nat) :
    ¬ FreeGap window ranges size q := by
  intro hq
  have hpos := hq.pos
  have hstart := hq.start_le
  have hstop := hq.le_stop
  rw [findFreeSpace_eq (by omega)] at hnone
  have hq' := (h.avoids_iff hq.pos hq.start_le hq.le_stop).mpr hq.free
  obtain ⟨p, hp, -⟩ := firstGap_le hq.pos hq.start_le hq.le_stop
    fun r hr => hq' r (mem_mergeSort.mp hr)
  rw [hnone] at hp
  cases hp

end ReservedVas

/-! ## Live reservations -/

/-- The result of the call that has made the reservation, the sizes of its two ranges and
the window of the global one. -/
structure Reservation where
  info : ReservedGvaInfo
  size : Nat
  localSize : Nat
  enable56BitsGva : Bool := false
  isTrans : Bool := false
deriving DecidableEq

namespace Reservation

def gva (r : Reservation) : Nat := r.info.va hvmGva

def lva (r : Reservation) : Nat := r.info.va hvmDva

def globalRange (r : Reservation) : Extent := ⟨r.gva, r.size⟩

def localRange (r : Reservation) : Extent := ⟨r.lva, r.localSize⟩

def globalWindow (soc : AscendSocType) (r : Reservation) : Window :=
  if r.enable56BitsGva then gvaWindow r.isTrans else gvmWindow soc

def globalEntry (r : Reservation) : Nat × ReservedGvaInfo := (r.gva, r.info)

/-- The entry for the device addresses has its own size. -/
def localEntry (r : Reservation) : Nat × ReservedGvaInfo :=
  (r.lva, { r.info with size := r.localSize })

theorem mem_globalRange {r : Reservation} {x : Nat} :
    x ∈ r.globalRange ↔ r.gva ≤ x ∧ x < r.gva + r.size := Iff.rfl

theorem mem_localRange {r : Reservation} {x : Nat} :
    x ∈ r.localRange ↔ r.lva ≤ x ∧ x < r.lva + r.localSize := Iff.rfl

end Reservation

open Reservation

def Within (e : Extent) (window : Window) : Prop :=
  0 < e.size → window.start ≤ e.offset ∧ e.offset + e.size ≤ window.stop

/-- What is known of each reservation: the ranges are in their windows, and without
addresses of 56 bits the two are the same. -/
structure Proper (soc : AscendSocType) (r : Reservation) : Prop where
  size_eq : 0 < r.size → r.info.size = r.size
  notEmpty : r.size = 0 → 0 < r.localSize
  lva_eq_zero : r.localSize = 0 → r.lva = 0
  equal : r.enable56BitsGva = false → 0 < r.size → r.gva = r.lva ∧ r.size = r.localSize
  globalWithin : Within r.globalRange (r.globalWindow soc)
  localWithin : Within r.localRange (gvmWindow soc)

def Distinct (r r' : Reservation) : Prop :=
  ¬ r.globalRange.Meets r'.globalRange ∧ ¬ r.localRange.Meets r'.localRange

instance : Std.Symm Distinct :=
  ⟨fun _ _ h => ⟨fun hmeets => h.1 hmeets.symm, fun hmeets => h.2 hmeets.symm⟩⟩

/-- The maps hold the ranges of the reservations; an empty range may stand at zero. -/
structure Represents (s : ReservedVas) (live : List Reservation) : Prop where
  globals : ∀ it, it ∈ s.reservedMap hvmGva ↔ ∃ r ∈ live, 0 < r.size ∧ it = r.globalEntry
  locals : ∀ it, 0 < it.2.size → (it ∈ s.reservedMap hvmDva ↔ ∃ r ∈ live, it = r.localEntry)
  empty : ∀ it ∈ s.reservedMap hvmDva, it.2.size = 0 → it.1 = 0 ∧ it.2.va hvmDva = 0
  hosts : s.reservedMap hvmHva = ∅

structure Reserved (s : ReservedVas) (live : List Reservation) : Prop where
  represents : Represents s live
  distinct : live.Pairwise Distinct
  proper : ∀ r ∈ live, Proper s.soc r

theorem reserved_start (soc : AscendSocType) : Reserved { soc } [] where
  represents := by
    refine ⟨fun it => ?_, fun it _ => ?_, fun it hit => absurd hit (notMem_empty it), rfl⟩
    · exact iff_of_false (notMem_empty it) (by simp)
    · exact iff_of_false (notMem_empty it) (by simp)
  distinct := .nil
  proper r hr := by cases hr

section

variable (soc : AscendSocType)

/-- The windows of addresses of 56 bits are behind the others and apart. -/
theorem gvmWindow_bounds : 0 < (gvmWindow soc).start ∧
    (gvmWindow soc).start < (gvmWindow soc).stop ∧ (gvmWindow soc).stop ≤ 0x100000000000000 := by
  cases soc <;> decide

theorem gvaWindow_bounds (isTrans : Bool) : 0x100000000000000 ≤ (gvaWindow isTrans).start ∧
    (gvaWindow isTrans).start < (gvaWindow isTrans).stop ∧
    (gvaWindow isTrans).stop < 2 ^ 64 := by
  cases isTrans <;> decide

theorem gvaWindow_apart : (gvaWindow false).stop ≤ (gvaWindow true).start := by decide

variable {soc} {r : Reservation}

theorem Proper.global_bounds (h : Proper soc r) (hpos : 0 < r.size) :
    r.gva ≠ 0 ∧ r.gva + r.size < 2 ^ 64 := by
  have hwithin := h.globalWithin hpos
  have hgvm := gvmWindow_bounds soc
  have hgva := gvaWindow_bounds r.isTrans
  simp only [globalWindow, globalRange] at hwithin
  split at hwithin <;> omega

theorem Proper.local_bounds (h : Proper soc r) (hpos : 0 < r.localSize) :
    r.lva ≠ 0 ∧ r.lva + r.localSize < 2 ^ 64 := by
  have hwithin := h.localWithin hpos
  have hgvm := gvmWindow_bounds soc
  simp only [localRange] at hwithin
  omega

/-- A range that reaches into a window of addresses of 56 bits is inside of it. -/
theorem Proper.within_of_mem (h : Proper soc r) {isTrans : Bool} {x : Nat} (hx : x ∈ r.globalRange)
    (hge : (gvaWindow isTrans).start ≤ x) (hlt : x < (gvaWindow isTrans).stop) :
    (gvaWindow isTrans).start ≤ r.gva ∧ r.gva + r.size ≤ (gvaWindow isTrans).stop := by
  rw [mem_globalRange] at hx
  have hwithin := h.globalWithin (show 0 < r.size by omega)
  have hgvm := gvmWindow_bounds soc
  have hgva := gvaWindow_bounds isTrans
  have hapart := gvaWindow_apart
  simp only [globalWindow, globalRange] at hwithin
  split at hwithin
  · cases hb : isTrans <;> cases hb' : r.isTrans <;> simp only [hb, hb'] at * <;> omega
  · omega

end

namespace Reserved

variable {s : ReservedVas} {live : List Reservation} {r r' : Reservation} {size p : Nat}

theorem shows_globals (h : Reserved s live) (isTrans : Bool) :
    s.Shows hvmGva (gvaWindow isTrans) (live.map globalRange) where
  noWrap := (gvaWindow_bounds isTrans).2.2
  inside it hit hge hlt := by
    obtain ⟨r, hr, hpos, rfl⟩ := (h.represents.globals it).mp hit
    have hproper := h.proper r hr
    have hsize : r.globalEntry.2.size = r.size := hproper.size_eq hpos
    have hfirst : r.gva ∈ r.globalRange := mem_globalRange.mpr (by omega)
    refine ⟨by omega, ?_, ?_⟩
    · rw [hsize]
      exact (hproper.within_of_mem hfirst hge hlt).2
    · rw [hsize]
      exact mem_map.mpr ⟨r, hr, rfl⟩
  outside e he := by
    obtain ⟨r, hr, rfl⟩ := mem_map.mp he
    by_cases hin : 0 < r.size ∧ (gvaWindow isTrans).start ≤ r.gva ∧ r.gva < (gvaWindow isTrans).stop
    · refine .inl ⟨r.globalEntry, (h.represents.globals _).mpr ⟨r, hr, hin.1, rfl⟩, hin.2.1,
        hin.2.2, ?_⟩
      have hsize : r.globalEntry.2.size = r.size := (h.proper r hr).size_eq hin.1
      rw [hsize]
      rfl
    · refine .inr fun x hx hxin => ?_
      have hwithin := (h.proper r hr).within_of_mem hx hxin.1 hxin.2
      rw [mem_globalRange] at hx
      omega

theorem shows_locals (h : Reserved s live) :
    s.Shows hvmDva (gvmWindow s.soc) (live.map localRange) where
  noWrap := by
    have hgvm := gvmWindow_bounds s.soc
    omega
  inside it hit hge hlt := by
    have hgvm := gvmWindow_bounds s.soc
    have hpos : 0 < it.2.size := by
      by_contra hzero
      have hempty := h.represents.empty it hit (by omega)
      omega
    obtain ⟨r, hr, rfl⟩ := (h.represents.locals it hpos).mp hit
    refine ⟨hpos, ((h.proper r hr).localWithin hpos).2, ?_⟩
    exact mem_map.mpr ⟨r, hr, rfl⟩
  outside e he := by
    obtain ⟨r, hr, rfl⟩ := mem_map.mp he
    by_cases hpos : 0 < r.localSize
    · have hwithin := (h.proper r hr).localWithin hpos
      change (gvmWindow s.soc).start ≤ r.lva ∧ r.lva + r.localSize ≤ _ at hwithin
      refine .inl ⟨r.localEntry, (h.represents.locals _ hpos).mpr ⟨r, hr, rfl⟩, hwithin.1, ?_, rfl⟩
      change r.lva < _
      omega
    · refine .inr fun x hx => ?_
      rw [mem_localRange] at hx
      omega

/-! ## Requests -/

/-- The addresses of a reservation can be found. -/
structure Possible (soc : AscendSocType) (live : List Reservation) (size localSize : Nat)
    (enable56BitsGva isTrans : Bool) : Prop where
  pos : 0 < size
  locals : 0 < localSize →
    ∃ p, FreeGap (gvmWindow soc) (live.map localRange) localSize p
  globals : enable56BitsGva = true →
    ∃ p, FreeGap (gvaWindow isTrans) (live.map globalRange) size p

theorem allocReserveLvaInner_cases (h : Reserved s live) (hsize : 0 < size) :
    LowestGap (gvmWindow s.soc) (live.map localRange) size
        (s.allocReserveLvaInner size hvmDva) ∧ s.allocReserveLvaInner size hvmDva ≠ 0 ∨
      (∀ p, ¬ FreeGap (gvmWindow s.soc) (live.map localRange) size p) ∧
        s.allocReserveLvaInner size hvmDva = 0 := by
  have hwindow := gvmWindow_bounds s.soc
  unfold ReservedVas.allocReserveLvaInner
  rw [if_neg hsize.ne']
  split
  · refine .inr ⟨fun p hp => ?_, rfl⟩
    have hstart := hp.start_le
    have hstop := hp.le_stop
    omega
  · cases hfound : s.findFreeSpace (gvmWindow s.soc).start (gvmWindow s.soc).stop size hvmDva with
    | none => exact .inr ⟨h.shows_locals.findFreeSpace_none hfound, rfl⟩
    | some p =>
      have hlowest := h.shows_locals.findFreeSpace_some hfound
      have hstart := hlowest.1.start_le
      refine .inl ⟨hlowest, ?_⟩
      change p ≠ 0
      omega

theorem findGva_cases (h : Reserved s live) (size : Nat) (isTrans : Bool) (lva : Nat) :
    (∃ gva, s.findGva size lva true isTrans = some gva ∧
        LowestGap (gvaWindow isTrans) (live.map globalRange) size gva) ∨
      s.findGva size lva true isTrans = none ∧
        ∀ p, ¬ FreeGap (gvaWindow isTrans) (live.map globalRange) size p := by
  unfold ReservedVas.findGva
  rw [if_pos rfl]
  dsimp only
  split
  · refine .inr ⟨rfl, fun p hp => ?_⟩
    have hstart := hp.start_le
    have hstop := hp.le_stop
    omega
  · cases hfound :
      s.findFreeSpace (gvaWindow isTrans).start (gvaWindow isTrans).stop size hvmGva with
    | none => exact .inr ⟨rfl, (h.shows_globals isTrans).findFreeSpace_none hfound⟩
    | some p => exact .inl ⟨p, rfl, (h.shows_globals isTrans).findFreeSpace_some hfound⟩

/-- The addresses of a new reservation. -/
structure Placed (soc : AscendSocType) (live : List Reservation) (r : Reservation) : Prop where
  size_eq : 0 < r.size → r.info.size = r.size
  notEmpty : r.size = 0 → 0 < r.localSize
  locals : 0 < r.localSize →
    LowestGap (gvmWindow soc) (live.map localRange) r.localSize r.lva
  lva_eq_zero : r.localSize = 0 → r.lva = 0
  globals : r.enable56BitsGva = true → 0 < r.size →
    LowestGap (gvaWindow r.isTrans) (live.map globalRange) r.size r.gva
  equal : r.enable56BitsGva = false → 0 < r.size → r.gva = r.lva ∧ r.size = r.localSize

theorem Placed.proper {soc : AscendSocType} (h : Placed soc live r) : Proper soc r where
  size_eq := h.size_eq
  notEmpty := h.notEmpty
  lva_eq_zero := h.lva_eq_zero
  equal := h.equal
  globalWithin hpos := by
    change 0 < r.size at hpos
    unfold globalWindow
    split
    · next h56 =>
      have hgap := (h.globals h56 hpos).1
      exact ⟨hgap.start_le, hgap.le_stop⟩
    · next h56 =>
      obtain ⟨hva, hsize⟩ := h.equal (Bool.not_eq_true _ ▸ h56) hpos
      have hgap := (h.locals (by omega)).1
      unfold globalRange
      rw [hva, hsize]
      exact ⟨hgap.start_le, hgap.le_stop⟩
  localWithin hpos := by
    have hgap := (h.locals hpos).1
    exact ⟨hgap.start_le, hgap.le_stop⟩

theorem Placed.distinct (h : Placed s.soc live r) (hs : Reserved s live) (hr' : r' ∈ live) :
    Distinct r r' := by
  have hlocal : ¬ r.localRange.Meets r'.localRange := by
    rintro ⟨x, hx, hx'⟩
    have hpos : 0 < r.localSize := by
      rw [mem_localRange] at hx
      omega
    exact (h.locals hpos).1.free _ (mem_map.mpr ⟨r', hr', rfl⟩) ⟨x, hx', hx⟩
  refine ⟨?_, hlocal⟩
  rintro ⟨x, hx, hx'⟩
  have hx1 := mem_globalRange.mp hx
  have hx2 := mem_globalRange.mp hx'
  have hpos : 0 < r.size := by omega
  have hpos' : 0 < r'.size := by omega
  cases h56 : r.enable56BitsGva with
  | true => exact (h.globals h56 hpos).1.free _ (mem_map.mpr ⟨r', hr', rfl⟩) ⟨x, hx', hx⟩
  | false =>
    obtain ⟨hva, hsize⟩ := h.equal h56 hpos
    cases h56' : r'.enable56BitsGva with
    | true =>
      -- the other range is in another window
      have hin := h.proper.globalWithin hpos
      have hin' := (hs.proper r' hr').globalWithin hpos'
      simp only [globalWindow, h56, h56', globalRange, if_true,
        Bool.false_eq_true, if_false] at hin hin'
      have hgvm := gvmWindow_bounds s.soc
      have hgva := gvaWindow_bounds r'.isTrans
      omega
    | false =>
      -- both ranges are those of the device addresses
      obtain ⟨hva', hsize'⟩ := (hs.proper r' hr').equal h56' hpos'
      refine hlocal ⟨x, ?_, ?_⟩
      · rw [mem_localRange]
        omega
      · rw [mem_localRange]
        omega

/-! ## Changes of the maps -/

variable {type i : Fin hvmButt} {it : Nat × ReservedGvaInfo}

theorem mem_set {e : Nat × ReservedGvaInfo} :
    it ∈ (s.set type e).reservedMap i ↔
      if i = type then it = e ∨ it ∈ s.reservedMap i ∧ it.1 ≠ e.1 else it ∈ s.reservedMap i := by
  unfold ReservedVas.set
  dsimp only
  split
  · exact mem_assign
  · exact Iff.rfl

theorem mem_erase {addr : Nat} :
    it ∈ (s.erase type addr).reservedMap i ↔
      if i = type then it ∈ s.reservedMap i ∧ it.1 ≠ addr else it ∈ s.reservedMap i := by
  unfold ReservedVas.erase
  dsimp only
  split
  · exact Ordered.mem_erase
  · exact Iff.rfl

theorem gva_ne (h : Distinct r r') (hpos : 0 < r.size) (hpos' : 0 < r'.size) : r'.gva ≠ r.gva := by
  intro heq
  refine h.1 ⟨r.gva, ?_, ?_⟩
  · rw [mem_globalRange]
    omega
  · rw [mem_globalRange]
    omega

theorem lva_ne (h : Distinct r r') (hpos : 0 < r.localSize) (hpos' : 0 < r'.localSize) :
    r'.lva ≠ r.lva := by
  intro heq
  refine h.2 ⟨r.lva, ?_, ?_⟩
  · rw [mem_localRange]
    omega
  · rw [mem_localRange]
    omega

def enter (s : ReservedVas) (r : Reservation) : ReservedVas :=
  (if 0 < r.size then s.set hvmGva r.globalEntry else s).set hvmDva r.localEntry

theorem mem_enter_globals :
    it ∈ (enter s r).reservedMap hvmGva ↔
      0 < r.size ∧ it = r.globalEntry ∨
        it ∈ s.reservedMap hvmGva ∧ (0 < r.size → it.1 ≠ r.gva) := by
  rw [enter, mem_set, if_neg (by decide)]
  split
  · next hpos => simp [mem_set, hpos, globalEntry]
  · next hpos => simp [hpos]

theorem mem_enter_locals :
    it ∈ (enter s r).reservedMap hvmDva ↔
      it = r.localEntry ∨ it ∈ s.reservedMap hvmDva ∧ it.1 ≠ r.lva := by
  rw [enter, mem_set, if_pos rfl]
  split
  · rfl
  · exact Iff.rfl

theorem enter_soc : (enter s r).soc = s.soc := by
  unfold enter
  split <;> rfl

theorem enter_hosts : (enter s r).reservedMap hvmHva = s.reservedMap hvmHva := by
  refine ext fun it => ?_
  rw [enter, mem_set, if_neg (by decide)]
  split
  · rw [mem_set, if_neg (by decide)]
  · exact Iff.rfl

theorem cons (h : Reserved s live) (hr : Placed s.soc live r) :
    Reserved (enter s r) (r :: live) := by
  have hdistinct : ∀ r' ∈ live, Distinct r r' := fun r' hr' => hr.distinct h hr'
  refine ⟨⟨fun it => ?_, fun it hsize => ?_, fun it hit hsize => ?_, ?_⟩,
    .cons hdistinct h.distinct, fun r' hr' => ?_⟩
  · rw [mem_enter_globals, h.represents.globals]
    constructor
    · rintro (⟨hpos, rfl⟩ | ⟨⟨r', hr', hpos', rfl⟩, -⟩)
      · exact ⟨r, mem_cons_self, hpos, rfl⟩
      · exact ⟨r', mem_cons_of_mem _ hr', hpos', rfl⟩
    · rintro ⟨r', hr', hpos', rfl⟩
      rcases mem_cons.mp hr' with rfl | hr'
      · exact .inl ⟨hpos', rfl⟩
      · exact .inr ⟨⟨r', hr', hpos', rfl⟩, fun hpos => gva_ne (hdistinct r' hr') hpos hpos'⟩
  · rw [mem_enter_locals, h.represents.locals it hsize]
    constructor
    · rintro (rfl | ⟨⟨r', hr', rfl⟩, -⟩)
      · exact ⟨r, mem_cons_self, rfl⟩
      · exact ⟨r', mem_cons_of_mem _ hr', rfl⟩
    · rintro ⟨r', hr', rfl⟩
      rcases mem_cons.mp hr' with rfl | hr'
      · exact .inl rfl
      · refine .inr ⟨⟨r', hr', rfl⟩, ?_⟩
        by_cases hpos : 0 < r.localSize
        · exact lva_ne (hdistinct r' hr') hpos hsize
        · rw [hr.lva_eq_zero (by omega)]
          exact ((h.proper r' hr').local_bounds hsize).1
  · rcases mem_enter_locals.mp hit with rfl | ⟨hit, -⟩
    · have hzero := hr.lva_eq_zero hsize
      exact ⟨hzero, hzero⟩
    · exact h.represents.empty it hit hsize
  · rw [enter_hosts]
    exact h.represents.hosts
  · rw [enter_soc]
    rcases mem_cons.mp hr' with rfl | hr'
    · exact hr.proper
    · exact h.proper r' hr'

def dropped (live : List Reservation) (r : Reservation) : List Reservation :=
  live.filter fun r' => decide (r' ≠ r)

theorem mem_dropped : r' ∈ dropped live r ↔ r' ∈ live ∧ r' ≠ r := by
  rw [dropped, mem_filter, decide_eq_true_eq]

def leave (s : ReservedVas) (r : Reservation) : ReservedVas :=
  let s := if 0 < r.localSize then s.erase hvmDva r.lva else s
  if 0 < r.size then s.erase hvmGva r.gva else s

theorem gva_ne_dva : hvmGva ≠ hvmDva := by decide

theorem hva_ne_gva : hvmHva ≠ hvmGva := by decide

theorem hva_ne_dva : hvmHva ≠ hvmDva := by decide

theorem mem_leave_globals :
    it ∈ (leave s r).reservedMap hvmGva ↔
      it ∈ s.reservedMap hvmGva ∧ (0 < r.size → it.1 ≠ r.gva) := by
  unfold leave
  split <;> split <;> simp only [mem_erase, gva_ne_dva, if_true, if_false, *, forall_const,
    false_imp_iff, and_true]

theorem mem_leave_locals :
    it ∈ (leave s r).reservedMap hvmDva ↔
      it ∈ s.reservedMap hvmDva ∧ (0 < r.localSize → it.1 ≠ r.lva) := by
  unfold leave
  split <;> split <;> simp only [mem_erase, gva_ne_dva.symm, if_true, if_false, *, forall_const,
    false_imp_iff, and_true]

theorem leave_soc : (leave s r).soc = s.soc := by
  unfold leave
  split <;> split <;> rfl

theorem leave_hosts : (leave s r).reservedMap hvmHva = s.reservedMap hvmHva := by
  refine ext fun it => ?_
  unfold leave
  split <;> split <;> simp only [mem_erase, hva_ne_gva, hva_ne_dva, if_false]

theorem drop (h : Reserved s live) (hr : r ∈ live) : Reserved (leave s r) (dropped live r) := by
  have hdistinct : ∀ r' ∈ live, r' ≠ r → Distinct r r' :=
    fun r' hr' hne => h.distinct.forall hr hr' hne.symm
  refine ⟨⟨fun it => ?_, fun it hsize => ?_, fun it hit hsize => ?_, ?_⟩,
    h.distinct.filter _, fun r' hr' => ?_⟩
  · rw [mem_leave_globals, h.represents.globals]
    constructor
    · rintro ⟨⟨r', hr', hpos', rfl⟩, hne⟩
      refine ⟨r', mem_dropped.mpr ⟨hr', ?_⟩, hpos', rfl⟩
      rintro rfl
      exact hne hpos' rfl
    · rintro ⟨r', hr', hpos', rfl⟩
      obtain ⟨hr', hne⟩ := mem_dropped.mp hr'
      exact ⟨⟨r', hr', hpos', rfl⟩, fun hpos => gva_ne (hdistinct r' hr' hne) hpos hpos'⟩
  · rw [mem_leave_locals, h.represents.locals it hsize]
    constructor
    · rintro ⟨⟨r', hr', rfl⟩, hne⟩
      refine ⟨r', mem_dropped.mpr ⟨hr', ?_⟩, rfl⟩
      rintro rfl
      exact hne hsize rfl
    · rintro ⟨r', hr', rfl⟩
      obtain ⟨hr', hne⟩ := mem_dropped.mp hr'
      exact ⟨⟨r', hr', rfl⟩, fun hpos => lva_ne (hdistinct r' hr' hne) hpos hsize⟩
  · exact h.represents.empty it (mem_leave_locals.mp hit).1 hsize
  · rw [leave_hosts]
    exact h.represents.hosts
  · rw [leave_soc]
    exact h.proper r' (mem_dropped.mp hr').1

end Reserved

end MemFabric.Hybm
