import Mathlib.Algebra.Order.Group.Nat
import Mathlib.Algebra.BigOperators.Group.Finset.Basic
import Mathlib.Algebra.GroupWithZero.Nat
import Mathlib.Order.Interval.Finset.Nat

/-!
# Divided space

A space `[0, size)` that is divided into extents, some idle and some used.  No two idle
extents are adjacent, and all extents are aligned.  The operations of an allocator are
composed of a few changes that keep this: an idle extent is claimed, the end of a used one
is split off, a used one absorbs an idle neighbour, and a used one without idle neighbours
becomes idle.
-/

namespace MemFabric.Machine

open Finset

structure Extent where
  offset : Nat
  size : Nat
deriving DecidableEq, Repr

namespace Extent

def stop (e : Extent) : Nat := e.offset + e.size

instance : Membership Nat Extent := ⟨fun e x => e.offset ≤ x ∧ x < e.stop⟩

theorem mem_iff {e : Extent} {x : Nat} : x ∈ e ↔ e.offset ≤ x ∧ x < e.offset + e.size := Iff.rfl

def join (e f : Extent) : Extent := ⟨e.offset, e.size + f.size⟩

def front (e : Extent) (a : Nat) : Extent := ⟨e.offset, a⟩

def rest (e : Extent) (a : Nat) : Extent := ⟨e.offset + a, e.size - a⟩

end Extent

open Extent

/-! ## Tilings -/

/-- The extents are not empty, do not overlap, and fill the space. -/
structure Tiling (size : Nat) (tiles : Set Extent) : Prop where
  pos : ∀ e ∈ tiles, 0 < e.size
  unique : ∀ e ∈ tiles, ∀ f ∈ tiles, ∀ x, x ∈ e → x ∈ f → e = f
  covers : ∀ x, x < size ↔ ∃ e ∈ tiles, x ∈ e

namespace Tiling

variable {size : Nat} {tiles : Set Extent} {e f : Extent}

variable (h : Tiling size tiles)

include h

section

variable (he : e ∈ tiles)

include he

theorem offset_mem : e.offset ∈ e := by
  have := h.pos e he
  rw [mem_iff]
  omega

theorem last_mem : e.stop - 1 ∈ e := by
  have := h.pos e he
  rw [mem_iff, stop]
  omega

theorem stop_le : e.stop ≤ size := by
  have hlast : e.stop - 1 < size := (h.covers _).mpr ⟨e, he, h.last_mem he⟩
  omega

theorem eq_of_offset (hf : f ∈ tiles) (heq : e.offset = f.offset) : e = f :=
  h.unique e he f hf e.offset (h.offset_mem he) (heq ▸ h.offset_mem hf)

theorem stop_le_offset (hf : f ∈ tiles) (hlt : e.offset < f.offset) : e.stop ≤ f.offset := by
  by_contra hcon
  have hmem : f.offset ∈ e := ⟨hlt.le, not_le.mp hcon⟩
  have heq := h.unique e he f hf _ hmem (h.offset_mem hf)
  rw [heq] at hlt
  exact lt_irrefl _ hlt

theorem exists_offset_eq_stop (hlt : e.stop < size) :
    ∃ f ∈ tiles, f.offset = e.stop := by
  obtain ⟨f, hf, hmem⟩ := (h.covers _).mp hlt
  refine ⟨f, hf, ?_⟩
  rcases Nat.lt_trichotomy e.offset f.offset with hlt | heq | hlt
  · exact Nat.le_antisymm hmem.1 (h.stop_le_offset he hf hlt)
  · have heq := h.eq_of_offset he hf heq
    rw [← heq] at hmem
    exact absurd hmem.2 (lt_irrefl _)
  · have hle := h.stop_le_offset hf he hlt
    have hlt := hmem.2
    simp only [stop] at hle hlt
    omega

end

/-- Some extents are replaced by others that fill the same space. -/
theorem replace {old new : Set Extent} (hold : old ⊆ tiles) (hpos : ∀ e ∈ new, 0 < e.size)
    (hunique : ∀ e ∈ new, ∀ f ∈ new, ∀ x, x ∈ e → x ∈ f → e = f)
    (hcovers : ∀ x, (∃ e ∈ new, x ∈ e) ↔ ∃ e ∈ old, x ∈ e) : Tiling size (new ∪ tiles \ old) := by
  -- a new extent and one that stays have no address in common
  have hapart : ∀ e ∈ new, ∀ f ∈ tiles \ old, ∀ x, x ∈ e → x ∉ f := by
    intro e he f hf x hxe hxf
    obtain ⟨e', he', hxe'⟩ := (hcovers x).mp ⟨e, he, hxe⟩
    rw [h.unique e' (hold he') f hf.1 x hxe' hxf] at he'
    exact hf.2 he'
  refine ⟨?_, ?_, fun x => ?_⟩
  · rintro e (he | he)
    · exact hpos e he
    · exact h.pos e he.1
  · rintro e (he | he) f (hf | hf) x hxe hxf
    · exact hunique e he f hf x hxe hxf
    · exact absurd hxf (hapart e he f hf x hxe)
    · exact absurd hxe (hapart f hf e he x hxf)
    · exact h.unique e he.1 f hf.1 x hxe hxf
  · rw [h.covers]
    constructor
    · rintro ⟨e, he, hxe⟩
      by_cases hmem : e ∈ old
      · obtain ⟨f, hf, hxf⟩ := (hcovers x).mpr ⟨e, hmem, hxe⟩
        exact ⟨f, .inl hf, hxf⟩
      · exact ⟨e, .inr ⟨he, hmem⟩, hxe⟩
    · rintro ⟨e, he | he, hxe⟩
      · obtain ⟨f, hf, hxf⟩ := (hcovers x).mp ⟨e, he, hxe⟩
        exact ⟨f, hold hf, hxf⟩
      · exact ⟨e, he.1, hxe⟩

theorem split (he : e ∈ tiles) {a : Nat} (ha : 0 < a) (hlt : a < e.size) :
    Tiling size ({e.front a, e.rest a} ∪ tiles \ {e}) := by
  refine h.replace (Set.singleton_subset_iff.mpr he) ?_ ?_ fun x => ?_
  · rintro f (rfl | rfl)
    · exact ha
    · exact Nat.sub_pos_of_lt hlt
  · rintro f (rfl | rfl) g (rfl | rfl) x hxf hxg
    all_goals
      simp only [mem_iff, front, rest] at hxf hxg
      first
      | rfl
      | omega
  · simp only [Set.mem_insert_iff, Set.mem_singleton_iff, exists_eq_or_imp, exists_eq_left,
      mem_iff, front, rest]
    omega

theorem merge (he : e ∈ tiles) (hf : f ∈ tiles)
    (hadj : e.stop = f.offset) : Tiling size ({e.join f} ∪ tiles \ {e, f}) := by
  have hpos := h.pos e he
  refine h.replace (Set.insert_subset he (Set.singleton_subset_iff.mpr hf)) ?_ ?_ fun x => ?_
  · rintro g rfl
    exact Nat.add_pos_left hpos _
  · rintro g rfl g' rfl x - -
    rfl
  · rw [stop] at hadj
    simp only [Set.mem_insert_iff, Set.mem_singleton_iff, exists_eq_or_imp, exists_eq_left,
      mem_iff, join]
    omega

theorem eq_singleton (hsize : 0 < size)
    (hcoalesced : ∀ e ∈ tiles, ∀ f ∈ tiles, e.stop ≠ f.offset) : tiles = {⟨0, size⟩} := by
  obtain ⟨e, he, hmem⟩ := (h.covers 0).mp hsize
  have hoffset : e.offset = 0 := Nat.le_zero.mp hmem.1
  have hstop : e.stop = size := by
    refine Nat.le_antisymm (h.stop_le he) (not_lt.mp fun hlt => ?_)
    obtain ⟨f, hf, hadj⟩ := h.exists_offset_eq_stop he hlt
    exact hcoalesced e he f hf hadj.symm
  have heq : e = ⟨0, size⟩ := by
    rw [stop, hoffset, Nat.zero_add] at hstop
    cases e
    cases hoffset
    cases hstop
    rfl
  refine Set.eq_singleton_iff_unique_mem.mpr ⟨heq ▸ he, fun f hf => ?_⟩
  have hlt : f.offset < size := (h.covers _).mpr ⟨f, hf, h.offset_mem hf⟩
  rw [← heq]
  refine (h.unique e he f hf f.offset ?_ (h.offset_mem hf)).symm
  rw [mem_iff, ← stop, hstop, hoffset]
  exact ⟨Nat.zero_le _, hlt⟩

/-- The sizes of some of the extents add up to the number of their addresses. -/
theorem sum_size_eq_card {l : List Extent} (hnodup : l.Nodup) (hl : ∀ e ∈ l, e ∈ tiles) :
    (l.map Extent.size).sum = (l.toFinset.biUnion fun e => Ico e.offset e.stop).card := by
  have hapart : (l.toFinset : Set Extent).PairwiseDisjoint fun e => Ico e.offset e.stop := by
    intro e he f hf hne
    refine disjoint_left.mpr fun x hxe hxf => hne ?_
    exact h.unique e (hl e (List.mem_toFinset.mp he)) f (hl f (List.mem_toFinset.mp hf)) x
      (mem_Ico.mp hxe) (mem_Ico.mp hxf)
  have hcard : ∀ e ∈ l.toFinset, (Ico e.offset e.stop).card = e.size := by
    intro e _
    rw [Nat.card_Ico, stop, Nat.add_sub_cancel_left]
  rw [card_biUnion hapart, sum_congr rfl hcard, List.sum_toFinset _ hnodup]

theorem sum_size_le {l : List Extent} (hnodup : l.Nodup)
    (hl : ∀ e ∈ l, e ∈ tiles) : (l.map Extent.size).sum ≤ size := by
  rw [h.sum_size_eq_card hnodup hl, ← card_range size]
  refine card_le_card (biUnion_subset.mpr fun e he x hx => ?_)
  have hmem : x ∈ e := mem_Ico.mp hx
  exact mem_range.mpr ((h.covers x).mpr ⟨e, hl e (List.mem_toFinset.mp he), hmem⟩)

theorem sum_size {l : List Extent} (hnodup : l.Nodup)
    (hl : ∀ e, e ∈ l ↔ e ∈ tiles) : (l.map Extent.size).sum = size := by
  have hunion : l.toFinset.biUnion (fun e => Ico e.offset e.stop) = range size := by
    ext x
    rw [mem_biUnion, mem_range, h.covers]
    refine exists_congr fun e => and_congr (List.mem_toFinset.trans (hl e)) mem_Ico
  rw [h.sum_size_eq_card hnodup fun e => (hl e).mp, hunion, card_range]

end Tiling

/-! ## Pools -/

/-- A space of `size` addresses that is divided into idle and used extents, all of them
aligned to `unit`. -/
structure Pool (size unit : Nat) where
  idle : Set Extent
  used : Set Extent
  tiling : Tiling size (idle ∪ used)
  disjoint : ∀ e ∈ idle, e ∉ used
  coalesced : ∀ e ∈ idle, ∀ f ∈ idle, e.stop ≠ f.offset
  aligned : ∀ e ∈ idle ∪ used, unit ∣ e.offset ∧ unit ∣ e.size

namespace Pool

variable {size unit : Nat}

def start (hsize : 0 < size) (hunit : unit ∣ size) : Pool size unit where
  idle := {⟨0, size⟩}
  used := ∅
  tiling := by
    rw [Set.union_empty]
    refine ⟨?_, ?_, fun x => ?_⟩
    · rintro e rfl
      exact hsize
    · rintro e rfl f rfl x - -
      rfl
    · simp [mem_iff]
  disjoint := fun e _ => Set.notMem_empty e
  coalesced := by
    rintro e rfl f rfl
    simp [stop, hsize.ne']
  aligned := by
    rw [Set.union_empty]
    rintro e rfl
    exact ⟨Nat.dvd_zero unit, hunit⟩

variable (p : Pool size unit) {e f : Extent}

def claim (he : e ∈ p.idle) : Pool size unit where
  idle := p.idle \ {e}
  used := insert e p.used
  tiling := by
    have heq : p.idle \ {e} ∪ insert e p.used = p.idle ∪ p.used := by
      rw [Set.union_insert, ← Set.insert_union, Set.insert_sdiff_singleton, Set.insert_eq_of_mem he]
    exact heq ▸ p.tiling
  disjoint := by
    rintro f ⟨hf, hne⟩ (rfl | hmem)
    · exact hne rfl
    · exact p.disjoint f hf hmem
  coalesced := fun f hf g hg => p.coalesced f hf.1 g hg.1
  aligned := by
    rintro f (hf | rfl | hf)
    · exact p.aligned f (.inl hf.1)
    · exact p.aligned f (.inl he)
    · exact p.aligned f (.inr hf)

/-- A used extent that shares an address with a tile is that tile. -/
theorem eq_of_mem_used (he : e ∈ p.used) (hf : f ∈ p.idle ∪ p.used) {x : Nat} (hxe : x ∈ e)
    (hxf : x ∈ f) : f = e :=
  p.tiling.unique f hf e (.inr he) x hxf hxe

theorem notMem_of_mem_used (he : e ∈ p.used) (hf : f ∈ p.idle) {x : Nat} (hxe : x ∈ e) : x ∉ f :=
  fun hxf => p.disjoint f hf (p.eq_of_mem_used he (.inl hf) hxe hxf ▸ he)

theorem offset_ne_of_mem_used (he : e ∈ p.used) (hf : f ∈ p.idle) : f.offset ≠ e.offset :=
  fun heq => p.disjoint f hf (p.tiling.eq_of_offset (.inl hf) (.inr he) heq ▸ he)

section

variable (he : e ∈ p.used) {x y : Extent}

include he

/-! A used extent is replaced by two parts of it, of which the first becomes idle. -/

theorem parts_union : insert x p.idle ∪ insert y (p.used \ {e}) =
    {x, y} ∪ (p.idle ∪ p.used) \ {e} := by
  have hidle : p.idle \ {e} = p.idle :=
    Set.sdiff_singleton_eq_self fun hmem => p.disjoint e hmem he
  rw [Set.union_sdiff_distrib, hidle, Set.insert_union, Set.union_insert, Set.insert_union,
    Set.singleton_union]

theorem parts_disjoint {v w : Nat} (hne : x ≠ y) (hv : v ∈ x ∧ v ∈ e) (hw : w ∈ y ∧ w ∈ e) :
    ∀ f ∈ insert x p.idle, f ∉ insert y (p.used \ {e}) := by
  rintro f (rfl | hf) (rfl | ⟨hused, hnot⟩)
  · exact hne rfl
  · exact hnot (p.eq_of_mem_used he (.inr hused) hv.2 hv.1)
  · exact p.notMem_of_mem_used he hf hw.2 hw.1
  · exact p.disjoint f hf hused

omit he in
theorem parts_aligned (hx : unit ∣ x.offset ∧ unit ∣ x.size)
    (hy : unit ∣ y.offset ∧ unit ∣ y.size) :
    ∀ f ∈ insert x p.idle ∪ insert y (p.used \ {e}), unit ∣ f.offset ∧ unit ∣ f.size := by
  rintro f ((rfl | hf) | rfl | hf)
  · exact hx
  · exact p.aligned f (.inl hf)
  · exact hy
  · exact p.aligned f (.inr hf.1)

variable {a : Nat}

theorem front_aligned (hunit : unit ∣ a) : unit ∣ (e.front a).offset ∧ unit ∣ (e.front a).size :=
  ⟨(p.aligned e (.inr he)).1, hunit⟩

theorem rest_aligned (hunit : unit ∣ a) : unit ∣ (e.rest a).offset ∧ unit ∣ (e.rest a).size :=
  ⟨Nat.dvd_add (p.aligned e (.inr he)).1 hunit, Nat.dvd_sub (p.aligned e (.inr he)).2 hunit⟩

end

theorem offset_mem_parts {a : Nat} (ha : 0 < a) (hlt : a < e.size) :
    (e.offset ∈ e.front a ∧ e.offset ∈ e) ∧ e.offset + a ∈ e.rest a ∧ e.offset + a ∈ e := by
  simp only [mem_iff, front, rest]
  omega

theorem front_ne_rest {a : Nat} (ha : 0 < a) : e.front a ≠ e.rest a := by
  intro h
  have hoffset := congrArg offset h
  simp only [front, rest] at hoffset
  omega

/-- The end of a used extent becomes idle. -/
def trim (he : e ∈ p.used) {a : Nat} (ha : 0 < a) (hlt : a < e.size) (hunit : unit ∣ a)
    (hnext : ∀ f ∈ p.idle, e.stop ≠ f.offset) : Pool size unit where
  idle := insert (e.rest a) p.idle
  used := insert (e.front a) (p.used \ {e})
  tiling := by
    rw [p.parts_union he, Set.pair_comm]
    exact p.tiling.split (.inr he) ha hlt
  disjoint := p.parts_disjoint he (front_ne_rest ha).symm (offset_mem_parts ha hlt).2
    (offset_mem_parts ha hlt).1
  coalesced := by
    have hstop : (e.rest a).stop = e.stop := by
      simp only [stop, rest]
      omega
    rintro f (rfl | hf) g (rfl | hg)
    · simp only [stop, rest]
      omega
    · rw [hstop]
      exact hnext g hg
    · intro hadj
      -- the last address of `f` would lie in `e`
      have hlast := p.tiling.last_mem (.inl hf)
      rw [hadj] at hlast
      refine p.notMem_of_mem_used he hf ?_ hlast
      simp only [mem_iff, rest]
      omega
    · exact p.coalesced f hf g hg
  aligned := p.parts_aligned (p.rest_aligned he hunit) (p.front_aligned he hunit)

/-- The beginning of a used extent becomes idle. -/
def trimFront (he : e ∈ p.used) {a : Nat} (ha : 0 < a) (hlt : a < e.size) (hunit : unit ∣ a)
    (hprev : ∀ f ∈ p.idle, f.stop ≠ e.offset) : Pool size unit where
  idle := insert (e.front a) p.idle
  used := insert (e.rest a) (p.used \ {e})
  tiling := by
    rw [p.parts_union he]
    exact p.tiling.split (.inr he) ha hlt
  disjoint := p.parts_disjoint he (front_ne_rest ha) (offset_mem_parts ha hlt).1
    (offset_mem_parts ha hlt).2
  coalesced := by
    rintro f (rfl | hf) g (rfl | hg)
    · simp only [stop, front]
      omega
    · intro hadj
      -- the first address of `g` would lie in `e`
      refine p.notMem_of_mem_used he hg ?_ (p.tiling.offset_mem (.inl hg))
      rw [← hadj]
      simp only [mem_iff, stop, front]
      omega
    · exact hprev f hf
    · exact p.coalesced f hf g hg
  aligned := p.parts_aligned (p.front_aligned he hunit) (p.rest_aligned he hunit)

/-- A used extent becomes two. -/
def cut (he : e ∈ p.used) {a : Nat} (ha : 0 < a) (hlt : a < e.size) (hunit : unit ∣ a) :
    Pool size unit where
  idle := p.idle
  used := {e.front a, e.rest a} ∪ p.used \ {e}
  tiling := by
    have heq : p.idle ∪ ({e.front a, e.rest a} ∪ p.used \ {e}) =
        {e.front a, e.rest a} ∪ (p.idle ∪ p.used) \ {e} := by
      have hidle : p.idle \ {e} = p.idle :=
        Set.sdiff_singleton_eq_self fun hmem => p.disjoint e hmem he
      rw [Set.union_sdiff_distrib, hidle, Set.union_left_comm]
    exact heq ▸ p.tiling.split (.inr he) ha hlt
  disjoint := by
    obtain ⟨hfront, hrest⟩ := offset_mem_parts ha hlt
    rintro f hf ((rfl | rfl) | hused)
    · exact p.notMem_of_mem_used he hf hfront.2 hfront.1
    · exact p.notMem_of_mem_used he hf hrest.2 hrest.1
    · exact p.disjoint f hf hused.1
  coalesced := p.coalesced
  aligned := by
    rintro f (hf | (rfl | rfl) | hf)
    · exact p.aligned f (.inl hf)
    · exact p.front_aligned he hunit
    · exact p.rest_aligned he hunit
    · exact p.aligned f (.inr hf.1)

/-- A used extent grows into an idle neighbour. -/
def absorb (he : e ∈ p.used) (hf : f ∈ p.idle) {g : Extent}
    (htiling : Tiling size ({g} ∪ (p.idle ∪ p.used) \ {e, f})) (hmem : e.offset ∈ g)
    (hunit : unit ∣ g.offset ∧ unit ∣ g.size) : Pool size unit where
  idle := p.idle \ {f}
  used := insert g (p.used \ {e})
  tiling := by
    have heq : p.idle \ {f} ∪ insert g (p.used \ {e}) = {g} ∪ (p.idle ∪ p.used) \ {e, f} := by
      have hidle : p.idle \ {e, f} = p.idle \ {f} := by
        rw [Set.insert_eq, ← Set.sdiff_sdiff,
          Set.sdiff_singleton_eq_self fun hmem => p.disjoint e hmem he]
      have hused : p.used \ {e, f} = p.used \ {e} := by
        rw [Set.pair_comm, Set.insert_eq, ← Set.sdiff_sdiff,
          Set.sdiff_singleton_eq_self fun hmem => p.disjoint f hf hmem]
      rw [Set.union_sdiff_distrib, hidle, hused, Set.union_insert, Set.singleton_union]
    exact heq ▸ htiling
  disjoint := by
    rintro i ⟨hi, -⟩ (rfl | ⟨hused, -⟩)
    · exact p.notMem_of_mem_used he hi (p.tiling.offset_mem (.inr he)) hmem
    · exact p.disjoint i hi hused
  coalesced := fun i hi j hj => p.coalesced i hi.1 j hj.1
  aligned := by
    rintro i (hi | rfl | hi)
    · exact p.aligned i (.inl hi.1)
    · exact hunit
    · exact p.aligned i (.inr hi.1)

def absorbLeft (he : e ∈ p.used) (hf : f ∈ p.idle) (hadj : f.stop = e.offset) : Pool size unit :=
  p.absorb he hf (g := f.join e) (Set.pair_comm e f ▸ p.tiling.merge (.inl hf) (.inr he) hadj)
    (by
      have hpos := p.tiling.pos e (.inr he)
      rw [stop] at hadj
      simp only [mem_iff, join]
      omega)
    ⟨(p.aligned f (.inl hf)).1, Nat.dvd_add (p.aligned f (.inl hf)).2 (p.aligned e (.inr he)).2⟩

def absorbRight (he : e ∈ p.used) (hf : f ∈ p.idle) (hadj : e.stop = f.offset) : Pool size unit :=
  p.absorb he hf (p.tiling.merge (.inr he) (.inl hf) hadj)
    (by
      have hpos := p.tiling.pos e (.inr he)
      simp only [mem_iff, join]
      omega)
    ⟨(p.aligned e (.inr he)).1, Nat.dvd_add (p.aligned e (.inr he)).2 (p.aligned f (.inl hf)).2⟩

def free (he : e ∈ p.used)
    (hno : ∀ f ∈ p.idle, f.stop ≠ e.offset ∧ e.stop ≠ f.offset) : Pool size unit where
  idle := insert e p.idle
  used := p.used \ {e}
  tiling := by
    have heq : insert e p.idle ∪ p.used \ {e} = p.idle ∪ p.used := by
      rw [Set.insert_union, ← Set.union_insert, Set.insert_sdiff_singleton, Set.insert_eq_of_mem he]
    exact heq ▸ p.tiling
  disjoint := by
    rintro f (rfl | hf) ⟨hused, hne⟩
    · exact hne rfl
    · exact p.disjoint f hf hused
  coalesced := by
    have hpos := p.tiling.pos e (.inr he)
    rintro f (rfl | hf) g (rfl | hg)
    · rw [stop]
      omega
    · exact (hno g hg).2
    · exact (hno f hf).1
    · exact p.coalesced f hf g hg
  aligned := by
    rintro f ((rfl | hf) | hf)
    · exact p.aligned f (.inr he)
    · exact p.aligned f (.inl hf)
    · exact p.aligned f (.inr hf.1)

theorem idle_eq_of_used_eq_empty (hsize : 0 < size) (h : p.used = ∅) : p.idle = {⟨0, size⟩} := by
  have htiling := p.tiling
  rw [h, Set.union_empty] at htiling
  exact htiling.eq_singleton hsize p.coalesced

/-- If only the beginning is used there is one idle extent behind it. -/
theorem idle_eq_of_used_eq_front {base n : Nat} (q : Pool (base + n) unit) (hpos : 0 < n)
    (h : q.used = {⟨0, base⟩}) : q.idle = {⟨base, n⟩} := by
  have hbase : 0 < base := q.tiling.pos ⟨0, base⟩ (.inr (h ▸ rfl))
  have hle : ∀ e ∈ q.idle, base ≤ e.offset := by
    intro e he
    by_contra hlt
    have hmem : e.offset ∈ (⟨0, base⟩ : Extent) := by
      simp only [mem_iff]
      omega
    exact q.notMem_of_mem_used (h ▸ rfl) he hmem (q.tiling.offset_mem (.inl he))
  -- no extent is behind an idle one, so all of them end with the space
  have hstop : ∀ e ∈ q.idle, e.stop = base + n := by
    intro e he
    refine Nat.le_antisymm (q.tiling.stop_le (.inl he)) (not_lt.mp fun hlt => ?_)
    obtain ⟨f, hf, hadj⟩ := q.tiling.exists_offset_eq_stop (.inl he) hlt
    rcases hf with hf | hf
    · exact q.coalesced e he f hf hadj.symm
    · rw [h] at hf
      have hbelow := hle e he
      rw [hf, stop] at hadj
      dsimp only at hadj
      omega
  obtain ⟨e, he, hmem⟩ := (q.tiling.covers base).mp (by omega)
  have hidle : e ∈ q.idle := by
    refine he.resolve_right fun hused => ?_
    rw [h, Set.mem_singleton_iff] at hused
    simp only [hused, mem_iff] at hmem
    omega
  have heq : e = ⟨base, n⟩ := by
    have hoffset : e.offset = base := Nat.le_antisymm hmem.1 (hle e hidle)
    have hend := hstop e hidle
    cases hoffset
    cases Nat.add_left_cancel hend
    rfl
  refine Set.eq_singleton_iff_unique_mem.mpr ⟨heq ▸ hidle, fun f hf => ?_⟩
  have hlast := q.tiling.last_mem (.inl hf)
  have hlast' := q.tiling.last_mem (.inl hidle)
  rw [hstop f hf] at hlast
  rw [hstop e hidle] at hlast'
  rw [← heq]
  exact q.tiling.unique f (.inl hf) e (.inl hidle) _ hlast hlast'

end Pool

end MemFabric.Machine
