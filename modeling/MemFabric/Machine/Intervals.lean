import MemFabric.Machine.Ordered
import MemFabric.Machine.Tiling

/-!
# Containers of intervals

An ordered container whose elements have extents, each at the key of its element, that do
not overlap.  The element whose extent contains an address is the last one at or before
it, and an extent overlaps one of the container only if it overlaps one of its two
neighbours.
-/

namespace MemFabric.Machine

open Ordered Extent

def Extent.Meets (e f : Extent) : Prop := ∃ x, x ∈ e ∧ x ∈ f

namespace Extent

variable {e f : Extent}

theorem meets_iff (he : 0 < e.size) (hf : 0 < f.size) :
    e.Meets f ↔ e.offset < f.offset + f.size ∧ f.offset < e.offset + e.size := by
  constructor
  · rintro ⟨x, hxe, hxf⟩
    rw [mem_iff] at hxe hxf
    omega
  · intro h
    refine ⟨max e.offset f.offset, ?_, ?_⟩ <;> rw [mem_iff] <;> omega

theorem Meets.symm (h : e.Meets f) : f.Meets e := by
  obtain ⟨x, hxe, hxf⟩ := h
  exact ⟨x, hxf, hxe⟩

end Extent

/-- Every element has its extent at its key, and no two extents have an address in common. -/
structure Apart {α : Type} {key : α → Nat} (extent : α → Extent) (t : Ordered key) : Prop where
  starts : ∀ a ∈ t, (extent a).offset = key a
  pos : ∀ a ∈ t, 0 < (extent a).size
  unique : ∀ a ∈ t, ∀ b ∈ t, (extent a).Meets (extent b) → a = b

namespace Apart

variable {α : Type} {key : α → Nat} {extent : α → Extent} {t : Ordered key} {a b : α} {x : Nat}

theorem empty : Apart extent (∅ : Ordered key) where
  starts a ha := absurd ha (notMem_empty a)
  pos a ha := absurd ha (notMem_empty a)
  unique a ha := absurd ha (notMem_empty a)

section

variable (h : Apart extent t)

include h

/-- The element that contains an address is the last one that begins at or before it. -/
theorem upTo_eq (ha : a ∈ t) (hx : x ∈ extent a) : t.upTo x = some a := by
  rw [mem_iff] at hx
  have hstart := h.starts a ha
  cases hupTo : t.upTo x with
  | none =>
    have hlt := upTo_eq_none.mp hupTo a ha
    omega
  | some b =>
    obtain ⟨hb, hle, hlast⟩ := of_upTo_eq_some hupTo
    have hab := hlast a ha (by omega)
    have hstart' := h.starts b hb
    have hmeets : (extent a).Meets (extent b) := by
      rw [meets_iff (h.pos a ha) (h.pos b hb)]
      have hpos := h.pos b hb
      omega
    rw [h.unique a ha b hb hmeets]

/-- An extent that overlaps some element overlaps one of its neighbours. -/
theorem neighbour {e : Extent} (he : 0 < e.size) (ha : a ∈ t) (hmeets : (extent a).Meets e) :
    (∃ b, t.upperBound e.offset = some b ∧ (extent b).Meets e) ∨
      ∃ b, t.upTo e.offset = some b ∧ (extent b).Meets e := by
  have hstart := h.starts a ha
  rw [meets_iff (h.pos a ha) he] at hmeets
  by_cases hlt : e.offset < key a
  · left
    cases hupper : t.upperBound e.offset with
    | none =>
      have hle := upperBound_eq_none.mp hupper a ha
      omega
    | some b =>
      obtain ⟨hb, hkey, hfirst⟩ := of_upperBound_eq_some hupper
      have hle := hfirst a ha hlt
      have hstart' := h.starts b hb
      have hpos := h.pos b hb
      refine ⟨b, rfl, (meets_iff hpos he).mpr ?_⟩
      omega
  · right
    refine ⟨a, h.upTo_eq ha ?_, (meets_iff (h.pos a ha) he).mpr hmeets⟩
    rw [mem_iff]
    omega

theorem erase (k : Nat) : Apart extent (t.erase k) where
  starts a ha := h.starts a (mem_erase.mp ha).1
  pos a ha := h.pos a (mem_erase.mp ha).1
  unique a ha b hb := h.unique a (mem_erase.mp ha).1 b (mem_erase.mp hb).1

theorem assign (hstart : (extent a).offset = key a) (hpos : 0 < (extent a).size)
    (hfree : ∀ b ∈ t, (extent b).Meets (extent a) → key b = key a) : Apart extent (t.assign a) where
  starts b hb := by
    rcases mem_assign.mp hb with rfl | ⟨hb, -⟩
    · exact hstart
    · exact h.starts b hb
  pos b hb := by
    rcases mem_assign.mp hb with rfl | ⟨hb, -⟩
    · exact hpos
    · exact h.pos b hb
  unique b hb c hc hmeets := by
    rcases mem_assign.mp hb with rfl | ⟨hold, hkey⟩
    · rcases mem_assign.mp hc with rfl | ⟨hold', hkey'⟩
      · rfl
      · exact absurd (hfree c hold' hmeets.symm) hkey'
    · rcases mem_assign.mp hc with rfl | ⟨hold', -⟩
      · exact absurd (hfree b hold hmeets) hkey
      · exact h.unique b hold c hold' hmeets

end

end Apart

/-- In a container of the idle extents, the one that ends at an address is the last one that
begins before it. -/
theorem Pool.before_stop {size unit : Nat} (p : Pool size unit) {key : Extent → Nat}
    {t : Ordered key} (hkey : ∀ f, key f = f.offset) (ht : ∀ f, f ∈ t ↔ f ∈ p.idle)
    {f : Extent} (hf : f ∈ p.idle) : t.before f.stop = some f := by
  have hlast : key f < f.stop := by
    rw [hkey]
    exact Nat.lt_add_of_pos_right (p.tiling.pos f (.inl hf))
  cases hprev : t.before f.stop with
  | none => exact absurd hlast (not_lt.mpr (before_eq_none.mp hprev f ((ht f).mpr hf)))
  | some prev =>
    obtain ⟨hmem, hlt, hmax⟩ := of_before_eq_some hprev
    have hle := hmax f ((ht f).mpr hf) hlast
    rw [hkey] at hlt hle
    rw [hkey] at hle
    have hidle := (ht prev).mp hmem
    rw [p.tiling.unique prev (.inl hidle) f (.inl hf) _ (p.tiling.offset_mem (.inl hidle))
      ⟨hle, hlt⟩]

/-! ## First fit -/

def firstGap (size stop : Nat) : Nat → List (Nat × Nat) → Option Nat
  | current, [] => if current ≤ stop ∧ size ≤ stop - current then some current else none
  | current, range :: ranges =>
    if current < range.1 ∧ size ≤ range.1 - current then some current
    else firstGap size stop (if current < range.2 then range.2 else current) ranges

/-- The `size` addresses from `p` on are behind the range or in front of it. -/
def Avoids (p size : Nat) (range : Nat × Nat) : Prop := range.2 ≤ p ∨ p + size ≤ range.1

variable {size stop current p : Nat} {ranges : List (Nat × Nat)}

theorem firstGap_some (hsorted : ranges.Pairwise fun r r' => r.1 ≤ r'.1)
    (hstop : ∀ r ∈ ranges, r.1 ≤ stop) (h : firstGap size stop current ranges = some p) :
    current ≤ p ∧ p + size ≤ stop ∧ ∀ r ∈ ranges, Avoids p size r := by
  induction ranges generalizing current with
  | nil =>
    rw [firstGap] at h
    split at h
    · obtain rfl := Option.some.inj h
      exact ⟨le_rfl, by omega, fun r hr => by cases hr⟩
    · cases h
  | cons range ranges ih =>
    obtain ⟨hfirst, hrest⟩ := List.pairwise_cons.mp hsorted
    rw [firstGap] at h
    split at h
    · next hfits =>
      -- all further ranges begin behind the gap
      obtain rfl := Option.some.inj h
      have hrange := hstop range List.mem_cons_self
      refine ⟨le_rfl, by omega, fun r hr => .inr ?_⟩
      rcases List.mem_cons.mp hr with rfl | hr
      · omega
      · have hle := hfirst r hr
        omega
    · obtain ⟨hle, hend, havoids⟩ :=
        ih hrest (fun r hr => hstop r (List.mem_cons_of_mem _ hr)) h
      have hbounds : current ≤ p ∧ range.2 ≤ p := by
        split at hle <;> omega
      refine ⟨hbounds.1, hend, fun r hr => ?_⟩
      rcases List.mem_cons.mp hr with rfl | hr
      · exact .inl hbounds.2
      · exact havoids r hr

/-- A place where the size fits is found, unless there is one before it. -/
theorem firstGap_le (hsize : 0 < size) {q : Nat} (hq : current ≤ q) (hstop : q + size ≤ stop)
    (havoids : ∀ r ∈ ranges, Avoids q size r) :
    ∃ p, firstGap size stop current ranges = some p ∧ p ≤ q := by
  induction ranges generalizing current with
  | nil => exact ⟨current, if_pos (by omega), hq⟩
  | cons range ranges ih =>
    rw [firstGap]
    split
    · exact ⟨current, rfl, hq⟩
    · refine ih ?_ fun r hr => havoids r (List.mem_cons_of_mem _ hr)
      rcases havoids range List.mem_cons_self with hbehind | hfront
      · split <;> omega
      · omega

end MemFabric.Machine
