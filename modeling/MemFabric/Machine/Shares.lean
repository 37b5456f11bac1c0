import Mathlib.Algebra.Order.Group.Nat
import Mathlib.Order.Interval.Finset.Nat

/-!
# Shares

The numbers below `total` are divided into `parts` shares of `total / parts` numbers each,
the last of which also takes what is left over.
-/

namespace MemFabric.Machine

open Finset

variable {total parts j k x a b : Nat}

def shareLeft (total parts j : Nat) : Nat := j * (total / parts)

def shareRight (total parts j : Nat) : Nat :=
  if j + 1 = parts then total else (j + 1) * (total / parts)

/-- A share has `total / parts` numbers, and the last one also what is left over. -/
theorem shareLeft_add_size (total parts j : Nat) :
    j * (total / parts) +
        (if j + 1 = parts then total - (parts - 1) * (total / parts) else total / parts) =
      shareRight total parts j := by
  have hle : parts * (total / parts) ≤ total := Nat.mul_div_le _ _
  rw [shareRight]
  split
  · rename_i hlast
    rw [← hlast, Nat.add_mul] at hle
    rw [← hlast, Nat.add_sub_cancel]
    omega
  · rw [Nat.add_mul, Nat.one_mul]

theorem shareRight_le (total : Nat) (hj : j < parts) : shareRight total parts j ≤ total := by
  have hle : (j + 1) * (total / parts) ≤ total :=
    (Nat.mul_le_mul_right _ hj).trans (Nat.mul_div_le total parts)
  rw [shareRight]
  split <;> omega

theorem shareLeft_lt (htotal : 0 < total) (hj : j < parts) : shareLeft total parts j < total := by
  have hle : (j + 1) * (total / parts) ≤ total :=
    (Nat.mul_le_mul_right _ hj).trans (Nat.mul_div_le total parts)
  rw [Nat.add_mul] at hle
  rw [shareLeft]
  rcases Nat.eq_zero_or_pos (total / parts) with hzero | hpos
  · rw [hzero]
    exact htotal
  · omega

theorem shareRight_le_shareLeft (total : Nat) (hk : k < parts) (hlt : j < k) :
    shareRight total parts j ≤ shareLeft total parts k := by
  rw [shareRight, if_neg (by omega)]
  exact Nat.mul_le_mul_right _ hlt

theorem exists_share (hparts : 0 < parts) (hx : x < total) :
    ∃ j, j < parts ∧ shareLeft total parts j ≤ x ∧ x < shareRight total parts j := by
  by_cases hlast : shareLeft total parts (parts - 1) ≤ x
  · refine ⟨parts - 1, by omega, hlast, ?_⟩
    rw [shareRight, if_pos (by omega)]
    exact hx
  · -- the share is found by division
    have hpos : 0 < total / parts := by
      by_contra hzero
      rw [shareLeft, Nat.eq_zero_of_not_pos hzero] at hlast
      exact hlast (Nat.zero_le x)
    have hle : x / (total / parts) * (total / parts) ≤ x := Nat.div_mul_le_self _ _
    have hlt : x < (x / (total / parts) + 1) * (total / parts) := by
      rw [Nat.add_mul, Nat.one_mul]
      exact Nat.lt_div_mul_add hpos
    have hj : x / (total / parts) < parts - 1 := by
      rw [not_le] at hlast
      exact (Nat.div_lt_iff_lt_mul hpos).mpr hlast
    refine ⟨x / (total / parts), by omega, hle, ?_⟩
    rw [shareRight, if_neg (by omega)]
    exact hlt

/-- The shares that meet the numbers from `a` to `b`. -/
def sharesMeeting (total parts a b : Nat) : Finset Nat :=
  {j ∈ range parts | max a (shareLeft total parts j) < min b (shareRight total parts j)}

/-- The shares that begin between `a` and `b`. -/
def sharesInside (total parts a b : Nat) : Finset Nat :=
  {j ∈ range parts | a < shareLeft total parts j ∧ shareLeft total parts j < b}

theorem card_sharesMeeting (hpos : 0 < total / parts) (hab : a < b) (hb : b ≤ total) :
    (sharesMeeting total parts a b).card = (sharesInside total parts a b).card + 1 := by
  have hparts : 0 < parts := by
    by_contra hzero
    rw [Nat.eq_zero_of_not_pos hzero, Nat.div_zero] at hpos
    exact absurd hpos (lt_irrefl 0)
  obtain ⟨i, hi, hleft, hright⟩ := exists_share hparts (hab.trans_le hb)
  have hnonempty : ∀ j, j < parts → shareLeft total parts j < shareRight total parts j := by
    intro j hj
    have hle : parts * (total / parts) ≤ total := Nat.mul_div_le total parts
    have hmono : (j + 1) * (total / parts) ≤ parts * (total / parts) := Nat.mul_le_mul_right _ hj
    rw [Nat.add_mul] at hmono
    rw [shareLeft, shareRight, Nat.add_mul]
    split <;> omega
  have heq : sharesMeeting total parts a b = insert i (sharesInside total parts a b) := by
    ext j
    rw [sharesMeeting, sharesInside, mem_insert, mem_filter, mem_filter,
      mem_range, max_lt_iff, lt_min_iff, lt_min_iff]
    constructor
    · rintro ⟨hj, ⟨-, hmeets⟩, hbefore, -⟩
      by_cases hle : shareLeft total parts j ≤ a
      · left
        rcases Nat.lt_trichotomy j i with hlt | heq | hlt
        · have := shareRight_le_shareLeft total hi hlt
          omega
        · exact heq
        · have := shareRight_le_shareLeft total hj hlt
          omega
      · exact .inr ⟨hj, not_le.mp hle, hbefore⟩
    · rintro (rfl | ⟨hj, hlt, hbefore⟩)
      · exact ⟨hi, ⟨hab, hright⟩, hleft.trans_lt hab, hnonempty j hi⟩
      · have := hnonempty j hj
        exact ⟨hj, ⟨hab, by omega⟩, hbefore, this⟩
  have hnot : i ∉ sharesInside total parts a b := by
    rw [sharesInside, mem_filter]
    omega
  rw [heq, card_insert_of_notMem hnot]

/-! ## Even shares

Shares that differ by at most one: the first ones take one of the numbers left over each. -/

/-- The first number of an even share; the next one begins where it ends. -/
def evenLeft (total parts j : Nat) : Nat := j * (total / parts) + min j (total % parts)

theorem evenLeft_mono (total parts : Nat) (h : j ≤ k) :
    evenLeft total parts j ≤ evenLeft total parts k := by
  have := Nat.mul_le_mul_right (total / parts) h
  rw [evenLeft, evenLeft]
  omega

theorem evenLeft_parts (hparts : 0 < parts) : evenLeft total parts parts = total := by
  have hlt := Nat.mod_lt total hparts
  rw [evenLeft, min_eq_right hlt.le]
  exact Nat.div_add_mod total parts

theorem exists_evenShare (hparts : 0 < parts) (hx : x < total) :
    ∃ j, j < parts ∧ evenLeft total parts j ≤ x ∧ x < evenLeft total parts (j + 1) := by
  -- the first share that ends behind the number
  have hex : ∃ j, x < evenLeft total parts (j + 1) := by
    refine ⟨parts - 1, ?_⟩
    rw [Nat.sub_add_cancel hparts, evenLeft_parts hparts]
    exact hx
  refine ⟨Nat.find hex, ?_, ?_, Nat.find_spec hex⟩
  · by_contra hge
    have hmin := Nat.find_min hex (show parts - 1 < Nat.find hex by omega)
    rw [Nat.sub_add_cancel hparts, evenLeft_parts hparts] at hmin
    exact hmin hx
  · cases hj : Nat.find hex with
    | zero => simp [evenLeft]
    | succ j => exact not_lt.mp (Nat.find_min hex (by omega))

theorem evenShare_unique (hj : evenLeft total parts j ≤ x) (hj' : x < evenLeft total parts (j + 1))
    (hk : evenLeft total parts k ≤ x) (hk' : x < evenLeft total parts (k + 1)) : j = k := by
  rcases Nat.lt_trichotomy j k with hlt | heq | hlt
  · have := evenLeft_mono total parts (show j + 1 ≤ k from hlt)
    omega
  · exact heq
  · have := evenLeft_mono total parts (show k + 1 ≤ j from hlt)
    omega

end MemFabric.Machine
