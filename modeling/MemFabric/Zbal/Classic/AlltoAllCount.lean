import MemFabric.Zbal.Classic.AlltoAllScan

/-!
# All-to-all: the expected numbers

`AlltoAllKernel`: every rank sends the same number of elements.  A core counts all ranks from
the one in which its share begins to the one in which it ends, also when the share is empty.
-/

namespace MemFabric.Zbal.Exchange.Launch

open Machine AlltoAllVKernel Finset

variable {k : Launch} {elements core rank : Nat}

/-- The cores that count the rank in `localStatSend`. -/
def alltoAllCopying (k : Launch) (elements rank : Nat) : Finset Nat :=
  {core ∈ range (k.alltoAllNum elements) | rank ∈ k.alltoAllCopy elements core}

/-- Core 0 counts no share behind the last one. -/
def AlltoAllNoneBehind (k : Launch) (elements : Nat) : Prop :=
  StatScan.NoneBehind (fun _ => elements) k.groupSize (elements * k.groupSize)
    (k.alltoAllNum elements)

theorem sums_const (elements i : Nat) : sums (fun _ => elements) i = i * elements := by
  induction i with
  | zero => exact (Nat.zero_mul _).symm
  | succ i ih => rw [sums, ih, Nat.succ_mul]

theorem alltoAllNum_pos (hcores : 0 < k.aivNum) : 0 < k.alltoAllNum elements := by
  rw [alltoAllNum]
  split
  · omega
  · exact hcores

theorem alltoAllNum_le : k.alltoAllNum elements ≤ k.aivNum := by
  rw [alltoAllNum]
  split
  · rename_i h
    exact h.1
  · exact le_rfl

section

variable (helements : 0 < elements)

include helements

/-- The core counts the ranks from the one in which its share begins to the one in which it
ends. -/
theorem exists_alltoAllCopy_eq (hgroup : 0 < k.groupSize) (hcore : core < k.alltoAllNum elements) :
    ∃ first last, k.alltoAllCopy elements core = ranks first (last + 1) ∧
      first * elements ≤ shareLeft (elements * k.groupSize) (k.alltoAllNum elements) core ∧
      shareLeft (elements * k.groupSize) (k.alltoAllNum elements) core < (first + 1) * elements ∧
      (last * elements ≤ shareLeft (elements * k.groupSize) (k.alltoAllNum elements) core ∨
        last * elements < shareRight (elements * k.groupSize) (k.alltoAllNum elements) core) ∧
      shareRight (elements * k.groupSize) (k.alltoAllNum elements) core ≤
        (last + 1) * elements := by
  have htotal : 0 < elements * k.groupSize := Nat.mul_pos helements hgroup
  have hsum : sums (fun _ => elements) k.groupSize = elements * k.groupSize := by
    rw [sums_const, Nat.mul_comm]
  rw [alltoAllCopy, shareLeft_add_size]
  set total := elements * k.groupSize
  set parts := k.alltoAllNum elements
  have hleft : shareLeft total parts core < total := shareLeft_lt htotal hcore
  have hle : core * (total / parts) ≤ shareRight total parts core := by
    rw [← shareLeft_add_size]
    exact Nat.le_add_right _ _
  have hright : shareRight total parts core ≤ sums (fun _ => elements) k.groupSize :=
    hsum ▸ shareRight_le total hcore
  rcases CopyRange.scanCounts_ended hle hright (Nat.zero_add _)
    (s := ⟨k.groupSize + 1, k.groupSize, 0, fun _ => 0, 0, false, false⟩)
    (.inl ⟨rfl, rfl, rfl, rfl, rfl, Nat.zero_le _⟩) with hbefore | hended
  · exact absurd (hbefore.le_coreLeft.trans_lt hleft) (hsum ▸ lt_irrefl _)
  · obtain ⟨hfirst, hfirst', hlast, hlast', -⟩ := hended
    rw [sums_const] at hfirst hfirst' hlast'
    rw [sums_const] at hlast
    exact ⟨_, _, rfl, hfirst, hfirst', hlast, hlast'⟩

/-- When no share is empty, the core counts the ranks whose parts meet its share. -/
theorem alltoAllCopying_eq
    (havg : 0 < elements * k.groupSize / k.alltoAllNum elements) (hrank : rank < k.groupSize) :
    k.alltoAllCopying elements rank = sharesMeeting (elements * k.groupSize)
      (k.alltoAllNum elements) (rank * elements) ((rank + 1) * elements) := by
  ext core
  rw [alltoAllCopying, sharesMeeting, mem_filter, mem_filter]
  refine and_congr_right fun hcore => ?_
  have hcore := mem_range.mp hcore
  have hnonempty : shareLeft (elements * k.groupSize) (k.alltoAllNum elements) core <
      shareRight (elements * k.groupSize) (k.alltoAllNum elements) core := by
    rw [← shareLeft_add_size, shareLeft]
    have hle := Nat.mul_div_le (elements * k.groupSize) (k.alltoAllNum elements)
    have hparts : k.alltoAllNum elements = k.alltoAllNum elements - 1 + 1 := by omega
    rw [hparts, Nat.add_mul, ← hparts] at hle
    split <;> omega
  obtain ⟨first, last, heq, hfirst, hfirst', hlast, hlast'⟩ :=
    exists_alltoAllCopy_eq helements (by omega) hcore
  rw [heq, mem_ranks]
  constructor
  · rintro ⟨hge, hlt⟩
    have h1 := Nat.mul_le_mul_right elements (show first + 1 ≤ rank + 1 by omega)
    have h2 := Nat.mul_le_mul_right elements (show rank ≤ last by omega)
    have h3 := Nat.add_one_mul rank elements
    omega
  · intro h
    constructor
    · by_contra hlt
      have := Nat.mul_le_mul_right elements (show rank + 1 ≤ first by omega)
      omega
    · by_contra hlt
      have := Nat.mul_le_mul_right elements (show last + 1 ≤ rank by omega)
      omega

/-- When all shares but the last are empty, every core counts the first rank, and only the last
one the others. -/
theorem alltoAllCopying_of_empty (hcores : 0 < k.aivNum)
    (havg : elements * k.groupSize / k.alltoAllNum elements = 0) (hrank : rank < k.groupSize) :
    k.alltoAllCopying elements rank =
      if rank = 0 then range (k.alltoAllNum elements)
      else {k.alltoAllNum elements - 1} := by
  have hpos : 0 < k.alltoAllNum elements := alltoAllNum_pos hcores
  have hmem : ∀ core, core < k.alltoAllNum elements →
      (rank ∈ k.alltoAllCopy elements core ↔ rank = 0 ∨ core + 1 = k.alltoAllNum elements) := by
    intro core hcore
    obtain ⟨first, last, heq, hfirst, -, hlast, hlast'⟩ :=
      exists_alltoAllCopy_eq helements (by omega) hcore
    simp only [shareLeft, shareRight, havg, Nat.mul_zero, Nat.le_zero, Nat.mul_eq_zero,
      helements.ne', or_false] at hfirst hlast hlast'
    rw [heq, mem_ranks]
    split at hlast'
    · rw [Nat.mul_comm] at hlast'
      have := Nat.le_of_mul_le_mul_right hlast' helements
      omega
    · rename_i h
      simp only [if_neg h] at hlast
      omega
  ext core
  rw [alltoAllCopying, mem_filter, mem_range]
  split
  · rename_i hzero
    rw [mem_range]
    exact and_iff_left_of_imp fun hcore => (hmem core hcore).mpr (.inl hzero)
  · rename_i hzero
    rw [mem_singleton]
    constructor
    · rintro ⟨hcore, h⟩
      have := ((hmem core hcore).mp h).resolve_left hzero
      omega
    · rintro rfl
      exact ⟨by omega, (hmem _ (by omega)).mpr (.inr (by omega))⟩

theorem alltoAllStatBase_of_empty (hcores : 0 < k.aivNum) (hlimit : k.aivNum < 2 ^ 16)
    (havg : elements * k.groupSize / k.alltoAllNum elements = 0) (stack : Nat → Nat)
    (hrank : rank < k.groupSize) :
    k.alltoAllStatBase elements stack rank =
      if rank = 0 then k.alltoAllNum elements else 1 := by
  have hpos : 0 < k.alltoAllNum elements := alltoAllNum_pos hcores
  have hlt : k.alltoAllNum elements < 2 ^ 16 := alltoAllNum_le.trans_lt hlimit
  have htotal : 0 < elements * k.groupSize := Nat.mul_pos helements (by omega)
  have hone : 1 < k.alltoAllNum elements := by
    rcases (Nat.div_eq_zero_iff_lt hpos).mp havg with h
    omega
  obtain ⟨j, -, hbase, -, hstop⟩ : ∃ j, StatScan.Counted (k.alltoAllNum elements) 0 elements 0 1 j
      ⟨fun _ => 1, 1, 0⟩ _ :=
    StatScan.exists_counted 0 (n := 2 ^ 16) hlt (by omega) (by omega) (by omega) rfl rfl
  rcases hstop with ⟨hall, -, rfl⟩ | ⟨-, -, -, -, hle⟩
  · rw [alltoAllStatBase, havg]
    obtain ⟨n, hn⟩ : ∃ n, k.groupSize = n + 1 := ⟨k.groupSize - 1, by omega⟩
    rw [hn, alltoAllScanRanks, if_pos (by omega)]
    dsimp only
    rw [if_pos (Nat.succ_pos n), Nat.zero_add, Nat.one_mul, hall, if_pos rfl,
      StatScan.alltoAllScanRanks_of_le (by omega), StatScan.passEqual_statBase, hbase]
    by_cases hzero : rank = 0
    · rw [hzero]
      exact Nat.add_sub_cancel' hpos
    · rw [Function.update_of_ne hzero, if_neg hzero]
  · omega

end

theorem card_alltoAllCopying (helements : 0 < elements)
    (havg : 0 < elements * k.groupSize / k.alltoAllNum elements) (hrank : rank < k.groupSize) :
    (k.alltoAllCopying elements rank).card =
      1 + (StatScan.inside (fun _ => elements) (elements * k.groupSize / k.alltoAllNum elements)
        (k.alltoAllNum elements) rank).card := by
  have hle : (rank + 1) * elements ≤ elements * k.groupSize := by
    rw [Nat.mul_comm elements]
    exact Nat.mul_le_mul_right _ hrank
  have hlt : rank * elements < (rank + 1) * elements :=
    Nat.mul_lt_mul_of_pos_right (Nat.lt_succ_self rank) helements
  rw [alltoAllCopying_eq helements havg hrank, card_sharesMeeting havg hlt hle, Nat.add_comm,
    StatScan.inside, sums_const, sums_const]
  rfl

theorem alltoAllStatBase_eq_iff (hcores : 0 < k.aivNum) (hlimit : k.aivNum < 2 ^ 16)
    (helements : 0 < elements) (stack : Nat → Nat) :
    (∀ rank < k.groupSize,
      k.alltoAllStatBase elements stack rank = (k.alltoAllCopying elements rank).card) ↔
      k.AlltoAllNoneBehind elements := by
  have hpos : 0 < k.alltoAllNum elements := alltoAllNum_pos hcores
  rcases Nat.eq_zero_or_pos (elements * k.groupSize / k.alltoAllNum elements) with hzero | havg
  · refine iff_of_true (fun rank hrank => ?_) (.inl ?_)
    · rw [alltoAllStatBase_of_empty helements hcores hlimit hzero stack hrank,
        alltoAllCopying_of_empty helements hcores hzero hrank]
      split
      · exact (card_range _).symm
      · exact (card_singleton _).symm
    · rintro ⟨p, -, hp⟩
      rw [hzero, sums_const, Nat.mul_zero] at hp
      exact absurd hp (Nat.mul_pos (Nat.succ_pos p) helements).ne'
  · have hsum : sums (fun _ => elements) k.groupSize = elements * k.groupSize := by
      rw [sums_const, Nat.mul_comm]
    rw [AlltoAllNoneBehind, ← StatScan.alltoAllScanRanks_numbers_iff (fun _ => 1) havg
      (alltoAllNum_le.trans_lt hlimit) hsum
      (fun i => if i < k.groupSize then (i + 1) * elements else stack i)
      (fun p hp => by rw [if_pos hp, sums_const]) hpos]
    refine forall₂_congr fun rank hrank => ?_
    rw [card_alltoAllCopying helements havg hrank]
    rfl

theorem alltoAllCopy_zero (core : Nat) : k.alltoAllCopy 0 core = [] := by
  rw [alltoAllCopy]
  simp only [Nat.zero_mul, Nat.zero_div, Nat.mul_zero, Nat.sub_self, ite_self]
  rcases CopyRange.scanCounts_ended le_rfl (Nat.zero_le _) (Nat.zero_add _)
    (s := ⟨k.groupSize + 1, k.groupSize, 0, fun _ => 0, 0, false, false⟩)
    (.inl ⟨rfl, rfl, rfl, rfl, rfl, Nat.zero_le _⟩) with hbefore | hended
  · rw [hbefore.copyStartRank, hbefore.copyEndRank, ranks, Nat.sub_self]
    rfl
  · have := hended.lt_start
    rw [sums_const] at this
    omega

theorem lt_of_mem_alltoAllCopy (hgroup : 0 < k.groupSize) (hcore : core < k.alltoAllNum elements)
    (h : rank ∈ k.alltoAllCopy elements core) : rank < k.groupSize := by
  rcases Nat.eq_zero_or_pos elements with rfl | helements
  · rw [alltoAllCopy_zero] at h
    cases h
  obtain ⟨first, last, heq, -, -, hlast, -⟩ := exists_alltoAllCopy_eq helements hgroup hcore
  rw [heq, mem_ranks] at h
  have hright := shareRight_le (elements * k.groupSize) hcore
  have hleft := shareLeft_lt (Nat.mul_pos helements hgroup) hcore
  have hlt : last * elements < k.groupSize * elements := by
    rw [Nat.mul_comm k.groupSize]
    omega
  have := Nat.lt_of_mul_lt_mul_right hlt
  omega

/-- Core 0 does not expect less than the number of the cores that count the rank. -/
theorem card_alltoAllCopying_le (hcores : 0 < k.aivNum) (hlimit : k.aivNum < 2 ^ 16)
    (stack : Nat → Nat) (hrank : rank < k.groupSize) :
    (k.alltoAllCopying elements rank).card ≤ k.alltoAllStatBase elements stack rank % 2 ^ 32 := by
  have hbound : k.alltoAllStatBase elements stack rank ≤ 1 + 2 ^ 16 :=
    (StatScan.alltoAllScanRanks_bounds _ rank _).2
  rw [Nat.mod_eq_of_lt (by omega)]
  rcases Nat.eq_zero_or_pos elements with rfl | helements
  · simp [alltoAllCopying, alltoAllCopy_zero]
  rcases Nat.eq_zero_or_pos (elements * k.groupSize / k.alltoAllNum elements) with hzero | havg
  · rw [alltoAllStatBase_of_empty helements hcores hlimit hzero stack hrank,
      alltoAllCopying_of_empty helements hcores hzero hrank]
    split
    · exact (card_range _).le
    · exact (card_singleton _).le
  · rw [card_alltoAllCopying helements havg hrank]
    refine StatScan.card_inside_le_statBase (fun _ => 1) havg (alltoAllNum_le.trans_lt hlimit) ?_ _
      (fun p hp => by rw [if_pos hp, sums_const]) (alltoAllNum_pos hcores) hrank
    rw [sums_const, Nat.mul_comm]

/-- The number that core 0 expects for every rank is that of the cores that count it, and a core
that waits for it goes on exactly when all of them have done so, if and only if core 0 counts no
share behind the last one. -/
theorem alltoAll_expects_increments {k : Launch} {elements : Nat} (hcores : 0 < k.aivNum)
    (hlimit : k.aivNum < 2 ^ 16) (helements : 0 < elements) (stack : Nat → Nat) :
    ((∀ rank < k.groupSize,
      k.alltoAllStatBase elements stack rank = (k.alltoAllCopying elements rank).card) ↔
        k.AlltoAllNoneBehind elements) ∧
      ((∀ rank < k.groupSize, ∀ counted : List (Nat × Nat), counted.Nodup →
        (∀ c ∈ counted, c.1 ∈ k.alltoAllCopying elements c.2) →
        (localStatSend counted rank = k.alltoAllStatBase elements stack rank ↔
          ∀ core ∈ k.alltoAllCopying elements rank, (core, rank) ∈ counted)) ↔
        k.AlltoAllNoneBehind elements) := by
  have hiff := alltoAllStatBase_eq_iff hcores hlimit helements stack
  refine ⟨hiff, ?_⟩
  rw [← hiff]
  exact forall₂_congr fun rank _ => eq_card_iff_waits.symm

/-- Three cores and two ranks, of which the second is counted by two cores. -/
theorem alltoAll_expects_increments_two :
    let k : Launch := ⟨2, 3, 1⟩
    k.alltoAllStatBase 3 (fun _ => 0) 1 = (k.alltoAllCopying 3 1).card ∧
      k.alltoAllCopying 3 1 = {1, 2} := by
  refine ⟨?_, by decide +kernel⟩
  exact (alltoAll_expects_increments (by decide) (by decide) (by decide) (fun _ => 0)).1.mpr
    (.inl (by decide)) 1 (by decide)

/-- Four cores and three ranks that send three elements each.  The part of the last rank begins
with the share of the last core, the only one to count it, but two cores are expected. -/
theorem alltoAll_coinciding_boundary_is_overcounted :
    let k : Launch := ⟨3, 4, 1⟩
    k.alltoAllStatBase 3 (fun _ => 0) 2 = 2 ∧ k.alltoAllCopying 3 2 = {3} := by
  refine ⟨by decide +kernel, by decide +kernel⟩

end MemFabric.Zbal.Exchange.Launch
