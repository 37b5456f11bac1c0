import MemFabric.Zbal.Classic.AlltoAllScan
import Mathlib.Algebra.GroupWithZero.Nat

/-!
# All-to-all-v: the expected numbers

A core copies from the ranks whose part of the output meets its share.  The number of such
cores is one more than the number of shares that begin inside the part, which is what core 0
counts.
-/

namespace MemFabric.Zbal.AlltoAllVKernel

open Machine Exchange StatScan Finset

variable {op : AlltoAllVKernel} {core : Nat}

/-! ## Parts of the output -/

theorem received_eq (op : AlltoAllVKernel) (i : Nat) :
    op.received i = sums op.outputCountsArray i := by
  induction i with
  | zero => rfl
  | succ i ih => rw [received, sums, ih]

theorem curCoreRight_eq : op.curCoreRight core = shareRight op.outputElement op.aivNum core :=
  shareLeft_add_size _ _ _

/-- The core copies from the ranks whose parts of the output meet its share. -/
theorem mem_alltoAllvCopy (hsum : op.received op.groupSize = op.outputElement)
    (hcore : core < op.aivNum) (elements : Nat → Nat) {rank : Nat} :
    rank ∈ op.alltoAllvCopy elements core ↔
      core ∈ sharesMeeting op.outputElement op.aivNum (op.received rank)
        (op.received (rank + 1)) := by
  have hmono : ∀ {i j}, i ≤ j → sums op.outputCountsArray i ≤ sums op.outputCountsArray j :=
    fun hle => sums_mono _ hle
  have hright : op.curCoreRight core ≤ sums op.outputCountsArray op.groupSize := by
    rw [curCoreRight_eq, ← received_eq, hsum]
    exact shareRight_le _ hcore
  have hle : op.curCoreLeft core ≤ op.curCoreRight core := Nat.le_add_right _ _
  have hscanned := CopyRange.scanCounts_ended hle hright (Nat.zero_add _)
    (s := ⟨op.groupSize + 1, op.groupSize, 0, elements, 0, false, false⟩)
    (.inl ⟨rfl, rfl, rfl, rfl, rfl, Nat.zero_le _⟩)
  have hmeets : core ∈ sharesMeeting op.outputElement op.aivNum (op.received rank)
      (op.received (rank + 1)) ↔
        0 < overlap op.outputCountsArray (op.curCoreLeft core) (op.curCoreRight core) rank := by
    rw [sharesMeeting, mem_filter, mem_range, ← curCoreRight_eq, overlap,
      Nat.sub_pos_iff_lt, received_eq, received_eq]
    exact and_iff_right hcore
  rw [hmeets, alltoAllvCopy, getCoreCopyRangeInfo, Launch.scan_eq_scanCounts, List.mem_filter,
    List.mem_range'_1, decide_eq_true_eq]
  rcases hscanned with hbefore | hended
  · have hno : overlap op.outputCountsArray (op.curCoreLeft core) (op.curCoreRight core) rank =
        0 := by
      have hlast := hbefore.le_coreLeft
      rw [overlap]
      omega
    rw [hbefore.copyStartRank, hbefore.copyEndRank]
    omega
  · set s := Launch.scanCounts _ _ _ _ _ _
    have hsmall : overlap op.outputCountsArray (op.curCoreLeft core) (op.curCoreRight core) rank <
        2 ^ 32 := by
      have hcount : op.outputCountsArray rank < 2 ^ 32 := Nat.mod_lt _ (by decide)
      rw [overlap, sums]
      omega
    constructor
    · rintro ⟨⟨hge, hlt⟩, hpos⟩
      rw [← Nat.mod_eq_of_lt hsmall, ← hended.elements rank hge (by omega)]
      exact hpos
    · intro hpos
      have hge : s.copyStartRank ≤ rank := by
        by_contra hlt
        have := hmono (show rank + 1 ≤ s.copyStartRank by omega)
        have := hended.start_le
        rw [overlap] at hpos
        omega
      have hlt : rank ≤ s.copyEndRank := by
        by_contra hlt
        have := hmono (show s.copyEndRank + 1 ≤ rank by omega)
        have := hended.le_end
        rw [overlap] at hpos
        omega
      refine ⟨⟨hge, by omega⟩, ?_⟩
      rw [hended.elements rank hge hlt, Nat.mod_eq_of_lt hsmall]
      exact hpos

/-! ## The scan of core 0 -/

/-- There is nothing to copy, or no share is empty and core 0 counts none behind the last one. -/
def NoneBehind (op : AlltoAllVKernel) : Prop :=
  op.outputElement = 0 ∨ op.aivNum ≤ op.outputElement ∧
    StatScan.NoneBehind op.outputCountsArray op.groupSize op.outputElement op.aivNum

theorem scanRanks_eq (k : Launch) (hk : k.groupSize = op.groupSize) (stack : Nat → Nat)
    (n r : Nat) (s : StatScan) :
    scanRanks op stack n r s =
      k.alltoAllScanRanks op.aivNum (op.outputElement / op.aivNum) (op.cumsum stack) n r s := by
  induction n generalizing r s with
  | zero => rfl
  | succ n ih =>
    rw [scanRanks, Launch.alltoAllScanRanks, hk]
    split
    · exact ih _ _
    · rfl

theorem le_scanRanks (stack : Nat → Nat) (n k p : Nat) (s : StatScan) :
    s.statBase p ≤ (scanRanks op stack n k s).statBase p := by
  rw [scanRanks_eq ⟨op.groupSize, 0, 0⟩ rfl]
  exact (alltoAllScanRanks_bounds _ p n).1

section Empty

/-! With fewer elements than cores, all shares but the last are empty. -/

variable {stack : Nat → Nat} {k : Nat} {s : StatScan} (havg : op.outputElement / op.aivNum = 0)
  (hright : s.coreRight = 0)

include havg hright

/-- A rank that sends nothing before anything has been sent is passed over. -/
theorem scanRanks_zero (hk : k < op.groupSize) (hzero : op.received (k + 1) = 0) (n : Nat) :
    ∃ s', s'.statBase = s.statBase ∧ s'.coreRight = 0 ∧
      scanRanks op stack (n + 1) k s = scanRanks op stack n (k + 1) s' := by
  have hcumsum : op.cumsum stack k = 0 := by
    rw [cumsum, if_pos hk, hzero]
  have hcount : countCores op.aivNum 0 0 k (2 ^ 16) s = (s, false) := by
    rw [show 2 ^ 16 = 65535 + 1 from rfl, countCores, if_neg (Nat.not_lt_zero _)]
  refine ⟨s.passEqual 0 0, passEqual_statBase 0 0, ?_, ?_⟩
  · rw [passEqual]
    split <;> exact hright
  · rw [scanRanks, if_pos hk]
    dsimp only
    rw [hcumsum, havg, hcount, if_neg Bool.false_ne_true, hcumsum]

theorem scanRanks_empty (hzero : ∀ k ≤ op.groupSize, op.received k = 0) {n : Nat}
    (hn : k + n = op.groupSize) : (scanRanks op stack n k s).statBase = s.statBase := by
  induction n generalizing k s with
  | zero => rfl
  | succ n ih =>
    obtain ⟨s', hbase, hright', heq⟩ := scanRanks_zero havg hright (by omega)
      (hzero (k + 1) (by omega)) n
    rw [heq, ih hright' (by omega), hbase]

variable (stack)

/-- The first rank that sends anything gets one core too many at least. -/
theorem scanRanks_overcounts (hzero : op.received k = 0) (hpos : 0 < op.received op.groupSize)
    {n : Nat} (hn : k + n = op.groupSize) :
    ∃ rank < op.groupSize, 0 < op.outputCountsArray rank ∧
      s.statBase rank < (scanRanks op stack n k s).statBase rank := by
  induction n generalizing k s with
  | zero =>
    obtain rfl : k = op.groupSize := hn
    omega
  | succ n ih =>
    rcases Nat.eq_zero_or_pos (op.outputCountsArray k) with hcount | hcount
    · have hnext : op.received (k + 1) = 0 := by
        rw [received, hzero, hcount]
      obtain ⟨s', hbase, hright', heq⟩ := scanRanks_zero havg hright (by omega) hnext n
      rw [heq, ← hbase]
      exact ih hright' hnext (by omega)
    · refine ⟨k, by omega, hcount, ?_⟩
      have hcumsum : op.cumsum stack k = op.outputCountsArray k := by
        rw [cumsum, if_pos (by omega), received, hzero, Nat.zero_add]
      rw [scanRanks, if_pos (by omega)]
      refine lt_of_lt_of_le ?_ (le_scanRanks ..)
      rw [passEqual_statBase, hcumsum, show 2 ^ 16 = 65535 + 1 from rfl, countCores,
        if_pos (hright ▸ hcount)]
      dsimp only
      split
      · change _ < Function.update s.statBase k (s.statBase k + 1) k
        rw [Function.update_self]
        exact Nat.lt_succ_self _
      · obtain ⟨more, -, heq⟩ := exists_countCores op.aivNum (op.outputElement / op.aivNum)
          (op.outputCountsArray k) k 65535 ⟨Function.update s.statBase k (s.statBase k + 1), _, _⟩
        rw [heq]
        dsimp only
        rw [Function.update_self, Function.update_self]
        omega

end Empty

/-! ## The result -/

theorem aivNum_le (op : AlltoAllVKernel) : op.aivNum ≤ op.blockNum := by
  rw [aivNum]
  split
  · rename_i h
    exact h.1
  · exact le_rfl

theorem aivNum_pos (h : 0 < op.blockNum) : 0 < op.aivNum := by
  rw [aivNum]
  split
  · omega
  · exact h

/-- The cores that copy from the rank.  Every core has an array of its own. -/
def copying (op : AlltoAllVKernel) (elements : Nat → Nat → Nat) (rank : Nat) : Finset Nat :=
  {core ∈ range op.aivNum | rank ∈ op.alltoAllvCopy (elements core) core}

theorem copying_eq (hsum : op.received op.groupSize = op.outputElement)
    (elements : Nat → Nat → Nat) (rank : Nat) :
    op.copying elements rank =
      sharesMeeting op.outputElement op.aivNum (op.received rank) (op.received (rank + 1)) := by
  ext core
  rw [copying, mem_filter, mem_range]
  constructor
  · rintro ⟨hcore, hmem⟩
    exact (mem_alltoAllvCopy hsum hcore _).mp hmem
  · intro hmem
    have hcore : core < op.aivNum := mem_range.mp (mem_filter.mp hmem).1
    exact ⟨hcore, (mem_alltoAllvCopy hsum hcore _).mpr hmem⟩

theorem received_mono {i j : Nat} (hle : i ≤ j) : op.received i ≤ op.received j := by
  rw [received_eq, received_eq]
  exact sums_mono _ hle

theorem lt_of_mem_alltoAllvCopy (hsum : op.received op.groupSize = op.outputElement)
    (hcore : core < op.aivNum) {elements : Nat → Nat} {rank : Nat}
    (h : rank ∈ op.alltoAllvCopy elements core) : rank < op.groupSize := by
  have hmeets := (mem_filter.mp ((mem_alltoAllvCopy hsum hcore elements).mp h)).2
  by_contra hge
  have hmono : op.received op.groupSize ≤ op.received rank := received_mono (not_lt.mp hge)
  have hright := shareRight_le op.outputElement hcore
  omega

/-- A rank that sends nothing has no cores. -/
theorem sharesMeeting_eq_empty {rank : Nat} (hcount : op.outputCountsArray rank = 0) :
    sharesMeeting op.outputElement op.aivNum (op.received rank) (op.received (rank + 1)) = ∅ := by
  refine filter_eq_empty_iff.mpr fun core _ => ?_
  rw [received, hcount]
  omega

theorem card_sharesMeeting_received (hsum : op.received op.groupSize = op.outputElement)
    (havg : 0 < op.outputElement / op.aivNum) {rank : Nat} (hrank : rank < op.groupSize) :
    (sharesMeeting op.outputElement op.aivNum (op.received rank) (op.received (rank + 1))).card =
      (if 0 < op.outputCountsArray rank then 1 else 0) +
        (inside op.outputCountsArray (op.outputElement / op.aivNum) op.aivNum rank).card := by
  have hrec : op.received (rank + 1) = op.received rank + op.outputCountsArray rank := rfl
  rw [inside, ← received_eq, ← received_eq]
  split
  · have hlt : op.received rank < op.received (rank + 1) := by
      omega
    rw [card_sharesMeeting havg hlt ((received_mono hrank).trans hsum.le), Nat.add_comm]
    rfl
  · rename_i hcount
    have hinside : ∀ m, ¬ (op.received rank < m ∧ m < op.received (rank + 1)) := by
      omega
    rw [sharesMeeting_eq_empty (Nat.eq_zero_of_not_pos hcount),
      filter_false_of_mem fun m _ => hinside _, Nat.zero_add]

theorem card_sharesMeeting_le_one {total parts a b : Nat} (havg : total / parts = 0) :
    (sharesMeeting total parts a b).card ≤ 1 := by
  refine card_le_one_iff_subset_singleton.mpr ⟨parts - 1, fun j hj => ?_⟩
  obtain ⟨hj, hmeets⟩ := mem_filter.mp hj
  rw [shareLeft, shareRight, havg, Nat.mul_zero] at hmeets
  rw [mem_range] at hj
  rw [mem_singleton]
  split at hmeets
  · omega
  · rw [Nat.mul_zero, Nat.min_zero] at hmeets
    exact absurd hmeets (Nat.not_lt_zero _)

theorem initLocalStat_eq_iff (hcores : 0 < op.blockNum) (hlimit : op.blockNum < 2 ^ 16)
    (hsum : op.received op.groupSize = op.outputElement) (stack : Nat → Nat)
    (elements : Nat → Nat → Nat) :
    (∀ rank < op.groupSize, op.initLocalStat stack rank = (op.copying elements rank).card) ↔
      op.NoneBehind := by
  have hpos := aivNum_pos hcores
  rcases Nat.eq_zero_or_pos op.outputElement with htotal | htotal
  · refine iff_of_true (fun rank hrank => ?_) (.inl htotal)
    have hzero : op.outputElement / op.aivNum = 0 := by
      rw [htotal, Nat.zero_div]
    have hnone : ∀ k ≤ op.groupSize, op.received k = 0 := fun k hk =>
      Nat.eq_zero_of_le_zero ((received_mono hk).trans (hsum.trans htotal).le)
    have hcount : op.outputCountsArray rank = 0 := by
      have := hnone (rank + 1) hrank
      rw [received] at this
      omega
    rw [copying_eq hsum elements rank, sharesMeeting_eq_empty hcount, initLocalStat,
      scanRanks_empty hzero hzero hnone (Nat.zero_add _), card_empty]
    exact if_neg hcount.not_gt
  rcases Nat.eq_zero_or_pos (op.outputElement / op.aivNum) with hzero | havg
  · refine iff_of_false (fun hall => ?_) ?_
    · obtain ⟨rank, hrank, hcount, hlt⟩ := scanRanks_overcounts stack hzero (k := 0)
        (s := ⟨fun i => if 0 < op.outputCountsArray i then 1 else 0, 1, _⟩) hzero rfl
        (hsum ▸ htotal) (Nat.zero_add _)
      have hone := card_sharesMeeting_le_one (a := op.received rank) (b := op.received (rank + 1))
        hzero
      rw [← copying_eq hsum elements rank, ← hall rank hrank] at hone
      exact absurd hone (not_le.mpr ((if_pos hcount).ge.trans_lt hlt))
    · rw [Nat.div_eq_zero_iff_lt hpos] at hzero
      rintro (hnone | ⟨hle, -⟩) <;> omega
  · have hle := (Nat.div_pos_iff.mp havg).2
    rw [NoneBehind, or_iff_right htotal.ne', and_iff_right hle,
      ← alltoAllScanRanks_numbers_iff (k := ⟨op.groupSize, 0, 0⟩)
        (fun i => if 0 < op.outputCountsArray i then 1 else 0) havg
        (op.aivNum_le.trans_lt hlimit) ((op.received_eq _).symm.trans hsum) (op.cumsum stack)
        (fun p hp => (if_pos hp).trans (op.received_eq _)) hpos]
    refine forall₂_congr fun rank hrank => ?_
    rw [copying_eq hsum elements rank, initLocalStat, scanRanks_eq ⟨op.groupSize, 0, 0⟩ rfl,
      card_sharesMeeting_received hsum havg hrank]

/-- Core 0 does not expect less than the number of the cores that copy from the rank. -/
theorem card_copying_le (hcores : 0 < op.blockNum) (hlimit : op.blockNum < 2 ^ 16)
    (hsum : op.received op.groupSize = op.outputElement) (stack : Nat → Nat)
    (elements : Nat → Nat → Nat) {rank : Nat} (hrank : rank < op.groupSize) :
    (op.copying elements rank).card ≤ op.initLocalStat stack rank % 2 ^ 32 := by
  have hscan : op.initLocalStat stack = (Launch.alltoAllScanRanks ⟨op.groupSize, 0, 0⟩ op.aivNum
      (op.outputElement / op.aivNum) (op.cumsum stack) op.groupSize 0
      ⟨fun i => if 0 < op.outputCountsArray i then 1 else 0, 1,
        op.outputElement / op.aivNum⟩).statBase := by
    rw [initLocalStat, scanRanks_eq ⟨op.groupSize, 0, 0⟩ rfl]
  have hbound : op.initLocalStat stack rank < 2 ^ 32 := by
    rw [hscan]
    refine (alltoAllScanRanks_bounds _ rank _).2.trans_lt ?_
    dsimp only
    split <;> split <;> omega
  rw [Nat.mod_eq_of_lt hbound, copying_eq hsum elements rank]
  rcases Nat.eq_zero_or_pos (op.outputElement / op.aivNum) with hzero | havg
  · refine le_trans ?_ (le_scanRanks ..)
    dsimp only
    split
    · exact card_sharesMeeting_le_one hzero
    · rename_i hcount
      rw [sharesMeeting_eq_empty (Nat.eq_zero_of_not_pos hcount), card_empty]
  · rw [card_sharesMeeting_received hsum havg hrank, hscan]
    exact card_inside_le_statBase (k := ⟨op.groupSize, 0, 0⟩)
      (fun i => if 0 < op.outputCountsArray i then 1 else 0) havg (op.aivNum_le.trans_lt hlimit)
      ((op.received_eq _).symm.trans hsum) (op.cumsum stack)
      (fun p hp => (if_pos hp).trans (op.received_eq _)) (aivNum_pos hcores) hrank

/-- The number that core 0 expects for every rank is that of the cores that copy from it, and a
core that waits for it goes on exactly when all of them have copied, if and only if there is
nothing to copy, or no share is empty and core 0 counts none behind the last one. -/
theorem alltoAllV_expects_copying {op : AlltoAllVKernel} (hcores : 0 < op.blockNum)
    (hlimit : op.blockNum < 2 ^ 16) (hcounts : ∀ i < op.groupSize, op.outputCounts i < 2 ^ 32)
    (hsum : ((List.range op.groupSize).map op.outputCounts).sum = op.outputElement)
    (stack : Nat → Nat) (elements : Nat → Nat → Nat) :
    ((∀ rank < op.groupSize, op.initLocalStat stack rank = (op.copying elements rank).card) ↔
        op.NoneBehind) ∧
      ((∀ rank < op.groupSize, ∀ counted : List (Nat × Nat), counted.Nodup →
        (∀ c ∈ counted, c.1 ∈ op.copying elements c.2) →
        (op.WaitLocalStat stack counted rank ↔
          ∀ core ∈ op.copying elements rank, (core, rank) ∈ counted)) ↔ op.NoneBehind) := by
  have hreceived : ∀ n ≤ op.groupSize,
      op.received n = ((List.range n).map op.outputCounts).sum := by
    intro n hn
    induction n with
    | zero => rfl
    | succ n ih =>
      rw [received, ih (by omega), List.range_succ, List.map_append, List.sum_append,
        outputCountsArray, Nat.mod_eq_of_lt (hcounts n (by omega))]
      simp
  have hiff := initLocalStat_eq_iff hcores hlimit ((hreceived _ le_rfl).trans hsum) stack elements
  refine ⟨hiff, ?_⟩
  rw [← hiff]
  exact forall₂_congr fun rank _ => eq_card_iff_waits.symm

/-- Two cores and three ranks, of which the second is copied by both cores. -/
theorem alltoAllV_expects_copying_two :
    let op : AlltoAllVKernel := ⟨3, 2, 5, fun i => [1, 4, 0].getD i 0⟩
    op.initLocalStat (fun _ => 0) 1 = (op.copying (fun _ _ => 0) 1).card ∧
      op.copying (fun _ _ => 0) 1 = {0, 1} := by
  refine ⟨?_, by decide +kernel⟩
  exact (alltoAllV_expects_copying (by decide) (by decide) (by decide) (by decide) (fun _ => 0)
    fun _ _ => 0).1.mpr (.inr ⟨by decide, .inl (by decide)⟩) 1 (by decide)

/-- Two cores and two ranks that send one element and two.  The second part begins with the
share of core 1, the only one to copy from it, but two cores are expected: the last core ends
behind the second share of one element. -/
theorem coinciding_boundary_is_overcounted :
    let op : AlltoAllVKernel := ⟨2, 2, 3, fun i => [1, 2].getD i 0⟩
    ((List.range op.groupSize).map op.outputCounts).sum = op.outputElement ∧
      op.initLocalStat (fun _ => 0) 1 = 2 ∧ op.copying (fun _ _ => 0) 1 = {1} := by
  refine ⟨by decide, by decide +kernel, by decide +kernel⟩

end MemFabric.Zbal.AlltoAllVKernel
