import MemFabric.AccOffload.ResidentAddrs.Packed

/-!
# The parallel kernel packs the same descriptors

With one row the misses are spread over the lanes, two for each lane.  Two block
scans give every valid miss its rank, and the sum of both totals is where the V
copies start.  The result is that of the row kernel for every input, including
the sizes and counts that the row kernel clamps or rejects.
-/

namespace MemFabric.AccOffload.ResidentAddrs.Parallel

open Simt List

/-! ## The block scan -/

theorem warpExclusiveScan1024_rank (o : Schedule) (flag : Int → Int) (ub : Ub) {t : Int}
    (h0 : 0 ≤ t) (h1 : t < 2 ^ 5 * 2 ^ 5) :
    (warpExclusiveScan1024 o flag ub).1 t = sumTo flag t :=
  scanTotals_add_sub_eq (o 0) (o 1) flag ub.warpTotals ub.warpBases h0 h1

theorem warpExclusiveScan1024_total (o : Schedule) (flag : Int → Int) (ub : Ub) :
    (warpExclusiveScan1024 o flag ub).2.total = sumTo flag (2 ^ 5 * 2 ^ 5) := by
  rw [warpExclusiveScan1024]
  rw [(o 2).run_lane_zero (by norm_num)]
  exact scanTotals_add_publishTotals_last (o 0) (o 1) flag ub.warpTotals ub.warpBases

/-! ## The records of the lanes -/

section

variable (c : Call)

def isLoaded (g : Int) : Bool := (loadItem c (launchCount c) g).isSome

/-- Both records of every lane, in the order in which the lanes publish them. -/
def records (o : LaneOrder threads) : List Int := o.lanes.flatMap fun t => [t, threads + t]

theorem mem_records (o : LaneOrder threads) {g : Int} : g ∈ records o ↔ 0 ≤ g ∧ g < 2048 := by
  have hthreads : (threads : Int) = 1024 := by norm_num
  simp only [records, mem_flatMap, o.mem_lanes, mem_cons, not_mem_nil, or_false,
    hthreads]
  constructor
  · rintro ⟨t, ht, rfl | rfl⟩ <;> omega
  · rintro ⟨h0, h1⟩
    by_cases hg : g < 1024
    · exact ⟨g, ⟨h0, hg⟩, Or.inl rfl⟩
    · exact ⟨g - 1024, by omega, Or.inr (by omega)⟩

theorem nodup_records (o : LaneOrder threads) : (records o).Nodup := by
  have hthreads : (threads : Int) = 1024 := by norm_num
  refine nodup_flatMap.mpr ⟨fun t _ => by simp, ?_⟩
  refine Pairwise.imp_of_mem (R := (· ≠ ·)) (fun {t u} ht hu hne => ?_) o.nodup
  have hbt := o.mem_lanes.mp ht
  have hbu := o.mem_lanes.mp hu
  refine disjoint_left.mpr fun g hg hg' => ?_
  simp only [mem_cons, not_mem_nil, or_false] at hg hg' hbt hbu
  omega

theorem sumTo_validFlag {t : Int} (h0 : 0 ≤ t) :
    sumTo (fun t => validFlag (loadItem c (launchCount c) t)) t = rank (isLoaded c) t :=
  sumTo_flag (isLoaded c) h0 fun _ _ _ => rfl

theorem rank_add_sumTo_validFlag {t : Int} (h0 : 0 ≤ t) :
    (rank (isLoaded c) threads : Int) +
      sumTo (fun t => validFlag (loadItem c (launchCount c) (t + threads))) t =
        rank (isLoaded c) (threads + t) :=
  rank_add_sumTo (isLoaded c) (by omega) h0 fun i _ _ => by
    rw [add_comm i]
    rfl

/-- The kernel in terms of ranks: every record is published at its rank. -/
theorem residentAddrsParallelVf_eq (o : Schedule) (ub : Ub) (d : Descriptors) :
    residentAddrsParallelVf o ub c d =
      { toCells := (records (o 7)).foldl (fun d g => publishRecord c (rank (isLoaded c) 2048)
          (rank (isLoaded c) g) (loadItem c (launchCount c) g) d) d.toCells
        numTokens := rank (isLoaded c) 2048 * 2 } := by
  have hthreads : (threads : Int) = 2 ^ 5 * 2 ^ 5 := by norm_num
  have htotal : (rank (isLoaded c) threads : Int) +
      sumTo (fun t => validFlag (loadItem c (launchCount c) (t + threads))) threads =
        rank (isLoaded c) 2048 := by
    rw [rank_add_sumTo_validFlag c (by omega), show (threads : Int) + threads = 2048 by norm_num]
  rw [residentAddrsParallelVf]
  dsimp only
  rw [(o 0).run_lane_zero (by norm_num), warpExclusiveScan1024_total, warpExclusiveScan1024_total,
    ← hthreads, sumTo_validFlag c (by omega), htotal]
  refine Descriptors.ext_cells ?_ ?_
  · rw [records, foldl_flatMap]
    refine (o 7).run_rel (fun (d : Descriptors) d' => d.toCells = d') rfl ?_
    intro t d d' h0 h1 hd
    rw [warpExclusiveScan1024_rank _ _ _ h0 h1, warpExclusiveScan1024_rank _ _ _ h0 h1,
      sumTo_validFlag c h0, rank_add_sumTo_validFlag c h0, add_comm t]
    simp only [← hd]
    split_ifs <;> rfl
  · refine ((o 7).run_rel (fun (d : Descriptors) n => d.numTokens = n) rfl ?_).trans
      ((o 7).run_lane_zero (by norm_num) (fun _ => (rank (isLoaded c) 2048 : Int) * 2) d.numTokens)
    intro t d n _ _ hd
    split_ifs with ht
    · rfl
    · exact hd

end

/-! ## The same descriptors -/

theorem loadItem_of_isEmpty {c : Call} (hreq : c.numReqs = 1) (h : IsEmpty c) {g : Int}
    (h0 : 0 ≤ g) : loadItem c (launchCount c) g = none := by
  have hcount : launchCount c = 0 := if_neg (by unfold IsEmpty at h; omega)
  rw [loadItem, if_neg (by omega)]

theorem loadItem_eq {c : Call} (h : ¬ IsEmpty c) (htopk : c.topk ≤ 2048) {g : Int} (h0 : 0 ≤ g) :
    loadItem c (launchCount c) g =
      if g < c.topk ∧ isKept c g = true then some (itemAt c g) else none := by
  unfold IsEmpty at h
  have hcount : launchCount c = clampCount c (c.missCount 0) :=
    if_pos (by unfold maxTopk; omega)
  have hle := clampCount_le (c := c) (by omega) (c.missCount 0)
  by_cases hg : g < c.topk
  · have hkept := isKept_position (r := 0) h0 hg
    have hitem := itemAt_position (r := 0) h0 hg
    rw [zero_mul, zero_add] at hkept hitem
    rw [hkept, hitem, loadItem, item?]
    have hblock : ¬ c.missTokens g < 0 → 0 ≤ (c.missTokens g).tdiv c.blockSize := fun ht =>
      Int.tdiv_nonneg (by omega) (by omega)
    grind
  · rw [loadItem, if_neg (by omega), if_neg (by omega)]

theorem publishRecord_some {c : Call} (rank totalValid : Int) (it : Item) (d : Cells) :
    publishRecord c totalValid rank (some it) d = putItem c totalValid 0 rank it d := by
  simp only [publishRecord, publishResidentAddressItem, putItem, addr, zero_mul, zero_add]

section

variable {c : Call} (h : ¬ IsEmpty c) (htopk : c.topk ≤ 2048)

include h htopk

theorem isLoaded_eq {g : Int} (h0 : 0 ≤ g) :
    isLoaded c g = (decide (g < c.topk) && isKept c g) := by
  rw [isLoaded, loadItem_eq h htopk h0]
  by_cases hlt : g < c.topk <;> cases isKept c g <;> simp [hlt]

theorem rank_isLoaded {n : Int} (hn : n ≤ c.topk) : rank (isLoaded c) n = rank (isKept c) n :=
  rank_congr fun i h0 h1 => by
    rw [isLoaded_eq h htopk h0, decide_eq_true (by omega), Bool.true_and]

theorem rank_isLoaded_total (hreq : c.numReqs = 1) :
    rank (isLoaded c) 2048 = rank (isKept c) (c.numReqs * c.topk) := by
  have hpos : 0 < c.topk := by unfold IsEmpty at h; omega
  rw [hreq, one_mul, ← rank_isLoaded h htopk le_rfl]
  refine rank_eq_of_le hpos.le htopk fun i hi => ?_
  rw [isLoaded_eq h htopk (by omega), decide_eq_false (by omega), Bool.false_and]

/-- The lanes publish what the row kernel publishes at the same position. -/
theorem publishRecord_eq_putKept (hreq : c.numReqs = 1) {g : Int} (h0 : 0 ≤ g) (d : Cells) :
    publishRecord c (rank (isLoaded c) 2048) (rank (isLoaded c) g)
        (loadItem c (launchCount c) g) d =
      if decide (g < c.topk) = true then putKept c g d else d := by
  rw [loadItem_eq h htopk h0]
  by_cases hg : g < c.topk
  · rw [putKept, if_pos (decide_eq_true hg), rank_isLoaded_total h htopk hreq,
      rank_isLoaded h htopk hg.le, Int.ediv_eq_zero_of_lt h0 hg]
    by_cases hk : isKept c g = true
    · rw [if_pos ⟨hg, hk⟩, if_pos hk, publishRecord_some]
    · rw [if_neg (fun hand => hk hand.2), if_neg hk]
      rfl
  · rw [if_neg (fun hand => hg hand.1), if_neg (by simpa using hg)]
    rfl

end

theorem residentAddrsParallelVf_eq_packed {c : Call} (hreq : c.numReqs = 1)
    (htopk : c.topk ≤ 2048) (o : Schedule) (ub : Ub) (d : Descriptors) :
    residentAddrsParallelVf o ub c d = packed c d := by
  rw [residentAddrsParallelVf_eq]
  by_cases h : IsEmpty c
  · have hnone : ∀ g, 0 ≤ g → isLoaded c g = false := fun g h0 => by
      rw [isLoaded, loadItem_of_isEmpty hreq h h0]
      rfl
    have hzero : rank (isLoaded c) 2048 = 0 := by
      rw [rank_eq_of_le le_rfl (by omega) hnone, rank_zero]
    have hcells : (records (o 7)).foldl (fun d g => publishRecord c (rank (isLoaded c) 2048)
        (rank (isLoaded c) g) (loadItem c (launchCount c) g) d) d.toCells = d.toCells := by
      refine foldlRecOn _ _ (motive := (· = d.toCells)) rfl fun d' hd g hg => ?_
      rw [loadItem_of_isEmpty hreq h ((mem_records _).mp hg).1]
      exact hd
    rw [hcells, hzero, packed, copies_of_isEmpty h, Cells.put_nil]
    rfl
  · refine Descriptors.ext_cells ?_ ?_
    · calc
        (records (o 7)).foldl (fun d g => publishRecord c (rank (isLoaded c) 2048)
            (rank (isLoaded c) g) (loadItem c (launchCount c) g) d) d.toCells
            = ((records (o 7)).filter fun g => decide (g < c.topk)).foldl
                (fun d g => putKept c g d) d.toCells := by
          rw [foldl_filter]
          exact foldl_ext _ _ _ fun d g hg =>
            publishRecord_eq_putKept h htopk hreq ((mem_records _).mp hg).1 d
        _ = d.toCells.put (copies c) := by
          refine foldl_putKept h ((nodup_records _).filter _) (fun g hg _ => ?_)
            (fun g h0 h1 _ => ?_) d.toCells
          · obtain ⟨hmem, hlt⟩ := mem_filter.mp hg
            rw [hreq, one_mul]
            exact ⟨((mem_records _).mp hmem).1, of_decide_eq_true hlt⟩
          · rw [hreq, one_mul] at h1
            exact mem_filter.mpr ⟨(mem_records _).mpr (by omega), decide_eq_true h1⟩
    · have hrank := rank_le (isLoaded c) (by omega : (0 : Int) ≤ 2048)
      rw [packed_numTokens, length_copies h, ← rank_isLoaded_total h htopk hreq,
        int32_eq (by omega) (by omega)]

/-- Both kernels write the same count and the same descriptors for one row, and
nothing behind the last descriptor. -/
theorem residentAddrsParallelVf_eq_simtOps (c : Call) (hreq : c.numReqs = 1) (hpos : 0 < c.topk)
    (htopk : c.topk ≤ 2048) (o : Schedule) (ub : Ub) (o' : LaneOrder (lanes c)) (d : Descriptors) :
    residentAddrsParallelVf o ub c d = offloadComputeLruResidentAddrsSimtOps c o' d ∧
      ∀ j, j < 0 ∨ (residentAddrsParallelVf o ub c d).numTokens ≤ j →
        (residentAddrsParallelVf o ub c d).gvasBuffer j = d.gvasBuffer j ∧
        (residentAddrsParallelVf o ub c d).addrBuffer j = d.addrBuffer j ∧
        (residentAddrsParallelVf o ub c d).sizeBuffer j = d.sizeBuffer j := by
  rw [offloadComputeLruResidentAddrsSimtOps_eq_packed, residentAddrsParallelVf_eq_packed hreq htopk]
  refine ⟨rfl, fun j hj => d.toCells.put_frame (copies c) ?_⟩
  have hlen := length_copies_le (by omega) hpos.le
  rw [hreq] at hlen
  rwa [packed_numTokens, int32_eq (by omega) (by omega)] at hj

theorem residentAddrsParallelVf_eq_simtOps_filter :
    (filterCall.numReqs = 1 ∧ 0 < filterCall.topk ∧ filterCall.topk ≤ 2048) ∧
      residentAddrsParallelVf (fun _ => LaneOrder.ascending _) ⟨fun _ => 0, fun _ => 0, 0, 0⟩
          filterCall ⟨⟨fun _ => 0, fun _ => 0, fun _ => 0⟩, 0⟩ =
        offloadComputeLruResidentAddrsSimtOps filterCall (LaneOrder.ascending _)
          ⟨⟨fun _ => 0, fun _ => 0, fun _ => 0⟩, 0⟩ :=
  ⟨⟨rfl, by decide, by decide⟩,
    (residentAddrsParallelVf_eq_simtOps filterCall rfl (by decide) (by decide) _ _ _ _).1⟩

end MemFabric.AccOffload.ResidentAddrs.Parallel

namespace MemFabric.AccOffload.ResidentAddrs

open Parallel

/-! ## Dispatch -/

/-- Every call packs its valid misses, whichever kernel it is sent to. -/
theorem accOffloadComputeLruResidentAddrs_eq_packed (s : Schedules) (c : Call) (d : Descriptors) :
    accOffloadComputeLruResidentAddrs s c d = packed c d := by
  rw [accOffloadComputeLruResidentAddrs]
  split_ifs with h
  · obtain ⟨hreq, hpos, htopk⟩ := h
    rw [offloadOpsComputeLruResidentAddrsMixedParallel, if_neg (by unfold maxTopk; omega),
      residentAddrsParallelVf_eq_packed hreq htopk]
  · exact offloadComputeLruResidentAddrsSimtOps_eq_packed c _ d

end MemFabric.AccOffload.ResidentAddrs
