import MemFabric.AccOffload.Lru.FusedV3Tiles
import MemFabric.AccOffload.Lru.PhasedPlan

/-!
# The fused kernel computes the reference step

The phases put together.  On the normal path they end in a finished plan, which
`publish_eq_lruStep` turns into the reference row; on the reset fast path no slot
holds a token, so the reference step itself simplifies to what the tiles write.
The result in UB is then copied to global memory, where it meets the phased
kernels.
-/

namespace MemFabric.AccOffload.Lru.FusedV3

open Simt Cache Reference List Function

/-! ## The normal path -/

/-- The miss loop leaves the list of misses in both cases of `hasMiss`. -/
theorem missesBelow_of_hasMiss {missing : Int → Bool} {ub : Ub} (o : Schedule)
    (hmiss : ∀ pos, 0 ≤ pos → pos < 2048 → (IsMiss ub pos ↔ missing pos = true))
    (hany : ub.hasMiss ≠ 0 ↔ ∃ pos, 0 ≤ pos ∧ pos < 2048 ∧ IsMiss ub pos) :
    MissesBelow missing ub 2048 (if ub.hasMiss ≠ 0 then
      forStride 0 fusedV3Shape.topk threads
        (fun tile => missTile (fun i => o (4098 + tile.toNat + i)) tile) (0, ub)
      else (0, ub)) := by
  by_cases h : ub.hasMiss ≠ 0
  · rw [if_pos h]
    exact missTiles_missesBelow o hmiss
  · rw [if_neg h]
    have hnone : (Int.range 0 2048).filter missing = [] := by
      rw [filter_eq_nil_iff]
      intro pos hpos hm
      have hb := Int.mem_range_iff.mp hpos
      exact h (hany.mpr ⟨pos, hb.1, hb.2, (hmiss pos hb.1 hb.2).mpr hm⟩)
    exact ⟨by simp [rank, hnone], ub.scan, by simp [hnone]⟩

theorem length_misses_fusedV3_le (inp : RowInput) (row : Row) :
    ((stepPlan fusedV3Shape inp row).misses.length : Int) ≤ 2048 :=
  length_misses_le inp row (by decide)

section

variable {inp : RowInput} {row : Row} {ub : Ub} (htopk : ub.topkIndices = inp.topkIndices)
  (hrow : ub.toRow = { startRow fusedV3Shape inp row with lastReqId := ub.lastReqId })

include htopk hrow

/-- The first four phases: the use order is encoded and the hits are resolved. -/
theorem resolved_eq (o : Schedule) :
    ∃ mark pos u4,
      resolveHits (o 3) (encodeAndElect (o 2) (minPositions (o 1) (initMarks (o 0) ub))) = u4 ∧
      { ub with
        tokenMark := mark
        tokenPos := pos
        lruSlots := fun i => if 0 ≤ i ∧ i < fusedV3Shape.capacity then
          encodedSlot fusedV3Shape inp.topkIndices (startTokens fusedV3Shape inp row)
            (startLru fusedV3Shape inp row i) else ub.lruSlots i
        currentSlots := hitSlots fusedV3Shape inp row } = u4 := by
  have htok : ∀ s, fusedV3Shape.IsSlot s →
      ub.slotToToken s = startTokens fusedV3Shape inp row s := fun s hs => by
    rw [hrow]
    exact if_pos hs
  have hlru : ∀ i, 0 ≤ i → i < 4096 → ub.lruSlots i = startLru fusedV3Shape inp row i :=
    fun i h0 h1 => by
      rw [hrow]
      exact if_pos ⟨h0, h1⟩
  have h1 := initMarks_eq (o 0) ub
  generalize initMarks (o 0) ub = u1 at h1 ⊢
  obtain ⟨pos, hpos, h2⟩ := minPositions_eq (o 1) u1 (by subst h1; exact fun _ ht => if_pos ht)
  generalize minPositions (o 1) u1 = u2 at h2 ⊢
  subst h1
  obtain ⟨mark, hmark, h3⟩ := @encodeAndElect_eq _ _ u2 (by subst h2; exact hpos)
    (by subst h2; exact htok) (by subst h2; exact hlru) (o 2)
    (by subst h2; exact fun _ ht => if_pos ht)
  generalize encodeAndElect (o 2) u2 = u3 at h3 ⊢
  subst h2
  dsimp only at hpos hmark h3
  rw [htopk] at hpos hmark h3
  refine ⟨mark, pos, _, ?_, rfl⟩
  rw [@resolveHits_eq inp.topkIndices _ _ u3 (by subst h3; exact hpos) (by subst h3; exact hmark)
    (by subst h3; exact htok) (by subst h3; exact fun _ h0 h1 => if_pos ⟨h0, h1⟩) (o 3)]
  have hcur : (fun pos => (servedBy fusedV3Shape inp.topkIndices (startTokens fusedV3Shape inp row)
      (startLru fusedV3Shape inp row) 4096 pos).getD (ub.currentSlots pos)) =
      hitSlots fusedV3Shape inp row := by
    funext pos
    rw [← servedBy_getD_eq_hitSlots, hrow]
    rfl
  subst h3
  dsimp only
  rw [hcur, htopk]

theorem normalPlan_planReady (o : Schedule) :
    PlanReady fusedV3Shape inp row (fusedV3NormalPlan o ub).toWork := by
  unfold fusedV3NormalPlan
  obtain ⟨mark, pos, u4, hres, hu4⟩ := resolved_eq htopk hrow o
  simp only [hres]
  have hst : StackedBelow inp.topkIndices (startTokens fusedV3Shape inp row)
      (startLru fusedV3Shape inp row) u4 4096 _ :=
    stackTiles_stackedBelow (fun i h0 h1 => by rw [← hu4]; exact if_pos ⟨h0, h1⟩) o
  generalize forStride 0 fusedV3Shape.capacity threads
    (fun tile => stackTile (fun i => o (4 + tile.toNat + i)) tile) ⟨0, 0, u4⟩ = st at hst ⊢
  obtain ⟨scan, any, hany, hanyIff⟩ := blockAny1024_hasMiss (fun i => o (4096 + i)) st.ub
  simp only [hany]
  have hmiss : ∀ pos, 0 ≤ pos → pos < 2048 →
      (IsMiss { st.ub with scan := scan, hasMiss := any } pos ↔
      needsSlot fusedV3Shape inp.topkIndices (startTokens fusedV3Shape inp row)
        (startLru fusedV3Shape inp row) pos = true) := fun pos h0 h1 => by
    rw [needsSlot_iff h0 h1, hst.frame, ← hu4, ← htopk]
    exact Iff.rfl
  have hms := missesBelow_of_hasMiss o hmiss hanyIff
  rw [(o 8192).run_lane_zero (by decide)]
  have hmisses : (Int.range 0 2048).filter (needsSlot fusedV3Shape inp.topkIndices
      (startTokens fusedV3Shape inp row) (startLru fusedV3Shape inp row)) =
      (stepPlan fusedV3Shape inp row).misses := by
    have htop : fusedV3Shape.topk = 2048 := rfl
    rw [stepPlan_misses, htop]
  have hev : st.evictBase = (stepPlan fusedV3Shape inp row).evictable.length := by
    rw [hst.evictBase, stepPlan, evictable_eq, length_map]
    rfl
  have hhit : st.hitBase = (stepPlan fusedV3Shape inp row).hits.length := by
    rw [hst.hitBase, stepPlan, hits_eq, length_map]
    rfl
  have hready := planReady_of_tables u4.lruSlots pos ub.epoch
    (by decide) (by decide) hrow
    (fun i hi => by rw [← hu4]; exact if_neg hi)
    (by rw [stepPlan, evictable_eq]; exact hst.evictable.storedAt)
    (by rw [stepPlan, hits_eq]; exact hst.hits.storedAt) hev hhit
  obtain ⟨scan', hframe⟩ := hms.frame
  rw [hframe, hms.base, rank, hmisses, hst.frame, ← hu4]
  rw [← hu4] at hready
  simp only [map_id', htopk]
  exact hready

end

/-! ## The reset fast path -/

def validPos (inp : RowInput) (pos : Int) : Bool := fusedV3Shape.IsToken (inp.topkIndices pos)

section Fast

variable {inp : RowInput} {row : Row} {ub : Ub} (htopk : ub.topkIndices = inp.topkIndices)
  (hrow : ub.toRow = { startRow fusedV3Shape inp row with lastReqId := ub.lastReqId })

theorem fastOrder_eq (o : LaneOrder threads) (assignCount : Int) (ub : Ub) :
    o.run (fun thread ub =>
      forStride thread fusedV3Shape.capacity threads (resetFastEntry assignCount)
        (if thread = 0 then { ub with missCount := assignCount } else ub)) ub =
      { ub with
        missCount := assignCount
        lruSlots := fun i => if 0 ≤ i ∧ i < fusedV3Shape.capacity then
          (if i < fusedV3Shape.capacity - assignCount then assignCount + i
            else i - (fusedV3Shape.capacity - assignCount)) else ub.lruSlots i } := by
  let entry := fun i : Int => if int32 i < fusedV3Shape.capacity - assignCount then
    assignCount + int32 i else int32 i - (fusedV3Shape.capacity - assignCount)
  have hrun := o.run_put₂ (fun (n : Int) (a : Int → Int) =>
      ({ ub with missCount := n, lruSlots := a } : Ub)) (fun thread ub =>
      forStride thread fusedV3Shape.capacity threads (resetFastEntry assignCount)
        (if thread = 0 then { ub with missCount := assignCount } else ub))
    (fun t n => if t = 0 then assignCount else n)
    (fun t a => forStride t fusedV3Shape.capacity threads
      (fun i a => update a i (entry i)) a)
    (fun t n a => by
      rw [← apply_ite (fun n : Int => ({ ub with missCount := n, lruSlots := a } : Ub))]
      exact (forStride_hom (fun a : Int → Int => ({ ub with
        missCount := if t = 0 then assignCount else n, lruSlots := a } : Ub)) a
        fun _ _ => rfl).symm) ub.missCount ub.lruSlots
  refine hrun.trans ?_
  rw [o.run_lane_zero (by decide) (fun _ => assignCount),
    o.run_stride_map (by decide) _ (fun i _ => entry i)]
  have hentry : ∀ i, 0 ≤ i ∧ i < fusedV3Shape.capacity → entry i =
      if i < fusedV3Shape.capacity - assignCount then assignCount + i
        else i - (fusedV3Shape.capacity - assignCount) := fun i hi => by
    have hlt : i < 4096 := hi.2
    simp only [entry, int32_eq (by omega : -2 ^ 31 ≤ i) (by omega)]
  congr 3
  funext i
  exact ite_congr rfl (hentry i) fun _ => rfl

section

variable (hreq : row.lastReqId ≠ inp.reqId)

include hrow hreq

theorem fast_slotToToken :
    overlay ub.slotToToken ((stepPlan fusedV3Shape inp row).misses.map inp.topkIndices) =
      (lruStep fusedV3Shape inp row).slotToToken := by
  have hlen := length_misses_fusedV3_le inp row
  funext slot
  simp only [lruStep]
  by_cases hs : fusedV3Shape.IsSlot slot
  · rw [if_pos hs, missOf_reset hreq (by decide) (by decide) hs, overlay, if_pos hs.1,
      getElem?_map, hrow]
    cases (stepPlan fusedV3Shape inp row).misses[slot.toNat]? with
    | some pos => rfl
    | none => exact if_pos hs
  · rw [if_neg hs]
    by_cases h0 : 0 ≤ slot
    · have hge : ¬ slot < 4096 := fun h => hs ⟨h0, h⟩
      rw [overlay_of_le _ _ (by rw [length_map]; omega), hrow]
      exact if_neg hs
    · rw [overlay, if_neg h0, hrow]
      exact if_neg hs

theorem fast_currentSlots :
    (fun pos => if (0 ≤ pos ∧ pos < 2048) ∧ validPos inp pos = true then
      (rank (validPos inp) pos : Int) else ub.currentSlots pos) =
      (lruStep fusedV3Shape inp row).currentSlots := by
  funext pos
  simp only [lruStep]
  by_cases hpos : 0 ≤ pos ∧ pos < 2048
  · rw [if_pos (show 0 ≤ pos ∧ pos < fusedV3Shape.topk from hpos),
      slotOf_reset hreq (by decide) hpos.1 hpos.2, hitSlot_reset hreq]
    by_cases ht : fusedV3Shape.IsToken (inp.topkIndices pos)
    · rw [if_pos ht, if_pos ⟨hpos, decide_eq_true ht⟩]
      rfl
    · rw [if_neg ht, if_neg (fun h => ht (of_decide_eq_true h.2)), hrow]
      exact if_pos hpos
  · rw [if_neg (fun h => hpos h.1), if_neg (show ¬ (0 ≤ pos ∧ pos < fusedV3Shape.topk) from hpos),
      hrow]
    exact if_neg hpos

theorem fast_missSlots :
    overlay ub.missSlots ((stepPlan fusedV3Shape inp row).misses.map fun pos =>
      (rank (validPos inp) pos : Int)) = (lruStep fusedV3Shape inp row).missSlots := by
  have hlen := length_misses_fusedV3_le inp row
  have hmisses : (stepPlan fusedV3Shape inp row).misses =
    (Int.range 0 fusedV3Shape.topk).filter (validPos inp) := misses_reset hreq
  have hcap : fusedV3Shape.capacity = 4096 := rfl
  funext i
  simp only [lruStep]
  by_cases hi : 0 ≤ i ∧ i < fusedV3Shape.topk
  · rw [if_pos hi, overlay, if_pos hi.1, getElem?_map,
      assignCount_reset hreq (by decide) (by decide), getElem?_take]
    cases hm : (stepPlan fusedV3Shape inp row).misses[i.toNat]? with
    | some pos =>
      have hlt' := (List.getElem?_eq_some_iff.mp hm).1
      rw [hmisses] at hm
      rw [if_pos hlt', getElem?_evictable_reset hreq (by omega)]
      simp [(exists_rank _ hm).2.2.2]
    | none =>
      have hge := getElem?_eq_none_iff.mp hm
      rw [if_neg (by omega), hrow]
      exact if_pos hi
  · rw [if_neg hi]
    by_cases h0 : 0 ≤ i
    · have hge : ¬ i < 2048 := fun h => hi ⟨h0, h⟩
      rw [overlay_of_le _ _ (by rw [length_map]; omega), hrow]
      exact if_neg hi
    · rw [overlay, if_neg h0, hrow]
      exact if_neg hi

theorem fast_lruSlots :
    (fun i => if 0 ≤ i ∧ i < fusedV3Shape.capacity then
      (if i < fusedV3Shape.capacity - (stepPlan fusedV3Shape inp row).assignCount then
        ((stepPlan fusedV3Shape inp row).assignCount : Int) + i
      else i - (fusedV3Shape.capacity - (stepPlan fusedV3Shape inp row).assignCount))
      else ub.lruSlots i) = (lruStep fusedV3Shape inp row).lruSlots := by
  have hlen := length_misses_fusedV3_le inp row
  have hcount : (stepPlan fusedV3Shape inp row).assignCount = _ :=
    assignCount_reset hreq (by decide) (by decide)
  have hcap : fusedV3Shape.capacity = 4096 := rfl
  funext i
  refine ite_congr rfl (fun hi => ?_) fun hi => ?_
  · rw [getElem?_newOrder_reset hreq (Int.natCast_nonneg _) (by omega) rfl hi.1 hi.2,
      Option.getD_some]
  · rw [hrow]
    exact if_neg hi

end

include htopk hrow in
/-- On a row that changes its request the fast path is the reference step. -/
theorem resetFastPath_toRow (o : Schedule) (hreq : row.lastReqId ≠ inp.reqId) :
    (fusedV3ResetFastPath o ub).toRow =
      { lruStep fusedV3Shape inp row with lastReqId := ub.lastReqId } := by
  have hvalid : ∀ pos, fusedV3Shape.IsToken (ub.topkIndices pos) ↔ validPos inp pos = true :=
    fun pos => by rw [htopk, validPos, decide_eq_true_iff]
  have hcap : fusedV3Shape.capacity = 4096 := rfl
  have hmisses :
      (Int.range 0 2048).filter (validPos inp) = (stepPlan fusedV3Shape inp row).misses :=
    (misses_reset hreq).symm
  have hlen := length_misses_fusedV3_le inp row
  have hcount : (stepPlan fusedV3Shape inp row).assignCount = _ :=
    assignCount_reset hreq (by decide) (by decide)
  unfold fusedV3ResetFastPath
  have hst := fastTiles_fastBelow o hvalid
  generalize forStride 0 fusedV3Shape.topk threads
    (fun tile => resetFastTile (fun i => o (tile.toNat + i)) tile) (0, ub) = st at hst ⊢
  have hassign : (if st.1 > fusedV3Shape.capacity then fusedV3Shape.capacity else st.1) =
      ((stepPlan fusedV3Shape inp row).assignCount : Int) := by
    have hbase : st.1 = (stepPlan fusedV3Shape inp row).misses.length := by
      rw [hst.base, rank, hmisses]
    rw [if_neg (by omega), hbase, hcount]
  obtain ⟨scan, hframe⟩ := hst.frame
  rw [fastOrder_eq, hassign, hframe, hmisses, htopk]
  apply Row.ext
  · rfl
  · exact fast_slotToToken hrow hreq
  · dsimp only
    exact fast_lruSlots hrow hreq
  · dsimp only
    exact fast_currentSlots hrow hreq
  · rfl
  · rw [← overlay_missTokens inp row (by decide), hrow]
  · exact fast_missSlots hrow hreq

end Fast

/-! ## Publication -/

section

variable {o : LaneOrder threads} {inp : RowInput} {ub : Ub} {w : Work}

private theorem publish_hom {α : Type} {π : Work → α} {f g : Int → α → α} {c : α → α}
    (hslot : ∀ i w, π (publishSlot ub i w) = f i (π w))
    (hpos : ∀ i w, π (publishPos ub i w) = g i (π w))
    (hctl : ∀ w, π (publishControl inp ub w) = c (π w)) :
    π (publishFusedV3StateDirectGm o inp ub w) =
      o.run (fun t a => if t = 0 then
        c (forStride t fusedV3Shape.topk threads g (forStride t fusedV3Shape.capacity threads f a))
        else forStride t fusedV3Shape.topk threads g
          (forStride t fusedV3Shape.capacity threads f a)) (π w) := by
  refine o.run_hom π w fun t w => ?_
  rw [apply_ite π, hctl, forStride_hom π _ hpos, forStride_hom π _ hslot]

private theorem publish_slots (π : Work → Int → Int) {v : Int → Int}
    (hslot : ∀ i w, π (publishSlot ub i w) = update (π w) i (v i))
    (hpos : ∀ i w, π (publishPos ub i w) = π w) (hctl : ∀ w, π (publishControl inp ub w) = π w) :
    π (publishFusedV3StateDirectGm o inp ub w) =
      fun i => if 0 ≤ i ∧ i < fusedV3Shape.capacity then v i else π w i := by
  rw [publish_hom (f := fun i a => update a i (v i)) (g := fun _ a => a)
    (c := fun a => a) hslot hpos hctl]
  simp only [ite_self, forStride_id]
  exact o.run_stride_map (by decide) _ (fun i _ => v i) _

private theorem publish_positions (π : Work → Int → Int) {v : Int → Int}
    (hslot : ∀ i w, π (publishSlot ub i w) = π w)
    (hpos : ∀ i w, π (publishPos ub i w) = update (π w) i (v i))
    (hctl : ∀ w, π (publishControl inp ub w) = π w) :
    π (publishFusedV3StateDirectGm o inp ub w) =
      fun i => if 0 ≤ i ∧ i < fusedV3Shape.topk then v i else π w i := by
  rw [publish_hom (f := fun _ a => a) (g := fun i a => update a i (v i))
    (c := fun a => a) hslot hpos hctl]
  simp only [ite_self, forStride_id]
  exact o.run_stride_map (by decide) _ (fun i _ => v i) _

private theorem publish_cell (π : Work → Int) {v : Int}
    (hslot : ∀ i w, π (publishSlot ub i w) = π w) (hpos : ∀ i w, π (publishPos ub i w) = π w)
    (hctl : ∀ w, π (publishControl inp ub w) = v) :
    π (publishFusedV3StateDirectGm o inp ub w) = v := by
  rw [publish_hom (f := fun _ a => a) (g := fun _ a => a) (c := fun _ => v) hslot hpos hctl]
  simp only [forStride_id]
  exact o.run_lane_zero (by decide) (fun _ => v) _

private theorem publish_frame (π : Work → Int → Int)
    (hslot : ∀ i w, π (publishSlot ub i w) = π w) (hpos : ∀ i w, π (publishPos ub i w) = π w)
    (hctl : ∀ w, π (publishControl inp ub w) = π w) :
    π (publishFusedV3StateDirectGm o inp ub w) = π w := by
  rw [publish_hom (f := fun _ a => a) (g := fun _ a => a) (c := fun a => a) hslot hpos hctl]
  exact o.run_frame id _ (by simp)

theorem publish_eq :
    publishFusedV3StateDirectGm o inp ub w =
      { w with
        lastReqId := inp.reqId
        missCount := ub.missCount
        epoch := fusedV3Epoch
        slotToToken := fun slot =>
          if fusedV3Shape.IsSlot slot then ub.slotToToken slot else w.slotToToken slot
        lruSlots := fun i =>
          if 0 ≤ i ∧ i < fusedV3Shape.capacity then ub.lruSlots i else w.lruSlots i
        currentSlots := fun pos =>
          if 0 ≤ pos ∧ pos < fusedV3Shape.topk then ub.currentSlots pos else w.currentSlots pos
        missTokens := fun i =>
          if 0 ≤ i ∧ i < fusedV3Shape.topk then ub.missTokens i else w.missTokens i
        missSlots := fun i =>
          if 0 ≤ i ∧ i < fusedV3Shape.topk then ub.missSlots i else w.missSlots i } := by
  apply Work.ext
  · exact publish_cell (·.lastReqId) (fun _ _ => rfl) (fun _ _ => rfl) fun _ => rfl
  · exact publish_slots (·.slotToToken) (fun _ _ => rfl) (fun _ _ => rfl) fun _ => rfl
  · exact publish_slots (·.lruSlots) (fun _ _ => rfl) (fun _ _ => rfl) fun _ => rfl
  · exact publish_positions (·.currentSlots) (fun _ _ => rfl) (fun _ _ => rfl) fun _ => rfl
  · exact publish_cell (·.missCount) (fun _ _ => rfl) (fun _ _ => rfl) fun _ => rfl
  · exact publish_positions (·.missTokens) (fun _ _ => rfl) (fun _ _ => rfl) fun _ => rfl
  · exact publish_positions (·.missSlots) (fun _ _ => rfl) (fun _ _ => rfl) fun _ => rfl
  · exact publish_frame (·.tokenMark) (fun _ _ => rfl) (fun _ _ => rfl) fun _ => rfl
  · exact publish_frame (·.tokenPos) (fun _ _ => rfl) (fun _ _ => rfl) fun _ => rfl
  · exact publish_cell (·.epoch) (fun _ _ => rfl) (fun _ _ => rfl) fun _ => rfl

end

/-! ## The kernel -/

/-- The row in UB when publication starts; the request id there is of no use. -/
theorem fusedV3Plan_toRow (o : Schedule) (inp : RowInput) (ub : Ub)
    (htopk : ub.topkIndices = inp.topkIndices)
    (hnd : (stepPlan fusedV3Shape inp ub.toRow).order.Nodup) :
    ∃ id, (if (fusedV3ResetPrepareUb o inp ub).resetRow ≠ 0 then
        fusedV3ResetFastPath (fun i => o (2 + i)) (fusedV3ResetPrepareUb o inp ub)
      else fusedV3AssignRebuildUb (fun i => o (8195 + i))
        (fusedV3NormalPlan (fun i => o (2 + i)) (fusedV3ResetPrepareUb o inp ub))).toRow =
      { lruStep fusedV3Shape inp ub.toRow with lastReqId := id } := by
  have htopk' : (fusedV3ResetPrepareUb o inp ub).topkIndices = inp.topkIndices :=
    (resetPrepare_topkIndices o inp ub).trans htopk
  have hrow := resetPrepare_toRow o inp ub
  have hreset := resetPrepare_resetRow o inp ub
  generalize fusedV3ResetPrepareUb o inp ub = u at htopk' hrow hreset ⊢
  have hid : ub.lastReqId = u.lastReqId := by rw [hrow]
  rw [hid] at hrow
  split_ifs with hreq
  all_goals rw [hreset, flag_ne_zero_iff] at hreq
  · exact ⟨_, resetFastPath_toRow htopk' hrow _ hreq⟩
  · exact ⟨_, publish_eq_lruStep _ _ (by decide) (normalPlan_planReady htopk' hrow _) (by decide)
      (by decide) hnd⟩

private theorem copyBack {p : Int → Prop} [DecidablePred p] {f g h : Int → Int}
    (hin : ∀ i, p i → f i = g i) (hout : ∀ i, ¬ p i → h i = g i) :
    (fun i => if p i then f i else h i) = g := by
  funext i
  split_ifs with hi
  · exact hin i hi
  · exact hout i hi

/-- The fused kernel is the reference step; of the workspace it writes the epoch
cell only. -/
theorem fusedV3Kernel_eq (o : Schedule) (ub0 : Ub) (inp : RowInput) (w : Work)
    (hnd : (stepPlan fusedV3Shape inp w.toRow).order.Nodup) :
    offloadLruCompactFusedV3Kernel o ub0 inp w =
      { w with toRow := lruStep fusedV3Shape inp w.toRow, epoch := fusedV3Epoch } := by
  unfold offloadLruCompactFusedV3Kernel lruCompactFusedV3Body
  generalize hub : ({ ub0 with
    lastReqId := w.lastReqId
    topkIndices := copyGmToUb ub0.topkIndices inp.topkIndices fusedV3Shape.topk
    slotToToken := copyGmToUb ub0.slotToToken w.slotToToken fusedV3Shape.capacity
    lruSlots := copyGmToUb ub0.lruSlots w.lruSlots fusedV3Shape.capacity } : Ub) = ub
  -- the lanes see the staged tables, which agree with the row where it counts
  have hsame : SameRow fusedV3Shape { inp with topkIndices := ub.topkIndices } inp ub.toRow
      w.toRow := by
    subst hub
    exact
      { reqId := rfl
        stablePrefixLen := rfl
        topkIndices := fun pos h0 h1 => if_pos ⟨h0, h1⟩
        lastReqId := rfl
        slotToToken := fun slot hs => if_pos hs
        lruSlots := fun i h0 h1 => if_pos ⟨h0, h1⟩ }
  obtain ⟨id, hplan⟩ := fusedV3Plan_toRow o { inp with topkIndices := ub.topkIndices } ub rfl
    (by rw [hsame.stepPlan_eq]; exact hnd)
  have hprep : fusedV3ResetPrepareUb o { inp with topkIndices := ub.topkIndices } ub =
      fusedV3ResetPrepareUb o inp ub := rfl
  rw [hprep] at hplan
  rw [publish_eq, hplan]
  apply Work.ext
  · rfl
  · exact copyBack (fun _ => hsame.slotToToken_eq) fun _ hs => (if_neg hs).symm
  · exact copyBack (fun _ => hsame.lruSlots_eq) fun _ hi => (if_neg hi).symm
  · exact copyBack (fun _ => hsame.currentSlots_eq) fun _ hi => (if_neg hi).symm
  · exact congrArg (fun p : LruPlan Int Int => (p.assignCount : Int)) hsame.stepPlan_eq
  · exact copyBack (fun _ => hsame.missTokens_eq) fun _ hi => (if_neg hi).symm
  · exact copyBack (fun _ => hsame.missSlots_eq) fun _ hi => (if_neg hi).symm
  · rfl
  · rfl
  · rfl

/-! ## The fused kernel and the phased kernels -/

theorem assignCount_fusedV3_le (inp : RowInput) (row : Row) :
    ((stepPlan fusedV3Shape inp row).assignCount : Int) ≤ 2048 := by
  have hle := length_misses_fusedV3_le inp row
  unfold LruPlan.assignCount
  omega

/-- On the production shape both implementations compute the same row, whatever
the lane orders, the former content of UB and the workspace of the fused kernel,
and from any workspace that makes the phased kernels clear theirs. -/
theorem fusedV3Kernel_toRow_eq_phasedRow (o : Schedule) (p : Phased.Orders) (ub0 : Ub)
    (inp : RowInput) (row : Row) (ws ws' : Workspace)
    (hlru : DistinctSlots fusedV3Shape row.lruSlots) (hepoch : -1 ≤ ws'.epoch) :
    (Phased.phasedRow p fusedV3Shape inp ⟨row, ws'⟩).map Work.toRow =
      some (offloadLruCompactFusedV3Kernel o ub0 inp ⟨row, ws⟩).toRow := by
  have hnd := nodup_stepPlan_order hlru inp
  have hshape : Phased.PhasedShape fusedV3Shape := by
    constructor <;> decide
  have hcount : ((stepPlan fusedV3Shape inp row).assignCount : Int) ≤ 2 ^ 31 - 128 :=
    (assignCount_fusedV3_le inp row).trans (by norm_num)
  have hphased := Phased.phasedRow_eq_lruStep (w := ⟨row, ws'⟩) p hshape (.inl (.inl hepoch))
    hcount hnd
  rw [fusedV3Kernel_eq o ub0 inp ⟨row, ws⟩ hnd, hphased]

def residentRow : Row where
  lastReqId := 7
  slotToToken s := s
  lruSlots i := 4095 - i
  currentSlots _ := -1
  missCount := 0
  missTokens _ := -1
  missSlots _ := -1

/-- The same request asks for the tokens `2500, ..., 4547` with a stable prefix of
`3000`: some hit, some were invalidated and some are out of range. -/
theorem fusedV3Kernel_toRow_eq_phasedRow_resident :
    DistinctSlots fusedV3Shape residentRow.lruSlots ∧
    (Phased.phasedRow ⟨.ascending _, .ascending _, .ascending _⟩ fusedV3Shape
      ⟨7, fun pos => 2500 + pos, 3000⟩ ⟨residentRow, fun _ => 5, fun _ => 5, 0⟩).map Work.toRow =
      some (offloadLruCompactFusedV3Kernel (fun _ => .ascending _)
        ⟨⟨residentRow, fun _ => 1, fun _ => 1, 1⟩, fun _ => 1,
          ⟨fun _ => 1, fun _ => 1, fun _ => 1, fun _ => 1⟩, 1, 1, 1, 1, 1⟩
        ⟨7, fun pos => 2500 + pos, 3000⟩ ⟨residentRow, fun _ => 9, fun _ => 9, -40⟩).toRow := by
  have hlru : DistinctSlots fusedV3Shape residentRow.lruSlots := by
    intro i j _ _ _ _ _ heq
    simp only [residentRow] at heq
    omega
  exact ⟨hlru, fusedV3Kernel_toRow_eq_phasedRow _ _ _ _ _ _ _ hlru (by decide)⟩

end MemFabric.AccOffload.Lru.FusedV3
