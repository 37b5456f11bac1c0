import MemFabric.AccOffload.Lru.FusedV3Step
import MemFabric.AccOffload.Lru.Launch
import MemFabric.AccOffload.Lru.Residency
import Mathlib.Data.List.Find
import MemFabric.AccOffload.Lru.Slice

/-!
# What a row takes from the workspace

For rows of any content: the fused kernel takes nothing from the workspace, the
phased kernels take nothing from a slice whose marks are not of their epoch, and
the legacy kernel takes nothing from its scratch.  And what each of them can do
to the marks of a slice.
-/

namespace MemFabric.AccOffload.Lru

open Function Simt Reference

variable {sh : Shape} {inp : RowInput}

/-! ## The fused kernel -/

namespace FusedV3

/-- Publication writes no cell of `token_mark` and `token_pos`. -/
theorem fusedV3Kernel_toWorkspace (o : Schedule) (ub0 : Ub) (inp : RowInput) (w : Work) :
    (offloadLruCompactFusedV3Kernel o ub0 inp w).toWorkspace =
      { w.toWorkspace with epoch := fusedV3Epoch } := by
  unfold offloadLruCompactFusedV3Kernel lruCompactFusedV3Body
  rw [publish_eq]

theorem fusedV3Kernel_toRow_congr (o : Schedule) (ub0 : Ub) (inp : RowInput) (row : Row)
    (ws ws' : Workspace) :
    (offloadLruCompactFusedV3Kernel o ub0 inp ⟨row, ws⟩).toRow =
      (offloadLruCompactFusedV3Kernel o ub0 inp ⟨row, ws'⟩).toRow := by
  unfold offloadLruCompactFusedV3Kernel lruCompactFusedV3Body
  rw [publish_eq, publish_eq]

end FusedV3

/-! ## The phased kernels -/

/-- Two workspaces with the same plan are carried out alike.  The slots of the
plan may repeat; then the lane order decides, and it is the same. -/
theorem assignPhase_slotToToken_congr {n : Nat} (o : LaneOrder n) (hn : 0 < n)
    (hk : 0 ≤ sh.topk) {row : Row} {w w' : Work} (h : PlanReady sh inp row w)
    (h' : PlanReady sh inp row w') :
    (assignPhase o sh w).slotToToken = (assignPhase o sh w').slotToToken := by
  have hproj : ∀ w : Work, (assignPhase o sh w).slotToToken = o.run (fun t b =>
      forStride t w.missCount n (fun i b =>
        if sh.IsSlot (w.tokenMark i) ∧ 0 ≤ w.tokenPos i ∧ w.tokenPos i < sh.topk then
          update b (w.tokenMark i) (w.missTokens i) else b) b) w.slotToToken := fun w =>
    o.run_stride_hom (fun w : Work => w.slotToToken) w fun i acc => by
      unfold assignMiss
      dsimp only
      split_ifs <;> rfl
  rw [hproj w, hproj w', h.missCount, h'.missCount, h.slotToToken, h'.slotToToken,
    o.run_stride, o.run_stride]
  refine List.foldl_ext _ _ _ fun b i hi => ?_
  have hb := (o.mem_items hn).mp hi
  obtain ⟨pos, slot, hp, hs, hmark, hpos, htok, -⟩ := h.entry hk hb.1 hb.2
  obtain ⟨pos', slot', hp', hs', hmark', hpos', htok', -⟩ := h'.entry hk hb.1 hb.2
  obtain rfl : pos = pos' := Option.some.inj (hp.symm.trans hp')
  obtain rfl : slot = slot' := Option.some.inj (hs.symm.trans hs')
  rw [hmark, hmark', hpos, hpos', htok, htok']

namespace Phased

/-- A row of any content comes out the same from every fresh slice. -/
theorem phasedRow_toRow_congr (o : Orders) (hsh : PhasedShape sh)
    (hroom : sh.maxToken ≤ 2 ^ 31 - 128) (row : Row) {ws ws' : Workspace}
    (h : FreshEpoch sh ws) (h' : FreshEpoch sh ws') :
    ∃ w w', phasedRow o sh inp ⟨row, ws⟩ = some w ∧ phasedRow o sh inp ⟨row, ws'⟩ = some w' ∧
      w.toRow = w'.toRow := by
  have hle := (assignCount_le inp row hsh).trans (min_le_left _ _)
  have hcount : ((stepPlan sh inp row).assignCount : Int) ≤ 2 ^ 31 - 128 := by
    have := hsh.topk_le
    omega
  refine ⟨_, _, phasedRow_eq_some o hsh h hcount,
    phasedRow_eq_some o hsh h' hcount, ?_⟩
  have hp : PlanReady sh inp row (plannedWork o sh inp ⟨row, ws⟩) :=
    plannedWork_planReady (w := ⟨row, ws⟩) o hsh h
  have hp' : PlanReady sh inp row (plannedWork o sh inp ⟨row, ws'⟩) :=
    plannedWork_planReady (w := ⟨row, ws'⟩) o hsh h'
  rw [publish_toRow _ _ (by decide) hp hsh.topk_pos.le hsh.capacity_lt,
    publish_toRow _ _ (by decide) hp' hsh.topk_pos.le hsh.capacity_lt,
    assignPhase_slotToToken_congr _ (by decide) hsh.topk_pos.le hp hp']
  rfl

theorem phasedRow_mark_frame (o : Orders) (hsh : PhasedShape sh) {w w' : Work}
    (hrun : phasedRow o sh inp w = some w') {i : Int} (hi : ¬ (0 ≤ i ∧ i < sh.maxToken)) :
    w'.tokenMark i = w.tokenMark i := by
  have hws : w'.toWorkspace = (plannedWork o sh inp w).toWorkspace := by
    rw [phasedRow_some o hrun, publish_toWorkspace]
  have hcap := hsh.capacity_le
  rw [show w'.tokenMark = (plannedWork o sh inp w).tokenMark from congrArg Workspace.tokenMark hws]
  have hstart : (epochStart sh w.toWorkspace).tokenMark i = w.tokenMark i := by
    unfold epochStart
    split_ifs
    · rw [clearMarks_tokenMark]
      exact if_neg hi
    · rfl
  have hmark : (markTopk sh inp.topkIndices (currentEpoch w.epoch)
      (epochStart sh w.toWorkspace)).tokenMark i = w.tokenMark i := by
    refine forLoop_preserve (fun ws : Workspace => ws.tokenMark i = w.tokenMark i) hstart ?_
    intro pos ws _ _ hws
    dsimp only
    split_ifs with htok
    · dsimp only
      rw [update_of_ne fun heq : i = inp.topkIndices pos => hi (heq ▸ htok.1)]
      exact hws
    · exact hws
  -- at most one cell is taken for every entry, from the front or from the back
  have hstack : ∀ lruSlots mark : Int → Int,
      (buildStacks sh lruSlots mark).tokenMark i = mark i := by
    intro lruSlots mark
    refine (forLoop_induct hsh.capacity_pos.le (fun n (st : Stacks) => (0 ≤ st.evictableCount ∧
      st.evictableCount ≤ n ∧ 0 ≤ st.hitCount ∧ st.hitCount ≤ n) ∧ st.tokenMark i = mark i)
      ⟨by simp, rfl⟩ fun n st h0 h1 h => ?_).2
    obtain ⟨⟨he0, he, hh0, hh⟩, hkeep⟩ := h
    dsimp only
    split_ifs
    · refine ⟨by dsimp only; omega, ?_⟩
      dsimp only
      rw [update_of_ne (by omega)]
      exact hkeep
    · refine ⟨by dsimp only; omega, ?_⟩
      dsimp only
      rw [update_of_ne (by omega)]
      exact hkeep
    · exact ⟨by omega, hkeep⟩
  exact (hstack _ _).trans hmark

end Phased

/-! ## The legacy kernel -/

namespace Legacy

/-- Two scans of the same row that started with different scratch, after `n`
entries: the part of the scratch in use is the same. -/
structure SameScan (sh : Shape) (n : Int) (scan scan' : Scan) : Prop where
  current : scan.currentSlots = scan'.currentSlots
  count : scan.evictableCount = scan'.evictableCount
  bounds : HasScratch sh → 0 ≤ scan.evictableCount ∧ scan.evictableCount ≤ n
  scratch : HasScratch sh → ∀ k, 0 ≤ k → k < scan.evictableCount → scan.scratch k = scan'.scratch k

theorem scanHits_sameScan (hmax : sh.maxToken < 2 ^ 31) (hcap : 0 ≤ sh.capacity)
    (topkIndices slotToToken lruSlots cur scratch scratch' : Int → Int) :
    SameScan sh sh.capacity (scanHits sh topkIndices slotToToken lruSlots cur scratch)
      (scanHits sh topkIndices slotToToken lruSlots cur scratch') := by
  refine forLoop_rel hcap (SameScan sh) ⟨rfl, rfl, fun _ => ⟨le_rfl, le_rfl⟩,
    fun _ k h0 h1 => absurd h1 (by dsimp only; omega)⟩ fun n st st' h0 h1 h => ?_
  unfold scanEntry
  dsimp only
  rw [← h.current]
  generalize (if sh.IsToken (slotToToken (lruSlots n)) then
    resolvePositions sh topkIndices (slotToToken (lruSlots n)) (lruSlots n) st.currentSlots
    else (false, st.currentSlots)) = hit
  by_cases hslot : sh.IsSlot (lruSlots n)
  · rw [if_neg (not_not.mpr hslot), if_neg (not_not.mpr hslot)]
    by_cases hhit : hit.1 = true
    · rw [if_pos hhit, if_pos hhit]
      exact ⟨rfl, h.count, fun hs => ⟨(h.bounds hs).1, (h.bounds hs).2.trans (by omega)⟩, h.scratch⟩
    · rw [if_neg hhit, if_neg hhit]
      -- the count stays below the capacity, which is below `2^31` where there is scratch
      have hnext : HasScratch sh → int32 (st.evictableCount + 1) = st.evictableCount + 1 := by
        intro hs
        have hb := h.bounds hs
        have hle : sh.capacity ≤ sh.maxToken := hs
        exact int32_eq (by omega) (by omega)
      refine ⟨rfl, by dsimp only; rw [h.count], fun hs => ?_, fun hs k hk0 hk => ?_⟩
      · have hb := h.bounds hs
        dsimp only
        rw [hnext hs]
        omega
      · dsimp only at hk ⊢
        rw [hnext hs] at hk
        rw [if_pos hs, if_pos hs, ← h.count]
        by_cases hlast : k = st.evictableCount
        · rw [hlast, update_self, update_self]
        · rw [update_of_ne hlast, update_of_ne hlast]
          exact h.scratch hs k hk0 (by omega)
  · rw [if_pos hslot, if_pos hslot]
    exact ⟨h.current, h.count, fun hs => ⟨(h.bounds hs).1, (h.bounds hs).2.trans (by omega)⟩,
      h.scratch⟩

theorem assignMisses_congr {n : Int} {scan scan' : Scan} (h : SameScan sh n scan scan')
    (lruSlots : Int → Int) (ms : MissScan) :
    assignMisses sh lruSlots scan ms = assignMisses sh lruSlots scan' ms := by
  unfold assignMisses
  rw [h.current]
  refine forBreak_congr _ fun i st h0 _ => ?_
  have hchosen : chosenSlot sh lruSlots scan i st = chosenSlot sh lruSlots scan' i st := by
    refine ite_congr rfl (fun hs => ?_) fun _ => rfl
    rw [← h.count]
    exact ite_congr rfl (fun hlt => h.scratch hs i h0 hlt) fun _ => rfl
  unfold assignOne
  rw [hchosen]

theorem assignCount_nonneg (lruSlots : Int → Int) (scan : Scan) (ms : MissScan) :
    0 ≤ (assignMisses sh lruSlots scan ms).assignCount := by
  refine forBreak_preserve (fun st : Assigned => 0 ≤ st.assignCount) le_rfl
    fun i st st' _ _ hst hstep => ?_
  unfold assignOne at hstep
  dsimp only at hstep
  split_ifs at hstep
  obtain rfl := Option.some.inj hstep
  dsimp only
  omega

theorem rebuildFromScratch_congr {n : Int} {scan scan' : Scan} (h : SameScan sh n scan scan')
    (hs : HasScratch sh) {asg : Assigned} (h0 : 0 ≤ asg.assignCount)
    (topkIndices slotToToken lruSlots : Int → Int) :
    rebuildFromScratch sh topkIndices slotToToken lruSlots scan asg =
      rebuildFromScratch sh topkIndices slotToToken lruSlots scan' asg := by
  have happend : ∀ st, forLoop asg.assignCount scan.evictableCount (appendEntry scan.scratch) st =
      forLoop asg.assignCount scan.evictableCount (appendEntry scan'.scratch) st := by
    refine fun st => forLoop_congr st fun i st hi0 hi => ?_
    unfold appendEntry
    rw [h.scratch hs i (by omega) hi]
  unfold rebuildFromScratch
  dsimp only
  rw [happend, h.count]

/-- A row of any content comes out the same from every scratch. -/
theorem legacyRow_congr (hmax : sh.maxToken < 2 ^ 31) (hcap : 0 ≤ sh.capacity) (row : Row)
    (scratch scratch' : Int → Int) :
    (legacyRow sh inp row scratch).1 = (legacyRow sh inp row scratch').1 := by
  have h := scanHits_sameScan hmax hcap inp.topkIndices (startLegacy sh inp row).slotToToken
    (startLegacy sh inp row).lruSlots (startLegacy sh inp row).currentSlots scratch scratch'
  unfold legacyRow
  dsimp only
  rw [h.current, assignMisses_congr h]
  congr 1
  refine ite_congr rfl (fun hs => rebuildFromScratch_congr h hs ?_ _ _ _) fun _ => rfl
  exact assignCount_nonneg _ _ _

private theorem update_cases {a : Int → Int} {i k v w : Int} (h : a i = w ∨ 0 ≤ a i) (hv : 0 ≤ v) :
    update a k v i = w ∨ 0 ≤ update a k v i := by
  by_cases hi : i = k
  · rw [hi, update_self]
    exact .inr hv
  · rw [update_of_ne hi]
    exact h

theorem legacyRow_scratch (row : Row) (scratch : Int → Int) (i : Int) :
    (legacyRow sh inp row scratch).2 i = scratch i ∨ 0 ≤ (legacyRow sh inp row scratch).2 i := by
  refine forLoop_preserve (fun st : Scan => st.scratch i = scratch i ∨ 0 ≤ st.scratch i)
    (.inl rfl) fun n st _ _ h => ?_
  unfold scanEntry
  dsimp only
  by_cases hslot : sh.IsSlot ((startLegacy sh inp row).lruSlots n)
  · split_ifs
    all_goals first
      | exact h
      | exact update_cases h hslot.1
  · rw [if_pos hslot]
    exact h

end Legacy

end MemFabric.AccOffload.Lru
