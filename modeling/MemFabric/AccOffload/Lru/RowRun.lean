import MemFabric.AccOffload.Lru.FusedV3Step
import MemFabric.AccOffload.Lru.Residency
import MemFabric.AccOffload.Lru.Slice

/-!
# A row over whole runs

A row is compacted again and again, with other requests, prefixes and numbers of
positions.  Whatever is requested, the use order stays an order of all slots and
no slot is given away twice or taken from a hit.  Not every requested position
finds a slot, though: positions that request the same token are separate misses
and leave the token in several slots, and a later hit on the token pins all of
them.
-/

namespace MemFabric.AccOffload.Lru

open Cache Reference Phased

/-- One compact call on one row: by the phased kernels on a slice with a fresh
epoch, with no more positions than slots, or by the fused kernel. -/
inductive CompactCall (sh : Shape) (inp : RowInput) (row : Row) : Row → Prop where
  | phased (o : Orders) {numReqs : Int} (hsh : CanUseProductionPhasedLru numReqs sh)
      (hk : sh.topk ≤ sh.capacity) {ws : Workspace} (hfresh : FreshEpoch sh ws) {w : Work}
      (hrun : phasedRow o sh inp ⟨row, ws⟩ = some w) : CompactCall sh inp row w.toRow
  | fused (hsh : sh = FusedV3.fusedV3Shape) (o : FusedV3.Schedule) (ub0 : FusedV3.Ub)
      (ws : Workspace) : CompactCall sh inp row
        (FusedV3.offloadLruCompactFusedV3Kernel o ub0 inp ⟨row, ws⟩).toRow

variable {sh : Shape} {inp : RowInput} {row row' : Row}

theorem CompactCall.topk_le (h : CompactCall sh inp row row') :
    0 ≤ sh.topk ∧ sh.topk ≤ sh.capacity := by
  cases h with
  | phased o hsh hk => exact ⟨hsh.phasedShape.topk_pos.le, hk⟩
  | fused hsh => subst hsh; decide

theorem CompactCall.eq_lruStep (h : CompactCall sh inp row row')
    (hnd : (stepPlan sh inp row).order.Nodup) : row' = lruStep sh inp row := by
  cases h with
  | phased o hsh hk hfresh hrun =>
    exact phasedRow_some_eq_lruStep (w := ⟨row, _⟩) o hsh.phasedShape hfresh hnd hrun
  | fused hsh o ub0 ws =>
    subst hsh
    rw [FusedV3.fusedV3Kernel_eq o ub0 inp ⟨row, ws⟩ hnd]

/-- The rows that calls with one `capacity` and one `maxToken` can leave.  The
first call changes the request; every call meets `Ok`. -/
inductive RowReached (Ok : Shape → RowInput → Prop) (capacity maxToken : Int) : Row → Prop where
  | first {sh : Shape} {inp : RowInput} {row row' : Row} (hcap : sh.capacity = capacity)
      (hmax : sh.maxToken = maxToken) (hok : Ok sh inp) (hreq : row.lastReqId ≠ inp.reqId)
      (hcall : CompactCall sh inp row row') : RowReached Ok capacity maxToken row'
  | next {sh : Shape} {inp : RowInput} {row row' : Row} (hcap : sh.capacity = capacity)
      (hmax : sh.maxToken = maxToken) (hok : Ok sh inp)
      (hrow : RowReached Ok capacity maxToken row) (hcall : CompactCall sh inp row row') :
      RowReached Ok capacity maxToken row'

/-- A row on which a call may be made: left by earlier calls, or of another
request. -/
def Callable (Ok : Shape → RowInput → Prop) (sh : Shape) (inp : RowInput) (row : Row) : Prop :=
  RowReached Ok sh.capacity sh.maxToken row ∨ row.lastReqId ≠ inp.reqId

theorem RowReached.lruPerm {Ok : Shape → RowInput → Prop} {maxToken : Int}
    (h : RowReached Ok sh.capacity maxToken row) : LruPerm sh row.lruSlots := by
  have hstep : ∀ {sh' : Shape} {inp : RowInput} {row row' : Row}, sh'.capacity = sh.capacity →
      LruPerm sh' (startLru sh' inp row) → CompactCall sh' inp row row' →
      LruPerm sh row'.lruSlots := by
    intro sh' inp row row' hcap hlru hcall
    rw [hcall.eq_lruStep (nodup_order_of_perm hlru)]
    have hnew := lruPerm_lruStep hlru
    unfold LruPerm at hnew ⊢
    rw [← hcap]
    exact hnew
  induction h with
  | first hcap _ _ hreq hcall => exact hstep hcap (lruPerm_startLru_reset hreq) hcall
  | next hcap _ _ _ hcall ih =>
    refine hstep hcap (LruPerm.startLru ?_ _) hcall
    unfold LruPerm at ih ⊢
    rw [hcap]
    exact ih

theorem Callable.lruPerm {Ok : Shape → RowInput → Prop} (h : Callable Ok sh inp row) :
    LruPerm sh (startLru sh inp row) := by
  rcases h with hrow | hreq
  · exact hrow.lruPerm.startLru inp
  · exact lruPerm_startLru_reset hreq

def DistinctRequest (sh : Shape) (inp : RowInput) : Prop := DistinctTopk sh inp.topkIndices

theorem ResidentInj.of_eq {sh sh' : Shape} {tokens : Int → Int} (h : ResidentInj sh tokens)
    (hcap : sh.capacity = sh'.capacity) (hmax : sh.maxToken = sh'.maxToken) :
    ResidentInj sh' tokens := by
  unfold ResidentInj Shape.IsSlot Shape.IsToken at h ⊢
  rw [← hcap, ← hmax]
  exact h

/-- Requests without duplicates never leave a token in two slots. -/
theorem RowReached.residentInj (h : RowReached DistinctRequest sh.capacity sh.maxToken row) :
    ResidentInj sh row.slotToToken := by
  induction h with
  | @first sh' inp row _ hcap hmax hok hreq hcall =>
    have hlru : LruPerm sh' (startLru sh' inp row) := lruPerm_startLru_reset hreq
    rw [hcall.eq_lruStep (nodup_order_of_perm hlru)]
    exact ResidentInj.of_eq (residentInj_lruStep hlru (residentInj_reset hreq) hok) hcap hmax
  | @next sh' inp row _ hcap hmax hok hrow hcall ih =>
    have hrow' : RowReached DistinctRequest sh'.capacity sh'.maxToken row := by
      rw [hcap, hmax]
      exact hrow
    have hlru := hrow'.lruPerm.startLru inp
    have hinj := (ResidentInj.of_eq ih hcap.symm hmax.symm).startTokens inp
    rw [hcall.eq_lruStep (nodup_order_of_perm hlru)]
    exact ResidentInj.of_eq (residentInj_lruStep hlru hinj hok) hcap hmax

structure Residency (sh : Shape) (inp : RowInput) (row row' : Row) : Prop where
  lru_perm : LruPerm sh row'.lruSlots
  miss_distinct : ∀ i j, 0 ≤ i → i < row'.missCount → 0 ≤ j → j < row'.missCount →
    row'.missSlots i = row'.missSlots j → i = j
  /-- no slot that holds a requested token is reassigned -/
  hit_kept : ∀ i, 0 ≤ i → i < row'.missCount →
    isHit sh inp.topkIndices (startTokens sh inp row) (row'.missSlots i) = false
  /-- a requested position without a slot finds all slots hit or reassigned -/
  position : ∀ pos, 0 ≤ pos → pos < sh.topk → sh.IsToken (inp.topkIndices pos) →
    Resolved sh inp row' pos ∨ row'.currentSlots pos = -1 ∧
      ∀ slot, sh.IsSlot slot → isHit sh inp.topkIndices (startTokens sh inp row) slot = false →
        ∃ i, 0 ≤ i ∧ i < row'.missCount ∧ row'.missSlots i = slot

theorem missSlots_lruStep (hk : 0 ≤ sh.topk) {i : Int} (h0 : 0 ≤ i)
    (h1 : i < (lruStep sh inp row).missCount) :
    (stepPlan sh inp row).evictable[i.toNat]? = some ((lruStep sh inp row).missSlots i) := by
  have hlt : i < (stepPlan sh inp row).assignCount := h1
  have hle := (stepPlan sh inp row).assignCount_le_evictable
  have hmiss : (stepPlan sh inp row).assignCount ≤ (stepPlan sh inp row).misses.length :=
    Nat.min_le_left _ _
  have hmisses := length_misses_le inp row hk
  simp only [lruStep]
  rw [if_pos ⟨h0, by omega⟩, List.getElem?_take_of_lt (by omega),
    List.getElem?_eq_getElem (by omega), Option.getD_some]

theorem residency_lruStep (hlru : LruPerm sh (startLru sh inp row)) (hk : 0 ≤ sh.topk) :
    Residency sh inp row (lruStep sh inp row) := by
  have hnd := (stepPlan sh inp row).nodup_evictable (nodup_order_of_perm hlru)
  refine ⟨lruPerm_lruStep hlru, fun i j hi0 hi hj0 hj heq => ?_, fun i h0 h1 => ?_,
    fun pos h0 h1 ht => ?_⟩
  · have hi' := missSlots_lruStep hk hi0 hi
    have hj' := missSlots_lruStep hk hj0 hj
    rw [← heq] at hj'
    have := (List.getElem?_inj (List.getElem?_eq_some_iff.mp hi').1 hnd).mp (hi'.trans hj'.symm)
    omega
  · exact ((stepPlan sh inp row).mem_evictable.mp
      (List.mem_of_getElem? (missSlots_lruStep hk h0 h1))).2
  · rcases hit_or_miss h0 h1 row ht with ⟨slot, hhit⟩ | ⟨k, hmiss⟩
    · exact .inl (resolved_of_hit h0 h1 hhit)
    · by_cases hlt : k < (stepPlan sh inp row).assignCount
      · exact .inl (resolved_of_assigned h0 h1 (nodup_order_of_perm hlru) hlt hmiss)
      · refine .inr ⟨unresolved_of_miss h0 h1 (not_lt.mp hlt) hmiss, fun slot hs hnot => ?_⟩
        -- every evictable slot has been handed out
        have hmem : slot ∈ (stepPlan sh inp row).evictable :=
          (stepPlan sh inp row).mem_evictable.mpr
            ⟨(order_perm hlru).mem_iff.mpr (Int.mem_range_iff.mpr hs), hnot⟩
        obtain ⟨j, hj⟩ := List.mem_iff_getElem?.mp hmem
        have hjlt := (List.getElem?_eq_some_iff.mp hj).1
        have hklt := (List.getElem?_eq_some_iff.mp hmiss).1
        have hcount : (j : Int) < (lruStep sh inp row).missCount := by
          have : (lruStep sh inp row).missCount = (stepPlan sh inp row).assignCount := rfl
          unfold LruPlan.assignCount at hlt this
          omega
        refine ⟨j, Int.natCast_nonneg j, hcount, ?_⟩
        have hread := missSlots_lruStep hk (Int.natCast_nonneg j) hcount
        exact Option.some.inj (hread.symm.trans hj)

/-- After every call of every run the row is in order; and where the calls before
requested no token twice, every requested position is resolved. -/
theorem compactCall_residency (hrow : Callable (fun _ _ => True) sh inp row)
    (hcall : CompactCall sh inp row row') :
    Residency sh inp row row' ∧ (Callable DistinctRequest sh inp row →
      ∀ pos, 0 ≤ pos → pos < sh.topk → sh.IsToken (inp.topkIndices pos) →
        Resolved sh inp row' pos) := by
  have hlru := hrow.lruPerm
  obtain ⟨hk, hkc⟩ := hcall.topk_le
  rw [hcall.eq_lruStep (nodup_order_of_perm hlru)]
  refine ⟨residency_lruStep hlru hk, fun hdistinct pos h0 h1 ht => ?_⟩
  refine resolved_of_residentInj hlru ?_ hk hkc h0 h1 ht
  rcases hdistinct with hrun | hreq
  · exact hrun.residentInj.startTokens inp
  · exact residentInj_reset hreq

/-! ## Two slots and two positions -/

/-- A call of the phased kernels that computes the reference step. -/
theorem compactCall_lruStep {numReqs : Int} (hsh : CanUseProductionPhasedLru numReqs sh)
    (hk : sh.topk ≤ sh.capacity) (hroom : sh.topk ≤ 2 ^ 31 - 128) (inp : RowInput)
    (hlru : LruPerm sh (startLru sh inp row)) :
    CompactCall sh inp row (lruStep sh inp row) := by
  have hfresh : FreshEpoch sh ⟨fun _ => 0, fun _ => 0, 0⟩ := .inl (.inl (by decide))
  have hle := (assignCount_le inp row hsh.phasedShape).trans (min_le_left _ _)
  obtain ⟨w, hrun, hstep⟩ := Option.map_eq_some_iff.mp (phasedRow_eq_lruStep
    (w := ⟨row, fun _ => 0, fun _ => 0, 0⟩) .ascending hsh.phasedShape hfresh (hle.trans hroom)
    (nodup_order_of_perm hlru))
  rw [← hstep]
  exact .phased .ascending hsh hk hfresh hrun

def pairShape : Shape := ⟨2, 2, 6⟩

theorem pairShape_ok : CanUseProductionPhasedLru 1 pairShape := by decide

def pairInput (a b : Int) : RowInput := ⟨1, fun pos => if pos = 0 then a else b, 6⟩

/-- The row after the first call of request `1`, for the tokens `a` and `b`. -/
def pairRow (a b : Int) : Row := lruStep pairShape (pairInput a b) coldRow

theorem pairRow_reached {Ok : Shape → RowInput → Prop} {a b : Int}
    (hok : Ok pairShape (pairInput a b)) : RowReached Ok 2 6 (pairRow a b) := by
  have hreq : coldRow.lastReqId ≠ (pairInput a b).reqId := (by decide : (0 : Int) ≠ 1)
  exact .first rfl rfl hok hreq (compactCall_lruStep pairShape_ok (by decide) (by decide) _
    (lruPerm_startLru_reset hreq))

theorem compactCall_pairRow (a b c d : Int) :
    CompactCall pairShape (pairInput c d) (pairRow a b)
      (lruStep pairShape (pairInput c d) (pairRow a b)) := by
  have hreached : RowReached (fun _ _ => True) pairShape.capacity 6 (pairRow a b) :=
    pairRow_reached trivial
  exact compactCall_lruStep pairShape_ok (by decide) (by decide) _ (hreached.lruPerm.startLru _)

theorem compactCall_residency_pair :
    Residency pairShape (pairInput 5 3) (pairRow 4 5)
      (lruStep pairShape (pairInput 5 3) (pairRow 4 5)) ∧
    Resolved pairShape (pairInput 5 3) (lruStep pairShape (pairInput 5 3) (pairRow 4 5)) 1 := by
  have hdistinct : DistinctRequest pairShape (pairInput 4 5) := by
    intro p q hp0 hp hq0 hq
    have hp' : p < 2 := hp
    have hq' : q < 2 := hq
    obtain rfl | rfl : p = 0 ∨ p = 1 := by omega
    all_goals obtain rfl | rfl : q = 0 ∨ q = 1 := by omega
    all_goals decide
  obtain ⟨hres, hall⟩ := compactCall_residency (.inl (pairRow_reached trivial))
    (compactCall_pairRow 4 5 5 3)
  exact ⟨hres, hall (.inl (pairRow_reached hdistinct)) 1 (by decide) (by decide) (by decide)⟩

/-- After a call for `4, 4` both slots hold token `4`, so the next call finds no
slot for token `5`. -/
theorem compactCall_unresolved :
    Callable (fun _ _ => True) pairShape (pairInput 4 5) (pairRow 4 4) ∧
    CompactCall pairShape (pairInput 4 5) (pairRow 4 4)
      (lruStep pairShape (pairInput 4 5) (pairRow 4 4)) ∧
    pairShape.IsToken ((pairInput 4 5).topkIndices 1) ∧
    (lruStep pairShape (pairInput 4 5) (pairRow 4 4)).currentSlots 1 = -1 :=
  ⟨.inl (pairRow_reached trivial), compactCall_pairRow 4 4 4 5, by decide, by decide⟩

end MemFabric.AccOffload.Lru
