import MemFabric.AccOffload.Lru.FusedV3
import MemFabric.AccOffload.Lru.Publish

/-!
# The fused kernel up to the resolved hits

The first phases of the fused kernel, one specification each.  A specification
is a record equation: the fields it does not mention are unchanged.

The atomics make the two elections independent of the lane order.  `token_pos`
holds the least position of every requested token, and `token_mark` the greatest
use-order index of every resident one.
-/

namespace MemFabric.AccOffload.Lru.FusedV3

open Function Simt Reference List

@[simp] theorem fusedV3Shape_topk : fusedV3Shape.topk = 2048 := rfl

@[simp] theorem fusedV3Shape_capacity : fusedV3Shape.capacity = 4096 := rfl

@[simp] theorem fusedV3Shape_maxToken : fusedV3Shape.maxToken = 4096 := rfl

/-! ## Block-wide scans -/

section

variable (o : Schedule) (evictFlag hitFlag : Int → Int) (sb : ScanBufs) {t : Int}

private theorem scanChannel_eq (f a b c : Int → Int) (h0 : 0 ≤ t) (h1 : t < 1024) :
    (o 2).run (fun thread c => update c thread
      (scanTotals 5 (o 1) (publishTotals 5 (o 0) (warpInclusiveScan 5 f) a) b (thread / 2 ^ 5) +
        warpInclusiveScan 5 f thread)) c t = sumTo f (t + 1) := by
  rw [(o 2).run_map (fun thread _ =>
    scanTotals 5 (o 1) (publishTotals 5 (o 0) (warpInclusiveScan 5 f) a) b (thread / 2 ^ 5) +
      warpInclusiveScan 5 f thread)]
  dsimp only
  rw [if_pos ⟨h0, h1⟩]
  exact scanTotals_add_eq (o 0) (o 1) f a b h0 h1

theorem warpScanPair1024_evictA (h0 : 0 ≤ t) (h1 : t < 1024) :
    (warpScanPair1024 o evictFlag hitFlag sb).evictA t = sumTo evictFlag (t + 1) := by
  unfold warpScanPair1024
  extract_lets evictInclusive hitInclusive sb1 sb2
  have htotal : sb1.evictA = publishTotals 5 (o 0) evictInclusive sb.evictA :=
    (o 0).run_hom ScanBufs.evictA sb fun t sb => by split_ifs <;> rfl
  have hbase : sb2.evictB = scanTotals 5 (o 1) sb1.evictA sb1.evictB :=
    (o 1).run_hom ScanBufs.evictB sb1 fun t sb => by split_ifs <;> rfl
  rw [htotal] at hbase
  exact (congrFun ((o 2).run_hom ScanBufs.evictA sb2 fun t sb => by rw [hbase]) t).trans
    (scanChannel_eq o evictFlag _ _ _ h0 h1)

theorem warpScanPair1024_hitA (h0 : 0 ≤ t) (h1 : t < 1024) :
    (warpScanPair1024 o evictFlag hitFlag sb).hitA t = sumTo hitFlag (t + 1) := by
  unfold warpScanPair1024
  extract_lets evictInclusive hitInclusive sb1 sb2
  have htotal : sb1.hitA = publishTotals 5 (o 0) hitInclusive sb.hitA :=
    (o 0).run_hom ScanBufs.hitA sb fun t sb => by split_ifs <;> rfl
  have hbase : sb2.hitB = scanTotals 5 (o 1) sb1.hitA sb1.hitB :=
    (o 1).run_hom ScanBufs.hitB sb1 fun t sb => by split_ifs <;> rfl
  rw [htotal] at hbase
  exact (congrFun ((o 2).run_hom ScanBufs.hitA sb2 fun t sb => by rw [hbase]) t).trans
    (scanChannel_eq o hitFlag _ _ _ h0 h1)

end

/-! ## Reset and prepare -/

theorem resetPrepareSlot_slotToToken (resetRow stablePrefixLen slot : Int) (ub : Ub) :
    (resetPrepareSlot resetRow stablePrefixLen slot ub).slotToToken =
      update ub.slotToToken slot
        (if resetRow ≠ 0 ∨ (fusedV3Shape.IsToken (ub.slotToToken slot) ∧
          stablePrefixLen ≤ ub.slotToToken slot) then -1 else ub.slotToToken slot) := by
  unfold resetPrepareSlot
  by_cases hreset : resetRow ≠ 0
  · rw [if_pos hreset, if_pos (Or.inl hreset)]
  · dsimp only
    split_ifs with htok hor hor
    · rfl
    · exact absurd (Or.inr htok) hor
    · exact absurd hor (not_or.mpr ⟨hreset, htok⟩)
    · rw [update_eq_self]

theorem resetPrepareSlot_lruSlots (resetRow stablePrefixLen slot : Int) (ub : Ub) :
    (resetPrepareSlot resetRow stablePrefixLen slot ub).lruSlots =
      update ub.lruSlots slot (if resetRow ≠ 0 then int32 slot else ub.lruSlots slot) := by
  unfold resetPrepareSlot
  dsimp only
  split_ifs
  · rfl
  · rw [update_eq_self]
  · rw [update_eq_self]

theorem resetPrepareSlot_frame {τ : Type*} (field : Ub → τ)
    (h : ∀ (ub : Ub) a b, field { ub with slotToToken := a, lruSlots := b } = field ub)
    (resetRow stablePrefixLen slot : Int) (ub : Ub) :
    field (resetPrepareSlot resetRow stablePrefixLen slot ub) = field ub := by
  unfold resetPrepareSlot
  dsimp only
  split_ifs
  · exact h ub _ _
  · exact h ub _ ub.lruSlots
  · rfl

section

variable (o : LaneOrder threads) (resetRow stablePrefixLen : Int) (ub : Ub)

/-- The second phase of `FusedV3ResetPrepareUb`. -/
private def preparePhase : Ub :=
  o.run (fun thread ub =>
    forStride thread fusedV3Shape.capacity threads (resetPrepareSlot resetRow stablePrefixLen)
      (forStride thread fusedV3Shape.topk threads resetPreparePos ub)) ub

private theorem preparePhase_frame {τ : Type*} (field : Ub → τ)
    (hpos : ∀ i ub, field (resetPreparePos i ub) = field ub)
    (hslot : ∀ (ub : Ub) a b, field { ub with slotToToken := a, lruSlots := b } = field ub) :
    field (preparePhase o resetRow stablePrefixLen ub) = field ub :=
  o.run_frame field ub fun _ ub =>
    (forStride_frame field _ fun i ub => resetPrepareSlot_frame field hslot _ _ i ub).trans
      (forStride_frame field ub hpos)

private theorem preparePhase_cleared (field : Ub → Int → Int)
    (hpos : ∀ i ub, field (resetPreparePos i ub) = update (field ub) i (-1))
    (hslot : ∀ (ub : Ub) a b, field { ub with slotToToken := a, lruSlots := b } = field ub) :
    field (preparePhase o resetRow stablePrefixLen ub) = fun i =>
      if 0 ≤ i ∧ i < fusedV3Shape.topk then -1 else field ub i := by
  have hrun : field (preparePhase o resetRow stablePrefixLen ub) =
      o.run (fun t b => forStride t fusedV3Shape.topk threads
        (fun i b => update b i (-1)) b) (field ub) :=
    o.run_hom field ub fun _ ub =>
      (forStride_frame field _ fun i ub => resetPrepareSlot_frame field hslot _ _ i ub).trans
        (forStride_hom field ub hpos)
  rw [hrun, o.run_stride_map (by decide) fusedV3Shape.topk (fun _ _ => (-1 : Int))]

/-- A table of the slot loop; each iteration rewrites its own cell. -/
private theorem preparePhase_slots (field : Ub → Int → Int) (f : Int → Int → Int)
    (hpos : ∀ i ub, field (resetPreparePos i ub) = field ub)
    (hslot : ∀ i ub, field (resetPrepareSlot resetRow stablePrefixLen i ub) =
      update (field ub) i (f i (field ub i))) :
    field (preparePhase o resetRow stablePrefixLen ub) = fun i =>
      if 0 ≤ i ∧ i < fusedV3Shape.capacity then f i (field ub i) else field ub i := by
  have hrun : field (preparePhase o resetRow stablePrefixLen ub) =
      o.run (fun t b => forStride t fusedV3Shape.capacity threads
        (fun i b => update b i (f i (b i))) b) (field ub) :=
    o.run_hom field ub fun t ub => by
      rw [← forStride_frame field ub hpos]
      exact forStride_hom field _ hslot
  rw [hrun, o.run_stride_map (by decide) fusedV3Shape.capacity f]

end

theorem flag_ne_zero_iff (p : Prop) [Decidable p] : flag p ≠ 0 ↔ p := by
  unfold flag
  split_ifs with h <;> simp [h]

section

variable (o : Schedule) (inp : RowInput) (ub : Ub)

private theorem resetPrepare_eq :
    fusedV3ResetPrepareUb o inp ub =
      preparePhase (o 1) (flag (ub.lastReqId ≠ inp.reqId))
        (clampPrefix fusedV3Shape inp.stablePrefixLen) (initControl inp ub) := by
  unfold fusedV3ResetPrepareUb
  rw [(o 0).run_lane_zero (by decide) (initControl inp) ub]
  rfl

theorem resetPrepare_resetRow :
    (fusedV3ResetPrepareUb o inp ub).resetRow = flag (ub.lastReqId ≠ inp.reqId) := by
  rw [resetPrepare_eq]
  exact preparePhase_frame (o 1) _ _ _ Ub.resetRow (fun _ _ => rfl) (fun _ _ _ => rfl)

theorem resetPrepare_topkIndices :
    (fusedV3ResetPrepareUb o inp ub).topkIndices = ub.topkIndices := by
  rw [resetPrepare_eq]
  exact preparePhase_frame (o 1) _ _ _ Ub.topkIndices (fun _ _ => rfl) (fun _ _ _ => rfl)

/-- The row in UB once it is reset and prepared; the request id in global memory
is written at the end. -/
theorem resetPrepare_toRow :
    (fusedV3ResetPrepareUb o inp ub).toRow =
      { startRow fusedV3Shape inp ub.toRow with lastReqId := ub.lastReqId } := by
  rw [resetPrepare_eq]
  apply Row.ext
  · exact preparePhase_frame (o 1) _ _ _ (fun ub => ub.lastReqId) (fun _ _ => rfl)
      (fun _ _ _ => rfl)
  · rw [preparePhase_slots (o 1) _ _ (initControl inp ub) (fun ub => ub.slotToToken)
      (fun _ token => if flag (ub.lastReqId ≠ inp.reqId) ≠ 0 ∨ (fusedV3Shape.IsToken token ∧
        clampPrefix fusedV3Shape inp.stablePrefixLen ≤ token) then -1 else token)
      (fun _ _ => rfl) (fun i ub => resetPrepareSlot_slotToToken _ _ i ub)]
    funext s
    simp only [startRow, startTokens, flag_ne_zero_iff, initControl]
    by_cases hs : fusedV3Shape.IsSlot s
    · rw [if_pos (show 0 ≤ s ∧ s < fusedV3Shape.capacity from hs)]
      by_cases hreq : ub.lastReqId = inp.reqId <;> simp [hs, hreq]
    · rw [if_neg (show ¬ (0 ≤ s ∧ s < fusedV3Shape.capacity) from hs), if_neg hs]
  · rw [preparePhase_slots (o 1) _ _ (initControl inp ub) (fun ub => ub.lruSlots)
      (fun i slot => if flag (ub.lastReqId ≠ inp.reqId) ≠ 0 then int32 i else slot)
      (fun _ _ => rfl) (fun i ub => resetPrepareSlot_lruSlots _ _ i ub)]
    funext i
    simp only [startRow, flag_ne_zero_iff, initControl]
    split_ifs with hi hreq
    · rw [startLru_of_mem hi, if_pos hreq]
      simp only [fusedV3Shape_capacity] at hi
      exact int32_eq (by omega) (by omega)
    · rw [startLru_of_mem hi, if_neg hreq]
    · rfl
  · exact preparePhase_cleared (o 1) _ _ _ (fun ub => ub.currentSlots) (fun _ _ => rfl)
      (fun _ _ _ => rfl)
  · exact preparePhase_frame (o 1) _ _ _ (fun ub => ub.missCount) (fun _ _ => rfl)
      (fun _ _ _ => rfl)
  · exact preparePhase_cleared (o 1) _ _ _ (fun ub => ub.missTokens) (fun _ _ => rfl)
      (fun _ _ _ => rfl)
  · exact preparePhase_cleared (o 1) _ _ _ (fun ub => ub.missSlots) (fun _ _ => rfl)
      (fun _ _ _ => rfl)

end

/-! ## The two elections -/

theorem initMarks_eq (o : LaneOrder threads) (ub : Ub) :
    initMarks o ub =
      { ub with
        tokenMark := fun token => if 0 ≤ token ∧ token < 4096 then -1 else ub.tokenMark token
        tokenPos := fun token =>
          if 0 ≤ token ∧ token < 4096 then 2048 else ub.tokenPos token } := by
  refine (o.run_stride_put₂ fusedV3Shape.maxToken
    (fun a b => { ub with tokenMark := a, tokenPos := b }) initMark
    (fun i a => update a i (-1)) (fun i b => update b i 2048)
    (fun _ _ _ => rfl) ub.tokenMark ub.tokenPos).trans ?_
  rw [o.run_stride_map (by decide) _ (fun _ _ => (-1 : Int)),
    o.run_stride_map (by decide) _ (fun _ _ => (2048 : Int))]
  rfl

variable {topk tokens lru : Int → Int}

/-- `token_pos` once every requested token carries its least position. -/
structure LeastPos (topk pos : Int → Int) : Prop where
  le : ∀ q, 0 ≤ q → q < 2048 → fusedV3Shape.IsToken (topk q) → pos (topk q) ≤ q
  attained : ∀ token, fusedV3Shape.IsToken token → pos token = 2048 ∨
    ∃ q, 0 ≤ q ∧ q < 2048 ∧ topk q = token ∧ pos token = q

theorem minPositions_eq (o : LaneOrder threads) (ub : Ub)
    (hinit : ∀ token, fusedV3Shape.IsToken token → ub.tokenPos token = 2048) :
    ∃ pos, LeastPos ub.topkIndices pos ∧ minPositions o ub = { ub with tokenPos := pos } := by
  obtain ⟨hle, hatt⟩ := o.run_atomicMin
    (fun pos => fusedV3Shape.IsToken (ub.topkIndices pos)) ub.topkIndices int32 ub.tokenPos
    (by decide) fusedV3Shape.topk
  have hint : ∀ q : Int, 0 ≤ q → q < 2048 → int32 q = q := fun q h0 h1 =>
    int32_eq (by omega) (by omega)
  have hrun := o.run_stride_put fusedV3Shape.topk
    (fun a : Int → Int => ({ ub with tokenPos := a } : Ub)) (minPosition ub.topkIndices)
    (atomicMin (fun pos => fusedV3Shape.IsToken (ub.topkIndices pos)) ub.topkIndices int32)
    (fun _ _ => rfl) ub.tokenPos
  refine ⟨_, ⟨fun q h0 h1 ht => ?_, fun token ht => ?_⟩, hrun⟩
  · have h := hle q h0 h1 ht
    rwa [hint q h0 h1] at h
  · rcases hatt token with h | ⟨q, h0, h1, -, heq, h⟩
    · exact .inl (h.trans (hinit token ht))
    · exact .inr ⟨q, h0, h1, heq, h.trans (hint q h0 h1)⟩

/-- A recorded position below `topk` means that the token is requested. -/
theorem LeastPos.hit_iff {pos : Int → Int} (h : LeastPos topk pos) (slot : Int) :
    (fusedV3Shape.IsToken (tokens slot) ∧ pos (tokens slot) < 2048) ↔
      isHit fusedV3Shape topk tokens slot = true := by
  rw [isHit_iff]
  refine and_congr_right fun ht => ⟨fun hlt => ?_, ?_⟩
  · rcases h.attained _ ht with heq | ⟨q, h0, h1, heq, -⟩
    · omega
    · exact ⟨q, h0, h1, heq⟩
  · rintro ⟨q, h0, h1, heq⟩
    have := h.le q h0 h1 (heq ▸ ht)
    simp only [fusedV3Shape_topk] at h1
    rw [heq] at this
    omega

theorem LeastPos.pos_first {pos : Int → Int} (h : LeastPos topk pos) {q : Int} (h0 : 0 ≤ q)
    (h1 : q < 2048) (ht : fusedV3Shape.IsToken (topk q)) (hfirst : IsFirst topk q) :
    pos (topk q) = q := by
  have hle := h.le q h0 h1 ht
  rcases h.attained _ ht with heq | ⟨r, hr0, -, hreq, heq⟩
  · omega
  · by_contra hne
    exact hfirst r (Int.mem_range_iff.mpr ⟨hr0, by omega⟩) hreq

/-- `token_mark` once every hit token carries its greatest use-order index. -/
structure GreatestOrder (topk tokens lru mark : Int → Int) : Prop where
  ge : ∀ i, 0 ≤ i → i < 4096 → hitFlag fusedV3Shape topk tokens lru i = true →
    i ≤ mark (tokens (lru i))
  attained : ∀ token, fusedV3Shape.IsToken token → mark token = -1 ∨
    ∃ i, 0 ≤ i ∧ i < 4096 ∧ hitFlag fusedV3Shape topk tokens lru i = true ∧
      tokens (lru i) = token ∧ mark token = i

section

variable {ub : Ub} (hpos : LeastPos ub.topkIndices ub.tokenPos)
  (htok : ∀ s, fusedV3Shape.IsSlot s → ub.slotToToken s = tokens s)
  (hlru : ∀ i, 0 ≤ i → i < 4096 → ub.lruSlots i = lru i)

include hpos htok hlru

theorem isHitEntry_iff {i : Int} (h0 : 0 ≤ i) (h1 : i < 4096) :
    IsHitEntry ub i ↔ hitFlag fusedV3Shape ub.topkIndices tokens lru i = true := by
  unfold IsHitEntry
  rw [hlru i h0 h1, hitFlag_iff]
  refine and_congr_right fun hs => ?_
  rw [htok _ hs]
  exact hpos.hit_iff (lru i)

theorem encodeEntry_value {i : Int} (h0 : 0 ≤ i) (h1 : i < 4096) :
    (if ¬ fusedV3Shape.IsSlot (ub.lruSlots i) then -1
      else if IsHitEntry ub i then -ub.lruSlots i - 2 else ub.lruSlots i) =
      encodedSlot fusedV3Shape ub.topkIndices tokens (lru i) := by
  have hiff := isHitEntry_iff hpos htok hlru h0 h1
  rw [hitFlag_iff] at hiff
  rw [hlru i h0 h1]
  unfold encodedSlot
  by_cases hs : fusedV3Shape.IsSlot (lru i)
  · by_cases hh : isHit fusedV3Shape ub.topkIndices tokens (lru i) = true
    · rw [if_pos (hiff.mpr ⟨hs, hh⟩), if_pos hh]
    · rw [if_neg fun h => hh (hiff.mp h).2, if_neg hh]
  · rw [if_pos hs, if_pos hs]

theorem encodeAndElect_eq (o : LaneOrder threads)
    (hinit : ∀ token, fusedV3Shape.IsToken token → ub.tokenMark token = -1) :
    ∃ mark, GreatestOrder ub.topkIndices tokens lru mark ∧
      encodeAndElect o ub =
        { ub with
          tokenMark := mark
          lruSlots := fun i => if 0 ≤ i ∧ i < fusedV3Shape.capacity then
            encodedSlot fusedV3Shape ub.topkIndices tokens (lru i) else ub.lruSlots i } := by
  obtain ⟨hge, hatt⟩ := o.run_atomicMax (IsHitEntry ub)
    (fun order => ub.slotToToken (ub.lruSlots order)) int32 ub.tokenMark (by decide)
    fusedV3Shape.capacity
  have hint : ∀ i : Int, 0 ≤ i → i < 4096 → int32 i = i := fun i h0 h1 =>
    int32_eq (by omega) (by omega)
  have hread : ∀ i, 0 ≤ i → i < 4096 →
      hitFlag fusedV3Shape ub.topkIndices tokens lru i = true →
      ub.slotToToken (ub.lruSlots i) = tokens (lru i) := fun i h0 h1 hf => by
    rw [hlru i h0 h1]
    exact htok _ ((hitFlag_iff _ _ _ _ i).mp hf).1
  let entry := fun i => if ¬ fusedV3Shape.IsSlot (ub.lruSlots i) then -1
    else if IsHitEntry ub i then -ub.lruSlots i - 2 else ub.lruSlots i
  have hrun := o.run_stride_put₂ fusedV3Shape.capacity
    (fun a b : Int → Int => ({ ub with tokenMark := a, lruSlots := b } : Ub)) (encodeEntry ub)
    (atomicMax (IsHitEntry ub) (fun order => ub.slotToToken (ub.lruSlots order)) int32)
    (fun i b => update b i (entry i)) (fun _ _ _ => rfl) ub.tokenMark ub.lruSlots
  have htable : (fun i => if 0 ≤ i ∧ i < fusedV3Shape.capacity then entry i else ub.lruSlots i) =
      fun i => if 0 ≤ i ∧ i < fusedV3Shape.capacity then
        encodedSlot fusedV3Shape ub.topkIndices tokens (lru i) else ub.lruSlots i :=
    funext fun i =>
      ite_congr rfl (fun hi => encodeEntry_value hpos htok hlru hi.1 hi.2) fun _ => rfl
  rw [o.run_stride_map (by decide) fusedV3Shape.capacity (fun i _ => entry i), htable] at hrun
  refine ⟨_, ⟨fun i h0 h1 hf => ?_, fun token ht => ?_⟩, hrun⟩
  · have h := hge i h0 h1 ((isHitEntry_iff hpos htok hlru h0 h1).mpr hf)
    rwa [hint i h0 h1, hread i h0 h1 hf] at h
  · rcases hatt token with h | ⟨i, h0, h1, hg, heq, h⟩
    · exact .inl (h.trans (hinit token ht))
    · have hf := (isHitEntry_iff hpos htok hlru h0 h1).mp hg
      exact .inr ⟨i, h0, h1, hf, (hread i h0 h1 hf).symm.trans heq, h.trans (hint i h0 h1)⟩

end

/-! ## Resolving the hits -/

section

variable {ub : Ub} (hpos : LeastPos topk ub.tokenPos)
  (hmark : GreatestOrder topk tokens lru ub.tokenMark)
  (htok : ∀ s, fusedV3Shape.IsSlot s → ub.slotToToken s = tokens s)
  (hlru : ∀ i, 0 ≤ i → i < 4096 → ub.lruSlots i = encodedSlot fusedV3Shape topk tokens (lru i))

def IsElected (topk tokens lru mark : Int → Int) (i : Int) : Prop :=
  hitFlag fusedV3Shape topk tokens lru i = true ∧ mark (tokens (lru i)) = i

include hpos in
/-- The recorded position of a hit entry's token is the token's first one. -/
theorem LeastPos.first_of_hit {i : Int} (hf : hitFlag fusedV3Shape topk tokens lru i = true) :
    ∃ r, 0 ≤ r ∧ r < 2048 ∧ topk r = tokens (lru i) ∧ IsFirst topk r ∧
      ub.tokenPos (tokens (lru i)) = r := by
  obtain ⟨-, hh⟩ := (hitFlag_iff _ _ _ _ i).mp hf
  obtain ⟨ht, q, hq0, hq, heq⟩ := (isHit_iff _ _ _ _).mp hh
  obtain ⟨r, hr0, hr, hreq, hfirst⟩ := exists_first topk hq0 hq
  rw [heq] at hreq
  refine ⟨r, hr0, hr, hreq, hfirst, ?_⟩
  rw [← hreq]
  exact hpos.pos_first hr0 hr (hreq ▸ ht) hfirst

include htok hlru in
theorem resolveHit_guard {i : Int} (h0 : 0 ≤ i) (h1 : i < 4096) :
    (ub.lruSlots i ≤ -2 ∧ ub.tokenMark (ub.slotToToken (-ub.lruSlots i - 2)) = int32 i) ↔
      IsElected topk tokens lru ub.tokenMark i := by
  have hint : int32 i = i := int32_eq (by omega) (by omega)
  rw [hlru i h0 h1, encodedSlot_le_iff, hint]
  refine and_congr_right fun hf => ?_
  rw [encodedSlot_of_hit _ _ _ _ hf, htok _ ((hitFlag_iff _ _ _ _ i).mp hf).1]

include hmark in
/-- The entry that serves a position is the elected one of its token. -/
theorem GreatestOrder.servedBy_eq {pos : Int} {slot : Int}
    (h : servedBy fusedV3Shape topk tokens lru 4096 pos = some slot) :
    ∃ m, 0 ≤ m ∧ m < 4096 ∧ IsElected topk tokens lru ub.tokenMark m ∧
      tokens (lru m) = topk pos ∧ lru m = slot := by
  unfold servedBy at h
  split_ifs at h with hserve
  obtain ⟨-, -, ht, -⟩ := hserve
  -- some entry holds the token, so the election has a winner
  obtain ⟨i, hi, -⟩ := mem_map.mp (mem_of_getLast? h)
  obtain ⟨hir, hif⟩ := mem_filter.mp hi
  have hib := Int.mem_range_iff.mp hir
  have hif' : hitFlag fusedV3Shape topk tokens lru i = true ∧ tokens (lru i) = topk pos := by
    simpa using hif
  have hge := hmark.ge i hib.1 hib.2 hif'.1
  rw [hif'.2] at hge
  rcases hmark.attained _ ht with hnone | ⟨m, hm0, hm1, hmf, hmt, hm⟩
  · omega
  · have hlast : ((Int.range 0 4096).filter fun i => decide
        (hitFlag fusedV3Shape topk tokens lru i = true ∧ tokens (lru i) = topk pos)).getLast? =
        some m := by
      refine getLast?_filter_range hm0 hm1 (by simp [hmf, hmt]) fun j hj0 hj1 hj => ?_
      have hj' : hitFlag fusedV3Shape topk tokens lru j = true ∧ tokens (lru j) = topk pos := by
        simpa using hj
      have hjm := hmark.ge j hj0 hj1 hj'.1
      rw [hj'.2, hm] at hjm
      exact hjm
    rw [getLast?_map, hlast] at h
    refine ⟨m, hm0, hm1, ⟨hmf, by rw [hmt, hm]⟩, hmt, ?_⟩
    simpa using h

include hpos hmark htok hlru in
theorem resolveHits_eq (o : LaneOrder threads) :
    resolveHits o ub =
      { ub with
        currentSlots := fun pos =>
          (servedBy fusedV3Shape topk tokens lru 4096 pos).getD (ub.currentSlots pos) } := by
  have hrun := o.run_stride_put fusedV3Shape.capacity
    (fun a : Int → Int => ({ ub with currentSlots := a } : Ub)) (resolveHit ub)
    (fun i a => if ub.lruSlots i ≤ -2 ∧
        ub.tokenMark (ub.slotToToken (-ub.lruSlots i - 2)) = int32 i then
      update a (ub.tokenPos (ub.slotToToken (-ub.lruSlots i - 2))) (-ub.lruSlots i - 2)
      else a) (fun i a => by unfold resolveHit; dsimp only; split_ifs <;> rfl) ub.currentSlots
  refine hrun.trans (congrArg (fun a : Int → Int => ({ ub with currentSlots := a } : Ub)) ?_)
  have hslot : ∀ i, 0 ≤ i → i < 4096 → IsElected topk tokens lru ub.tokenMark i →
      -ub.lruSlots i - 2 = lru i := fun i h0 h1 he => by
    rw [hlru i h0 h1, encodedSlot_of_hit _ _ _ _ he.1]
  have htoken : ∀ i, 0 ≤ i → i < 4096 → IsElected topk tokens lru ub.tokenMark i →
      ub.slotToToken (-ub.lruSlots i - 2) = tokens (lru i) := fun i h0 h1 he => by
    rw [hslot i h0 h1 he, htok _ ((hitFlag_iff _ _ _ _ i).mp he.1).1]
  obtain ⟨hval, hframe⟩ := o.run_stride_scatter (by decide) fusedV3Shape.capacity
    (fun i => ub.lruSlots i ≤ -2 ∧ ub.tokenMark (ub.slotToToken (-ub.lruSlots i - 2)) = int32 i)
    (fun i => ub.tokenPos (ub.slotToToken (-ub.lruSlots i - 2))) (fun i => -ub.lruSlots i - 2)
    (fun i j hi0 hi1 hj0 hj1 hgi hgj hij => by
      -- a position belongs to one token, and a token elects one entry
      have hei := (resolveHit_guard htok hlru hi0 hi1).mp hgi
      have hej := (resolveHit_guard htok hlru hj0 hj1).mp hgj
      rw [htoken i hi0 hi1 hei, htoken j hj0 hj1 hej] at hij
      obtain ⟨r, -, -, hr, -, hri⟩ := hpos.first_of_hit hei.1
      obtain ⟨q, -, -, hq, -, hqj⟩ := hpos.first_of_hit hej.1
      have hrq : r = q := by rw [← hri, ← hqj, hij]
      rw [← hei.2, ← hej.2, ← hr, ← hq, hrq]) ub.currentSlots
  funext pos
  cases hs : servedBy fusedV3Shape topk tokens lru 4096 pos with
  | some slot =>
    obtain ⟨m, hm0, hm1, hel, hmt, hms⟩ := hmark.servedBy_eq hs
    have hfirst : 0 ≤ pos ∧ pos < fusedV3Shape.topk ∧
        fusedV3Shape.IsToken (topk pos) ∧ IsFirst topk pos := by
      unfold servedBy at hs
      split_ifs at hs with h
      exact h
    have h := hval m hm0 hm1 ((resolveHit_guard htok hlru hm0 hm1).mpr hel)
    rw [htoken m hm0 hm1 hel, hslot m hm0 hm1 hel, hmt,
      hpos.pos_first hfirst.1 hfirst.2.1 hfirst.2.2.1 hfirst.2.2.2] at h
    rw [h, hms, Option.getD_some]
  | none =>
    rw [Option.getD_none]
    refine hframe pos fun i hi0 hi1 hg heq => ?_
    have hel := (resolveHit_guard htok hlru hi0 hi1).mp hg
    rw [htoken i hi0 hi1 hel] at heq
    obtain ⟨r, hr0, hr1, hr, hfirst, hri⟩ := hpos.first_of_hit hel.1
    obtain rfl : r = pos := hri.symm.trans heq
    have ht := ((isHit_iff _ _ _ _).mp ((hitFlag_iff _ _ _ _ i).mp hel.1).2).1
    rw [servedBy, if_pos ⟨hr0, hr1, hr ▸ ht, hfirst⟩, getLast?_eq_none_iff,
      map_eq_nil_iff, filter_eq_nil_iff] at hs
    exact hs i (Int.mem_range_iff.mpr ⟨hi0, hi1⟩) (by simp [hel.1, hr])

end

end MemFabric.AccOffload.Lru.FusedV3
