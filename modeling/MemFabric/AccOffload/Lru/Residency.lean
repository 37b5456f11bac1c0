import MemFabric.AccOffload.Lru.Publish

/-!
# What the reference step keeps

The use order stays an order of all slots, the assigned slots are different from
each other and from the slots hit, and a position that gets a slot finds its
token there.  Slots can run out only when a token is resident twice: otherwise
every slot that is hit saves at least one position its miss.
-/

namespace MemFabric.AccOffload.Lru.Reference

open Simt Cache Int LruPlan

variable {sh : Shape} {inp : RowInput} {row : Row}

/-- The use order names every slot once. -/
def LruPerm (sh : Shape) (lruSlots : Int → Int) : Prop :=
  ((range 0 sh.capacity).map lruSlots).Perm (range 0 sh.capacity)

instance (sh : Shape) (lruSlots : Int → Int) : Decidable (LruPerm sh lruSlots) :=
  inferInstanceAs (Decidable (List.Perm _ _))

/-- No token is resident twice. -/
def ResidentInj (sh : Shape) (tokens : Int → Int) : Prop :=
  ∀ s t, sh.IsSlot s → sh.IsSlot t → sh.IsToken (tokens s) → tokens s = tokens t → s = t

def DistinctTopk (sh : Shape) (topk : Int → Int) : Prop :=
  ∀ p q, 0 ≤ p → p < sh.topk → 0 ≤ q → q < sh.topk → sh.IsToken (topk p) → topk p = topk q → p = q

structure Resolved (sh : Shape) (inp : RowInput) (row : Row) (pos : Int) : Prop where
  slot : sh.IsSlot (row.currentSlots pos)
  token : row.slotToToken (row.currentSlots pos) = inp.topkIndices pos

/-! ## The row a call starts from -/

theorem lruPerm_startLru_reset (hreq : row.lastReqId ≠ inp.reqId) :
    LruPerm sh (startLru sh inp row) := by
  have hid : (range 0 sh.capacity).map (startLru sh inp row) =
      (range 0 sh.capacity).map id := List.map_congr_left fun i hi => by
    rw [startLru_of_mem (mem_range_iff.mp hi), if_pos hreq, id]
  unfold LruPerm
  rw [hid, List.map_id]

theorem LruPerm.startLru (h : LruPerm sh row.lruSlots) (inp : RowInput) :
    LruPerm sh (startLru sh inp row) := by
  by_cases hreq : row.lastReqId ≠ inp.reqId
  · exact lruPerm_startLru_reset hreq
  · have hrow : (range 0 sh.capacity).map (Reference.startLru sh inp row) =
        (range 0 sh.capacity).map row.lruSlots := List.map_congr_left fun i hi => by
      rw [startLru_of_mem (mem_range_iff.mp hi), if_neg hreq]
    unfold LruPerm
    rw [hrow]
    exact h

theorem ResidentInj.startTokens (h : ResidentInj sh row.slotToToken) (inp : RowInput) :
    ResidentInj sh (startTokens sh inp row) := by
  intro s t hs ht htok heq
  rcases startTokens_cases sh inp row s with hneg | hrow
  · rw [hneg] at htok
    exact absurd htok sh.not_isToken_neg_one
  · rcases startTokens_cases sh inp row t with hneg' | hrow'
    · rw [heq, hneg'] at htok
      exact absurd htok sh.not_isToken_neg_one
    · rw [hrow] at htok heq
      rw [hrow'] at heq
      exact h s t hs ht htok heq

theorem residentInj_reset (hreq : row.lastReqId ≠ inp.reqId) :
    ResidentInj sh (startTokens sh inp row) := by
  intro s t _ _ htok
  rw [startTokens_reset hreq] at htok
  exact absurd htok sh.not_isToken_neg_one

/-! ## One step -/

section

variable (hlru : LruPerm sh (startLru sh inp row))

include hlru

theorem order_eq : (stepPlan sh inp row).order =
    (range 0 sh.capacity).map (startLru sh inp row) := by
  refine List.filter_eq_self.mpr fun s hs => ?_
  exact decide_eq_true (mem_range_iff.mp (hlru.mem_iff.mp hs))

theorem order_perm : (stepPlan sh inp row).order.Perm (range 0 sh.capacity) := by
  rw [order_eq hlru]
  exact hlru

theorem nodup_order_of_perm : (stepPlan sh inp row).order.Nodup :=
  (order_perm hlru).nodup_iff.mpr (nodup_range _ _)

theorem lruPerm_lruStep : LruPerm sh (lruStep sh inp row).lruSlots := by
  have hlen : (stepPlan sh inp row).newOrder.length = sh.capacity.toNat := by
    rw [(stepPlan sh inp row).newOrder_perm.length_eq, (order_perm hlru).length_eq, length_range,
      sub_zero]
  have hmap : (range 0 sh.capacity).map (lruStep sh inp row).lruSlots =
      (stepPlan sh inp row).newOrder := by
    refine List.ext_getElem? fun k => ?_
    rw [List.getElem?_map]
    by_cases hk : (k : Int) < sh.capacity
    · have hlt : k < (stepPlan sh inp row).newOrder.length := by omega
      rw [getElem?_range (by omega), Option.map_some, zero_add]
      simp only [lruStep]
      rw [if_pos ⟨natCast_nonneg k, hk⟩, toNat_natCast, List.getElem?_eq_getElem hlt,
        Option.getD_some]
    · rw [List.getElem?_eq_none (by rw [length_range]; omega), List.getElem?_eq_none (by omega)]
      rfl
  unfold LruPerm
  rw [hmap]
  exact (stepPlan sh inp row).newOrder_perm.trans (order_perm hlru)

end

theorem slotToToken_of_hit {s : Int} (hs : sh.IsSlot s)
    (hhit : (stepPlan sh inp row).hit s = true) :
    (lruStep sh inp row).slotToToken s = startTokens sh inp row s := by
  have hnone : (stepPlan sh inp row).missOf s = none :=
    missOf_eq_none _ fun i _ heq => by
      have := ((stepPlan sh inp row).mem_evictable.mp (List.mem_of_getElem? heq)).2
      rw [hhit] at this
      cases this
  simp only [lruStep]
  rw [if_pos hs, hnone]

/-! ## Positions -/

section

variable {pos : Int} (h0 : 0 ≤ pos) (h1 : pos < sh.topk)

include h0 h1

/-- A requested position is served by a hit or is one of the misses. -/
theorem hit_or_miss (row : Row) (ht : sh.IsToken (inp.topkIndices pos)) :
    (∃ slot, hitSlot sh inp.topkIndices (startTokens sh inp row) (startLru sh inp row) pos =
      some slot) ∨ ∃ k : Nat, (stepPlan sh inp row).misses[k]? = some pos := by
  cases hhit : hitSlot sh inp.topkIndices (startTokens sh inp row) (startLru sh inp row) pos with
  | some slot => exact .inl ⟨slot, rfl⟩
  | none =>
    right
    refine List.mem_iff_getElem?.mp (List.mem_filter.mpr ⟨mem_range_iff.mpr ⟨h0, h1⟩, ?_⟩)
    simp [needsSlot, ht, hhit]

theorem resolved_of_hit {slot : Int} (hhit : hitSlot sh inp.topkIndices (startTokens sh inp row)
    (startLru sh inp row) pos = some slot) : Resolved sh inp (lruStep sh inp row) pos := by
  obtain ⟨hs, hhit', htok, -⟩ := hitSlot_eq_some _ _ _ _ hhit
  have hnone : (stepPlan sh inp row).slotOf pos = none :=
    slotOf_eq_none _ fun i _ heq => by
      have hneed := (List.mem_filter.mp (List.mem_of_getElem? heq)).2
      simp [needsSlot, hhit] at hneed
  have hcur : (lruStep sh inp row).currentSlots pos = slot := by
    simp only [lruStep]
    rw [if_pos ⟨h0, h1⟩, hnone, hhit]
    rfl
  refine ⟨by rw [hcur]; exact hs, ?_⟩
  rw [hcur, slotToToken_of_hit hs hhit', htok]

theorem resolved_of_assigned (hnd : (stepPlan sh inp row).order.Nodup) {k : Nat}
    (hk : k < (stepPlan sh inp row).assignCount)
    (hmiss : (stepPlan sh inp row).misses[k]? = some pos) :
    Resolved sh inp (lruStep sh inp row) pos := by
  obtain ⟨pos', slot, hpos', hslot⟩ := (stepPlan sh inp row).assigned_at hk
  have hs := isSlot_of_mem_evictable (List.mem_of_getElem? hslot)
  have hcur : (lruStep sh inp row).currentSlots pos = slot := by
    simp only [lruStep]
    rw [if_pos ⟨h0, h1⟩, slotOf_of_getElem? _ (nodup_misses _ _ _) hmiss hslot]
  refine ⟨by rw [hcur]; exact hs, ?_⟩
  rw [hcur]
  simp only [lruStep]
  rw [if_pos hs, missOf_of_getElem? _
    ((stepPlan sh inp row).nodup_evictable hnd) hmiss hslot]

/-- A miss for which no slot is left. -/
theorem unresolved_of_miss {k : Nat} (hk : (stepPlan sh inp row).assignCount ≤ k)
    (hmiss : (stepPlan sh inp row).misses[k]? = some pos) :
    (lruStep sh inp row).currentSlots pos = -1 := by
  have hnone : (stepPlan sh inp row).slotOf pos = none :=
    slotOf_eq_none _ fun i hi heq => by
      have := (List.getElem?_inj (List.getElem?_eq_some_iff.mp heq).1
        (nodup_misses sh inp row)).mp (heq.trans hmiss.symm)
      omega
  have hhit : hitSlot sh inp.topkIndices (startTokens sh inp row) (startLru sh inp row) pos =
      none := by
    have hneed := (List.mem_filter.mp (List.mem_of_getElem? hmiss)).2
    exact (of_decide_eq_true hneed).2
  simp only [lruStep]
  rw [if_pos ⟨h0, h1⟩, hnone, hhit]
  rfl

theorem hitSlot_ne_none (ht : sh.IsToken (inp.topkIndices pos))
    (hfirst : IsFirst inp.topkIndices pos) {slot : Int} (hslot : slot ∈ (stepPlan sh inp row).order)
    (htok : startTokens sh inp row slot = inp.topkIndices pos) :
    hitSlot sh inp.topkIndices (startTokens sh inp row) (startLru sh inp row) pos ≠ none := by
  unfold hitSlot
  rw [if_pos ⟨ht, hfirst⟩, Ne, List.getLast?_eq_none_iff]
  refine List.ne_nil_of_mem (List.mem_filter.mpr ⟨hslot, decide_eq_true ⟨?_, htok⟩⟩)
  exact (isHit_iff _ _ _ _).mpr ⟨by rw [htok]; exact ht, pos, h0, h1, htok.symm⟩

end

/-! ## Room for all misses -/

section

variable (hlru : LruPerm sh (startLru sh inp row)) (hinj : ResidentInj sh (startTokens sh inp row))

include hlru hinj

/-- Every slot that is hit serves the first position of its token. -/
theorem hits_length_add_misses (hk : 0 ≤ sh.topk) :
    ((stepPlan sh inp row).hits.length : Int) + (stepPlan sh inp row).misses.length ≤ sh.topk := by
  have hnd : (stepPlan sh inp row).hits.Nodup := (nodup_order_of_perm hlru).filter _
  have hsub : (stepPlan sh inp row).hits ⊆ ((range 0 sh.topk).filter fun pos =>
      !needsSlot sh inp.topkIndices (startTokens sh inp row) (startLru sh inp row) pos).map
      fun pos => (hitSlot sh inp.topkIndices (startTokens sh inp row) (startLru sh inp row)
        pos).getD (-1) := by
    intro s hs
    obtain ⟨horder, hhit⟩ := (stepPlan sh inp row).mem_hits.mp hs
    obtain ⟨htok, q, hq0, hq, heq⟩ := (isHit_iff _ _ _ _).mp hhit
    obtain ⟨r, hr0, hr, hrq, hfirst⟩ := exists_first inp.topkIndices hq0 hq
    have htoken : startTokens sh inp row s = inp.topkIndices r := (hrq.trans heq).symm
    have hserved := hitSlot_ne_none hr0 hr (by rw [← htoken]; exact htok) hfirst horder htoken
    obtain ⟨s', hs'⟩ := Option.ne_none_iff_exists'.mp hserved
    obtain ⟨hslot', -, htok', -⟩ := hitSlot_eq_some _ _ _ _ hs'
    have hslot : sh.IsSlot s := mem_range_iff.mp ((order_perm hlru).mem_iff.mp horder)
    obtain rfl : s = s' := hinj s s' hslot hslot' htok (htoken.trans htok'.symm)
    refine List.mem_map.mpr ⟨r, List.mem_filter.mpr ⟨mem_range_iff.mpr ⟨hr0, hr⟩, ?_⟩, ?_⟩
    · simp [needsSlot, hs']
    · rw [hs']
      rfl
  have hle := (List.subperm_of_subset hnd hsub).length_le
  rw [List.length_map] at hle
  have hsplit := List.length_eq_length_filter_add
    (needsSlot sh inp.topkIndices (startTokens sh inp row) (startLru sh inp row))
    (l := range 0 sh.topk)
  rw [length_range, ← stepPlan_misses] at hsplit
  omega

theorem misses_length_le_evictable (hk : 0 ≤ sh.topk) (hkc : sh.topk ≤ sh.capacity) :
    (stepPlan sh inp row).misses.length ≤ (stepPlan sh inp row).evictable.length := by
  have hle := hits_length_add_misses hlru hinj hk
  have hsum := (stepPlan sh inp row).length_evictable_add_hits
  have horder := (order_perm hlru).length_eq
  rw [length_range] at horder
  omega

/-- When no token is resident twice and the slots suffice, every requested
position is resolved. -/
theorem resolved_of_residentInj (hk : 0 ≤ sh.topk) (hkc : sh.topk ≤ sh.capacity) {pos : Int}
    (h0 : 0 ≤ pos) (h1 : pos < sh.topk) (ht : sh.IsToken (inp.topkIndices pos)) :
    Resolved sh inp (lruStep sh inp row) pos := by
  rcases hit_or_miss h0 h1 row ht with ⟨slot, hhit⟩ | ⟨k, hmiss⟩
  · exact resolved_of_hit h0 h1 hhit
  · have hroom := misses_length_le_evictable hlru hinj hk hkc
    have hlt := (List.getElem?_eq_some_iff.mp hmiss).1
    refine resolved_of_assigned h0 h1 (nodup_order_of_perm hlru) ?_ hmiss
    unfold assignCount
    omega

theorem residentInj_lruStep (htopk : DistinctTopk sh inp.topkIndices) :
    ResidentInj sh (lruStep sh inp row).slotToToken := by
  -- a missing token is not resident
  have hmissing : ∀ {s t p : Int}, sh.IsSlot t → (stepPlan sh inp row).missOf s = some p →
      startTokens sh inp row t ≠ inp.topkIndices p := by
    intro s t p hslot hm htok
    obtain ⟨i, -, hi, -⟩ := missOf_eq_some _ hm
    have hmem := List.mem_filter.mp (List.mem_of_getElem? hi)
    have hb := mem_range_iff.mp hmem.1
    obtain ⟨ht, hnone⟩ := of_decide_eq_true hmem.2
    refine hitSlot_ne_none hb.1 hb.2 ht (fun q hq heq => ?_)
      ((order_perm hlru).mem_iff.mpr (mem_range_iff.mpr hslot)) htok hnone
    have hq' := mem_range_iff.mp hq
    have := htopk p q hb.1 hb.2 hq'.1 (by omega) ht heq.symm
    omega
  intro s t hs ht
  simp only [lruStep]
  rw [if_pos hs, if_pos ht]
  cases hms : (stepPlan sh inp row).missOf s with
  | none =>
    cases hmt : (stepPlan sh inp row).missOf t with
    | none => exact hinj s t hs ht
    | some q => exact fun _ heq => absurd heq (hmissing hs hmt)
  | some p =>
    cases hmt : (stepPlan sh inp row).missOf t with
    | none => exact fun _ heq => absurd heq.symm (hmissing ht hms)
    | some q =>
      intro htok heq
      obtain ⟨i, -, hi, hsi⟩ := missOf_eq_some _ hms
      obtain ⟨j, -, hj, htj⟩ := missOf_eq_some _ hmt
      have hp := bounds_of_mem_misses (List.mem_of_getElem? hi)
      have hq := bounds_of_mem_misses (List.mem_of_getElem? hj)
      obtain rfl := htopk p q hp.1 hp.2 hq.1 hq.2 htok heq
      obtain rfl := (List.getElem?_inj (List.getElem?_eq_some_iff.mp hi).1
        (nodup_misses sh inp row)).mp (hi.trans hj.symm)
      exact Option.some.inj (hsi.symm.trans htj)

end

end MemFabric.AccOffload.Lru.Reference
