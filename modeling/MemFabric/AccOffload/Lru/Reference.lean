import MemFabric.AccOffload.Lru.Row
import MemFabric.Cache.LruPlan
import MemFabric.Simt.Compact

/-!
# The reference LRU step

What one compact call is for, independent of any kernel: drop the tokens past
the stable prefix (or everything, when the row changes request), find the
requested tokens that are still resident, and let the remaining requests evict
the oldest slots.  All kernels of the operator are compared with `lruStep`.

A requested token may be resident in several slots and may be requested at
several positions.  All its slots count as hit; the last of them in use order
serves the first of its positions, and the other positions are misses.
-/

namespace MemFabric.AccOffload.Lru.Reference

open Simt Cache Int LruPlan

section Plan

variable (sh : Shape) (topk tokens lru : Int → Int)

/-- The slots named by the row, oldest first; entries out of range are skipped. -/
def order : List Int := ((range 0 sh.capacity).map lru).filter (sh.IsSlot ·)

def DistinctSlots : Prop := ∀ i j, 0 ≤ i → i < sh.capacity → 0 ≤ j → j < sh.capacity →
  sh.IsSlot (lru i) → lru i = lru j → i = j

theorem nodup_order {lru : Int → Int} (h : DistinctSlots sh lru) : (order sh lru).Nodup := by
  unfold order
  rw [List.filter_map]
  refine List.Nodup.map_on (fun i hi j hj heq => ?_) ((nodup_range _ _).filter _)
  obtain ⟨hri, hsi⟩ := List.mem_filter.mp hi
  have hbi := mem_range_iff.mp hri
  have hbj := mem_range_iff.mp (List.mem_filter.mp hj).1
  exact h i j hbi.1 hbi.2 hbj.1 hbj.2 (of_decide_eq_true hsi) heq

def topkTokens : List Int := (range 0 sh.topk).map topk

def isHit (slot : Int) : Bool := sh.IsToken (tokens slot) ∧ tokens slot ∈ topkTokens sh topk

theorem isHit_iff (slot : Int) : isHit sh topk tokens slot = true ↔
    sh.IsToken (tokens slot) ∧ ∃ q, 0 ≤ q ∧ q < sh.topk ∧ topk q = tokens slot := by
  unfold isHit
  rw [decide_eq_true_iff]
  simp only [topkTokens, List.mem_map, mem_range_iff, and_assoc]

/-- No earlier position requests the same token. -/
def IsFirst (pos : Int) : Prop := ∀ q ∈ range 0 pos, topk q ≠ topk pos

instance : DecidablePred (IsFirst topk) := fun pos =>
  inferInstanceAs (Decidable (∀ q ∈ range 0 pos, topk q ≠ topk pos))

/-- The resident slots of a token in use order. -/
def slotsOf (token : Int) : List Int :=
  (order sh lru).filter fun slot => isHit sh topk tokens slot ∧ tokens slot = token

/-- The slot that serves a position without a copy. -/
def hitSlot (pos : Int) : Option Int :=
  if sh.IsToken (topk pos) ∧ IsFirst topk pos then
    (slotsOf sh topk tokens lru (topk pos)).getLast?
  else none

variable {pos i : Int}

theorem hitSlot_eq_some {slot : Int} (h : hitSlot sh topk tokens lru pos = some slot) :
    sh.IsSlot slot ∧ isHit sh topk tokens slot = true ∧ tokens slot = topk pos ∧
      slot ∈ order sh lru := by
  unfold hitSlot at h
  split_ifs at h
  obtain ⟨horder, hhit⟩ := List.mem_filter.mp (List.mem_of_getLast? h)
  have hslot : sh.IsSlot slot := by simpa using (List.mem_filter.mp horder).2
  have hhit' : isHit sh topk tokens slot = true ∧ tokens slot = topk pos := by simpa using hhit
  exact ⟨hslot, hhit'.1, hhit'.2, horder⟩

def needsSlot (pos : Int) : Bool :=
  sh.IsToken (topk pos) ∧ hitSlot sh topk tokens lru pos = none

def misses : List Int := (range 0 sh.topk).filter (needsSlot sh topk tokens lru)

def plan : LruPlan Int Int where
  order := order sh lru
  hit := isHit sh topk tokens
  misses := misses sh topk tokens lru

/-! The same lists by index into the use order, the way the kernels visit it. -/

def evictFlag (i : Int) : Bool := sh.IsSlot (lru i) ∧ isHit sh topk tokens (lru i) = false

def hitFlag (i : Int) : Bool := sh.IsSlot (lru i) ∧ isHit sh topk tokens (lru i) = true

theorem evictFlag_hitFlag (i : Int) (h : evictFlag sh topk tokens lru i = true) :
    hitFlag sh topk tokens lru i = false := by
  simp only [evictFlag, decide_eq_true_eq] at h
  simp [hitFlag, h.2]

theorem hitFlag_iff (i : Int) : hitFlag sh topk tokens lru i = true ↔
    sh.IsSlot (lru i) ∧ isHit sh topk tokens (lru i) = true := by
  unfold hitFlag
  rw [decide_eq_true_iff]

theorem evictable_eq : (plan sh topk tokens lru).evictable =
    ((range 0 sh.capacity).filter (evictFlag sh topk tokens lru)).map lru := by
  simp only [evictable, plan, order, List.filter_map, List.filter_filter]
  congr 1
  refine List.filter_congr fun i _ => ?_
  simp [evictFlag, and_comm]

theorem hits_eq : (plan sh topk tokens lru).hits =
    ((range 0 sh.capacity).filter (hitFlag sh topk tokens lru)).map lru := by
  simp only [hits, plan, order, List.filter_map, List.filter_filter]
  congr 1
  refine List.filter_congr fun i _ => ?_
  simp [hitFlag, and_comm]

theorem slotsOf_eq (token : Int) : slotsOf sh topk tokens lru token =
    ((range 0 sh.capacity).filter fun i =>
      hitFlag sh topk tokens lru i ∧ tokens (lru i) = token).map lru := by
  simp only [slotsOf, order, List.filter_map, List.filter_filter]
  congr 1
  refine List.filter_congr fun i _ => ?_
  simp only [Function.comp, hitFlag, Bool.decide_and]
  cases decide (sh.IsSlot (lru i)) <;> cases isHit sh topk tokens (lru i) <;> simp

theorem exists_first {n q : Int} (hq0 : 0 ≤ q) (hq : q < n) :
    ∃ r, 0 ≤ r ∧ r < n ∧ topk r = topk q ∧ IsFirst topk r := by
  obtain ⟨k, rfl⟩ := eq_ofNat_of_zero_le hq0
  induction k using Nat.strong_induction_on with
  | _ k ih =>
    by_cases hfirst : IsFirst topk k
    · exact ⟨k, hq0, hq, rfl, hfirst⟩
    · simp only [IsFirst, not_forall, not_not] at hfirst
      obtain ⟨r, hr, heq⟩ := hfirst
      have hb := mem_range_iff.mp hr
      obtain ⟨j, rfl⟩ := eq_ofNat_of_zero_le hb.1
      obtain ⟨p, hp0, hp, hpeq, hpf⟩ := ih j (by omega) hb.1 (by omega)
      exact ⟨p, hp0, hp, hpeq.trans heq, hpf⟩

theorem IsFirst.unique {topk : Int → Int} {p q : Int} (hp : IsFirst topk p) (hq : IsFirst topk q)
    (hp0 : 0 ≤ p) (hq0 : 0 ≤ q) (heq : topk p = topk q) : p = q := by
  rcases lt_trichotomy p q with h | h | h
  · exact absurd heq (hq p (mem_range_iff.mpr ⟨hp0, h⟩))
  · exact h
  · exact absurd heq.symm (hp q (mem_range_iff.mpr ⟨hq0, h⟩))

/-- The slot that serves a position, searched in the entries below `n`. -/
def servedBy (n pos : Int) : Option Int :=
  if 0 ≤ pos ∧ pos < sh.topk ∧ sh.IsToken (topk pos) ∧ IsFirst topk pos then
    (((range 0 n).filter fun i =>
      hitFlag sh topk tokens lru i ∧ tokens (lru i) = topk pos).map lru).getLast?
  else none

theorem servedBy_capacity (h : 0 ≤ pos ∧ pos < sh.topk) :
    servedBy sh topk tokens lru sh.capacity pos = hitSlot sh topk tokens lru pos := by
  simp only [servedBy, hitSlot, slotsOf_eq, h.1, h.2, true_and]

/-- The entry written back to the use order while a plan is built: hits are
encoded as `-slot - 2`, invalid entries as `-1`. -/
def encodedSlot (slot : Int) : Int :=
  if ¬ sh.IsSlot slot then -1 else if isHit sh topk tokens slot then -slot - 2 else slot

theorem encodedSlot_le_iff (i : Int) :
    encodedSlot sh topk tokens (lru i) ≤ -2 ↔ hitFlag sh topk tokens lru i = true := by
  by_cases hs : sh.IsSlot (lru i)
  · have hb : 0 ≤ lru i := hs.1
    cases hh : isHit sh topk tokens (lru i) with
    | true => simp only [encodedSlot, hitFlag, hs, hh]; simp; omega
    | false => simp only [encodedSlot, hitFlag, hs, hh]; simp; omega
  · simp [encodedSlot, hitFlag, hs]

theorem encodedSlot_mem_iff (i : Int) :
    sh.IsSlot (encodedSlot sh topk tokens (lru i)) ↔ evictFlag sh topk tokens lru i = true := by
  by_cases hs : sh.IsSlot (lru i)
  · cases hh : isHit sh topk tokens (lru i) with
    | true =>
      have hneg : ¬ sh.IsSlot (-lru i - 2) := fun h => by
        have := h.1
        have := hs.1
        omega
      simp [encodedSlot, evictFlag, hs, hh, hneg]
    | false => simp [encodedSlot, evictFlag, hs, hh]
  · have hneg : ¬ sh.IsSlot (-1) := fun h => by
      have := h.1
      omega
    simp [encodedSlot, evictFlag, hs, hneg]

theorem encodedSlot_of_hit (h : hitFlag sh topk tokens lru i = true) :
    -encodedSlot sh topk tokens (lru i) - 2 = lru i := by
  simp only [hitFlag, decide_eq_true_eq] at h
  simp [encodedSlot, h.1, h.2]

theorem encodedSlot_of_evict (h : evictFlag sh topk tokens lru i = true) :
    encodedSlot sh topk tokens (lru i) = lru i := by
  simp only [evictFlag, decide_eq_true_eq] at h
  simp [encodedSlot, h.1, h.2]

end Plan

/-- The tokens a call starts from: none after a change of request, otherwise
those below the stable prefix. -/
def startTokens (sh : Shape) (inp : RowInput) (row : Row) : Int → Int := fun slot =>
  if ¬ sh.IsSlot slot ∨ row.lastReqId ≠ inp.reqId then -1
  else if sh.IsToken (row.slotToToken slot) ∧
      clampPrefix sh inp.stablePrefixLen ≤ row.slotToToken slot then -1
  else row.slotToToken slot

theorem startTokens_cases (sh : Shape) (inp : RowInput) (row : Row) (slot : Int) :
    startTokens sh inp row slot = -1 ∨ startTokens sh inp row slot = row.slotToToken slot := by
  unfold startTokens
  split_ifs
  · exact .inl rfl
  · exact .inl rfl
  · exact .inr rfl

def startLru (sh : Shape) (inp : RowInput) (row : Row) : Int → Int := fun i =>
  if ¬ (0 ≤ i ∧ i < sh.capacity) then -1
  else if row.lastReqId ≠ inp.reqId then i
  else row.lruSlots i

variable {sh : Shape} {row : Row}

theorem startLru_of_mem {inp : RowInput} {i : Int} (h : 0 ≤ i ∧ i < sh.capacity) :
    startLru sh inp row i = if row.lastReqId ≠ inp.reqId then i else row.lruSlots i :=
  if_neg (not_not.mpr h)

def stepPlan (sh : Shape) (inp : RowInput) (row : Row) : LruPlan Int Int :=
  plan sh inp.topkIndices (startTokens sh inp row) (startLru sh inp row)

theorem stepPlan_misses (sh : Shape) (inp : RowInput) (row : Row) :
    (stepPlan sh inp row).misses = (range 0 sh.topk).filter
      (needsSlot sh inp.topkIndices (startTokens sh inp row) (startLru sh inp row)) := rfl

theorem nodup_stepPlan_order (h : DistinctSlots sh row.lruSlots)
    (inp : RowInput) : (stepPlan sh inp row).order.Nodup := by
  refine nodup_order sh fun i j hi0 hi hj0 hj hs heq => ?_
  rw [startLru_of_mem ⟨hi0, hi⟩] at hs heq
  rw [startLru_of_mem ⟨hj0, hj⟩] at heq
  split_ifs at hs heq
  · exact heq
  · exact h i j hi0 hi hj0 hj hs heq

/-- The row after one call.  `missTokens` lists every miss, also those past
`missCount` that found no slot. -/
def lruStep (sh : Shape) (inp : RowInput) (row : Row) : Row where
  lastReqId := inp.reqId
  slotToToken slot :=
    if sh.IsSlot slot then
      match (stepPlan sh inp row).missOf slot with
      | some pos => inp.topkIndices pos
      | none => startTokens sh inp row slot
    else row.slotToToken slot
  lruSlots i :=
    if 0 ≤ i ∧ i < sh.capacity then ((stepPlan sh inp row).newOrder[i.toNat]?).getD (-1)
    else row.lruSlots i
  currentSlots pos :=
    if 0 ≤ pos ∧ pos < sh.topk then
      match (stepPlan sh inp row).slotOf pos with
      | some slot => slot
      | none =>
        (hitSlot sh inp.topkIndices (startTokens sh inp row) (startLru sh inp row) pos).getD (-1)
    else row.currentSlots pos
  missCount := (stepPlan sh inp row).assignCount
  missTokens i :=
    if 0 ≤ i ∧ i < sh.topk then
      (((stepPlan sh inp row).misses[i.toNat]?).map inp.topkIndices).getD (-1)
    else row.missTokens i
  missSlots i :=
    if 0 ≤ i ∧ i < sh.topk then
      (((stepPlan sh inp row).evictable.take (stepPlan sh inp row).assignCount)[i.toNat]?).getD (-1)
    else row.missSlots i

/-! ## A row that changes its request

Every slot is free and the use order is `0, 1, ..., capacity - 1`, so the `i`-th
requested position takes slot `i`. -/

section

variable {sh : Shape} {inp : RowInput} {row : Row} (hreq : row.lastReqId ≠ inp.reqId)

include hreq

theorem startTokens_reset : startTokens sh inp row = fun _ => -1 := by
  funext slot
  exact if_pos (.inr hreq)

theorem hit_reset (slot : Int) : (stepPlan sh inp row).hit slot = false := by
  simp [stepPlan, plan, isHit, startTokens_reset hreq]

theorem order_reset : (stepPlan sh inp row).order = range 0 sh.capacity := by
  have hid : (range 0 sh.capacity).map (startLru sh inp row) =
      (range 0 sh.capacity).map id :=
    List.map_congr_left fun i hi => by
      rw [startLru_of_mem (mem_range_iff.mp hi), if_pos hreq, id]
  have horder : (stepPlan sh inp row).order =
      ((range 0 sh.capacity).map (startLru sh inp row)).filter (sh.IsSlot ·) := rfl
  rw [horder, hid, List.map_id, List.filter_eq_self]
  intro i hi
  exact decide_eq_true (mem_range_iff.mp hi : sh.IsSlot i)

theorem evictable_reset : (stepPlan sh inp row).evictable = range 0 sh.capacity := by
  rw [evictable, order_reset hreq, List.filter_eq_self]
  intro i _
  rw [hit_reset hreq i]
  rfl

theorem hits_reset : (stepPlan sh inp row).hits = [] := by
  rw [hits, List.filter_eq_nil_iff]
  intro i _
  rw [hit_reset hreq i]
  decide

theorem hitSlot_reset (pos : Int) :
    hitSlot sh inp.topkIndices (startTokens sh inp row) (startLru sh inp row) pos = none := by
  cases h : hitSlot sh inp.topkIndices (startTokens sh inp row) (startLru sh inp row) pos with
  | none => rfl
  | some slot =>
    have hhit : (stepPlan sh inp row).hit slot = true := (hitSlot_eq_some _ _ _ _ h).2.1
    rw [hit_reset hreq slot] at hhit
    cases hhit

theorem misses_reset : (stepPlan sh inp row).misses =
    (range 0 sh.topk).filter (fun pos => sh.IsToken (inp.topkIndices pos)) := by
  refine List.filter_congr fun pos _ => ?_
  simp [needsSlot, hitSlot_reset hreq]

theorem getElem?_evictable_reset {i : Nat} (h : (i : Int) < sh.capacity) :
    (stepPlan sh inp row).evictable[i]? = some (i : Int) := by
  rw [evictable_reset hreq, getElem?_range (by omega), zero_add]

theorem assignCount_reset (hk : 0 ≤ sh.topk) (hkc : sh.topk ≤ sh.capacity) :
    (stepPlan sh inp row).assignCount = (stepPlan sh inp row).misses.length := by
  have hle : ((stepPlan sh inp row).misses.length : Int) ≤ sh.topk :=
    rank_le (needsSlot sh inp.topkIndices (startTokens sh inp row) (startLru sh inp row)) hk
  rw [assignCount, evictable_reset hreq, length_range]
  omega

theorem missOf_reset (hk : 0 ≤ sh.topk) (hkc : sh.topk ≤ sh.capacity) {slot : Int}
    (hs : sh.IsSlot slot) :
    (stepPlan sh inp row).missOf slot = (stepPlan sh inp row).misses[slot.toNat]? := by
  have hslot : ((slot.toNat : Nat) : Int) = slot := toNat_of_nonneg hs.1
  have hfree : (stepPlan sh inp row).evictable[slot.toNat]? = some slot := by
    rw [getElem?_evictable_reset hreq (by rw [hslot]; exact hs.2), hslot]
  have hnd : (stepPlan sh inp row).evictable.Nodup := by
    rw [evictable_reset hreq]
    exact nodup_range _ _
  cases hm : (stepPlan sh inp row).misses[slot.toNat]? with
  | some pos => exact missOf_of_getElem? _ hnd hm hfree
  | none =>
    refine missOf_eq_none _ fun i hi heq => ?_
    rw [assignCount_reset hreq hk hkc] at hi
    have hc := hs.2
    have hle := List.getElem?_eq_none_iff.mp hm
    have hi' : (i : Int) < sh.capacity := by omega
    rw [getElem?_evictable_reset hreq hi'] at heq
    have : (i : Int) = slot := Option.some.inj heq
    omega

/-- The slot assigned to a position: its rank among the requested ones. -/
theorem slotOf_reset (hkc : sh.topk ≤ sh.capacity) {pos : Int} (h0 : 0 ≤ pos) (h1 : pos < sh.topk) :
    (stepPlan sh inp row).slotOf pos = if sh.IsToken (inp.topkIndices pos) then
      some (rank (fun pos => sh.IsToken (inp.topkIndices pos)) pos : Int) else none := by
  split_ifs with ht
  · have hle := rank_le (fun pos => decide (sh.IsToken (inp.topkIndices pos))) h0
    refine slotOf_of_getElem? _ ((nodup_range _ _).filter _) ?_
      (getElem?_evictable_reset hreq (by omega))
    rw [misses_reset hreq]
    exact getElem?_rank _ h0 h1 (decide_eq_true ht)
  · refine slotOf_eq_none _ fun i _ heq => ht ?_
    rw [misses_reset hreq] at heq
    simpa using (List.mem_filter.mp (List.mem_of_getElem? heq)).2

/-- The new use order: the slots left free, then the slots just taken. -/
theorem newOrder_reset {n : Int} (hn0 : 0 ≤ n) (hn : n ≤ sh.capacity)
    (hcount : ((stepPlan sh inp row).assignCount : Int) = n) :
    (stepPlan sh inp row).newOrder = range n sh.capacity ++ range 0 n := by
  have hlen : (range 0 n).length = (stepPlan sh inp row).assignCount := by
    rw [length_range]
    omega
  rw [newOrder, hits_reset hreq, evictable_reset hreq, List.append_nil,
    ← range_append hn0 hn, ← hlen, List.drop_left, List.take_left]

theorem getElem?_newOrder_reset {n i : Int} (hn0 : 0 ≤ n) (hn : n ≤ sh.capacity)
    (hcount : ((stepPlan sh inp row).assignCount : Int) = n) (h0 : 0 ≤ i) (h1 : i < sh.capacity) :
    (stepPlan sh inp row).newOrder[i.toNat]? =
      some (if i < sh.capacity - n then n + i else i - (sh.capacity - n)) := by
  rw [newOrder_reset hreq hn0 hn hcount]
  have hi : ((i.toNat : Nat) : Int) = i := toNat_of_nonneg h0
  split_ifs with hlt
  · rw [List.getElem?_append_left (by rw [length_range]; omega), getElem?_range (by omega), hi]
  · rw [List.getElem?_append_right (by rw [length_range]; omega), length_range,
      getElem?_range (by omega)]
    congr 1
    omega

end

/-! ## A call reads its row only

The step depends on the cells of the row alone, so a kernel may work on a copy
of the row whose surroundings are arbitrary. -/

/-- The same call on the same row; the cells outside the row may differ. -/
structure SameRow (sh : Shape) (inp inp' : RowInput) (row row' : Row) : Prop where
  reqId : inp.reqId = inp'.reqId
  stablePrefixLen : inp.stablePrefixLen = inp'.stablePrefixLen
  topkIndices : ∀ pos, 0 ≤ pos → pos < sh.topk → inp.topkIndices pos = inp'.topkIndices pos
  lastReqId : row.lastReqId = row'.lastReqId
  slotToToken : ∀ slot, sh.IsSlot slot → row.slotToToken slot = row'.slotToToken slot
  lruSlots : ∀ i, 0 ≤ i → i < sh.capacity → row.lruSlots i = row'.lruSlots i

namespace SameRow

variable {sh : Shape} {inp inp' : RowInput} {row row' : Row} (h : SameRow sh inp inp' row row')

include h

theorem startTokens_eq : startTokens sh inp row = startTokens sh inp' row' := by
  funext slot
  unfold startTokens
  rw [h.lastReqId, h.reqId, h.stablePrefixLen]
  by_cases hs : sh.IsSlot slot
  · rw [h.slotToToken slot hs]
  · rw [if_pos (.inl hs), if_pos (.inl hs)]

theorem startLru_eq : startLru sh inp row = startLru sh inp' row' := by
  funext i
  unfold startLru
  rw [h.lastReqId, h.reqId]
  by_cases hi : 0 ≤ i ∧ i < sh.capacity
  · rw [h.lruSlots i hi.1 hi.2]
  · rw [if_pos hi, if_pos hi]

theorem topkTokens_eq : topkTokens sh inp.topkIndices = topkTokens sh inp'.topkIndices := by
  refine List.map_congr_left fun pos hpos => ?_
  have hb := mem_range_iff.mp hpos
  exact h.topkIndices pos hb.1 hb.2

theorem isHit_eq : isHit sh inp.topkIndices = isHit sh inp'.topkIndices := by
  unfold isHit
  rw [h.topkTokens_eq]

variable {pos i : Int}

theorem isFirst_iff (h0 : 0 ≤ pos) (h1 : pos < sh.topk) :
    IsFirst inp.topkIndices pos ↔ IsFirst inp'.topkIndices pos := by
  refine forall₂_congr fun q hq => ?_
  have hb := mem_range_iff.mp hq
  rw [h.topkIndices q hb.1 (by omega), h.topkIndices pos h0 h1]

theorem hitSlot_eq (h0 : 0 ≤ pos) (h1 : pos < sh.topk) (tokens lru : Int → Int) :
    hitSlot sh inp.topkIndices tokens lru pos = hitSlot sh inp'.topkIndices tokens lru pos := by
  unfold hitSlot slotsOf
  rw [h.isHit_eq, h.topkIndices pos h0 h1]
  exact if_congr (and_congr_right' (h.isFirst_iff h0 h1)) rfl rfl

theorem stepPlan_eq : stepPlan sh inp row = stepPlan sh inp' row' := by
  unfold stepPlan plan misses
  rw [h.startTokens_eq, h.startLru_eq, h.isHit_eq]
  congr 1
  refine List.filter_congr fun pos hpos => ?_
  have hb := mem_range_iff.mp hpos
  unfold needsSlot
  rw [h.hitSlot_eq hb.1 hb.2, h.topkIndices pos hb.1 hb.2]

/-! The cells of the row after the call. -/

theorem slotToToken_eq {slot : Int} (hs : sh.IsSlot slot) :
    (lruStep sh inp row).slotToToken slot = (lruStep sh inp' row').slotToToken slot := by
  simp only [lruStep, if_pos hs, h.stepPlan_eq, h.startTokens_eq]
  cases hm : (stepPlan sh inp' row').missOf slot with
  | none => rfl
  | some pos =>
    obtain ⟨i, -, hi, -⟩ := missOf_eq_some _ hm
    have hb := mem_range_iff.mp (List.mem_filter.mp (List.mem_of_getElem? hi)).1
    exact h.topkIndices pos hb.1 hb.2

theorem lruSlots_eq (hi : 0 ≤ i ∧ i < sh.capacity) :
    (lruStep sh inp row).lruSlots i = (lruStep sh inp' row').lruSlots i := by
  simp only [lruStep, if_pos hi, h.stepPlan_eq]

theorem currentSlots_eq (hpos : 0 ≤ pos ∧ pos < sh.topk) :
    (lruStep sh inp row).currentSlots pos = (lruStep sh inp' row').currentSlots pos := by
  simp only [lruStep, if_pos hpos, h.stepPlan_eq, h.startTokens_eq, h.startLru_eq,
    h.hitSlot_eq hpos.1 hpos.2]

theorem missTokens_eq (hi : 0 ≤ i ∧ i < sh.topk) :
    (lruStep sh inp row).missTokens i = (lruStep sh inp' row').missTokens i := by
  simp only [lruStep, if_pos hi, h.stepPlan_eq]
  cases hm : (stepPlan sh inp' row').misses[i.toNat]? with
  | none => rfl
  | some pos =>
    have hb := mem_range_iff.mp (List.mem_filter.mp (List.mem_of_getElem? hm)).1
    exact h.topkIndices pos hb.1 hb.2

theorem missSlots_eq (hi : 0 ≤ i ∧ i < sh.topk) :
    (lruStep sh inp row).missSlots i = (lruStep sh inp' row').missSlots i := by
  simp only [lruStep, if_pos hi, h.stepPlan_eq]

end SameRow

end MemFabric.AccOffload.Lru.Reference
