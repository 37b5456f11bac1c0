import MemFabric.AccOffload.Lru.Phased
import MemFabric.AccOffload.Lru.Reference

/-!
# Publishing a plan

Both compact kernels end the same way: a finished plan stands in the workspace,
one phase hands the evictable slots to the misses, and one phase rewrites the
use order.  `PlanReady` says what a finished plan is, and
`publish_eq_lruStep` that publishing it is the reference step, whatever the
number of lanes and the order they run in.
-/

namespace MemFabric.AccOffload.Lru

open Simt Cache Reference List Function

/-- The row after the request check and the prefix invalidation, with its
outputs cleared. -/
def startRow (sh : Shape) (inp : RowInput) (row : Row) : Row where
  lastReqId := inp.reqId
  slotToToken slot := if sh.IsSlot slot then startTokens sh inp row slot else row.slotToToken slot
  lruSlots i := if 0 ≤ i ∧ i < sh.capacity then startLru sh inp row i else row.lruSlots i
  currentSlots pos := if 0 ≤ pos ∧ pos < sh.topk then -1 else row.currentSlots pos
  missCount := 0
  missTokens i := if 0 ≤ i ∧ i < sh.topk then -1 else row.missTokens i
  missSlots i := if 0 ≤ i ∧ i < sh.topk then -1 else row.missSlots i

/-- `current_slots` once the hits are resolved and before any slot is assigned. -/
def hitSlots (sh : Shape) (inp : RowInput) (row : Row) : Int → Int := fun pos =>
  if 0 ≤ pos ∧ pos < sh.topk then
    (hitSlot sh inp.topkIndices (startTokens sh inp row) (startLru sh inp row) pos).getD (-1)
  else row.currentSlots pos

theorem servedBy_getD_eq_hitSlots (sh : Shape) (inp : RowInput) (row : Row) (pos : Int) :
    (servedBy sh inp.topkIndices (startTokens sh inp row) (startLru sh inp row) sh.capacity
      pos).getD ((startRow sh inp row).currentSlots pos) = hitSlots sh inp row pos := by
  by_cases hpos : 0 ≤ pos ∧ pos < sh.topk
  · rw [servedBy_capacity _ _ _ _ hpos]
    simp [startRow, hitSlots, hpos]
  · have hnone : servedBy sh inp.topkIndices (startTokens sh inp row) (startLru sh inp row)
        sh.capacity pos = none := if_neg fun h => hpos ⟨h.1, h.2.1⟩
    simp [startRow, hitSlots, hpos, hnone]

theorem needsSlot_iff {sh : Shape} {inp : RowInput} {row : Row} {pos : Int} (h0 : 0 ≤ pos)
    (h1 : pos < sh.topk) :
    needsSlot sh inp.topkIndices (startTokens sh inp row) (startLru sh inp row) pos = true ↔
      sh.IsToken (inp.topkIndices pos) ∧ hitSlots sh inp row pos < 0 := by
  unfold needsSlot hitSlots
  rw [decide_eq_true_iff, if_pos ⟨h0, h1⟩]
  cases hh : hitSlot sh inp.topkIndices (startTokens sh inp row) (startLru sh inp row) pos with
  | none => simp
  | some slot =>
    have := (hitSlot_eq_some _ _ _ _ hh).1.1
    simp
    omega

/-- The workspace holds the plan of the call, and the row is otherwise as it was
when the call started. -/
structure PlanReady (sh : Shape) (inp : RowInput) (row : Row) (w : Work) : Prop where
  evictable : StoredAt (fun k => (k : Int)) w.tokenMark (stepPlan sh inp row).evictable
  hits : StoredAt (fun k => sh.maxToken - 1 - (k : Int)) w.tokenMark (stepPlan sh inp row).hits
  misses : StoredAt (fun k => (k : Int)) w.tokenPos (stepPlan sh inp row).misses
  evictableCount : w.tokenPos (sh.maxToken - 2) = (stepPlan sh inp row).evictable.length
  hitCount : w.tokenPos (sh.maxToken - 1) = (stepPlan sh inp row).hits.length
  missCount : w.missCount = (stepPlan sh inp row).assignCount
  slotToToken : w.slotToToken = (startRow sh inp row).slotToToken
  currentSlots : w.currentSlots = hitSlots sh inp row
  missTokens : w.missTokens = (lruStep sh inp row).missTokens
  missSlots : w.missSlots = (startRow sh inp row).missSlots
  lruSlots : ∀ i, ¬ (0 ≤ i ∧ i < sh.capacity) → w.lruSlots i = row.lruSlots i

variable {sh : Shape} {inp : RowInput} {row : Row}

theorem isSlot_of_mem_evictable {slot : Int} (h : slot ∈ (stepPlan sh inp row).evictable) :
    sh.IsSlot slot := by
  have horder := ((stepPlan sh inp row).mem_evictable.mp h).1
  simpa using (mem_filter.mp horder).2

theorem bounds_of_mem_misses {pos : Int} (h : pos ∈ (stepPlan sh inp row).misses) :
    0 ≤ pos ∧ pos < sh.topk :=
  Int.mem_range_iff.mp (mem_filter.mp h).1

theorem nodup_misses (sh : Shape) (inp : RowInput) (row : Row) :
    (stepPlan sh inp row).misses.Nodup :=
  (nodup_range _ _).filter _

theorem length_misses_le (inp : RowInput) (row : Row) (hk : 0 ≤ sh.topk) :
    ((stepPlan sh inp row).misses.length : Int) ≤ sh.topk :=
  rank_le (needsSlot sh inp.topkIndices (startTokens sh inp row) (startLru sh inp row)) hk

theorem length_evictable_le (inp : RowInput) (row : Row) (hcap : 0 ≤ sh.capacity) :
    ((stepPlan sh inp row).evictable.length : Int) ≤ sh.capacity := by
  rw [stepPlan, evictable_eq, length_map]
  exact rank_le _ hcap

theorem overlay_missTokens (inp : RowInput) (row : Row) (hk : 0 ≤ sh.topk) :
    overlay (startRow sh inp row).missTokens
      ((stepPlan sh inp row).misses.map inp.topkIndices) = (lruStep sh inp row).missTokens := by
  have hle := length_misses_le inp row hk
  funext i
  simp only [lruStep]
  by_cases hi : 0 ≤ i ∧ i < sh.topk
  · rw [overlay]
    simp [startRow, hi]
  · by_cases h0 : 0 ≤ i
    · rw [overlay_of_le _ _ (by rw [length_map]; omega)]
      simp [startRow, hi]
    · rw [overlay, if_neg h0]
      simp [startRow, hi]

/-- A plan the way both kernels leave it: the two stacks in `token_mark`, the
misses at the front of `token_pos` and the two counters in its last cells. -/
theorem planReady_of_tables {w : Work} {mark : Int → Int} {evictCount hitCount : Int}
    (lru pos : Int → Int) (epoch : Int) (hk : 0 ≤ sh.topk) (hkm : sh.topk ≤ sh.maxToken - 2)
    (hrow : w.toRow = { startRow sh inp row with lastReqId := w.lastReqId })
    (hlru : ∀ i, ¬ (0 ≤ i ∧ i < sh.capacity) → lru i = w.lruSlots i)
    (hevict : StoredAt (fun k => (k : Int)) mark (stepPlan sh inp row).evictable)
    (hhits : StoredAt (fun k => sh.maxToken - 1 - (k : Int)) mark (stepPlan sh inp row).hits)
    (hev : evictCount = (stepPlan sh inp row).evictable.length)
    (hhit : hitCount = (stepPlan sh inp row).hits.length) :
    PlanReady sh inp row
      { w with
        lruSlots := lru
        currentSlots := hitSlots sh inp row
        missTokens := overlay w.missTokens ((stepPlan sh inp row).misses.map inp.topkIndices)
        missCount := if ((stepPlan sh inp row).misses.length : Int) < evictCount then
          ((stepPlan sh inp row).misses.length : Int) else evictCount
        tokenMark := mark
        tokenPos := update (update
          (overlay pos (stepPlan sh inp row).misses) (sh.maxToken - 2) evictCount)
          (sh.maxToken - 1) hitCount
        epoch := epoch } := by
  have hlen := length_misses_le inp row hk
  exact
    { evictable := hevict
      hits := hhits
      misses := by
        -- both counters lie past the last missing position
        refine ((storedAt_overlay _ _).update_of_ne (fun k hk' => ?_) _).update_of_ne
          (fun k hk' => ?_) _
        · omega
        · omega
      evictableCount := by
        dsimp only
        rw [update_of_ne (by omega), update_self, hev]
      hitCount := by
        dsimp only
        rw [update_self, hhit]
      missCount := by
        dsimp only
        rw [LruPlan.assignCount]
        split_ifs <;> omega
      slotToToken := by rw [hrow]
      currentSlots := rfl
      missTokens := by rw [← overlay_missTokens inp row hk, hrow]
      missSlots := by rw [hrow]
      lruSlots := fun i hi => by
        dsimp only
        rw [hlru i hi, hrow]
        simp [startRow, hi] }

theorem PlanReady.entry_of_getElem? {w : Work} (h : PlanReady sh inp row w) (hk : 0 ≤ sh.topk)
    {i : Nat} {pos slot : Int} (hpos : (stepPlan sh inp row).misses[i]? = some pos)
    (hslot : (stepPlan sh inp row).evictable[i]? = some slot) :
    w.tokenMark i = slot ∧ w.tokenPos i = pos ∧ w.missTokens i = inp.topkIndices pos ∧
      sh.IsSlot slot ∧ 0 ≤ pos ∧ pos < sh.topk := by
  have hlen := (List.getElem?_eq_some_iff.mp hpos).1
  have hle := length_misses_le inp row hk
  refine ⟨h.evictable i slot hslot, h.misses i pos hpos, ?_,
    isSlot_of_mem_evictable (mem_of_getElem? hslot),
    bounds_of_mem_misses (mem_of_getElem? hpos)⟩
  rw [h.missTokens]
  simp only [lruStep]
  rw [if_pos ⟨by omega, by omega⟩, Int.toNat_natCast, hpos]
  rfl

theorem PlanReady.entry {w : Work} (h : PlanReady sh inp row w) (hk : 0 ≤ sh.topk) {i : Int}
    (h0 : 0 ≤ i) (h1 : i < (stepPlan sh inp row).assignCount) :
    ∃ pos slot, (stepPlan sh inp row).misses[i.toNat]? = some pos ∧
      (stepPlan sh inp row).evictable[i.toNat]? = some slot ∧
      w.tokenMark i = slot ∧ w.tokenPos i = pos ∧ w.missTokens i = inp.topkIndices pos ∧
      sh.IsSlot slot ∧ 0 ≤ pos ∧ pos < sh.topk := by
  obtain ⟨n, rfl⟩ := Int.eq_ofNat_of_zero_le h0
  obtain ⟨pos, slot, hpos, hslot⟩ := (stepPlan sh inp row).assigned_at (i := n) (by omega)
  exact ⟨pos, slot, hpos, hslot, h.entry_of_getElem? hk hpos hslot⟩

/-! ## The two phases, field by field -/

variable {n : Nat} {w : Work}

private theorem PlanReady.guard (h : PlanReady sh inp row w) (hk : 0 ≤ sh.topk) {i : Int}
    (h0 : 0 ≤ i) (h1 : i < w.missCount) :
    sh.IsSlot (w.tokenMark i) ∧ 0 ≤ w.tokenPos i ∧ w.tokenPos i < sh.topk := by
  rw [h.missCount] at h1
  obtain ⟨pos, slot, -, -, hmark, hpos, -, hslot, hb0, hb1⟩ := h.entry hk h0 h1
  rw [hmark, hpos]
  exact ⟨hslot, hb0, hb1⟩

/-- The effect of the assigning phase on one table: entry `i` of the plan is
written at `addr i`, and every other cell is kept. -/
private theorem assignPhase_scatter (o : LaneOrder n) (hn : 0 < n)
    (h : PlanReady sh inp row w) (hk : 0 ≤ sh.topk) (table : Work → Int → Int)
    (addr val : Int → Int)
    (hstep : ∀ i acc, table (assignMiss sh w i acc) =
      if sh.IsSlot (w.tokenMark i) ∧ 0 ≤ w.tokenPos i ∧ w.tokenPos i < sh.topk then
        update (table acc) (addr i) (val i) else table acc)
    (hinj : ∀ i j, 0 ≤ i → i < w.missCount → 0 ≤ j → j < w.missCount → addr i = addr j → i = j) :
    (∀ i, 0 ≤ i → i < w.missCount → table (assignPhase o sh w) (addr i) = val i) ∧
    (∀ j, (∀ i, 0 ≤ i → i < w.missCount → addr i ≠ j) →
      table (assignPhase o sh w) j = table w j) := by
  have hproj : table (assignPhase o sh w) = o.run (fun t b => forStride t w.missCount n
      (fun i b => if sh.IsSlot (w.tokenMark i) ∧ 0 ≤ w.tokenPos i ∧ w.tokenPos i < sh.topk then
        update b (addr i) (val i) else b) b) (table w) :=
    o.run_stride_hom table w hstep
  obtain ⟨hval, hframe⟩ := o.run_stride_scatter hn w.missCount
    (fun i => sh.IsSlot (w.tokenMark i) ∧ 0 ≤ w.tokenPos i ∧ w.tokenPos i < sh.topk)
    addr val (fun i j h0 h1 h2 h3 _ _ => hinj i j h0 h1 h2 h3) (table w)
  rw [← hproj] at hval hframe
  exact ⟨fun i h0 h1 => hval i h0 h1 (h.guard hk h0 h1),
    fun j hj => hframe j fun i h0 h1 _ => hj i h0 h1⟩

/-- Plan entries of two indices below `miss_count`, compared through a list
without duplicates. -/
private theorem index_eq {α : Type*} {l : List α} (hnd : l.Nodup) {a b : α} {i j : Int}
    (hi : 0 ≤ i) (hj : 0 ≤ j) (ha : l[i.toNat]? = some a) (hb : l[j.toNat]? = some b)
    (hab : a = b) : i = j := by
  subst hab
  have := (List.getElem?_inj (List.getElem?_eq_some_iff.mp ha).1 hnd).mp (ha.trans hb.symm)
  omega

section

variable (o : LaneOrder n) (hn : 0 < n) (h : PlanReady sh inp row w) (hk : 0 ≤ sh.topk)

include hn h hk

theorem assignPhase_slotToToken (hnd : (stepPlan sh inp row).order.Nodup) :
    (assignPhase o sh w).slotToToken = (lruStep sh inp row).slotToToken := by
  have hev := (stepPlan sh inp row).nodup_evictable hnd
  obtain ⟨hval, hframe⟩ := assignPhase_scatter o hn h hk (fun w => w.slotToToken)
    w.tokenMark w.missTokens (fun i acc => by unfold assignMiss; dsimp only; split_ifs <;> rfl)
    (fun i j h0 h1 h2 h3 hij => by
      rw [h.missCount] at h1 h3
      obtain ⟨_, _, _, hs, hm, _⟩ := h.entry hk h0 h1
      obtain ⟨_, _, _, hs', hm', _⟩ := h.entry hk h2 h3
      exact index_eq hev h0 h2 hs hs' (by rw [← hm, ← hm', hij]))
  funext slot
  simp only [lruStep]
  cases hm : (stepPlan sh inp row).missOf slot with
  | some pos =>
    obtain ⟨k, hk1, hpos, hslot⟩ := (stepPlan sh inp row).missOf_eq_some hm
    have hlt : (k : Int) < (stepPlan sh inp row).assignCount := by exact_mod_cast hk1
    obtain ⟨hmark, -, htok, hin, -⟩ := h.entry_of_getElem? hk hpos hslot
    have := hval k (Int.natCast_nonneg k) (by rw [h.missCount]; exact hlt)
    rw [hmark] at this
    rw [this, htok, if_pos hin]
  | none =>
    rw [hframe slot ?_, h.slotToToken]
    · rfl
    · intro i h0 h1 heq
      rw [h.missCount] at h1
      obtain ⟨pos, slot', hp, hs, hmark, _⟩ := h.entry hk h0 h1
      have hsome := (stepPlan sh inp row).missOf_of_getElem? hev hp hs
      rw [← hmark, heq, hm] at hsome
      cases hsome

theorem assignPhase_currentSlots
 : (assignPhase o sh w).currentSlots = (lruStep sh inp row).currentSlots := by
  have hmd := nodup_misses sh inp row
  obtain ⟨hval, hframe⟩ := assignPhase_scatter o hn h hk (fun w => w.currentSlots)
    w.tokenPos w.tokenMark (fun i acc => by unfold assignMiss; dsimp only; split_ifs <;> rfl)
    (fun i j h0 h1 h2 h3 hij => by
      rw [h.missCount] at h1 h3
      obtain ⟨_, _, hp, _, _, hq, _⟩ := h.entry hk h0 h1
      obtain ⟨_, _, hp', _, _, hq', _⟩ := h.entry hk h2 h3
      exact index_eq hmd h0 h2 hp hp' (by rw [← hq, ← hq', hij]))
  funext pos
  simp only [lruStep]
  cases hs : (stepPlan sh inp row).slotOf pos with
  | some slot =>
    obtain ⟨k, hk1, hpos, hslot⟩ := (stepPlan sh inp row).slotOf_eq_some hs
    have hlt : (k : Int) < (stepPlan sh inp row).assignCount := by exact_mod_cast hk1
    obtain ⟨hmark, hq, -, -, hb⟩ := h.entry_of_getElem? hk hpos hslot
    have := hval k (Int.natCast_nonneg k) (by rw [h.missCount]; exact hlt)
    rw [hq] at this
    rw [this, hmark, if_pos hb]
  | none =>
    rw [hframe pos ?_, h.currentSlots]
    · rfl
    · intro i h0 h1 heq
      rw [h.missCount] at h1
      obtain ⟨pos', slot, hp, he, _, hq, _⟩ := h.entry hk h0 h1
      have hsome := (stepPlan sh inp row).slotOf_of_getElem? hmd hp he
      rw [← hq, heq, hs] at hsome
      cases hsome

theorem assignPhase_missSlots
 : (assignPhase o sh w).missSlots = (lruStep sh inp row).missSlots := by
  obtain ⟨hval, hframe⟩ := assignPhase_scatter o hn h hk (fun w => w.missSlots)
    (fun i => i) w.tokenMark (fun i acc => by unfold assignMiss; dsimp only; split_ifs <;> rfl)
    (fun _ _ _ _ _ _ hij => hij)
  have hle := length_misses_le inp row hk
  have hac : (stepPlan sh inp row).assignCount ≤ (stepPlan sh inp row).misses.length :=
    Nat.min_le_left _ _
  funext i
  simp only [lruStep]
  by_cases hi : 0 ≤ i ∧ i < (stepPlan sh inp row).assignCount
  · obtain ⟨_, slot, _, he, hmark, _⟩ := h.entry hk hi.1 hi.2
    have hv := hval i hi.1 (by rw [h.missCount]; exact hi.2)
    rw [hv, hmark, if_pos ⟨hi.1, by omega⟩, getElem?_take_of_lt (by omega), he]
    rfl
  · rw [hframe i (fun j h0 h1 hj => hi ⟨by omega, by rw [h.missCount] at h1; omega⟩),
      h.missSlots]
    simp only [startRow]
    by_cases hr : 0 ≤ i ∧ i < sh.topk
    · rw [if_pos hr, if_pos hr, getElem?_eq_none]
      · rfl
      · rw [length_take]
        omega
    · rw [if_neg hr, if_neg hr]

end

theorem assignPhase_frame {τ : Type*} (o : LaneOrder n) (field : Work → τ)
    (h : ∀ acc i, field (assignMiss sh w i acc) = field acc) :
    field (assignPhase o sh w) = field w :=
  o.run_stride_frame field w fun i acc => h acc i

theorem rebuildPhase_lruSlots (o : LaneOrder n) (hn : 0 < n) :
    (rebuildPhase o sh w).lruSlots = fun i =>
      if 0 ≤ i ∧ i < sh.capacity then rebuiltSlot sh w i else w.lruSlots i := by
  have hproj : (rebuildPhase o sh w).lruSlots = o.run (fun t b => forStride t sh.capacity n
      (fun i b => update b i (rebuiltSlot sh w i)) b) w.lruSlots :=
    o.run_stride_hom (fun w : Work => w.lruSlots) w fun _ _ => rfl
  rw [hproj]
  exact o.run_stride_map hn sh.capacity (fun i _ => rebuiltSlot sh w i) w.lruSlots

theorem rebuildPhase_frame {τ : Type*} (o : LaneOrder n) (field : Work → τ)
    (h : ∀ (acc : Work) b, field { acc with lruSlots := b } = field acc) :
    field (rebuildPhase o sh w) = field w :=
  o.run_stride_frame field w fun _ acc => h acc _

theorem publish_toWorkspace (oa ob : LaneOrder n) :
    (rebuildPhase ob sh (assignPhase oa sh w)).toWorkspace = w.toWorkspace :=
  (rebuildPhase_frame ob (fun w => w.toWorkspace) fun _ _ => rfl).trans
    (assignPhase_frame oa (fun w => w.toWorkspace) fun acc i => by
      unfold assignMiss
      dsimp only
      split_ifs <;> rfl)

theorem publish_missCount (oa ob : LaneOrder n) :
    (rebuildPhase ob sh (assignPhase oa sh w)).missCount = w.missCount :=
  (rebuildPhase_frame ob (fun w => w.missCount) fun _ _ => rfl).trans
    (assignPhase_frame oa (fun w => w.missCount) fun acc i => by
      unfold assignMiss
      dsimp only
      split_ifs <;> rfl)

/-- After the assigning phase the rebuilding loop reads the new use order: the
slots left alone, then the assigned ones out of `miss_slots`, then the hits. -/
theorem rebuiltSlot_assignPhase (o : LaneOrder n) (hn : 0 < n) (h : PlanReady sh inp row w)
    (hk : 0 ≤ sh.topk) (hcap : sh.capacity < 2 ^ 31) {i : Int} (h0 : 0 ≤ i) (h1 : i < sh.capacity) :
    rebuiltSlot sh (assignPhase o sh w) i =
      ((stepPlan sh inp row).newOrder[i.toNat]?).getD (-1) := by
  have hmark : (assignPhase o sh w).tokenMark = w.tokenMark :=
    assignPhase_frame o (fun w => w.tokenMark)
      fun acc i => by unfold assignMiss; dsimp only; split_ifs <;> rfl
  have hpos : (assignPhase o sh w).tokenPos = w.tokenPos :=
    assignPhase_frame o (fun w => w.tokenPos)
      fun acc i => by unfold assignMiss; dsimp only; split_ifs <;> rfl
  have hcount : (assignPhase o sh w).missCount = w.missCount :=
    assignPhase_frame o (fun w => w.missCount)
      fun acc i => by unfold assignMiss; dsimp only; split_ifs <;> rfl
  simp only [rebuiltSlot, hmark, hpos, hcount, h.evictableCount, h.hitCount, h.missCount,
    assignPhase_missSlots o hn h hk]
  have hint : int32 i = i := int32_eq (by omega) (by omega)
  have hle := length_misses_le inp row hk
  have hev := h.evictable
  have hhit := h.hits
  generalize hp : stepPlan sh inp row = p at *
  by_cases hun : i < p.evictable.length - p.assignCount
  · have hlt : p.assignCount + i.toNat < p.evictable.length := by omega
    have hv := hev _ _ (getElem?_eq_getElem hlt)
    rw [if_pos hun, p.getElem?_newOrder_of_lt (by omega), getElem?_eq_getElem hlt,
      Option.getD_some, ← hv]
    congr 1
    push_cast
    omega
  · rw [if_neg hun]
    by_cases has : i < p.evictable.length
    · have hle' : p.assignCount ≤ p.misses.length := Nat.min_le_left _ _
      rw [if_pos has, p.getElem?_newOrder_assigned (by omega) (by omega)]
      simp only [lruStep, hp]
      rw [if_pos (by omega)]
      congr 2
      omega
    · rw [if_neg has, p.getElem?_newOrder_hits (by omega)]
      by_cases hh : i < p.evictable.length + p.hits.length
      · have hlt : i.toNat - p.evictable.length < p.hits.length := by omega
        have hv := hhit _ _ (getElem?_eq_getElem hlt)
        rw [if_pos hh, getElem?_eq_getElem hlt, ← hv]
        dsimp only
        congr 1
        omega
      · rw [if_neg hh, getElem?_eq_none (by omega), Option.getD_none]

section

variable (oa ob : LaneOrder n) (hn : 0 < n) (h : PlanReady sh inp row w) (hk : 0 ≤ sh.topk)
  (hcap : sh.capacity < 2 ^ 31)

include hn h hk hcap

/-- Publishing a finished plan, with what is left to the lane order when slots
repeat. -/
theorem publish_toRow :
    (rebuildPhase ob sh (assignPhase oa sh w)).toRow =
      { lruStep sh inp row with
        lastReqId := w.lastReqId
        slotToToken := (assignPhase oa sh w).slotToToken } := by
  have hassign : ∀ (acc : Work) i, (assignMiss sh w i acc).lastReqId = acc.lastReqId ∧
      (assignMiss sh w i acc).missTokens = acc.missTokens ∧
      (assignMiss sh w i acc).lruSlots = acc.lruSlots := by
    intro acc i
    unfold assignMiss
    dsimp only
    split_ifs <;> exact ⟨rfl, rfl, rfl⟩
  apply Row.ext
  · exact (rebuildPhase_frame ob (fun w => w.lastReqId) fun _ _ => rfl).trans
      (assignPhase_frame oa (fun w => w.lastReqId) fun acc i => (hassign acc i).1)
  · exact rebuildPhase_frame ob (fun w => w.slotToToken) fun _ _ => rfl
  · rw [rebuildPhase_lruSlots ob hn]
    funext i
    simp only [lruStep]
    by_cases hi : 0 ≤ i ∧ i < sh.capacity
    · rw [if_pos hi, if_pos hi, rebuiltSlot_assignPhase oa hn h hk hcap hi.1 hi.2]
    · have hl : (assignPhase oa sh w).lruSlots = w.lruSlots :=
        assignPhase_frame oa (fun w => w.lruSlots) fun acc i => (hassign acc i).2.2
      rw [if_neg hi, if_neg hi, hl, h.lruSlots i hi]
  · exact (rebuildPhase_frame ob (fun w => w.currentSlots) fun _ _ => rfl).trans
      (assignPhase_currentSlots oa hn h hk)
  · exact (publish_missCount oa ob).trans h.missCount
  · exact (rebuildPhase_frame ob (fun w => w.missTokens) fun _ _ => rfl).trans
      ((assignPhase_frame oa (fun w => w.missTokens) fun acc i => (hassign acc i).2.1).trans
        h.missTokens)
  · exact (rebuildPhase_frame ob (fun w => w.missSlots) fun _ _ => rfl).trans
      (assignPhase_missSlots oa hn h hk)

/-- Publishing a finished plan is the reference step, but for the request id,
which these phases do not write. -/
theorem publish_eq_lruStep (hnd : (stepPlan sh inp row).order.Nodup) :
    (rebuildPhase ob sh (assignPhase oa sh w)).toRow =
      { lruStep sh inp row with lastReqId := w.lastReqId } := by
  rw [publish_toRow oa ob hn h hk hcap, assignPhase_slotToToken oa hn h hk hnd]

end

end MemFabric.AccOffload.Lru
