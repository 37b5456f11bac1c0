import MemFabric.AccOffload.Lru.Publish

/-!
# The phased kernels compute the reference step

Stage by stage: `Reset` and `Prepare` produce the start row, and the loops of
`SimtOps` produce a finished plan, provided no mark left in `token_mark` equals
the epoch of the call.  Each loop has one invariant, stated for the part of the
row it has already visited.
-/

namespace MemFabric.AccOffload.Lru.Phased

open Function Simt Reference List Int

variable {sh : Shape} {inp : RowInput}

/-! ## Reset and Prepare -/

theorem reset_eq (sh : Shape) (inp : RowInput) (row : Row) :
    offloadLruCompactResetPhasedSimtOps sh inp row =
      { row with
        lastReqId := inp.reqId
        slotToToken := fun s =>
          if row.lastReqId ≠ inp.reqId ∧ sh.IsSlot s then -1 else row.slotToToken s
        lruSlots := fun s =>
          if row.lastReqId ≠ inp.reqId ∧ sh.IsSlot s then int32 s else row.lruSlots s } := by
  unfold offloadLruCompactResetPhasedSimtOps
  by_cases hreq : row.lastReqId = inp.reqId
  · simp [← hreq]
  · have hloop : forLoop 0 sh.capacity resetSlot row =
        { row with
          slotToToken := forLoop 0 sh.capacity (fun i b => update b i (-1)) row.slotToToken
          lruSlots := forLoop 0 sh.capacity (fun i b => update b i (int32 i)) row.lruSlots } := by
      apply Row.ext
      case slotToToken => exact forLoop_hom Row.slotToToken row fun _ _ => rfl
      case lruSlots => exact forLoop_hom Row.lruSlots row fun _ _ => rfl
      all_goals exact forLoop_frame _ row fun _ _ => rfl
    rw [if_neg hreq, hloop, forLoop_map (fun _ _ => (-1 : Int)), forLoop_map (fun i _ => int32 i)]
    simp [hreq, Shape.IsSlot]

variable {τ : Type*} {epoch n : Int} {ws : Workspace} {lruSlots cur slotToToken : Int → Int}
  {w w' : Work}

theorem invalidateSlot_eq (sh : Shape) (stablePrefixLen slot : Int) (row : Row) :
    invalidateSlot sh stablePrefixLen slot row =
      { row with
        slotToToken := update row.slotToToken slot
          (if sh.IsToken (row.slotToToken slot) ∧ stablePrefixLen ≤ row.slotToToken slot then -1
            else row.slotToToken slot) } := by
  unfold invalidateSlot
  dsimp only
  split_ifs
  · rfl
  · rw [update_eq_self]

section

variable (o : LaneOrder threadsPerBlock) (sh : Shape) (inp : RowInput) (row : Row)

/-- What the lanes do to one field: the outputs are cleared, the count is set, and the slots
are looked at. -/
private theorem prepare_field (field : Row → τ) (f g : Int → τ → τ) (c : τ → τ)
    (hclear : ∀ i r, field (clearOutputs i r) = f i (field r))
    (hcount : ∀ r : Row, field { r with missCount := 0 } = c (field r))
    (hslot : ∀ i r, field (invalidateSlot sh (clampPrefix sh inp.stablePrefixLen) i r) =
      g i (field r)) :
    field (offloadLruCompactPreparePhasedSimtOps o sh inp row) = o.run (fun t b =>
      forStride t sh.capacity threadsPerBlock g
        ((if t = 0 then c else id) (forStride t sh.topk threadsPerBlock f b))) (field row) := by
  refine o.run_hom field row fun t r => ?_
  unfold prepareLane
  rw [forStride_hom field _ hslot]
  congr 1
  split_ifs
  · rw [hcount, forStride_hom field r hclear]
  · exact forStride_hom field r hclear

private theorem prepare_cleared (field : Row → Int → Int)
    (hclear : ∀ i r, field (clearOutputs i r) = update (field r) i (-1))
    (hcount : ∀ r : Row, field { r with missCount := 0 } = field r)
    (hslot : ∀ (r : Row) b, field { r with slotToToken := b } = field r) :
    field (offloadLruCompactPreparePhasedSimtOps o sh inp row) = fun i =>
      if 0 ≤ i ∧ i < sh.topk then -1 else field row i := by
  rw [prepare_field o sh inp row field (fun i b => update b i (-1)) (fun _ b => b) id hclear hcount
    fun i r => by rw [invalidateSlot_eq, hslot]]
  simp only [ite_self, forStride_id, id]
  rw [o.run_stride_map (by decide) sh.topk (fun _ _ => (-1 : Int))]

theorem prepare_eq : offloadLruCompactPreparePhasedSimtOps o sh inp row =
    { row with
      slotToToken := fun s =>
        if sh.IsSlot s ∧ sh.IsToken (row.slotToToken s) ∧
          clampPrefix sh inp.stablePrefixLen ≤ row.slotToToken s then -1 else row.slotToToken s
      currentSlots := fun i => if 0 ≤ i ∧ i < sh.topk then -1 else row.currentSlots i
      missCount := 0
      missTokens := fun i => if 0 ≤ i ∧ i < sh.topk then -1 else row.missTokens i
      missSlots := fun i => if 0 ≤ i ∧ i < sh.topk then -1 else row.missSlots i } := by
  have hslots := prepare_field o sh inp row Row.slotToToken (fun _ b => b)
    (fun i b => update b i
      (if sh.IsToken (b i) ∧ clampPrefix sh inp.stablePrefixLen ≤ b i then -1 else b i)) id
    (fun _ _ => rfl) (fun _ => rfl) fun i r => by rw [invalidateSlot_eq]
  have hcount := prepare_field o sh inp row Row.missCount (fun _ b => b) (fun _ b => b)
    (fun _ => 0) (fun _ _ => rfl) (fun _ => rfl) fun i r => by rw [invalidateSlot_eq]
  have hframe := prepare_field o sh inp row (fun r => (r.lastReqId, r.lruSlots)) (fun _ b => b)
    (fun _ b => b) id (fun _ _ => rfl) (fun _ => rfl) fun i r => by rw [invalidateSlot_eq]
  simp only [ite_self, forStride_id, id, ite_apply] at hslots hcount hframe
  have hframe := hframe.trans (o.run_frame id _ fun _ _ => rfl)
  apply Row.ext
  case lastReqId => exact congrArg Prod.fst hframe
  case lruSlots => exact congrArg Prod.snd hframe
  case missCount => exact hcount.trans (o.run_lane_zero (by decide) (fun _ => (0 : Int)) _)
  case slotToToken =>
    rw [hslots, o.run_stride_map (by decide) sh.capacity (fun _ token =>
      if sh.IsToken token ∧ clampPrefix sh inp.stablePrefixLen ≤ token then -1 else token)]
    funext s
    by_cases hs : sh.IsSlot s
    · have hs' : 0 ≤ s ∧ s < sh.capacity := hs
      simp only [if_pos hs', hs, true_and]
    · have hs' : ¬ (0 ≤ s ∧ s < sh.capacity) := hs
      simp only [if_neg hs', hs, false_and, if_false]
  all_goals exact prepare_cleared o sh inp row _ (fun _ _ => rfl) (fun _ => rfl) fun _ _ => rfl

theorem prepare_reset_eq (hcap : sh.capacity < 2 ^ 31) :
    offloadLruCompactPreparePhasedSimtOps o sh inp
      (offloadLruCompactResetPhasedSimtOps sh inp row) = startRow sh inp row := by
  rw [reset_eq, prepare_eq]
  apply Row.ext
  case slotToToken =>
    funext s
    simp only [startRow, startTokens]
    by_cases hs : sh.IsSlot s <;> by_cases hreq : row.lastReqId = inp.reqId <;>
      simp [hs, hreq]
  case lruSlots =>
    funext i
    simp only [startRow]
    by_cases hi : 0 ≤ i ∧ i < sh.capacity
    · rw [if_pos hi, startLru_of_mem hi, int32_eq (by omega) (by omega)]
      simp [Shape.IsSlot, hi]
    · rw [if_neg hi, if_neg fun h => hi h.2]
  all_goals rfl

end

/-! ## Marking the requested tokens -/

structure Marked (sh : Shape) (topk : Int → Int) (epoch n : Int) (ws : Workspace) : Prop where
  mark : ∀ token, sh.IsToken token →
    (ws.tokenMark token = epoch ↔ ∃ q, 0 ≤ q ∧ q < n ∧ topk q = token)
  pos : ∀ q, 0 ≤ q → q < n → sh.IsToken (topk q) → IsFirst topk q → ws.tokenPos (topk q) = q

private theorem Marked.step {topk : Int → Int} (h : Marked sh topk epoch n ws) (h0 : 0 ≤ n)
    (hn : n < 2 ^ 31) :
    Marked sh topk epoch (n + 1)
      (if sh.IsToken (topk n) ∧ ws.tokenMark (topk n) ≠ epoch then
        { ws with
          tokenMark := update ws.tokenMark (topk n) epoch
          tokenPos := update ws.tokenPos (topk n) (int32 n) }
      else ws) := by
  have hext : ∀ token, (∃ q, 0 ≤ q ∧ q < n + 1 ∧ topk q = token) ↔
      (∃ q, 0 ≤ q ∧ q < n ∧ topk q = token) ∨ topk n = token := by
    intro token
    constructor
    · rintro ⟨q, hq0, hq, rfl⟩
      rcases (by omega : q < n ∨ q = n) with hlt | rfl
      · exact .inl ⟨q, hq0, hlt, rfl⟩
      · exact .inr rfl
    · rintro (⟨q, hq0, hq, rfl⟩ | rfl)
      · exact ⟨q, hq0, by omega, rfl⟩
      · exact ⟨n, h0, by omega, rfl⟩
  split_ifs with hg
  · refine ⟨fun token ht => ?_, fun q hq0 hq ht hfirst => ?_⟩
    · dsimp only
      rw [hext]
      by_cases heq : token = topk n
      · subst heq
        simp
      · rw [update_of_ne heq, h.mark token ht]
        simp [Ne.symm heq]
    · dsimp only
      rcases (by omega : q < n ∨ q = n) with hlt | rfl
      · -- an earlier occurrence would already carry the mark
        have hne : topk q ≠ topk n := fun heq =>
          hg.2 ((h.mark (topk n) hg.1).mpr ⟨q, hq0, hlt, heq⟩)
        rw [update_of_ne hne]
        exact h.pos q hq0 hlt ht hfirst
      · rw [update_self]
        exact int32_eq (by omega) hn
  · refine ⟨fun token ht => ?_, fun q hq0 hq ht hfirst => ?_⟩
    · rw [hext, h.mark token ht]
      refine ⟨Or.inl, fun hor => hor.elim id ?_⟩
      rintro rfl
      exact (h.mark _ ht).mp (by_contra fun hne => hg ⟨ht, hne⟩)
    · rcases (by omega : q < n ∨ q = n) with hlt | rfl
      · exact h.pos q hq0 hlt ht hfirst
      · obtain ⟨r, hr0, hr, heq⟩ := (h.mark _ ht).mp (by_contra fun hne => hg ⟨ht, hne⟩)
        exact absurd heq (hfirst r (mem_range_iff.mpr ⟨hr0, hr⟩))

theorem markTopk_marked (topk : Int → Int) (hk0 : 0 ≤ sh.topk) (hk : sh.topk < 2 ^ 31)
    (hfresh : ∀ token, sh.IsToken token → ws.tokenMark token ≠ epoch) :
    Marked sh topk epoch sh.topk (markTopk sh topk epoch ws) := by
  refine forLoop_induct hk0 (Marked sh topk epoch) ⟨fun token ht => ?_, ?_⟩ ?_
  · refine ⟨fun h => absurd h (hfresh token ht), ?_⟩
    omega
  · omega
  · intro n ws h0 h1 h
    exact h.step h0 (by omega)

/-! ## Encoding the hits -/

variable {topk tokens lru : Int → Int}

theorem Marked.hit_iff (h : Marked sh topk epoch sh.topk ws)
    (slot : Int) : (sh.IsToken (tokens slot) ∧ ws.tokenMark (tokens slot) = epoch) ↔
      isHit sh topk tokens slot = true := by
  rw [isHit_iff]
  exact and_congr_right fun ht => h.mark _ ht

theorem Marked.pos_of_hit (h : Marked sh topk epoch sh.topk ws) {slot : Int}
    (hh : isHit sh topk tokens slot = true) :
    ∃ r, 0 ≤ r ∧ r < sh.topk ∧ topk r = tokens slot ∧ IsFirst topk r ∧
      ws.tokenPos (tokens slot) = r := by
  obtain ⟨ht, hm⟩ := (h.hit_iff slot).mpr hh
  obtain ⟨q, hq0, hq, heq⟩ := (h.mark _ ht).mp hm
  obtain ⟨r, hr0, hr, hreq, hfirst⟩ := exists_first topk hq0 hq
  rw [heq] at hreq
  exact ⟨r, hr0, hr, hreq, hfirst, hreq ▸ h.pos r hr0 hr (hreq ▸ ht) hfirst⟩

structure EncodedTo (sh : Shape) (topk tokens lru lruSlots cur : Int → Int) (n : Int)
    (enc : Encoded) : Prop where
  visited : ∀ i, 0 ≤ i → i < n → enc.lruSlots i = encodedSlot sh topk tokens (lru i)
  unvisited : ∀ i, n ≤ i → i < sh.capacity → enc.lruSlots i = lru i
  outside : ∀ i, ¬ (0 ≤ i ∧ i < sh.capacity) → enc.lruSlots i = lruSlots i
  current : ∀ pos, enc.currentSlots pos = (servedBy sh topk tokens lru n pos).getD (cur pos)

private theorem EncodedTo.step {enc : Encoded} (hm : Marked sh topk epoch sh.topk ws)
    (htok : ∀ s, sh.IsSlot s → slotToToken s = tokens s) (h0 : 0 ≤ n) (h1 : n < sh.capacity)
    (h : EncodedTo sh topk tokens lru lruSlots cur n enc) :
    EncodedTo sh topk tokens lru lruSlots cur (n + 1)
      (if ¬ sh.IsSlot (enc.lruSlots n) then
        { enc with lruSlots := update enc.lruSlots n (-1) }
      else
        if sh.IsToken (slotToToken (enc.lruSlots n)) ∧
            ws.tokenMark (slotToToken (enc.lruSlots n)) = epoch then
          { currentSlots := update enc.currentSlots
              (ws.tokenPos (slotToToken (enc.lruSlots n))) (enc.lruSlots n)
            lruSlots := update enc.lruSlots n (-enc.lruSlots n - 2) }
        else { enc with lruSlots := update enc.lruSlots n (enc.lruSlots n) }) := by
  have hn : enc.lruSlots n = lru n := h.unvisited n le_rfl h1
  rw [hn]
  -- the three branches write the same table entry, `encodedSlot`
  have hlru : ∀ cur' : Int → Int, (∀ pos, cur' pos =
      (servedBy sh topk tokens lru (n + 1) pos).getD (cur pos)) →
      EncodedTo sh topk tokens lru lruSlots cur (n + 1)
        ⟨update enc.lruSlots n (encodedSlot sh topk tokens (lru n)), cur'⟩ := by
    intro cur' hcur
    refine ⟨fun i hi0 hi => ?_, fun i hi hi' => ?_, fun i hi => ?_, hcur⟩
    · dsimp only
      by_cases hin : i = n
      · rw [hin, update_self]
      · rw [update_of_ne hin, h.visited i hi0 (by omega)]
    · dsimp only
      rw [update_of_ne (by omega), h.unvisited i (by omega) hi']
    · dsimp only
      rw [update_of_ne (by omega), h.outside i hi]
  -- an entry that is not a hit serves nobody
  have hmiss : hitFlag sh topk tokens lru n = false → ∀ pos, enc.currentSlots pos =
      (servedBy sh topk tokens lru (n + 1) pos).getD (cur pos) := by
    intro hf pos
    rw [h.current pos, servedBy, servedBy, filter_range_succ _ h0]
    simp [hf]
  by_cases hs : sh.IsSlot (lru n)
  · rw [if_neg (not_not.mpr hs), htok _ hs]
    cases hh : isHit sh topk tokens (lru n) with
    | true =>
      have hflag : hitFlag sh topk tokens lru n = true := by simp [hitFlag, hs, hh]
      rw [if_pos ((hm.hit_iff (lru n)).mpr hh)]
      have hcode : encodedSlot sh topk tokens (lru n) = -lru n - 2 := by
        simp [encodedSlot, hs, hh]
      rw [← hcode]
      refine hlru _ fun pos => ?_
      obtain ⟨r, hr0, hr, hreq, hfirst, hpos⟩ := hm.pos_of_hit hh
      rw [hpos]
      have ht := ((isHit_iff sh topk tokens (lru n)).mp hh).1
      by_cases hpr : pos = r
      · subst hpr
        rw [servedBy, if_pos ⟨hr0, hr, hreq ▸ ht, hfirst⟩, filter_range_succ _ h0]
        simp [hflag, hreq]
      · rw [update_of_ne hpr, h.current pos, servedBy, servedBy]
        split_ifs with hserve
        · have hne : tokens (lru n) ≠ topk pos := fun heq =>
            hpr (hserve.2.2.2.unique hfirst hserve.1 hr0 (by rw [hreq, heq]))
          rw [filter_range_succ _ h0]
          simp [hne]
        · rfl
    | false =>
      have hneg : ¬ (sh.IsToken (tokens (lru n)) ∧ ws.tokenMark (tokens (lru n)) = epoch) := by
        rw [hm.hit_iff, hh]
        simp
      have hcode : encodedSlot sh topk tokens (lru n) = lru n := by
        simp [encodedSlot, hs, hh]
      rw [if_neg hneg, ← hcode]
      exact hlru _ (hmiss (by simp [hitFlag, hh]))
  · have hcode : encodedSlot sh topk tokens (lru n) = -1 := by simp [encodedSlot, hs]
    rw [if_pos hs, ← hcode]
    exact hlru _ (hmiss (by simp [hitFlag, hs]))

theorem encodeHits_encodedTo (cur : Int → Int) (hcap : 0 ≤ sh.capacity)
    (hm : Marked sh topk epoch sh.topk ws) (htok : ∀ s, sh.IsSlot s → slotToToken s = tokens s)
    (hlru : ∀ i, 0 ≤ i → i < sh.capacity → lruSlots i = lru i) :
    EncodedTo sh topk tokens lru lruSlots cur sh.capacity
      (encodeHits sh ws epoch slotToToken lruSlots cur) := by
  refine forLoop_induct hcap (EncodedTo sh topk tokens lru lruSlots cur)
    ⟨fun i hi0 hi => by omega, hlru, fun _ _ => rfl, fun pos => ?_⟩
    fun n enc h0 h1 h => h.step hm htok h0 h1
  simp [servedBy, range_eq_nil (le_refl (0 : Int))]

/-! ## The two stacks in `token_mark` -/

structure StackedTo (sh : Shape) (topk tokens lru : Int → Int) (n : Int) (st : Stacks) : Prop where
  evictable : StoredAt (fun k => (k : Int)) st.tokenMark
    (((range 0 n).filter (evictFlag sh topk tokens lru)).map lru)
  hits : StoredAt (fun k => sh.maxToken - 1 - (k : Int)) st.tokenMark
    (((range 0 n).filter (hitFlag sh topk tokens lru)).map lru)
  evictableCount : st.evictableCount = rank (evictFlag sh topk tokens lru) n
  hitCount : st.hitCount = rank (hitFlag sh topk tokens lru) n

private theorem StackedTo.step {encoded : Int} {st : Stacks}
    (hcode : encoded = encodedSlot sh topk tokens (lru n)) (h0 : 0 ≤ n) (hn : n < sh.capacity)
    (hmax : sh.capacity ≤ sh.maxToken) (h : StackedTo sh topk tokens lru n st) :
    StackedTo sh topk tokens lru (n + 1)
      (if encoded ≤ -2 then
        { st with
          tokenMark := update st.tokenMark (sh.maxToken - 1 - st.hitCount) (-encoded - 2)
          hitCount := st.hitCount + 1 }
      else if sh.IsSlot encoded then
        { st with
          tokenMark := update st.tokenMark st.evictableCount encoded
          evictableCount := st.evictableCount + 1 }
      else st) := by
  have hroom := rank_add_rank_le (evictFlag_hitFlag sh topk tokens lru) h0
  have hlength : ∀ flag, (((range 0 n).filter flag).map lru).length = rank flag n :=
    fun flag => by rw [length_map, rank]
  have hno : ∀ flag : Int → Bool, flag n = false → (range 0 (n + 1)).filter flag =
      (range 0 n).filter flag ∧ rank flag (n + 1) = rank flag n :=
    fun flag hflag => by simp [filter_range_succ _ h0, rank_succ _ h0, hflag]
  have hyes : ∀ flag : Int → Bool, flag n = true → ((range 0 (n + 1)).filter flag).map lru =
      ((range 0 n).filter flag).map lru ++ [lru n] ∧ rank flag (n + 1) = rank flag n + 1 :=
    fun flag hflag => by simp [filter_range_succ _ h0, rank_succ _ h0, hflag]
  have hlev := hlength (evictFlag sh topk tokens lru)
  have hlhit := hlength (hitFlag sh topk tokens lru)
  subst hcode
  by_cases hhit : hitFlag sh topk tokens lru n = true
  · have hev : evictFlag sh topk tokens lru n = false := by
      by_contra hne
      have := evictFlag_hitFlag sh topk tokens lru n (by simpa using hne)
      simp [hhit] at this
    rw [if_pos ((encodedSlot_le_iff sh topk tokens lru n).mpr hhit),
      encodedSlot_of_hit sh topk tokens lru hhit]
    constructor
    · rw [(hno _ hev).1]
      refine h.evictable.update_of_ne (fun k hk => ?_) _
      rw [h.hitCount]
      omega
    · rw [(hyes _ hhit).1, h.hitCount, ← hlhit]
      exact h.hits.append (fun a b hab => by simpa using hab) (lru n)
    · rw [(hno _ hev).2]
      exact h.evictableCount
    · rw [(hyes _ hhit).2]
      exact congrArg (· + 1) h.hitCount
  · have hhit' := hno _ (Bool.eq_false_of_not_eq_true hhit)
    rw [if_neg fun hle => hhit ((encodedSlot_le_iff sh topk tokens lru n).mp hle)]
    by_cases hev : evictFlag sh topk tokens lru n = true
    · rw [if_pos ((encodedSlot_mem_iff sh topk tokens lru n).mpr hev),
        encodedSlot_of_evict sh topk tokens lru hev]
      constructor
      · rw [(hyes _ hev).1, h.evictableCount, ← hlev]
        exact h.evictable.append (fun a b hab => by simpa using hab) (lru n)
      · rw [hhit'.1]
        refine h.hits.update_of_ne (fun k hk => ?_) _
        rw [h.evictableCount]
        omega
      · rw [(hyes _ hev).2]
        exact congrArg (· + 1) h.evictableCount
      · rw [hhit'.2]
        exact h.hitCount
    · have hev' := hno _ (Bool.eq_false_of_not_eq_true hev)
      rw [if_neg fun hmem => hev ((encodedSlot_mem_iff sh topk tokens lru n).mp hmem)]
      exact ⟨hev'.1 ▸ h.evictable, hhit'.1 ▸ h.hits, hev'.2 ▸ h.evictableCount,
        hhit'.2 ▸ h.hitCount⟩

theorem buildStacks_stackedTo (tokenMark : Int → Int) (hcap : 0 ≤ sh.capacity)
    (hmax : sh.capacity ≤ sh.maxToken)
    (hcode : ∀ i, 0 ≤ i → i < sh.capacity → lruSlots i = encodedSlot sh topk tokens (lru i)) :
    StackedTo sh topk tokens lru sh.capacity (buildStacks sh lruSlots tokenMark) := by
  refine forLoop_induct hcap (StackedTo sh topk tokens lru) ⟨?_, ?_, ?_, ?_⟩
    fun n st h0 hn h => h.step (hcode n h0 hn) h0 hn hmax
  · simpa [range_eq_nil (le_refl (0 : Int))] using StoredAt.nil _ _
  · simpa [range_eq_nil (le_refl (0 : Int))] using StoredAt.nil _ _
  · simp
  · simp

/-! ## Collecting the misses -/

theorem collectMisses_eq {missTokens tokenPos : Int → Int} (hk0 : 0 ≤ sh.topk)
    (hk : sh.topk < 2 ^ 31) {missing : Int → Bool} (hmissing : ∀ pos, 0 ≤ pos → pos < sh.topk →
      (missing pos = true ↔ sh.IsToken (topk pos) ∧ cur pos < 0)) :
    collectMisses sh topk cur missTokens tokenPos =
      ⟨overlay missTokens (((range 0 sh.topk).filter missing).map topk),
        overlay tokenPos ((range 0 sh.topk).filter missing), rank missing sh.topk⟩ := by
  refine forLoop_induct hk0 (fun n (ms : MissList) => ms =
    ⟨overlay missTokens (((range 0 n).filter missing).map topk),
      overlay tokenPos ((range 0 n).filter missing), rank missing n⟩) ?_ ?_
  · simp [range_eq_nil (le_refl (0 : Int))]
  · rintro n _ h0 h1 rfl
    have hpos : int32 n = n := int32_eq (by omega) (by omega)
    rw [filter_range_succ _ h0, rank_succ _ h0, hpos]
    by_cases hg : missing n = true
    · rw [if_pos ((hmissing n h0 h1).mp hg), if_pos hg, if_pos hg, map_append,
        map_singleton, ← update_overlay, ← update_overlay, length_map]
      simp [rank]
    · rw [if_neg fun h => hg ((hmissing n h0 h1).mpr h), if_neg hg, if_neg hg]
      simp

/-! ## The planning kernel as a whole -/

/-- No mark in the slice can be mistaken for one of the next call. -/
def FreshEpoch (sh : Shape) (ws : Workspace) : Prop :=
  NeedsClear ws.epoch ∨ ∀ token, sh.IsToken token → ws.tokenMark token ≠ ws.epoch - 1

theorem clearMarks_tokenMark (sh : Shape) (ws : Workspace) :
    (clearMarks sh ws).tokenMark = fun token =>
      if 0 ≤ token ∧ token < sh.maxToken then 0 else ws.tokenMark token := by
  have hloop : (clearMarks sh ws).tokenMark =
      forLoop 0 sh.maxToken (fun i b => update b i 0) ws.tokenMark :=
    forLoop_hom Workspace.tokenMark ws fun _ _ => rfl
  rw [hloop, forLoop_map (fun _ _ => (0 : Int))]

theorem epochStart_fresh (h : FreshEpoch sh ws) {token : Int}
    (ht : sh.IsToken token) : (epochStart sh ws).tokenMark token ≠ currentEpoch ws.epoch := by
  unfold epochStart currentEpoch
  split_ifs with hclear
  · rw [clearMarks_tokenMark]
    dsimp only
    rw [if_pos (show 0 ≤ token ∧ token < sh.maxToken from ht)]
    decide
  · exact h.resolve_left hclear token ht

/-- What the plan needs of the dimensions; every launched shape has it. -/
structure PhasedShape (sh : Shape) : Prop where
  topk_pos : 0 < sh.topk
  capacity_pos : 0 < sh.capacity
  capacity_le : sh.capacity ≤ sh.maxToken
  topk_le : sh.topk ≤ sh.maxToken - 2
  topk_lt : sh.topk < 2 ^ 31
  capacity_lt : sh.capacity < 2 ^ 31

theorem CanUseProductionPhasedLru.phasedShape {numReqs : Int}
    (h : CanUseProductionPhasedLru numReqs sh) : PhasedShape sh := by
  obtain ⟨-, h1, h2, -, h3, h4, h5, h6, -⟩ := h
  exact ⟨h1, h2, h3, h4, by omega, by omega⟩

theorem simtOps_planReady {row : Row} (hsh : PhasedShape sh) (hrow : w.toRow = startRow sh inp row)
    (hfresh : FreshEpoch sh w.toWorkspace) :
    PlanReady sh inp row (offloadLruCompactSimtOps sh inp w) := by
  have hk := hsh.topk_pos
  have hkm := hsh.topk_le
  -- the stages, in the order the kernel runs them
  have hmarked := markTopk_marked inp.topkIndices hk.le hsh.topk_lt
    fun token ht => epochStart_fresh hfresh ht
  generalize hws : markTopk sh inp.topkIndices (currentEpoch w.epoch)
    (epochStart sh w.toWorkspace) = ws at hmarked
  have henc : EncodedTo sh inp.topkIndices (startTokens sh inp row) (startLru sh inp row)
      w.lruSlots w.currentSlots sh.capacity
      (encodeHits sh ws (currentEpoch w.epoch) w.slotToToken w.lruSlots w.currentSlots) :=
    encodeHits_encodedTo w.currentSlots hsh.capacity_pos.le hmarked
      (fun s hs => by rw [hrow]; simp [startRow, hs])
      (fun i h0 h1 => by rw [hrow]; simp [startRow, h0, h1])
  generalize hencEq : encodeHits sh ws (currentEpoch w.epoch) w.slotToToken w.lruSlots
    w.currentSlots = enc at henc
  have hst := buildStacks_stackedTo ws.tokenMark hsh.capacity_pos.le hsh.capacity_le henc.visited
  generalize hstEq : buildStacks sh enc.lruSlots ws.tokenMark = st at hst
  have hcurrent : enc.currentSlots = hitSlots sh inp row := by
    funext pos
    rw [henc.current pos, hrow, servedBy_getD_eq_hitSlots]
  have hmiss : collectMisses sh inp.topkIndices enc.currentSlots w.missTokens ws.tokenPos =
      ⟨overlay w.missTokens ((stepPlan sh inp row).misses.map inp.topkIndices),
        overlay ws.tokenPos (stepPlan sh inp row).misses, (stepPlan sh inp row).misses.length⟩ :=
    collectMisses_eq hk.le hsh.topk_lt fun pos h0 h1 => by rw [hcurrent, needsSlot_iff h0 h1]
  have hev : st.evictableCount = (stepPlan sh inp row).evictable.length := by
    rw [hst.evictableCount, stepPlan, evictable_eq, length_map, rank]
  have hhit : st.hitCount = (stepPlan sh inp row).hits.length := by
    rw [hst.hitCount, stepPlan, hits_eq, length_map, rank]
  have hready := planReady_of_tables enc.lruSlots ws.tokenPos (currentEpoch w.epoch) hk.le hkm
    (hrow.trans (by rw [hrow])) henc.outside
    (by rw [stepPlan, evictable_eq]; exact hst.evictable)
    (by rw [stepPlan, hits_eq]; exact hst.hits) hev hhit
  rw [← hcurrent] at hready
  subst hstEq hencEq hws
  unfold offloadLruCompactSimtOps
  simp only [hmiss]
  exact hready

def plannedWork (o : Orders) (sh : Shape) (inp : RowInput) (w : Work) : Work :=
  offloadLruCompactSimtOps sh inp
    ⟨offloadLruCompactPreparePhasedSimtOps o.prepare sh inp
      (offloadLruCompactResetPhasedSimtOps sh inp w.toRow), w.toWorkspace⟩

theorem plannedWork_planReady (o : Orders) (hsh : PhasedShape sh)
    (hfresh : FreshEpoch sh w.toWorkspace) : PlanReady sh inp w.toRow (plannedWork o sh inp w) :=
  simtOps_planReady hsh (prepare_reset_eq o.prepare sh inp w.toRow hsh.capacity_lt) hfresh

theorem phasedRow_some (o : Orders) (h : phasedRow o sh inp w = some w') :
    w' = rebuildPhase o.rebuild sh (assignPhase o.assign sh (plannedWork o sh inp w)) := by
  obtain ⟨w1, hassign, rfl⟩ := Option.map_eq_some_iff.mp h
  rw [o.assign.run_stride32_sound hassign]
  rfl

/-- `Assign` steps its counter to the end when no more than `2^31 - 128` misses
take a slot. -/
theorem phasedRow_eq_publish (o : Orders)
    (hcount : (plannedWork o sh inp w).missCount ≤ 2 ^ 31 - 128) :
    phasedRow o sh inp w = some (rebuildPhase o.rebuild sh
      (assignPhase o.assign sh (plannedWork o sh inp w))) := by
  have hassign : offloadLruCompactAssignPhasedSimtOps o.assign sh (plannedWork o sh inp w) =
      some (assignPhase o.assign sh (plannedWork o sh inp w)) :=
    o.assign.run_stride32_eq_some (by push_cast; omega) _ _
  exact congrArg (Option.map (offloadLruCompactRebuildPhasedSimtOps o.rebuild sh)) hassign

section

variable (o : Orders) (hsh : PhasedShape sh) (hfresh : FreshEpoch sh w.toWorkspace)

include hsh hfresh

theorem phasedRow_eq_some (hcount : ((stepPlan sh inp w.toRow).assignCount : Int) ≤ 2 ^ 31 - 128) :
    phasedRow o sh inp w = some (rebuildPhase o.rebuild sh
      (assignPhase o.assign sh (plannedWork o sh inp w))) :=
  phasedRow_eq_publish o ((plannedWork_planReady o hsh hfresh).missCount.trans_le hcount)

/-- Past that bound some lane of `Assign` overflows its counter. -/
theorem phasedRow_eq_none (hcount : 2 ^ 31 - 128 < ((stepPlan sh inp w.toRow).assignCount : Int)) :
    phasedRow o sh inp w = none := by
  have hmiss : (plannedWork o sh inp w).missCount = (stepPlan sh inp w.toRow).assignCount :=
    (plannedWork_planReady o hsh hfresh).missCount
  have hassign : offloadLruCompactAssignPhasedSimtOps o.assign sh (plannedWork o sh inp w) =
      none :=
    o.assign.run_stride32_eq_none (by decide) (by rw [hmiss]; omega)
      (by rw [hmiss]; push_cast; omega) _ _
  exact congrArg (Option.map (offloadLruCompactRebuildPhasedSimtOps o.rebuild sh)) hassign

/-- On a fresh slice the five kernels compute the reference step, in every lane
order. -/
theorem phasedRow_some_eq_lruStep (hnd : (stepPlan sh inp w.toRow).order.Nodup)
    (hrun : phasedRow o sh inp w = some w') : w'.toRow = lruStep sh inp w.toRow := by
  have hreq : (plannedWork o sh inp w).lastReqId = inp.reqId := by
    have hstart := prepare_reset_eq o.prepare sh inp w.toRow hsh.capacity_lt
    exact congrArg Row.lastReqId hstart
  rw [phasedRow_some o hrun, publish_eq_lruStep o.assign o.rebuild (by decide)
    (plannedWork_planReady o hsh hfresh) hsh.topk_pos.le hsh.capacity_lt hnd, hreq]
  rfl

theorem phasedRow_eq_lruStep (hcount : ((stepPlan sh inp w.toRow).assignCount : Int) ≤ 2 ^ 31 - 128)
    (hnd : (stepPlan sh inp w.toRow).order.Nodup) :
    (phasedRow o sh inp w).map Work.toRow = some (lruStep sh inp w.toRow) := by
  have hrun := phasedRow_eq_some o hsh hfresh hcount
  rw [hrun, Option.map_some, phasedRow_some_eq_lruStep o hsh hfresh hnd hrun]

end

end MemFabric.AccOffload.Lru.Phased
