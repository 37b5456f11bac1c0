import MemFabric.AccOffload.Lru.FusedV3Election

/-!
# Tiled compaction in the fused kernel

The fused kernel compacts a table tile by tile: 1024 lanes scan their flags,
every flagged lane writes at its rank, and the tile's total moves the base for
the next tile.  Over all tiles this stores the flagged entries at their ranks in
the whole table, which is what the serial loops of the phased kernel do one
entry at a time.
-/

namespace MemFabric.AccOffload.Lru.FusedV3

open Function Simt Reference

variable {topk tokens lru : Int → Int}

/-- The flag register of a tile, as the indicator of a predicate on the table. -/
theorem flag_eq_ite {p : Prop} [Decidable p] {b : Bool} (h : p ↔ b = true) :
    flag p = if b = true then 1 else 0 := by
  exact if_congr h rfl rfl

/-! ## The two stacks in `token_mark` -/

theorem stacks_apart {u v : Int} (hu0 : 0 ≤ u) (hu : u < 4096) (hv0 : 0 ≤ v) (hv : v < 4096)
    (he : evictFlag fusedV3Shape topk tokens lru u = true)
    (hh : hitFlag fusedV3Shape topk tokens lru v = true) :
    (rank (evictFlag fusedV3Shape topk tokens lru) u : Int) ≠
      4095 - rank (hitFlag fusedV3Shape topk tokens lru) v := by
  have h1 := rank_lt _ hu0 hu he
  have h2 := rank_lt _ hv0 hv hh
  have h3 := rank_add_rank_le (evictFlag_hitFlag fusedV3Shape topk tokens lru)
    (by omega : (0 : Int) ≤ 4096)
  omega

/-- The stacks once the tiles below `n` are done; `ub` is the state before the
first tile. -/
structure StackedBelow (topk tokens lru : Int → Int) (ub : Ub) (n : Int) (st : StackBases) :
    Prop where
  evictBase : st.evictBase = rank (evictFlag fusedV3Shape topk tokens lru) n
  hitBase : st.hitBase = rank (hitFlag fusedV3Shape topk tokens lru) n
  evictable : RankStored (evictFlag fusedV3Shape topk tokens lru) lru (fun k => (k : Int)) n
    st.ub.tokenMark
  hits : RankStored (hitFlag fusedV3Shape topk tokens lru) lru (fun k => 4095 - (k : Int)) n
    st.ub.tokenMark
  frame : st.ub = { ub with scan := st.ub.scan, tokenMark := st.ub.tokenMark }

/-- What one lane of a classifying tile does to `token_mark`. -/
def stackWrite (encoded evictAddr hitAddr : Int → Int) (t : Int) (a : Int → Int) : Int → Int :=
  if fusedV3Shape.IsSlot (encoded t) ∨ encoded t ≤ -2 then
    update a (if fusedV3Shape.IsSlot (encoded t) then evictAddr t else hitAddr t)
      (if fusedV3Shape.IsSlot (encoded t) then encoded t else -encoded t - 2)
  else a

theorem stackLane_eq (encoded evictAddr hitAddr : Int → Int) (t : Int) (ub : Ub) (a : Int → Int) :
    stackLane encoded evictAddr hitAddr t { ub with tokenMark := a } =
      { ub with tokenMark := stackWrite encoded evictAddr hitAddr t a } := by
  unfold stackLane stackWrite
  by_cases hs : fusedV3Shape.IsSlot (encoded t)
  · have hneg : ¬ encoded t ≤ -2 := by
      have := hs.1
      omega
    simp [hs, hneg]
  · by_cases hh : encoded t ≤ -2 <;> simp [hs, hh]

section Stack

variable {ub : Ub} {B : Int} {st : StackBases}
  (hlru : ∀ i, 0 ≤ i → i < 4096 → ub.lruSlots i = encodedSlot fusedV3Shape topk tokens (lru i))
  (hB0 : 0 ≤ B) (hB : B + 1024 ≤ 4096) (h : StackedBelow topk tokens lru ub B st)

include hlru hB0 hB h

variable {t : Int}

section

variable (h0 : 0 ≤ t) (h1 : t < 1024)

include h0 h1

theorem StackedBelow.encoded_eq :
    st.ub.lruSlots (B + t) = encodedSlot fusedV3Shape topk tokens (lru (B + t)) := by
  rw [h.frame]
  exact hlru (B + t) (by omega) (by omega)

theorem StackedBelow.evict_iff :
    fusedV3Shape.IsSlot (st.ub.lruSlots (B + t)) ↔
      evictFlag fusedV3Shape topk tokens lru (B + t) = true := by
  rw [h.encoded_eq hlru hB0 hB h0 h1, encodedSlot_mem_iff]

theorem StackedBelow.hit_iff :
    st.ub.lruSlots (B + t) ≤ -2 ↔ hitFlag fusedV3Shape topk tokens lru (B + t) = true := by
  rw [h.encoded_eq hlru hB0 hB h0 h1, encodedSlot_le_iff]

/-- The addresses a lane computes from the two scans are its ranks. -/
theorem StackedBelow.evictAddr_eq :
    st.evictBase + (sumTo (fun t => flag (fusedV3Shape.IsSlot (st.ub.lruSlots (B + t)))) (t + 1) -
      flag (fusedV3Shape.IsSlot (st.ub.lruSlots (B + t)))) =
      rank (evictFlag fusedV3Shape topk tokens lru) (B + t) := by
  rw [h.evictBase]
  exact rank_tile _ hB0 h0
    fun i hi0 hi1 => flag_eq_ite (h.evict_iff hlru hB0 hB hi0 (by omega))

theorem StackedBelow.hitAddr_eq :
    st.hitBase + (sumTo (fun t => flag (st.ub.lruSlots (B + t) ≤ -2)) (t + 1) -
      flag (st.ub.lruSlots (B + t) ≤ -2)) =
      rank (hitFlag fusedV3Shape topk tokens lru) (B + t) := by
  rw [h.hitBase]
  exact rank_tile _ hB0 h0
    fun i hi0 hi1 => flag_eq_ite (h.hit_iff hlru hB0 hB hi0 (by omega))

end

/-- One tile writes its evictable slots and its hits at their ranks and nothing
else. -/
theorem StackedBelow.write (o : LaneOrder threads) {evictAddr hitAddr : Int → Int}
    {evict hit : Int → Bool} (hevict : evict = evictFlag fusedV3Shape topk tokens lru)
    (hhit : hit = hitFlag fusedV3Shape topk tokens lru)
    (hea : ∀ t, 0 ≤ t → t < 1024 → evictAddr t = rank evict (B + t))
    (hha : ∀ t, 0 ≤ t → t < 1024 → hitAddr t = 4095 - rank hit (B + t)) (a : Int → Int) :
    let b := o.run (stackWrite (fun t => st.ub.lruSlots (B + t)) evictAddr hitAddr) a
    (∀ t, 0 ≤ t → t < 1024 → evict (B + t) = true → b (rank evict (B + t)) = lru (B + t)) ∧
    (∀ t, 0 ≤ t → t < 1024 → hit (B + t) = true → b (4095 - rank hit (B + t)) = lru (B + t)) ∧
    ∀ j : Int, (∀ t, 0 ≤ t → t < 1024 → evict (B + t) = true → (rank evict (B + t) : Int) ≠ j) →
      (∀ t, 0 ≤ t → t < 1024 → hit (B + t) = true → 4095 - (rank hit (B + t) : Int) ≠ j) →
      b j = a j := by
  subst hevict hhit
  have hnot : ∀ t, hitFlag fusedV3Shape topk tokens lru (B + t) = true →
      ¬ evictFlag fusedV3Shape topk tokens lru (B + t) = true := fun t hh he => by
    have := evictFlag_hitFlag _ _ _ _ _ he
    rw [hh] at this
    cases this
  obtain ⟨hval, hframe⟩ := o.run_scatter
    (fun t => fusedV3Shape.IsSlot (st.ub.lruSlots (B + t)) ∨ st.ub.lruSlots (B + t) ≤ -2)
    (fun t => if fusedV3Shape.IsSlot (st.ub.lruSlots (B + t)) then evictAddr t else hitAddr t)
    (fun t => if fusedV3Shape.IsSlot (st.ub.lruSlots (B + t)) then st.ub.lruSlots (B + t)
      else -st.ub.lruSlots (B + t) - 2)
    (fun t u ht0 ht hu0 hu hgt hgu htu => by
      have hlt : t < 1024 := ht
      have hlu : u < 1024 := hu
      rw [hea t ht0 hlt, hha t ht0 hlt, hea u hu0 hlu, hha u hu0 hlu] at htu
      rw [h.evict_iff hlru hB0 hB ht0 hlt, h.hit_iff hlru hB0 hB ht0 hlt] at hgt
      rw [h.evict_iff hlru hB0 hB hu0 hlu, h.hit_iff hlru hB0 hB hu0 hlu] at hgu
      simp only [h.evict_iff hlru hB0 hB ht0 hlt, h.evict_iff hlru hB0 hB hu0 hlu] at htu
      rcases hgt with het | hht <;> rcases hgu with heu | hhu
      · rw [if_pos het, if_pos heu] at htu
        have := rank_inj _ (by omega) (by omega) het heu (by exact_mod_cast htu)
        omega
      · rw [if_pos het, if_neg (hnot u hhu)] at htu
        exact absurd htu (stacks_apart (by omega) (by omega) (by omega) (by omega) het hhu)
      · rw [if_neg (hnot t hht), if_pos heu] at htu
        exact absurd htu.symm (stacks_apart (by omega) (by omega) (by omega) (by omega) heu hht)
      · rw [if_neg (hnot t hht), if_neg (hnot u hhu)] at htu
        have := rank_inj _ (by omega) (by omega) hht hhu (by omega)
        omega) a
  refine ⟨fun t ht0 ht he => ?_, fun t ht0 ht hh => ?_, fun j hje hjh => ?_⟩
  · have hs := (h.evict_iff hlru hB0 hB ht0 ht).mpr he
    have hv := hval t ht0 ht (.inl hs)
    rw [if_pos hs, if_pos hs, hea t ht0 ht, h.encoded_eq hlru hB0 hB ht0 ht,
      encodedSlot_of_evict _ _ _ _ he] at hv
    exact hv
  · have hs := (h.evict_iff hlru hB0 hB ht0 ht).not.mpr (hnot t hh)
    have hv := hval t ht0 ht (.inr ((h.hit_iff hlru hB0 hB ht0 ht).mpr hh))
    rw [if_neg hs, if_neg hs, hha t ht0 ht, h.encoded_eq hlru hB0 hB ht0 ht,
      encodedSlot_of_hit _ _ _ _ hh] at hv
    exact hv
  · refine hframe j fun t ht0 ht hg => ?_
    have hlt : t < 1024 := ht
    by_cases hs : fusedV3Shape.IsSlot (st.ub.lruSlots (B + t))
    · rw [if_pos hs, hea t ht0 hlt]
      exact hje t ht0 hlt ((h.evict_iff hlru hB0 hB ht0 hlt).mp hs)
    · rw [if_neg hs, hha t ht0 hlt]
      exact hjh t ht0 hlt ((h.hit_iff hlru hB0 hB ht0 hlt).mp (hg.resolve_left hs))

theorem StackedBelow.tile (o : Schedule) :
    StackedBelow topk tokens lru ub (B + 1024) (stackTile o B st) := by
  unfold stackTile
  extract_lets encoded eFlag hFlag ub1 scanE scanH eRank hRank
  have hscanE : ∀ t, 0 ≤ t → t < 1024 → scanE t = sumTo eFlag (t + 1) :=
    fun t h0 h1 => warpScanPair1024_evictA o _ _ _ h0 h1
  have hscanH : ∀ t, 0 ≤ t → t < 1024 → scanH t = sumTo hFlag (t + 1) :=
    fun t h0 h1 => warpScanPair1024_hitA o _ _ _ h0 h1
  have hea : ∀ t, 0 ≤ t → t < 1024 → st.evictBase + eRank t =
      rank (evictFlag fusedV3Shape topk tokens lru) (B + t) := fun t h0 h1 => by
    rw [← h.evictAddr_eq hlru hB0 hB h0 h1]
    exact congrArg (fun scan => st.evictBase + (scan - eFlag t)) (hscanE t h0 h1)
  have hha : ∀ t, 0 ≤ t → t < 1024 → fusedV3Shape.maxToken - 1 - st.hitBase - hRank t =
      4095 - rank (hitFlag fusedV3Shape topk tokens lru) (B + t) := fun t h0 h1 => by
    have hr : st.hitBase + hRank t = rank (hitFlag fusedV3Shape topk tokens lru) (B + t) := by
      rw [← h.hitAddr_eq hlru hB0 hB h0 h1]
      exact congrArg (fun scan => st.hitBase + (scan - hFlag t)) (hscanH t h0 h1)
    rw [fusedV3Shape_maxToken]
    omega
  obtain ⟨hwE, hwH, hkeep⟩ := h.write hlru hB0 hB (o 3) rfl rfl hea hha st.ub.tokenMark
  have hrun : (o 3).run (stackLane encoded (fun t => st.evictBase + eRank t)
      (fun t => fusedV3Shape.maxToken - 1 - st.hitBase - hRank t)) ub1 = _ :=
    (o 3).run_put (fun a : Int → Int => ({ ub1 with tokenMark := a } : Ub)) _ _
      (fun t a => stackLane_eq _ _ _ t ub1 a) st.ub.tokenMark
  rw [hrun]
  refine ⟨?_, ?_, ?_, ?_, ?_⟩
  · dsimp only
    rw [h.evictBase]
    refine (congrArg _ (hscanE 1023 (by omega) (by omega))).trans ?_
    exact rank_add_sumTo _ hB0 (by omega) fun i h0 h1 =>
      flag_eq_ite (h.evict_iff hlru hB0 hB h0 (by omega))
  · dsimp only
    rw [h.hitBase]
    refine (congrArg _ (hscanH 1023 (by omega) (by omega))).trans ?_
    exact rank_add_sumTo _ hB0 (by omega) fun i h0 h1 =>
      flag_eq_ite (h.hit_iff hlru hB0 hB h0 (by omega))
  · refine h.evictable.extend (fun v hv0 hv he => ?_) hwE
    refine hkeep _ (fun t ht0 ht het heq => ?_) fun t ht0 ht hht heq => ?_
    · have := rank_inj _ (by omega) hv0 het he (by exact_mod_cast heq)
      omega
    · exact stacks_apart hv0 (by omega) (by omega) (by omega) he hht heq.symm
  · refine h.hits.extend (fun v hv0 hv hh => ?_) hwH
    refine hkeep _ (fun t ht0 ht het heq => ?_) fun t ht0 ht hht heq => ?_
    · exact stacks_apart (by omega) (by omega) hv0 (by omega) het hh heq
    · have := rank_inj _ (by omega) hv0 hht hh (by omega)
      omega
  · have hframe := congrArg (fun u : Ub => ({ u with
      scan := ub1.scan
      tokenMark := (o 3).run (stackWrite encoded (fun t => st.evictBase + eRank t)
        (fun t => fusedV3Shape.maxToken - 1 - st.hitBase - hRank t)) st.ub.tokenMark } : Ub))
      h.frame
    exact hframe

omit hB0 hB h in
theorem stackTiles_stackedBelow (o : Schedule) :
    StackedBelow topk tokens lru ub 4096 (forStride 0 fusedV3Shape.capacity threads
      (fun tile => stackTile (fun i => o (4 + tile.toNat + i)) tile) ⟨0, 0, ub⟩) :=
  forStride_tiles (by norm_num) 4 (StackedBelow topk tokens lru ub)
    ⟨by simp, by simp, fun v hv0 hv => by omega, fun v hv0 hv => by omega, rfl⟩
    fun _ _ hB0 hB h => h.tile hlru hB0 hB _

end Stack

/-! ## Looking for a miss -/

variable {t B : Int} {p missing valid : Int → Bool} {reg : Int → Int} {ub : Ub} {st : Int × Ub}

theorem localHasMiss_ne_zero_iff (ub : Ub) (h0 : 0 ≤ t) (h1 : t < 1024) :
    localHasMiss ub t ≠ 0 ↔ ∃ pos, 0 ≤ pos ∧ pos < 2048 ∧ pos % 1024 = t ∧ IsMiss ub pos := by
  have hfold : ∀ (l : List Int) (any : Int),
      l.foldl (fun any pos => if IsMiss ub pos then 1 else any) any ≠ 0 ↔
        any ≠ 0 ∨ ∃ pos ∈ l, IsMiss ub pos := by
    intro l
    induction l with
    | nil => simp
    | cons pos l ih =>
      intro any
      rw [List.foldl_cons, ih]
      by_cases hm : IsMiss ub pos <;> simp [hm]
  have hmem : ∀ pos, pos ∈ strideRange t fusedV3Shape.topk threads ↔
      0 ≤ pos ∧ pos < 2048 ∧ pos % 1024 = t := fun pos => mem_strideRange h0 h1
  unfold localHasMiss forStride
  rw [hfold]
  simp only [ne_eq, not_true_eq_false, false_or, hmem, and_assoc]

theorem blockAny1024_eq (o : Schedule) (predicate : Int → Int) (ub : Ub) :
    ∃ scan any, blockAny1024 o predicate ub = { ub with scan := scan, hasMiss := any } ∧
      (any ≠ 0 ↔ ∃ t, 0 ≤ t ∧ t < 1024 ∧ predicate t ≠ 0) := by
  unfold blockAny1024
  extract_lets any ub1
  have hub1 : ub1 = { ub with scan := { ub.scan with
      evictA := publishTotals 5 (o 0) any ub.scan.evictA } } :=
    (o 0).run_put
      (fun a : Int → Int => ({ ub with scan := { ub.scan with evictA := a } } : Ub)) _
      (fun thread a => if thread % 2 ^ 5 = 2 ^ 5 - 1 then
        update a (thread / 2 ^ 5) (any thread) else a)
      (fun t a => by dsimp only; split_ifs <;> rfl) ub.scan.evictA
  -- lane 31 of warp 0 is thread 31
  have hlane : (fun (thread : Int) (ub : Ub) =>
      if thread / 2 ^ 5 = 0 ∧ thread % 2 ^ 5 = 2 ^ 5 - 1 then
        { ub with hasMiss := warpAny 5 ub1.scan.evictA thread } else ub) =
      fun thread ub => if thread = 31 then
        { ub with hasMiss := warpAny 5 ub1.scan.evictA 31 } else ub := by
    funext thread ub
    by_cases ht : thread = 31
    · subst ht
      rfl
    · rw [if_neg (by omega), if_neg ht]
  rw [hlane, (o 1).run_lane (by omega) (by norm_num)
    (fun ub : Ub => { ub with hasMiss := warpAny 5 ub1.scan.evictA 31 }) ub1, hub1]
  exact ⟨_, _, rfl, warpAny_publishTotals_iff (o 0) predicate ub.scan.evictA⟩

theorem blockAny1024_hasMiss (o : Schedule) (ub : Ub) :
    ∃ scan any, blockAny1024 o (localHasMiss ub) ub = { ub with scan := scan, hasMiss := any } ∧
      (any ≠ 0 ↔ ∃ pos, 0 ≤ pos ∧ pos < 2048 ∧ IsMiss ub pos) := by
  obtain ⟨scan, any, heq, hany⟩ := blockAny1024_eq o (localHasMiss ub) ub
  refine ⟨scan, any, heq, hany.trans ⟨?_, ?_⟩⟩
  · rintro ⟨t, h0, h1, ht⟩
    obtain ⟨pos, hp0, hp1, -, hm⟩ := (localHasMiss_ne_zero_iff ub h0 h1).mp ht
    exact ⟨pos, hp0, hp1, hm⟩
  · rintro ⟨pos, hp0, hp1, hm⟩
    have h0 : 0 ≤ pos % 1024 := by omega
    have h1 : pos % 1024 < 1024 := by omega
    exact ⟨pos % 1024, h0, h1, (localHasMiss_ne_zero_iff ub h0 h1).mpr ⟨pos, hp0, hp1, rfl, hm⟩⟩

/-! ## Collecting the misses -/

section

variable (o : Schedule) (hB0 : 0 ≤ B)
  (hreg : ∀ t, 0 ≤ t → t < 1024 → reg t = if p (B + t) = true then 1 else 0) (sb : ScanBufs)

include hB0 hreg

/-- The rank a lane computes from the scan of one tile of positions. -/
theorem tileRank_eq (h0 : 0 ≤ t) (h1 : t < 1024) :
    (rank p B : Int) + ((warpScanPair1024 o reg (fun _ => 0) sb).evictA t - reg t) =
      rank p (B + t) := by
  rw [warpScanPair1024_evictA o reg _ sb h0 h1]
  exact rank_tile p hB0 h0 fun i hi0 hi1 => hreg i hi0 (by omega)

theorem tileBase_eq :
    (rank p B : Int) + (warpScanPair1024 o reg (fun _ => 0) sb).evictA (threads - 1) =
      rank p (B + 1024) := by
  have hlast : ((threads : Nat) : Int) - 1 = 1023 := by norm_num
  rw [warpScanPair1024_evictA o reg _ sb (by omega) (by omega)]
  exact rank_add_sumTo p hB0 (by omega) hreg

end

structure MissesBelow (missing : Int → Bool) (ub : Ub) (n : Int) (st : Int × Ub) : Prop where
  base : st.1 = rank missing n
  frame : ∃ scan, st.2 =
    { ub with
      scan := scan
      missTokens := overlay ub.missTokens (((Int.range 0 n).filter missing).map ub.topkIndices)
      tokenPos := overlay ub.tokenPos (((Int.range 0 n).filter missing).map fun pos => pos) }

section

variable (o : Schedule) (hmiss : ∀ pos, 0 ≤ pos → pos < 2048 → (IsMiss ub pos ↔ missing pos = true))

include hmiss

theorem MissesBelow.tile (hB0 : 0 ≤ B) (hB : B + 1024 ≤ 2048) (h : MissesBelow missing ub B st) :
    MissesBelow missing ub (B + 1024) (missTile o B st) := by
  obtain ⟨base, u⟩ := st
  obtain ⟨scan, rfl⟩ := h.frame
  have hguard : ∀ t, 0 ≤ t → t < 1024 → (IsMiss _ (B + t) ↔ missing (B + t) = true) :=
    fun t h0 h1 => hmiss (B + t) (by omega) (by omega)
  have hreg : ∀ t, 0 ≤ t → t < 1024 → flag (IsMiss _ (B + t)) =
      if missing (B + t) = true then 1 else 0 := fun t h0 h1 => flag_eq_ite (hguard t h0 h1)
  unfold missTile
  extract_lets missBase missFlag ub1 scanE missRank
  have haddr : ∀ t, 0 ≤ t → t < 1024 → missBase + missRank t = rank missing (B + t) :=
    fun t h0 h1 => by
      rw [← tileRank_eq o hB0 hreg scan h0 h1, ← h.base]
      rfl
  refine ⟨?_, ub1.scan, ?_⟩
  · rw [← tileBase_eq o hB0 hreg scan, ← h.base]
    rfl
  · have htokens := (o 3).run_overlay (v := fun t => ub.topkIndices (B + t)) ub.topkIndices hB0
      hguard (fun t h0 h1 _ => haddr t h0 h1) (fun t _ _ _ => rfl) ub.missTokens
    have hposs := (o 3).run_overlay (fun pos => pos) hB0
      hguard (fun t h0 h1 _ => haddr t h0 h1)
      (fun t h0 h1 _ => int32_eq (by omega) (by
        have : t < 1024 := h1
        omega)) ub.tokenPos
    refine ((o 3).run_put₂
      (fun a b : Int → Int => ({ ub1 with missTokens := a, tokenPos := b } : Ub)) _
      (fun t a => if IsMiss ub (B + t) then
        update a (missBase + missRank t) (ub.topkIndices (B + t)) else a)
      (fun t a => if IsMiss ub (B + t) then update a (missBase + missRank t) (int32 (B + t)) else a)
      (fun t a b => by
        change (if IsMiss ub (B + t) then _ else _) = _
        split_ifs <;> rfl) _ _).trans ?_
    rw [htokens, hposs]
    rfl

theorem missTiles_missesBelow :
    MissesBelow missing ub 2048 (forStride 0 fusedV3Shape.topk threads
      (fun tile => missTile (fun i => o (4098 + tile.toNat + i)) tile) (0, ub)) :=
  forStride_tiles (by norm_num) 2 (MissesBelow missing ub)
    ⟨by simp, ub.scan, by simp [range_eq_nil (le_refl (0 : Int))]⟩
    fun _ _ hB0 hB h => h.tile _ hmiss hB0 hB

end

/-! ## The reset fast path -/

/-- The row on the fast path once the tiles below `n` are done: the valid
positions take the slots `0, 1, ...` in order. -/
structure FastBelow (valid : Int → Bool) (ub : Ub) (n : Int) (st : Int × Ub) : Prop where
  base : st.1 = rank valid n
  frame : ∃ scan, st.2 =
    { ub with
      scan := scan
      currentSlots := fun pos =>
        if (0 ≤ pos ∧ pos < n) ∧ valid pos = true then (rank valid pos : Int)
        else ub.currentSlots pos
      missTokens := overlay ub.missTokens (((Int.range 0 n).filter valid).map ub.topkIndices)
      missSlots := overlay ub.missSlots
        (((Int.range 0 n).filter valid).map fun pos => (rank valid pos : Int))
      slotToToken := overlay ub.slotToToken (((Int.range 0 n).filter valid).map ub.topkIndices) }

/-- A table indexed by position: every valid lane of the tile writes its own
cell. -/
theorem run_ownCell (o : LaneOrder threads) {guard : Int → Prop} [DecidablePred guard] (hB0 : 0 ≤ B)
    (hguard : ∀ t, 0 ≤ t → t < 1024 → (guard t ↔ valid (B + t) = true)) {v : Int → Int}
    (val a : Int → Int) (hval : ∀ t, 0 ≤ t → t < 1024 → v t = val (B + t)) :
    o.run (fun t a => if guard t then update a (B + t) (v t) else a)
      (fun pos => if (0 ≤ pos ∧ pos < B) ∧ valid pos = true then val pos else a pos) =
      fun pos => if (0 ≤ pos ∧ pos < B + 1024) ∧ valid pos = true then val pos else a pos := by
  obtain ⟨hwrite, hkeep⟩ := o.run_scatter guard (fun t => B + t) v
    (fun t u _ _ _ _ _ _ htu => by omega)
    (fun pos => if (0 ≤ pos ∧ pos < B) ∧ valid pos = true then val pos else a pos)
  funext pos
  by_cases hin : B ≤ pos ∧ pos < B + 1024
  · have hpos : B + (pos - B) = pos := by omega
    have hg := hguard (pos - B) (by omega) (by omega)
    rw [hpos] at hg
    by_cases hvalid : valid pos = true
    · have hw := hwrite (pos - B) (by omega) (by
        have : pos - B < 1024 := by omega
        exact this) (hg.mpr hvalid)
      rw [hval (pos - B) (by omega) (by omega), hpos] at hw
      rw [hw, if_pos ⟨by omega, hvalid⟩]
    · rw [hkeep pos fun t _ _ hgt heq => hvalid ?_, if_neg fun h => hvalid h.2,
        if_neg fun h => hvalid h.2]
      obtain rfl : t = pos - B := by omega
      exact hg.mp hgt
  · rw [hkeep pos fun t h0 h1 _ heq => hin ⟨by omega, by
      have : t < 1024 := h1
      omega⟩]
    have hiff : (0 ≤ pos ∧ pos < B) ↔ (0 ≤ pos ∧ pos < B + 1024) := by omega
    exact if_congr (and_congr_left' hiff) rfl rfl

section

variable (o : Schedule)
  (hvalid : ∀ pos, fusedV3Shape.IsToken (ub.topkIndices pos) ↔ valid pos = true)

include hvalid

theorem FastBelow.tile (hB0 : 0 ≤ B) (hB : B + 1024 ≤ 2048) (h : FastBelow valid ub B st) :
    FastBelow valid ub (B + 1024) (resetFastTile o B st) := by
  obtain ⟨base, u⟩ := st
  obtain ⟨scan, rfl⟩ := h.frame
  have hreg : ∀ t, 0 ≤ t → t < 1024 →
      flag (fusedV3Shape.IsToken (ub.topkIndices (B + t))) =
        if valid (B + t) = true then 1 else 0 := fun t _ _ => flag_eq_ite (hvalid (B + t))
  unfold resetFastTile
  extract_lets missBase isValid validFlag ub1 scanResult rk
  have hrank : ∀ t, 0 ≤ t → t < 1024 → rk t = rank valid (B + t) := fun t h0 h1 => by
    have hr := tileRank_eq o hB0 hreg scan h0 h1
    rw [← h.base, ← add_sub_assoc] at hr
    exact hr
  let guard := fun t => isValid (B + t) ∧ rk t < fusedV3Shape.capacity
  have hguard : ∀ t, 0 ≤ t → t < 1024 → (guard t ↔ valid (B + t) = true) :=
    fun t h0 h1 => by
      have hle := rank_le valid (by omega : 0 ≤ B + t)
      simp only [guard]
      rw [hrank t h0 h1, ← hvalid, fusedV3Shape_capacity]
      exact and_iff_left (by omega)
  refine ⟨?_, ub1.scan, ?_⟩
  · rw [← tileBase_eq o hB0 hreg scan, ← h.base]
    rfl
  · have haddr : ∀ t : Int, 0 ≤ t → t < (threads : Nat) → valid (B + t) = true →
        rk t = rank valid (B + t) := fun t h0 h1 _ => hrank t h0 h1
    have hcopy := (o 3).run_overlay (v := fun t => ub.topkIndices (B + t)) ub.topkIndices hB0 hguard
      haddr fun t _ _ _ => rfl
    refine ((o 3).run_put₄ (fun a b c d : Int → Int => ({ ub1 with
      currentSlots := a, missTokens := b, missSlots := c, slotToToken := d } : Ub)) _
      (fun t a => if guard t then update a (B + t) (rk t) else a)
      (fun t a => if guard t then update a (rk t) (ub.topkIndices (B + t)) else a)
      (fun t a => if guard t then update a (rk t) (rk t) else a)
      (fun t a => if guard t then update a (rk t) (ub.topkIndices (B + t)) else a)
      (fun t a b c d => by
        change (if guard t then _ else _) = _
        split_ifs <;> rfl) _ _ _ _).trans ?_
    rw [run_ownCell (o 3) hB0 hguard (fun pos => (rank valid pos : Int)) ub.currentSlots hrank,
      hcopy ub.missTokens, (o 3).run_overlay (fun pos => (rank valid pos : Int)) hB0 hguard haddr
        (fun t h0 h1 _ => hrank t h0 h1) ub.missSlots, hcopy ub.slotToToken]
    rfl

theorem fastTiles_fastBelow :
    FastBelow valid ub 2048 (forStride 0 fusedV3Shape.topk threads
      (fun tile => resetFastTile (fun i => o (tile.toNat + i)) tile) (0, ub)) := by
  refine forStride_tiles (by norm_num) 2 (FastBelow valid ub) ⟨by simp, ub.scan, ?_⟩
    fun _ _ hB0 hB h => h.tile _ hvalid hB0 hB
  have hnone : ∀ pos : Int, ¬ ((0 ≤ pos ∧ pos < 0) ∧ valid pos = true) := fun pos h => by omega
  simp [range_eq_nil (le_refl (0 : Int)), hnone]

end

end MemFabric.AccOffload.Lru.FusedV3
