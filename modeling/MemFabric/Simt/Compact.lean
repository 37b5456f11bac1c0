import MemFabric.Simt.Scan

/-!
# Stable compaction

Keeping the indices of a range that satisfy a predicate, in order.  A serial
kernel appends them one by one; a parallel kernel writes each of them at its
rank, the number of kept indices below it.  `StoredAt` says that a buffer holds
a list at given addresses, and the lemmas here connect both ways of writing to
`List.filter`.
-/

namespace MemFabric.Simt

open List Int Option

variable {α : Type*}

/-! ## Filtered ranges -/

variable {n m i j base : Int} {p q : Int → Bool} {f : Int → Int} {addr : Nat → Int}
  {b val : Int → α} {l : List α}

theorem filter_range_succ (p : Int → Bool) (hn : 0 ≤ n) :
    (range 0 (n + 1)).filter p = (range 0 n).filter p ++ (if p n then [n] else []) := by
  rw [range_succ_right hn]
  by_cases h : p n <;> simp [h]

def rank (p : Int → Bool) (n : Int) : Nat := ((range 0 n).filter p).length

section

variable (p : Int → Bool)

@[simp] theorem rank_zero : rank p 0 = 0 := by
  simp [rank, range_eq_nil (le_refl (0 : Int))]

theorem rank_succ (hn : 0 ≤ n) :
    rank p (n + 1) = rank p n + (if p n then 1 else 0) := by
  rw [rank, filter_range_succ p hn]
  by_cases h : p n <;> simp [h, rank]

theorem rank_le (hn : 0 ≤ n) : (rank p n : Int) ≤ n := by
  have h := length_filter_le p (range 0 n)
  rw [length_range] at h
  unfold rank
  omega

theorem rank_mono (hm : 0 ≤ m) (hmn : m ≤ n) : rank p m ≤ rank p n := by
  induction n, hmn using Int.leInduction with
  | base => exact le_rfl
  | succ n hle ih =>
    rw [rank_succ p (hm.trans hle)]
    omega

theorem rank_lt (hm : 0 ≤ m) (hmn : m < n) (hp : p m = true) :
    rank p m < rank p n := by
  have h := rank_mono p (by omega : (0 : Int) ≤ m + 1) (by omega : m + 1 ≤ n)
  rw [rank_succ p hm, if_pos hp] at h
  omega

theorem rank_inj (hi : 0 ≤ i) (hj : 0 ≤ j) (hpi : p i = true) (hpj : p j = true)
    (h : rank p i = rank p j) : i = j := by
  rcases lt_trichotomy i j with hlt | heq | hlt
  · have := rank_lt p hi hlt hpi
    omega
  · exact heq
  · have := rank_lt p hj hlt hpj
    omega

end

theorem rank_congr (h : ∀ i, 0 ≤ i → i < n → p i = q i) : rank p n = rank q n := by
  unfold rank
  rw [filter_congr fun i hi => h i (mem_range_iff.mp hi).1 (mem_range_iff.mp hi).2]

theorem rank_eq_of_le (hm : 0 ≤ m) (hmn : m ≤ n)
    (h : ∀ i, m ≤ i → p i = false) : rank p n = rank p m := by
  induction n, hmn using Int.leInduction with
  | base => rfl
  | succ n hle ih => rw [rank_succ p (hm.trans hle), h n hle, ih, if_neg (by simp), add_zero]

theorem rank_add_rank_le (hpq : ∀ i, p i = true → q i = false)
    (hn : 0 ≤ n) : (rank p n : Int) + rank q n ≤ n := by
  induction n, hn using Int.leInduction with
  | base => simp
  | succ n hle ih =>
    rw [rank_succ p hle, rank_succ q hle]
    cases hp : p n with
    | true =>
      rw [hpq n hp]
      simp
      omega
    | false =>
      cases q n <;> simp <;> omega

section

variable (p : Int → Bool)

theorem getElem?_rank (h0 : 0 ≤ i) (hn : i < n) (hp : p i = true) :
    ((range 0 n).filter p)[rank p i]? = some i := by
  induction n, (by omega : i + 1 ≤ n) using Int.leInduction with
  | base =>
    rw [filter_range_succ p h0, if_pos hp, rank]
    simp
  | succ n hle ih =>
    rw [filter_range_succ p (by omega), getElem?_append_left]
    · exact ih (by omega)
    · have := rank_lt p h0 (by omega : i < n) hp
      exact this

theorem exists_rank {v : Int} {k : Nat}
    (h : ((range 0 n).filter p)[k]? = some v) : 0 ≤ v ∧ v < n ∧ p v = true ∧ rank p v = k := by
  have hmem := mem_filter.mp (mem_of_getElem? h)
  have hb := mem_range_iff.mp hmem.1
  refine ⟨hb.1, hb.2, hmem.2, ?_⟩
  have hr := getElem?_rank p hb.1 hb.2 hmem.2
  exact (List.getElem?_inj (List.getElem?_eq_some_iff.mp hr).1
    ((nodup_range 0 n).filter p)).mp (hr.trans h.symm)

theorem sumTo_flag (hn : 0 ≤ n)
    (hf : ∀ i, 0 ≤ i → i < n → f i = if p i then 1 else 0) : sumTo f n = rank p n := by
  induction n, hn using Int.leInduction with
  | base => simp
  | succ n hle ih =>
    rw [sumTo_succ f hle, ih fun i h0 h1 => hf i h0 (by omega), rank_succ p hle,
      hf n hle (by omega)]
    by_cases h : p n <;> simp

/-- Counting a tile of a longer range: the flags of the tile start at `base`. -/
theorem rank_add_sumTo (hb : 0 ≤ base) (hn : 0 ≤ n)
    (hf : ∀ i, 0 ≤ i → i < n → f i = if p (base + i) then 1 else 0) :
    (rank p base : Int) + sumTo f n = rank p (base + n) := by
  induction n, hn using Int.leInduction with
  | base => simp
  | succ n hle ih =>
    rw [sumTo_succ f hle, ← add_assoc, ih fun i h0 h1 => hf i h0 (by omega),
      ← add_assoc base n 1, rank_succ p (by omega : 0 ≤ base + n), hf n hle (by omega)]
    by_cases h : p (base + n) <;> simp

theorem forLoop_count (hb : 0 ≤ base) (hm : 0 ≤ m) (n : Int) :
    forLoop 0 m (fun i n => if p (base + i) then n + 1 else n) n =
      n + (rank p (base + m) - rank p base) := by
  refine forLoop_induct hm (fun i (k : Int) => k = n + (rank p (base + i) - rank p base))
    (by simp) ?_
  rintro i k h0 - rfl
  rw [← add_assoc base i 1, rank_succ p (by omega : 0 ≤ base + i)]
  by_cases hp : p (base + i) <;> simp [hp]
  omega

end

/-! ## Lists in buffers -/

/-- The buffer holds the `k`-th entry of the list at `addr k`. -/
def StoredAt (addr : Nat → Int) (b : Int → α) (l : List α) : Prop :=
  ∀ k v, l[k]? = some v → b (addr k) = v

theorem StoredAt.nil (addr : Nat → Int) (b : Int → α) : StoredAt addr b [] := by
  intro k v h
  simp at h

theorem StoredAt.update_of_ne (h : StoredAt addr b l) (hj : ∀ k, k < l.length → addr k ≠ j)
    (v : α) : StoredAt addr (Function.update b j v) l := by
  intro k w hk
  rw [Function.update_of_ne (hj k (List.getElem?_eq_some_iff.mp hk).1)]
  exact h k w hk

theorem StoredAt.append (hinj : Function.Injective addr) (h : StoredAt addr b l) (v : α) :
    StoredAt addr (Function.update b (addr l.length) v) (l ++ [v]) := by
  intro k w hk
  by_cases hkl : k < l.length
  · rw [Function.update_of_ne fun e => by have := hinj e; omega]
    rw [getElem?_append_left hkl] at hk
    exact h k w hk
  · have hlt := (List.getElem?_eq_some_iff.mp hk).1
    simp only [List.length_append, List.length_cons, List.length_nil] at hlt
    have hkeq : k = l.length := by omega
    subst hkeq
    simpa using hk

/-- Every kept index below `n` has its value at the address of its rank. -/
def RankStored (p : Int → Bool) (val : Int → α) (addr : Nat → Int) (n : Int) (b : Int → α) : Prop :=
  ∀ v, 0 ≤ v → v < n → p v = true → b (addr (rank p v)) = val v

/-- A tile of `w` further indices: its entries are new and the others are kept. -/
theorem RankStored.extend {w : Int} {b' : Int → α} (h : RankStored p val addr n b)
    (hold : ∀ v, 0 ≤ v → v < n → p v = true → b' (addr (rank p v)) = b (addr (rank p v)))
    (hnew : ∀ t, 0 ≤ t → t < w → p (n + t) = true →
      b' (addr (rank p (n + t))) = val (n + t)) : RankStored p val addr (n + w) b' := by
  intro v h0 h1 hp
  by_cases hv : v < n
  · rw [hold v h0 hv hp]
    exact h v h0 hv hp
  · have hvn : n + (v - n) = v := by omega
    have hnew' := hnew (v - n) (by omega) (by omega) (by rw [hvn]; exact hp)
    rwa [hvn] at hnew'

/-- The rank a lane computes from the inclusive scan of its tile. -/
theorem rank_tile (p : Int → Bool) {t : Int} (hb : 0 ≤ base) (ht : 0 ≤ t)
    (hf : ∀ i, 0 ≤ i → i ≤ t → f i = if p (base + i) then 1 else 0) :
    (rank p base : Int) + (sumTo f (t + 1) - f t) = rank p (base + t) := by
  rw [sumTo_succ f ht, ← rank_add_sumTo p hb ht fun i h0 h1 => hf i h0 (by omega)]
  omega

theorem RankStored.storedAt (h : RankStored p val addr n b) :
    StoredAt addr b (((range 0 n).filter p).map val) := by
  intro k w hk
  rw [getElem?_map, map_eq_some_iff] at hk
  obtain ⟨v, hv, rfl⟩ := hk
  obtain ⟨h0, h1, hp, hr⟩ := exists_rank p hv
  rw [← hr]
  exact h v h0 h1 hp

theorem getLast?_filter_range (h0 : 0 ≤ m) (hm : m < n) (hp : p m = true)
    (hmax : ∀ i, 0 ≤ i → i < n → p i = true → i ≤ m) :
    ((range 0 n).filter p).getLast? = some m := by
  rw [← range_append (by omega : 0 ≤ m + 1) (by omega : m + 1 ≤ n), filter_append]
  have htail : (range (m + 1) n).filter p = [] := by
    rw [filter_eq_nil_iff]
    intro i hi hpi
    have hb := mem_range_iff.mp hi
    have := hmax i (by omega) hb.2 hpi
    omega
  rw [htail, filter_range_succ p h0, if_pos hp]
  simp

def overlay (b : Int → α) (l : List α) : Int → α := fun i =>
  if 0 ≤ i then (l[i.toNat]?).getD (b i) else b i

@[simp] theorem overlay_nil (b : Int → α) : overlay b [] = b := by
  funext i
  simp [overlay]

section

variable (b : Int → α) (l : List α)

theorem overlay_of_neg (h : i < 0) : overlay b l i = b i :=
  if_neg (by omega)

theorem overlay_of_le (h : (l.length : Int) ≤ i) :
    overlay b l i = b i := by
  rw [overlay, if_pos (by omega), getElem?_eq_none (by omega), getD_none]

theorem update_overlay (v : α) :
    Function.update (overlay b l) l.length v = overlay b (l ++ [v]) := by
  funext i
  by_cases hi : i = l.length
  · subst hi
    simp [overlay]
  · rw [Function.update_of_ne hi]
    by_cases h0 : 0 ≤ i
    · rw [overlay, overlay, if_pos h0, if_pos h0]
      by_cases hlt : i.toNat < l.length
      · rw [getElem?_append_left hlt]
      · rw [getElem?_eq_none (by omega),
          getElem?_eq_none (by rw [List.length_append, length_singleton]; omega)]
    · rw [overlay, overlay, if_neg h0, if_neg h0]

theorem storedAt_overlay :
    StoredAt (fun k => (k : Int)) (overlay b l) l := by
  intro k v hk
  simp [overlay, hk]

end

/-- Writing every kept index at its rank overlays the compacted list. -/
theorem RankStored.eq_overlay {b0 : Int → α} (h : RankStored p val (fun k => (k : Int)) n b)
    (hframe : ∀ j : Int, (j < 0 ∨ (rank p n : Int) ≤ j) → b j = b0 j) :
    b = overlay b0 (((range 0 n).filter p).map val) := by
  funext j
  by_cases hj : 0 ≤ j ∧ j < rank p n
  · have hlt : j.toNat < (((range 0 n).filter p).map val).length := by
      rw [length_map]
      unfold rank at hj
      omega
    have hv := h.storedAt j.toNat _ (getElem?_eq_getElem hlt)
    rw [toNat_of_nonneg hj.1] at hv
    rw [hv, overlay, if_pos hj.1, getElem?_eq_getElem hlt, getD_some]
  · rw [hframe j (by omega), overlay]
    split_ifs with h0
    · rw [getElem?_eq_none, getD_none]
      rw [length_map]
      unfold rank at hj
      omega
    · rfl

theorem rankStored_overlay (p : Int → Bool) (val : Int → α) (n : Int) (b : Int → α) :
    RankStored p val (fun k => (k : Int)) n (overlay b (((range 0 n).filter p).map val)) := by
  intro v h0 h1 hp
  refine storedAt_overlay b _ (rank p v) _ ?_
  rw [getElem?_map, getElem?_rank p h0 h1 hp, map_some]

/-- One tile of a parallel compaction: every flagged lane writes at its rank, and
the table goes from the entries below `base` to those below `base + n`. -/
theorem LaneOrder.run_overlay {n : Nat} (o : LaneOrder n) (val : Int → α) (hb : 0 ≤ base)
    {guard : Int → Prop} [DecidablePred guard] {addr : Int → Int} {v : Int → α}
    (hguard : ∀ t : Int, 0 ≤ t → t < n → (guard t ↔ p (base + t) = true))
    (haddr : ∀ t : Int, 0 ≤ t → t < n → p (base + t) = true → addr t = rank p (base + t))
    (hval : ∀ t : Int, 0 ≤ t → t < n → p (base + t) = true → v t = val (base + t)) (b : Int → α) :
    o.run (fun t a => if guard t then Function.update a (addr t) (v t) else a)
      (overlay b (((range 0 base).filter p).map val)) =
      overlay b (((range 0 (base + n)).filter p).map val) := by
  obtain ⟨hwrite, hkeep⟩ := o.run_scatter guard addr v
    (fun t u ht0 ht hu0 hu hgt hgu htu => by
      have hpt := (hguard t ht0 ht).mp hgt
      have hpu := (hguard u hu0 hu).mp hgu
      rw [haddr t ht0 ht hpt, haddr u hu0 hu hpu] at htu
      have := rank_inj p (by omega) (by omega) hpt hpu (by exact_mod_cast htu)
      omega) (overlay b (((range 0 base).filter p).map val))
  have hkeep' : ∀ j : Int, (∀ t : Int, 0 ≤ t → t < n → p (base + t) = true →
      (rank p (base + t) : Int) ≠ j) → o.run (fun t a => if guard t then
        Function.update a (addr t) (v t) else a)
        (overlay b (((range 0 base).filter p).map val)) j =
          overlay b (((range 0 base).filter p).map val) j := fun j hj =>
    hkeep j fun t ht0 ht hg => by
      have hp := (hguard t ht0 ht).mp hg
      rw [haddr t ht0 ht hp]
      exact hj t ht0 ht hp
  refine RankStored.eq_overlay ((rankStored_overlay p val base b).extend ?_ ?_) ?_
  · intro w hw0 hw hp
    refine hkeep' _ fun t ht0 ht hpt heq => ?_
    have := rank_inj p (by omega) hw0 hpt hp (by exact_mod_cast heq)
    omega
  · intro t ht0 ht hp
    have h := hwrite t ht0 ht ((hguard t ht0 ht).mpr hp)
    rw [haddr t ht0 ht hp, hval t ht0 ht hp] at h
    exact h
  · intro j hj
    have hmono := rank_mono p hb (by omega : base ≤ base + n)
    rw [hkeep' j fun t ht0 ht hp heq => ?_]
    · rcases hj with hneg | hge
      · rw [overlay, if_neg (by omega)]
      · exact overlay_of_le _ _ (by rw [length_map]; unfold rank at hmono hge; omega)
    · have := rank_lt p (by omega) (by omega : base + t < base + n) hp
      omega

/-- Every kept index, in any order, writes one entry at its rank and one at its
rank in a second part of the table that follows the first. -/
theorem foldl_overlay_pair {l : List Int} (hnd : l.Nodup)
    (hmem : ∀ g ∈ l, p g = true → 0 ≤ g ∧ g < n) (hcover : ∀ g, 0 ≤ g → g < n → p g = true → g ∈ l)
    (u v : Int → α) (b : Int → α) {f : (Int → α) → Int → Int → α}
    (hf : ∀ b g, f b g = if p g = true then
      Function.update (Function.update b (rank p g : Int) (u g)) (rank p n + rank p g : Int) (v g)
      else b) :
    l.foldl f b =
      overlay b (((range 0 n).filter p).map u ++ ((range 0 n).filter p).map v) := by
  have hlen : ((range 0 n).filter p).length = rank p n := rfl
  have hrank : ∀ g ∈ l, p g = true → rank p g < rank p n := fun g hg hp =>
    rank_lt p (hmem g hg hp).1 (hmem g hg hp).2 hp
  have hinj : ∀ g ∈ l, ∀ h ∈ l, p g = true → p h = true → rank p g = rank p h → g = h :=
    fun g hg h hh hpg hph => rank_inj p (hmem g hg hpg).1 (hmem h hh hph).1 hpg hph
  obtain ⟨hfst, hsnd, hkeep⟩ := foldl_scatter₂ hnd (fun g => p g = true)
    (fun g => (rank p g : Int)) (fun g => (rank p n + rank p g : Int)) u v
    (fun g hg h hh hpg hph heq => hinj g hg h hh hpg hph (by omega))
    (fun g hg h hh hpg hph heq => hinj g hg h hh hpg hph (by omega))
    (fun g hg h hh hpg hph heq => by have := hrank g hg hpg; omega) b hf
  funext j
  by_cases hj : 0 ≤ j ∧ j < rank p n + rank p n
  · obtain ⟨k, rfl⟩ := eq_ofNat_of_zero_le hj.1
    rw [overlay, toNat_natCast]
    by_cases hk : k < rank p n
    · obtain ⟨g, hg⟩ : ∃ g, ((range 0 n).filter p)[k]? = some g :=
        ⟨_, getElem?_eq_getElem (hlen ▸ hk)⟩
      obtain ⟨h0, h1, hp, hr⟩ := exists_rank p hg
      rw [getElem?_append_left (by rw [length_map]; exact hk), getElem?_map, hg,
        map_some, getD_some, ← hr]
      exact hfst g (hcover g h0 h1 hp) hp
    · obtain ⟨g, hg⟩ : ∃ g, ((range 0 n).filter p)[k - rank p n]? = some g :=
        ⟨_, getElem?_eq_getElem (by rw [hlen]; omega)⟩
      obtain ⟨h0, h1, hp, hr⟩ := exists_rank p hg
      rw [getElem?_append_right (by rw [length_map]; omega), length_map, hlen,
        getElem?_map, hg, map_some, getD_some]
      have hval := hsnd g (hcover g h0 h1 hp) hp
      rwa [show (rank p n + rank p g : Int) = k by omega] at hval
  · rw [hkeep j fun g hg hp => by have := hrank g hg hp; omega, overlay]
    split_ifs with h0
    · rw [getElem?_eq_none, getD_none]
      simp only [List.length_append, length_map]
      omega
    · rfl

end MemFabric.Simt
