import Mathlib.Data.Int.Range
import Mathlib.Data.List.Nodup
import Mathlib.Tactic.Linarith
import Mathlib.Tactic.Ring

/-!
# Counted loops over device buffers

A device buffer is a total function from element index to element, and a C
`for` loop over an index range is a left fold over the visited indices.  This
module fixes the three loop shapes a SIMT kernel is written with (counting up,
counting down, and the lane-strided loop) and gives each one its invariant
rule, so that no later proof unfolds a fold.
-/

namespace MemFabric.Simt

open List Int

variable {σ τ α : Type*}

/-! ## Index ranges -/

variable {lo hi mid n start step : Int} {body f : Int → σ → σ} {s : σ} {g body' : Int → τ → τ}
  {t : τ}

theorem range_eq_nil (h : hi ≤ lo) : Int.range lo hi = [] := by
  have hz : (hi - lo).toNat = 0 := by omega
  simp [Int.range, hz]

theorem range_succ_right (h : lo ≤ hi) : Int.range lo (hi + 1) = Int.range lo hi ++ [hi] := by
  have hn : (hi + 1 - lo).toNat = (hi - lo).toNat + 1 := by omega
  simp only [Int.range, hn, range_succ, map_append, map_cons]
  congr 2
  omega

theorem range_cons (h : lo < hi) : Int.range lo hi = lo :: Int.range (lo + 1) hi := by
  have hn : (hi - lo).toNat = (hi - (lo + 1)).toNat + 1 := by omega
  simp only [Int.range, hn, range_succ_eq_map, map_cons, map_map]
  refine congrArg₂ cons (by omega) (map_congr_left fun k _ => ?_)
  simp only [Function.comp]
  omega

@[simp] theorem length_range (lo hi : Int) : (Int.range lo hi).length = (hi - lo).toNat := by
  simp [Int.range]

theorem getElem?_range {i : Nat} (h : lo + i < hi) : (Int.range lo hi)[i]? = some (lo + i) := by
  have hi' : i < (hi - lo).toNat := by omega
  simp [Int.range, List.getElem?_range hi']

theorem nodup_range (lo hi : Int) : (Int.range lo hi).Nodup := by
  refine List.Nodup.map ?_ List.nodup_range
  intro a b hab
  have : (a : Int) = b := by simpa using hab
  exact_mod_cast this

theorem range_append (h1 : lo ≤ mid) (h2 : mid ≤ hi) :
    Int.range lo mid ++ Int.range mid hi = Int.range lo hi := by
  induction hi, h2 using Int.leInduction with
  | base => simp [range_eq_nil (le_refl mid)]
  | succ hi hle ih =>
    rw [range_succ_right hle, range_succ_right (h1.trans hle), ← append_assoc, ih]

/-! ## Counting loops -/

/-- `for (i = lo; i < hi; ++i) body`. -/
def forLoop (lo hi : Int) (body : Int → σ → σ) (s : σ) : σ :=
  (Int.range lo hi).foldl (fun s i => body i s) s

theorem forLoop_of_le (h : hi ≤ lo) (body : Int → σ → σ) (s : σ) : forLoop lo hi body s = s := by
  simp [forLoop, range_eq_nil h]

theorem forLoop_succ (h : lo ≤ hi) (body : Int → σ → σ) (s : σ) :
    forLoop lo (hi + 1) body s = body hi (forLoop lo hi body s) := by
  simp [forLoop, range_succ_right h]

theorem forLoop_append (h1 : lo ≤ mid) (h2 : mid ≤ hi) (body : Int → σ → σ) (s : σ) :
    forLoop mid hi body (forLoop lo mid body s) = forLoop lo hi body s := by
  simp [forLoop, ← range_append h1 h2]

/-- The invariant rule of a counting loop: `I i` holds before iteration `i`. -/
theorem forLoop_induct (hle : lo ≤ hi) (I : Int → σ → Prop) (base : I lo s)
    (step : ∀ i s, lo ≤ i → i < hi → I i s → I (i + 1) (body i s)) :
    I hi (forLoop lo hi body s) := by
  induction hi, hle using Int.leInduction with
  | base => simpa [forLoop_of_le (le_refl lo)] using base
  | succ hi hle ih =>
    rw [forLoop_succ hle]
    exact step hi _ hle (by omega) (ih fun i s h1 h2 => step i s h1 (by omega))

/-- What every iteration preserves holds after the loop. -/
theorem forLoop_preserve (P : σ → Prop) (base : P s)
    (step : ∀ i s, lo ≤ i → i < hi → P s → P (body i s)) : P (forLoop lo hi body s) := by
  rcases lt_or_ge hi lo with hlt | hle
  · rw [forLoop_of_le hlt.le]
    exact base
  · exact forLoop_induct hle (fun _ => P) base step

/-- Two loops over the same indices whose iterations keep their states related. -/
theorem forLoop_rel (hle : lo ≤ hi) (R : Int → σ → τ → Prop) (base : R lo s t)
    (step : ∀ i s t, lo ≤ i → i < hi → R i s t → R (i + 1) (f i s) (g i t)) :
    R hi (forLoop lo hi f s) (forLoop lo hi g t) := by
  induction hi, hle using Int.leInduction with
  | base =>
    rw [forLoop_of_le le_rfl, forLoop_of_le le_rfl]
    exact base
  | succ hi hle ih =>
    rw [forLoop_succ hle, forLoop_succ hle]
    exact step hi _ _ hle (by omega) (ih fun i s t h1 h2 => step i s t h1 (by omega))

/-- A loop that commutes with a projection of its state, iteration by
iteration, commutes with it as a whole. -/
theorem forLoop_hom (π : σ → τ) (s : σ) (h : ∀ i s, π (body i s) = body' i (π s)) :
    π (forLoop lo hi body s) = forLoop lo hi body' (π s) :=
  (foldl_hom π (fun s i => (h i s).symm)).symm

theorem forLoop_frame (π : σ → τ) (s : σ)
    (h : ∀ i s, π (body i s) = π s) : π (forLoop lo hi body s) = π s := by
  unfold forLoop
  induction Int.range lo hi generalizing s with
  | nil => rfl
  | cons i l ih => rw [foldl_cons, ih, h]

theorem forLoop_congr {body' : Int → σ → σ} (s : σ)
    (h : ∀ i s, lo ≤ i → i < hi → body i s = body' i s) :
    forLoop lo hi body s = forLoop lo hi body' s := by
  rcases lt_or_ge hi lo with hlt | hle
  · rw [forLoop_of_le hlt.le, forLoop_of_le hlt.le]
  · refine forLoop_induct (I := fun i s' => s' = forLoop lo i body' s) hle ?_ ?_
    · rw [forLoop_of_le le_rfl]
    · intro i s' h1 h2 hs
      rw [forLoop_succ h1, hs, h i _ h1 h2]

/-- A loop that stops early, as a loop over more indices that skips the rest. -/
theorem forLoop_guard {m : Int} (h : m ≤ n) (body : Int → σ → σ) (s : σ) :
    forLoop 0 m body s = forLoop 0 n (fun i s => if i < m then body i s else s) s := by
  have hskip : ∀ lo s, m ≤ lo → forLoop lo n (fun i s => if i < m then body i s else s) s = s := by
    intro lo s hlo
    have hid : forLoop lo n (fun i s => if i < m then body i s else s) s =
        forLoop lo n (fun _ s => s) s := forLoop_congr s fun i s h0 _ => if_neg (by omega)
    exact hid.trans (forLoop_frame id s fun _ _ => rfl)
  rcases lt_or_ge m 0 with hm | hm
  · rw [forLoop_of_le hm.le, hskip 0 s hm.le]
  · rw [← forLoop_append hm h, hskip m _ le_rfl]
    exact forLoop_congr s fun i s _ h1 => (if_pos h1).symm

theorem forLoop_map (f : Int → α → α) (b : Int → α) (n : Int) :
    forLoop 0 n (fun i b => Function.update b i (f i (b i))) b =
      fun i => if 0 ≤ i ∧ i < n then f i (b i) else b i := by
  rcases lt_or_ge n 0 with hlt | hle
  · rw [forLoop_of_le hlt.le]
    funext i
    rw [if_neg (by omega)]
  · refine forLoop_induct hle
      (fun n b' => b' = fun i => if 0 ≤ i ∧ i < n then f i (b i) else b i) ?_ ?_
    · funext i
      rw [if_neg (by omega)]
    · rintro n _ hn _ rfl
      funext i
      by_cases hi : i = n
      · subst hi
        simp [hn]
      · rw [Function.update_of_ne hi]
        split_ifs <;> first | rfl | omega

/-- `for (i = hi - 1; i >= lo; --i) body`. -/
def forDown (lo hi : Int) (body : Int → σ → σ) (s : σ) : σ :=
  (Int.range lo hi).foldr body s

/-- The loop over a list of indices that stops when the body breaks. -/
def foldBreak (body : Int → σ → Option σ) : List Int → σ → σ
  | [], s => s
  | i :: l, s =>
    match body i s with
    | none => s
    | some s' => foldBreak body l s'

/-- `for (i = lo; i < hi; ++i) body`, where the body may `break`. -/
def forBreak (lo hi : Int) (body : Int → σ → Option σ) (s : σ) : σ :=
  foldBreak body (Int.range lo hi) s

/-- The invariant rule of a loop with `break`: the loop ends at an index `i` that
is the bound or whose body breaks. -/
theorem forBreak_induct (hle : lo ≤ hi) {f : Int → σ → Option σ} (I : Int → σ → Prop)
    (base : I lo s) (step : ∀ i s s', lo ≤ i → i < hi → I i s → f i s = some s' → I (i + 1) s') :
    ∃ i, lo ≤ i ∧ i ≤ hi ∧ I i (forBreak lo hi f s) ∧
      (i = hi ∨ f i (forBreak lo hi f s) = none) := by
  unfold forBreak
  induction hn : (hi - lo).toNat generalizing lo s with
  | zero =>
    obtain rfl : lo = hi := by omega
    rw [range_eq_nil le_rfl]
    exact ⟨lo, le_rfl, le_rfl, base, .inl rfl⟩
  | succ n ih =>
    rw [range_cons (by omega), foldBreak]
    cases hbody : f lo s with
    | none => exact ⟨lo, le_rfl, hle, base, .inr hbody⟩
    | some s' =>
      obtain ⟨i, h1, h2, hI, hend⟩ := ih (by omega) (step lo s s' le_rfl (by omega) base hbody)
        (fun i s s' hi => step i s s' (by omega)) (by omega)
      exact ⟨i, by omega, h2, hI, hend⟩

/-- What every iteration that does not break preserves holds after the loop. -/
theorem forBreak_preserve {f : Int → σ → Option σ} (P : σ → Prop) (base : P s)
    (step : ∀ i s s', lo ≤ i → i < hi → P s → f i s = some s' → P s') : P (forBreak lo hi f s) := by
  rcases lt_or_ge hi lo with hlt | hle
  · rw [forBreak, range_eq_nil hlt.le]
    exact base
  · obtain ⟨_, -, -, h, -⟩ := forBreak_induct hle (fun _ => P) base step
    exact h

theorem forBreak_congr {f g : Int → σ → Option σ} (s : σ)
    (h : ∀ i s, lo ≤ i → i < hi → f i s = g i s) : forBreak lo hi f s = forBreak lo hi g s := by
  have hall : ∀ i ∈ Int.range lo hi, ∀ s, f i s = g i s := fun i hi s =>
    h i s (mem_range_iff.mp hi).1 (mem_range_iff.mp hi).2
  unfold forBreak
  generalize Int.range lo hi = l at hall
  induction l generalizing s with
  | nil => rfl
  | cons i l ih =>
    rw [foldBreak, foldBreak, hall i (by simp)]
    cases g i s with
    | none => rfl
    | some s' => exact ih s' fun j hj => hall j (by simp [hj])

/-! ## Strided loops -/

/-- The indices visited by `for (i = start; i < n; i += step)`. -/
def strideRange (start n step : Int) : List Int :=
  (Int.range 0 ((n - start + step - 1) / step)).map fun k => start + step * k

/-- `for (i = start; i < n; i += step) body`. -/
def forStride (start n step : Int) (body : Int → σ → σ) (s : σ) : σ :=
  (strideRange start n step).foldl (fun s i => body i s) s

theorem mem_strideRange {i : Int} (hs : 0 ≤ start) (hlt : start < step) :
    i ∈ strideRange start n step ↔ 0 ≤ i ∧ i < n ∧ i % step = start := by
  have hstep : 0 < step := by omega
  simp only [strideRange, mem_map, mem_range_iff]
  constructor
  · rintro ⟨k, ⟨hk0, hk⟩, rfl⟩
    have hk' : k + 1 ≤ (n - start + step - 1) / step := by omega
    have hmul := (Int.le_ediv_iff_mul_le hstep).mp hk'
    have hexp : (k + 1) * step = step * k + step := by ring
    have hnn : 0 ≤ step * k := Int.mul_nonneg hstep.le hk0
    refine ⟨by omega, by omega, ?_⟩
    rw [add_mul_emod_self_left, emod_eq_of_lt hs hlt]
  · rintro ⟨hi0, hin, hmod⟩
    have hdm := mul_ediv_add_emod i step
    refine ⟨i / step, ⟨ediv_nonneg hi0 hstep.le, ?_⟩, by omega⟩
    have : i / step + 1 ≤ (n - start + step - 1) / step := by
      rw [Int.le_ediv_iff_mul_le hstep]
      have hexp : (i / step + 1) * step = step * (i / step) + step := by ring
      omega
    omega

theorem forStride_hom (π : σ → τ) (s : σ) (h : ∀ i s, π (body i s) = body' i (π s)) :
    π (forStride start n step body s) = forStride start n step body' (π s) :=
  (foldl_hom π (fun s i => (h i s).symm)).symm

theorem forStride_frame (π : σ → τ) (s : σ)
    (h : ∀ i s, π (body i s) = π s) : π (forStride start n step body s) = π s := by
  unfold forStride
  induction strideRange start n step generalizing s with
  | nil => rfl
  | cons i l ih => rw [foldl_cons, ih, h]

@[simp] theorem forStride_id (start n step : Int) (s : σ) :
    forStride start n step (fun _ s => s) s = s :=
  forStride_frame id s fun _ _ => rfl

theorem forStride_of_le (hstep : 0 < step) (h : n ≤ start) (body : Int → σ → σ)
    (s : σ) : forStride start n step body s = s := by
  have hnone : (n - start + step - 1) / step ≤ 0 :=
    Int.lt_add_one_iff.mp (Int.ediv_lt_of_lt_mul hstep (by omega))
  simp [forStride, strideRange, range_eq_nil hnone]

theorem forStride_rel (hstep : 0 < step) (R : Int → σ → τ → Prop) (base : R start s t)
    (next : ∀ i s t, start ≤ i → i < n → R i s t → R (i + step) (f i s) (g i t)) :
    ∃ i, R i (forStride start n step f s) (forStride start n step g t) := by
  rcases lt_or_ge ((n - start + step - 1) / step) 0 with hneg | hnn
  · refine ⟨start, ?_⟩
    simp only [forStride, strideRange, range_eq_nil hneg.le]
    exact base
  · refine ⟨start + step * ((n - start + step - 1) / step), ?_⟩
    simp only [forStride, strideRange, foldl_map]
    refine forLoop_rel hnn (fun k => R (start + step * k)) (by simpa using base) ?_
    intro k s t h0 h1 hR
    have hle := mul_ediv_self_le (x := n - start + step - 1) hstep.ne'
    have hk : step * (k + 1) ≤ step * ((n - start + step - 1) / step) :=
      mul_le_mul_of_nonneg_left (by omega) hstep.le
    have hnn' : 0 ≤ step * k := Int.mul_nonneg hstep.le h0
    rw [mul_add, mul_one] at hk ⊢
    rw [← add_assoc]
    exact next _ s t (by omega) (by omega) hR

theorem nodup_strideRange (hstep : 0 < step) : (strideRange start n step).Nodup := by
  refine List.Nodup.map ?_ (nodup_range _ _)
  intro a b hab
  have : step * a = step * b := by simpa using hab
  exact Int.eq_of_mul_eq_mul_left hstep.ne' this

/-- The rule of a loop over whole tiles: `I b` holds when the tiles below `b`
have been visited. -/
theorem forStride_tiles (hstep : 0 < step) (m : Nat) (I : Int → σ → Prop) (base : I 0 s)
    (tile : ∀ b s, 0 ≤ b → b + step ≤ step * m → I b s → I (b + step) (f b s)) :
    I (step * m) (forStride 0 (step * m) step f s) := by
  have hcount : (step * m - 0 + step - 1) / step = m := by
    rw [show step * m - 0 + step - 1 = (step - 1) + step * m by ring,
      add_mul_ediv_left _ _ hstep.ne', ediv_eq_zero_of_lt (by omega) (by omega), zero_add]
  unfold forStride strideRange
  rw [hcount, foldl_map]
  refine forLoop_induct (natCast_nonneg m) (fun k s => I (step * k) s) (by simpa using base) ?_
  intro k s h0 h1 h
  have hle : step * (k + 1) ≤ step * m := mul_le_mul_of_nonneg_left (by omega) hstep.le
  have hexp : step * (k + 1) = step * k + step := by ring
  rw [hexp, zero_add]
  exact tile _ s (Int.mul_nonneg hstep.le h0) (by omega) h

end MemFabric.Simt
