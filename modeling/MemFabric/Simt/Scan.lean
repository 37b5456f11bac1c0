import Mathlib.Tactic.Positivity
import MemFabric.Simt.Lanes

/-!
# Register-shuffle scans

A group of `2 ^ k` lanes (a warp) computes the inclusive prefix sums of one
register in `k` doubling stages: in the stage of offset `2 ^ i` a lane adds the
register of the lane `2 ^ i` below it.  The shuffles exchange registers of one
warp at a time and touch no memory, so a stage is a function on the register
file.

`warpInclusiveScan_eq` and `warpAny_ne_zero_iff` state what the stages compute;
`blockScan_eq` is the arithmetic of the usual two-level scan, where the last
lane of every warp publishes the warp's total and one warp scans the totals.
-/

namespace MemFabric.Simt

open Int List

/-! ## Prefix sums -/

def sumTo (f : Int → Int) (n : Int) : Int := ((range 0 n).map f).sum

@[simp] theorem sumTo_zero (f : Int → Int) : sumTo f 0 = 0 := by
  simp [sumTo, range_eq_nil (le_refl (0 : Int))]

variable {n w m t : Int} {reg : Int → Int}

theorem sumTo_succ (f : Int → Int) (hn : 0 ≤ n) : sumTo f (n + 1) = sumTo f n + f n := by
  simp [sumTo, range_succ_right hn]

theorem sumTo_blocks (f T : Int → Int) (w : Int) (hn : 0 ≤ n)
    (hT : ∀ v, 0 ≤ v → v < n → T v = sumTo f (w * v + w) - sumTo f (w * v)) :
    sumTo T n = sumTo f (w * n) := by
  induction n, hn using Int.leInduction with
  | base => simp
  | succ n hle ih =>
    rw [sumTo_succ T hle, ih (fun v h0 h1 => hT v h0 (by omega)), hT n hle (by omega),
      add_sub_cancel, mul_add, mul_one]

/-! ## Shuffles -/

/-- `asc_shfl_up(reg, offset, width)`: a lane receives the register of the lane
`offset` below it in its group of `width` lanes; the lowest `offset` lanes of a
group keep their own. -/
def shflUp (reg : Int → Int) (offset width : Int) : Int → Int := fun t =>
  if t % width < offset then reg t else reg (t - offset)

/-- One stage of the inclusive scan: `if (lane >= offset) reg += prior`. -/
def scanStage (width offset : Int) (reg : Int → Int) : Int → Int := fun t =>
  if offset ≤ t % width then reg t + shflUp reg offset width t else reg t

/-- `for (offset = 1; offset < 2^k; offset <<= 1)` over one warp of `2^k` lanes. -/
def warpInclusiveScan (k : Nat) (reg : Int → Int) : Int → Int :=
  (List.range k).foldl (fun reg i => scanStage (2 ^ k) (2 ^ i) reg) reg

/-- The window of `m` lanes below `t`, cut off at the first lane of its warp. -/
private theorem scanStage_window {S : Int → Int} (hw : 0 < w) (hm : 0 < m)
    (hreg : ∀ t, 0 ≤ t → reg t = S (t + 1) - S (max (t - t % w) (t - m + 1))) (ht : 0 ≤ t) :
    scanStage w m reg t = S (t + 1) - S (max (t - t % w) (t - 2 * m + 1)) := by
  have hmod1 := emod_lt_of_pos t hw
  have hdm := mul_ediv_add_emod t w
  unfold scanStage
  by_cases hlane : m ≤ t % w
  · have hbase : (t - m) % w = t % w - m := by
      have : t - m = t % w - m + w * (t / w) := by omega
      rw [this, add_mul_emod_self_left, emod_eq_of_lt (by omega) (by omega)]
    have hnn : 0 ≤ w * (t / w) := mul_nonneg hw.le (Int.ediv_nonneg ht hw.le)
    have hsh : shflUp reg m w t = reg (t - m) := by
      simp [shflUp, not_lt.mpr hlane]
    rw [if_pos hlane, hsh, hreg t ht, hreg (t - m) (by omega), hbase]
    have e1 : max (t - t % w) (t - m + 1) = t - m + 1 := by omega
    have e2 : t - m - (t % w - m) = t - t % w := by omega
    have e3 : t - m - m + 1 = t - 2 * m + 1 := by omega
    rw [e1, e2, e3]
    exact sub_add_sub_cancel _ _ _
  · rw [if_neg hlane, hreg t ht]
    have e1 : max (t - t % w) (t - m + 1) = t - t % w := by omega
    have e2 : max (t - t % w) (t - 2 * m + 1) = t - t % w := by omega
    rw [e1, e2]

theorem warpInclusiveScan_eq (k : Nat) (f : Int → Int) (ht : 0 ≤ t) :
    warpInclusiveScan k f t = sumTo f (t + 1) - sumTo f (t - t % 2 ^ k) := by
  have hw : (0 : Int) < 2 ^ k := by positivity
  -- after `i` stages the window of a lane has `2 ^ i` lanes
  have hstages : ∀ i t, 0 ≤ t →
      (List.range i).foldl (fun reg i => scanStage (2 ^ k) (2 ^ i) reg) f t =
        sumTo f (t + 1) - sumTo f (max (t - t % 2 ^ k) (t - 2 ^ i + 1)) := by
    intro i
    induction i with
    | zero =>
      intro t ht
      have e : max (t - t % 2 ^ k) (t - 2 ^ 0 + 1) = t := by
        omega
      rw [e, sumTo_succ f ht]
      simp
    | succ i ih =>
      intro t ht
      rw [range_succ, foldl_append]
      simp only [foldl_cons, foldl_nil]
      rw [scanStage_window hw (by positivity) ih ht]
      rw [show (2 : Int) ^ (i + 1) = 2 * 2 ^ i by ring]
  have e : max (t - t % 2 ^ k) (t - 2 ^ k + 1) = t - t % 2 ^ k := by omega
  rw [warpInclusiveScan, hstages k t ht, e]

/-- The two-level scan.  `total` holds the warp totals, `base` their exclusive
scan by one warp; a lane's warp base plus its own warp-level sum is its
block-level inclusive sum. -/
theorem blockScan_eq (k : Nat) (f total : Int → Int) (ht : 0 ≤ t) (hlt : t < 2 ^ k * 2 ^ k)
    (htotal : ∀ v, 0 ≤ v → v < 2 ^ k → total v = warpInclusiveScan k f (2 ^ k * v + (2 ^ k - 1))) :
    warpInclusiveScan k total (t / 2 ^ k) - total (t / 2 ^ k) + warpInclusiveScan k f t =
      sumTo f (t + 1) := by
  have hw : (0 : Int) < 2 ^ k := by positivity
  have hq0 : 0 ≤ t / 2 ^ k := Int.ediv_nonneg ht hw.le
  have hq1 : t / 2 ^ k < 2 ^ k := Int.ediv_lt_of_lt_mul hw hlt
  have hblock : ∀ v, 0 ≤ v → v < 2 ^ k →
      total v = sumTo f (2 ^ k * v + 2 ^ k) - sumTo f (2 ^ k * v) := by
    intro v h0 h1
    have hnn : 0 ≤ 2 ^ k * v := mul_nonneg hw.le h0
    have hmod : (2 ^ k * v + (2 ^ k - 1)) % 2 ^ k = (2 : Int) ^ k - 1 := by
      rw [add_comm, add_mul_emod_self_left, emod_eq_of_lt (by omega) (by omega)]
    rw [htotal v h0 h1, warpInclusiveScan_eq k f (by omega), hmod]
    rw [add_sub_cancel_right, add_assoc, sub_add_cancel]
  have hlane : warpInclusiveScan k total (t / 2 ^ k) = sumTo total (t / 2 ^ k + 1) := by
    rw [warpInclusiveScan_eq k total hq0, emod_eq_of_lt hq0 hq1]
    simp
  have hbase : sumTo total (t / 2 ^ k) = sumTo f (2 ^ k * (t / 2 ^ k)) :=
    sumTo_blocks f total (2 ^ k) hq0 fun v h0 h1 => hblock v h0 (by omega)
  have hdm := mul_ediv_add_emod t (2 ^ k)
  have hown : t - t % 2 ^ k = 2 ^ k * (t / 2 ^ k) := by omega
  rw [hlane, sumTo_succ total hq0, hbase, warpInclusiveScan_eq k f ht, hown]
  ring

/-! ## Warp-wide disjunction -/

/-- One stage of the disjunction: `if (lane >= offset && prior != 0) any = 1`. -/
def anyStage (width offset : Int) (reg : Int → Int) : Int → Int := fun t =>
  if offset ≤ t % width ∧ shflUp reg offset width t ≠ 0 then 1 else reg t

/-- The stages of `anyStage` over one warp of `2^k` lanes. -/
def warpAny (k : Nat) (reg : Int → Int) : Int → Int :=
  (List.range k).foldl (fun reg i => anyStage (2 ^ k) (2 ^ i) reg) reg

private theorem anyStage_window {p : Int → Int} (hw : 0 < w) (hm : 0 < m)
    (hreg : ∀ t, reg t ≠ 0 ↔ ∃ j, t - t % w ≤ j ∧ t - m < j ∧ j ≤ t ∧ p j ≠ 0) :
    anyStage w m reg t ≠ 0 ↔ ∃ j, t - t % w ≤ j ∧ t - 2 * m < j ∧ j ≤ t ∧ p j ≠ 0 := by
  have hmod1 := emod_lt_of_pos t hw
  have hdm := mul_ediv_add_emod t w
  unfold anyStage
  by_cases hlane : m ≤ t % w
  · have hbase : (t - m) % w = t % w - m := by
      have : t - m = t % w - m + w * (t / w) := by omega
      rw [this, add_mul_emod_self_left, emod_eq_of_lt (by omega) (by omega)]
    have hsh : shflUp reg m w t = reg (t - m) := by
      simp [shflUp, not_lt.mpr hlane]
    have hprior := hreg (t - m)
    rw [hsh]
    by_cases hp : reg (t - m) ≠ 0
    · rw [if_pos ⟨hlane, hp⟩]
      obtain ⟨j, h1, h2, h3, h4⟩ := hprior.mp hp
      exact ⟨fun _ => ⟨j, by omega, by omega, by omega, h4⟩, fun _ => one_ne_zero⟩
    · rw [if_neg fun h => hp h.2, hreg t]
      constructor
      · rintro ⟨j, h1, h2, h3, h4⟩
        exact ⟨j, h1, by omega, h3, h4⟩
      · rintro ⟨j, h1, h2, h3, h4⟩
        by_cases hj : t - m < j
        · exact ⟨j, h1, hj, h3, h4⟩
        · exact absurd (hprior.mpr ⟨j, by omega, by omega, by omega, h4⟩) hp
  · rw [if_neg fun h => hlane h.1, hreg t]
    constructor
    · rintro ⟨j, h1, h2, h3, h4⟩
      exact ⟨j, h1, by omega, h3, h4⟩
    · rintro ⟨j, h1, h2, h3, h4⟩
      exact ⟨j, h1, by omega, h3, h4⟩

theorem warpAny_ne_zero_iff (k : Nat) (p : Int → Int) (t : Int) :
    warpAny k p t ≠ 0 ↔ ∃ j, t - t % 2 ^ k ≤ j ∧ j ≤ t ∧ p j ≠ 0 := by
  have hw : (0 : Int) < 2 ^ k := by positivity
  have hstages : ∀ i t,
      (List.range i).foldl (fun reg i => anyStage (2 ^ k) (2 ^ i) reg) p t ≠ 0 ↔
        ∃ j, t - t % 2 ^ k ≤ j ∧ t - 2 ^ i < j ∧ j ≤ t ∧ p j ≠ 0 := by
    intro i
    induction i with
    | zero =>
      intro t
      constructor
      · intro hp
        exact ⟨t, by omega, by omega, le_rfl, hp⟩
      · rintro ⟨j, h1, h2, h3, h4⟩
        have : j = t := by omega
        exact this ▸ h4
    | succ i ih =>
      intro t
      rw [range_succ, foldl_append]
      simp only [foldl_cons, foldl_nil]
      rw [anyStage_window hw (by positivity) ih]
      rw [show (2 : Int) ^ (i + 1) = 2 * 2 ^ i by ring]
  rw [warpAny, hstages k t]
  constructor
  · rintro ⟨j, h1, _, h3, h4⟩
    exact ⟨j, h1, h3, h4⟩
  · rintro ⟨j, h1, h3, h4⟩
    exact ⟨j, h1, by omega, h3, h4⟩

/-! ## Two-level scans over a block -/

open Int

variable {k : Nat}

/-- The last lane of every warp writes its register to the cell of its warp. -/
def publishTotals (k : Nat) (o : LaneOrder (2 ^ k * 2 ^ k)) (reg b : Int → Int) : Int → Int :=
  o.run (fun t b => if t % 2 ^ k = 2 ^ k - 1 then Function.update b (t / 2 ^ k) (reg t) else b) b

def scanTotals (k : Nat) (o : LaneOrder (2 ^ k * 2 ^ k)) (total b : Int → Int) : Int → Int :=
  o.run (fun t b =>
    if t / 2 ^ k = 0 then
      Function.update b (t % 2 ^ k) (warpInclusiveScan k total t - total t) else b) b

private theorem lane_lt {v : Int} (h0 : 0 ≤ v) (h1 : v < 2 ^ k) :
    0 ≤ 2 ^ k * v + ((2 : Int) ^ k - 1) ∧
      2 ^ k * v + ((2 : Int) ^ k - 1) < ((2 ^ k * 2 ^ k : Nat) : Int) := by
  have hw : (0 : Int) < 2 ^ k := by positivity
  have hnn : 0 ≤ 2 ^ k * v := mul_nonneg hw.le h0
  have hle : 2 ^ k * (v + 1) ≤ (2 : Int) ^ k * 2 ^ k :=
    mul_le_mul_of_nonneg_left (by omega) hw.le
  have hexp : 2 ^ k * (v + 1) = 2 ^ k * v + (2 : Int) ^ k := by ring
  push_cast
  omega

private theorem last_lane_emod (v : Int) :
    (2 ^ k * v + ((2 : Int) ^ k - 1)) % 2 ^ k = 2 ^ k - 1 := by
  have hw : (0 : Int) < 2 ^ k := by positivity
  rw [add_comm, add_mul_emod_self_left, emod_eq_of_lt (by omega) (by omega)]

theorem publishTotals_at (o : LaneOrder (2 ^ k * 2 ^ k)) (reg b : Int → Int) {v : Int}
    (h0 : 0 ≤ v) (h1 : v < 2 ^ k) :
    publishTotals k o reg b v = reg (2 ^ k * v + (2 ^ k - 1)) := by
  have hw : (0 : Int) < 2 ^ k := by positivity
  obtain ⟨hval, -⟩ := o.run_scatter (fun t => t % 2 ^ k = 2 ^ k - 1) (fun t => t / 2 ^ k) reg
    (fun t u _ _ _ _ ht hu htu => by
      have h1 := mul_ediv_add_emod t (2 ^ k)
      have h2 := mul_ediv_add_emod u (2 ^ k)
      rw [ht, htu] at h1
      rw [hu] at h2
      exact h1.symm.trans h2) b
  have hb := lane_lt h0 h1
  have hdiv : (2 ^ k * v + ((2 : Int) ^ k - 1)) / 2 ^ k = v := by
    rw [add_comm, add_mul_ediv_left _ _ hw.ne', ediv_eq_zero_of_lt (by omega) (by omega),
      zero_add]
  have h := hval _ hb.1 hb.2 (last_lane_emod v)
  rw [hdiv] at h
  exact h

theorem scanTotals_at (o : LaneOrder (2 ^ k * 2 ^ k)) (total b : Int → Int) {v : Int}
    (h0 : 0 ≤ v) (h1 : v < 2 ^ k) :
    scanTotals k o total b v = warpInclusiveScan k total v - total v := by
  have hw : (0 : Int) < 2 ^ k := by positivity
  have hsmall : ∀ t : Int, t / 2 ^ k = 0 → t % 2 ^ k = t := fun t ht => by
    have := mul_ediv_add_emod t (2 ^ k)
    rw [ht, mul_zero, zero_add] at this
    exact this
  obtain ⟨hval, -⟩ := o.run_scatter (fun t => t / 2 ^ k = 0) (fun t => t % 2 ^ k)
    (fun t => warpInclusiveScan k total t - total t)
    (fun t u _ _ _ _ ht hu htu => by
      rw [hsmall t ht, hsmall u hu] at htu
      exact htu) b
  have hle : (2 : Int) ^ k ≤ ((2 ^ k * 2 ^ k : Nat) : Int) := by
    push_cast
    exact le_mul_of_one_le_right hw.le (by omega)
  have hdiv : v / 2 ^ k = 0 := ediv_eq_zero_of_lt h0 h1
  have h := hval v h0 (by omega) hdiv
  rw [hsmall v hdiv] at h
  exact h

section

variable (o0 o1 : LaneOrder (2 ^ k * 2 ^ k)) (f a b : Int → Int)

/-- A lane's warp base plus its warp-level sum is its block-level sum. -/
theorem scanTotals_add_eq {t : Int} (h0 : 0 ≤ t) (h1 : t < 2 ^ k * 2 ^ k) :
    scanTotals k o1 (publishTotals k o0 (warpInclusiveScan k f) a) b (t / 2 ^ k) +
      warpInclusiveScan k f t = sumTo f (t + 1) := by
  have hw : (0 : Int) < 2 ^ k := by positivity
  rw [scanTotals_at o1 _ b (Int.ediv_nonneg h0 hw.le) (Int.ediv_lt_of_lt_mul hw h1)]
  exact blockScan_eq k f _ h0 h1 fun v hv0 hv1 => publishTotals_at o0 _ a hv0 hv1

/-- The rank a lane forms from its warp base: the flags of the lanes below it. -/
theorem scanTotals_add_sub_eq {t : Int} (h0 : 0 ≤ t) (h1 : t < 2 ^ k * 2 ^ k) :
    scanTotals k o1 (publishTotals k o0 (warpInclusiveScan k f) a) b (t / 2 ^ k) +
      warpInclusiveScan k f t - f t = sumTo f t := by
  rw [scanTotals_add_eq o0 o1 f a b h0 h1, sumTo_succ f h0]
  omega

/-- The last base plus the last total is the sum over the block. -/
theorem scanTotals_add_publishTotals_last :
    scanTotals k o1 (publishTotals k o0 (warpInclusiveScan k f) a) b (2 ^ k - 1) +
      publishTotals k o0 (warpInclusiveScan k f) a (2 ^ k - 1) = sumTo f (2 ^ k * 2 ^ k) := by
  have hw : (0 : Int) < 2 ^ k := by positivity
  have hlast : (2 : Int) ^ k * (2 ^ k - 1) + (2 ^ k - 1) = 2 ^ k * 2 ^ k - 1 := by ring
  have hpos : (0 : Int) < 2 ^ k * 2 ^ k := by positivity
  have hdiv : ((2 : Int) ^ k * 2 ^ k - 1) / 2 ^ k = 2 ^ k - 1 := by
    rw [← hlast, mul_add_ediv_left _ _ hw.ne', ediv_eq_zero_of_lt (by omega) (by omega),
      add_zero]
  rw [publishTotals_at o0 _ a (by omega) (by omega), hlast, ← hdiv,
    scanTotals_add_eq o0 o1 f a b (by omega) (by omega), sub_add_cancel]

end

/-- The disjunction over a block, in the last lane of warp `0`. -/
theorem warpAny_publishTotals_iff (o : LaneOrder (2 ^ k * 2 ^ k)) (p b : Int → Int) :
    warpAny k (publishTotals k o (warpAny k p) b) (2 ^ k - 1) ≠ 0 ↔
      ∃ t, 0 ≤ t ∧ t < 2 ^ k * 2 ^ k ∧ p t ≠ 0 := by
  have hw : (0 : Int) < 2 ^ k := by positivity
  rw [warpAny_ne_zero_iff, emod_eq_of_lt (by omega) (by omega)]
  constructor
  · rintro ⟨v, hv0, hv1, hne⟩
    rw [publishTotals_at o _ b (by omega) (by omega), warpAny_ne_zero_iff] at hne
    obtain ⟨j, hj0, hj1, hp⟩ := hne
    have hb := lane_lt (v := v) (k := k) (by omega) (by omega)
    have hnn : 0 ≤ 2 ^ k * v := mul_nonneg hw.le (by omega)
    push_cast at hb
    exact ⟨j, by omega, by omega, hp⟩
  · rintro ⟨t, ht0, ht1, hp⟩
    have hq0 : 0 ≤ t / 2 ^ k := Int.ediv_nonneg ht0 hw.le
    have hq1 : t / 2 ^ k < 2 ^ k := Int.ediv_lt_of_lt_mul hw ht1
    refine ⟨t / 2 ^ k, by omega, by omega, ?_⟩
    rw [publishTotals_at o _ b hq0 hq1, warpAny_ne_zero_iff]
    have hdm := mul_ediv_add_emod t (2 ^ k)
    refine ⟨t, ?_, by omega, hp⟩
    rw [last_lane_emod]
    omega

end MemFabric.Simt
