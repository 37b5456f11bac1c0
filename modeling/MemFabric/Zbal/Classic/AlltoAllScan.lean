import MemFabric.Zbal.Classic.Exchange

/-!
# All-to-all: the two scans

The parts of the output that come from the ranks follow one another.  A core scans them for
those that meet its share, and core 0 scans them for the shares that begin inside each.  If the
second scan passes the beginning of the last share together with the end of a part, it goes on
behind the last share.
-/

namespace MemFabric.Zbal

open Machine Exchange Function Nat Finset

/-- The sum of the first `i` counts, where the part of the rank `i` begins. -/
def sums (counts : Nat → Nat) : Nat → Nat
  | 0 => 0
  | i + 1 => sums counts i + counts i

theorem sums_mono (counts : Nat → Nat) {i j : Nat} (hle : i ≤ j) :
    sums counts i ≤ sums counts j := by
  induction hle with
  | refl => exact le_rfl
  | step _ ih => exact ih.trans (le_add_right _ _)

theorem sums_ne {counts : Nat → Nat} {i j x : Nat} (hlt : sums counts i < x)
    (hlt' : x < sums counts (i + 1)) : sums counts j ≠ x := by
  rcases Nat.lt_or_ge i j with hij | hij
  · have := sums_mono counts (show i + 1 ≤ j from hij)
    omega
  · have := sums_mono counts hij
    omega

theorem exists_sums_lt {counts : Nat → Nat} {n x : Nat} (hpos : 0 < x) (hle : x ≤ sums counts n) :
    ∃ i < n, sums counts i < x ∧ x ≤ sums counts (i + 1) := by
  induction n with
  | zero => exact absurd hpos (not_lt.mpr hle)
  | succ n ih =>
    by_cases hbefore : x ≤ sums counts n
    · obtain ⟨i, hi, h⟩ := ih hbefore
      exact ⟨i, hi.trans (lt_succ_self n), h⟩
    · exact ⟨n, lt_succ_self n, not_le.mp hbefore, hle⟩

def overlap (counts : Nat → Nat) (a b rank : Nat) : Nat :=
  min (sums counts (rank + 1)) b - max (sums counts rank) a

namespace AlltoAllVKernel

namespace CopyRange

/-! ## The scan of a core -/

structure Before (counts : Nat → Nat) (g a i : Nat) (s : CopyRange) : Prop where
  left : s.left = sums counts i
  findStart : s.findStart = false
  findEnd : s.findEnd = false
  copyStartRank : s.copyStartRank = g + 1
  copyEndRank : s.copyEndRank = g
  le_coreLeft : sums counts i ≤ a

structure Within (counts : Nat → Nat) (g a b i : Nat) (s : CopyRange) : Prop where
  left : s.left = sums counts i
  findStart : s.findStart = true
  findEnd : s.findEnd = false
  copyEndRank : s.copyEndRank = g
  start_lt : s.copyStartRank < i
  start_le : sums counts s.copyStartRank ≤ a
  lt_start : a < sums counts (s.copyStartRank + 1)
  lt_coreRight : sums counts i < b
  elements : ∀ r, s.copyStartRank ≤ r → r < i → s.copyElements r = overlap counts a b r % 2 ^ 32

structure Ended (counts : Nat → Nat) (a b : Nat) (s : CopyRange) : Prop where
  start_le : sums counts s.copyStartRank ≤ a
  lt_start : a < sums counts (s.copyStartRank + 1)
  end_le : sums counts s.copyEndRank ≤ a ∨ sums counts s.copyEndRank < b
  le_end : b ≤ sums counts (s.copyEndRank + 1)
  elements : ∀ r, s.copyStartRank ≤ r → r ≤ s.copyEndRank →
    s.copyElements r = overlap counts a b r % 2 ^ 32

variable {counts : Nat → Nat} {g a b i : Nat} {s : CopyRange}

theorem Before.next_before (h : Before counts g a i s) (hstart : sums counts (i + 1) ≤ a) :
    Before counts g a (i + 1) (s.scanRank a b (counts i) i) := by
  have hno : ¬ a < sums counts i + counts i := not_lt.mpr hstart
  simp only [scanRank, setElements, checkStart, checkEnd, checkMiddle, h.findStart, h.left, hno,
    and_false, Bool.false_eq_true, false_and, if_false]
  exact ⟨rfl, rfl, h.findEnd, h.copyStartRank, h.copyEndRank, hstart⟩

theorem Before.next_within (h : Before counts g a i s) (hstart : a < sums counts (i + 1))
    (hend : sums counts (i + 1) < b) :
    Within counts g a b (i + 1) (s.scanRank a b (counts i) i) := by
  have hleft := h.le_coreLeft
  have hsum : sums counts (i + 1) = sums counts i + counts i := rfl
  have hyes : a < sums counts i + counts i := hstart
  have hno : ¬ b ≤ sums counts i + counts i := not_le.mpr hend
  simp only [scanRank, setElements, checkStart, checkEnd, checkMiddle, h.findStart, h.left, hyes,
    hno, and_false, and_self, if_true, if_false, lt_irrefl, false_and]
  refine ⟨rfl, rfl, h.findEnd, h.copyEndRank, lt_succ_self i, hleft, hstart, hend,
    fun r hr hlt => ?_⟩
  obtain rfl : i = r := le_antisymm hr (le_of_lt_succ hlt)
  dsimp only
  rw [update_self, overlap]
  omega

theorem Before.next_ended (h : Before counts g a i s) (hle : a ≤ b)
    (hstart : a < sums counts (i + 1)) (hend : b ≤ sums counts (i + 1)) :
    Ended counts a b (s.scanRank a b (counts i) i) ∧
      (s.scanRank a b (counts i) i).copyEndRank = i := by
  have hleft := h.le_coreLeft
  have hyes : a < sums counts i + counts i := hstart
  have hyes' : b ≤ sums counts i + counts i := hend
  simp only [scanRank, setElements, checkStart, checkEnd, checkMiddle, h.findStart, h.findEnd,
    h.left, hyes, hyes', and_self, if_true, if_false, lt_irrefl, and_false, update_self]
  refine ⟨⟨hleft, hstart, .inl hleft, hend, fun r hr hlt => ?_⟩, trivial⟩
  obtain rfl : i = r := le_antisymm hr hlt
  dsimp only
  rw [update_self, overlap]
  omega

theorem Within.next_within (h : Within counts g a b i s) (hi : i < g)
    (hend : sums counts (i + 1) < b) :
    Within counts g a b (i + 1) (s.scanRank a b (counts i) i) := by
  have hsum : sums counts (i + 1) = sums counts i + counts i := rfl
  have hno : ¬ b ≤ sums counts i + counts i := not_le.mpr hend
  have hbegun : a ≤ sums counts i := h.lt_start.le.trans (sums_mono counts h.start_lt)
  simp only [scanRank, setElements, checkStart, checkEnd, checkMiddle, h.findStart, h.findEnd,
    h.left, h.copyEndRank, h.start_lt, hi, hno, Bool.true_eq_false, false_and, and_false, and_self,
    if_true, if_false]
  refine ⟨rfl, rfl, rfl, rfl, lt_succ_of_lt h.start_lt, h.start_le, h.lt_start, hend,
    fun r hr hlt => ?_⟩
  dsimp only at hr ⊢
  rcases Nat.lt_succ_iff_lt_or_eq.mp hlt with hlt | rfl
  · rw [update_of_ne hlt.ne, update_of_ne hlt.ne]
    exact h.elements r hr hlt
  · rw [update_self, overlap, min_eq_left hend.le, max_eq_left hbegun, hsum,
      Nat.add_sub_cancel_left]

theorem Within.next_ended (h : Within counts g a b i s) (hend : b ≤ sums counts (i + 1)) :
    Ended counts a b (s.scanRank a b (counts i) i) ∧
      (s.scanRank a b (counts i) i).copyEndRank = i := by
  have hyes : b ≤ sums counts i + counts i := hend
  have hbegun : a ≤ sums counts i := h.lt_start.le.trans (sums_mono counts h.start_lt)
  simp only [scanRank, setElements, checkStart, checkEnd, checkMiddle, h.findStart, h.findEnd,
    h.left, h.start_lt, h.start_lt.ne, hyes, Bool.true_eq_false, false_and, and_self, if_true,
    if_false, lt_irrefl, and_false]
  refine ⟨⟨h.start_le, h.lt_start, .inr h.lt_coreRight, hend, fun r hr hlt => ?_⟩, trivial⟩
  dsimp only at hr hlt ⊢
  rcases lt_or_eq_of_le hlt with hlt | rfl
  · rw [update_of_ne hlt.ne, update_of_ne hlt.ne]
    exact h.elements r hr hlt
  · rw [update_self, overlap, min_eq_right hend, max_eq_left hbegun]

/-- The loop ends before the core has begun, or after it has ended. -/
theorem scanCounts_ended (hle : a ≤ b) (hright : b ≤ sums counts g) {n : Nat} (hn : i + n = g)
    (h : Before counts g a i s ∨ Within counts g a b i s) :
    Before counts g a g (Launch.scanCounts a b counts n i s) ∨
      Ended counts a b (Launch.scanCounts a b counts n i s) := by
  induction n generalizing i s with
  | zero =>
    obtain rfl : i = g := hn
    rcases h with h | h
    · exact .inl h
    · exact absurd (h.lt_coreRight.trans_le hright) (lt_irrefl _)
  | succ n ih =>
    have hi : i < g := by omega
    have hcond : i < s.copyEndRank := by
      rcases h with h | h
      · exact h.copyEndRank ▸ hi
      · exact h.copyEndRank ▸ hi
    rw [Launch.scanCounts, if_pos hcond]
    set s' := s.scanRank a b (counts i) i with hs'
    -- a core that has ended is not looked at again
    have hdone : Ended counts a b s' ∧ s'.copyEndRank = i →
        Launch.scanCounts a b counts n (i + 1) s' = s' := by
      rintro ⟨-, hrank⟩
      cases n with
      | zero => rfl
      | succ n => rw [Launch.scanCounts, if_neg (by omega)]
    by_cases hend : b ≤ sums counts (i + 1)
    · rcases h with h | h
      · by_cases hstart : a < sums counts (i + 1)
        · have hended := h.next_ended hle hstart hend
          rw [hdone hended]
          exact .inr hended.1
        · exact ih (by omega) (.inl (h.next_before (not_lt.mp hstart)))
      · rw [hdone (h.next_ended hend)]
        exact .inr (h.next_ended hend).1
    · have hend := not_le.mp hend
      rcases h with h | h
      · by_cases hstart : a < sums counts (i + 1)
        · exact ih (by omega) (.inr (h.next_within hstart hend))
        · exact ih (by omega) (.inl (h.next_before (not_lt.mp hstart)))
      · exact ih (by omega) (.inr (h.next_within hi hend))

end CopyRange

namespace StatScan

/-! ## The scan of core 0 -/

variable {counts base : Nat → Nat} {k : Launch} {total parts avg r j : Nat} {s : StatScan}

structure Counted (parts avg sum r j j' : Nat) (s : StatScan) (t : StatScan × Bool) :
    Prop where
  le : j ≤ j'
  statBase : t.1.statBase = update s.statBase r (s.statBase r + (j' - j))
  lt_sum : ∀ m, j ≤ m → m < j' → m * avg < sum
  stop : t.2 = true ∧ j < parts ∧ j' = parts ∨ t.2 = false ∧ (j < parts → j' < parts) ∧
    t.1.core = j' % 2 ^ 16 ∧ t.1.coreRight = j' * avg ∧ sum ≤ j' * avg

theorem counted_self {sum : Nat} (hcore : s.core = j % 2 ^ 16) (hright : s.coreRight = j * avg)
    (hge : sum ≤ j * avg) : Counted parts avg sum r j j s (s, false) := by
  refine ⟨le_rfl, ?_, fun m hm hm' => ?_, .inr ⟨rfl, id, hcore, hright, hge⟩⟩
  · rw [Nat.sub_self, Nat.add_zero, update_eq_self]
  · omega

/-- The scan stops at the last core, unless it is already behind it. -/
theorem exists_counted (r : Nat) {sum n : Nat} (hparts : parts < 2 ^ 16)
    (hbefore : j < parts → parts - j ≤ n) (hsum : parts ≤ j → sum ≤ 2 * parts * avg)
    (hbehind : parts ≤ j → 2 * parts - j ≤ n) (hcore : s.core = j % 2 ^ 16)
    (hright : s.coreRight = j * avg) :
    ∃ j', Counted parts avg sum r j j' s (countCores parts avg sum r n s) := by
  induction n generalizing j s with
  | zero =>
    refine ⟨j, counted_self hcore hright ((hsum ?_).trans (Nat.mul_le_mul_right _ ?_))⟩
    all_goals omega
  | succ n ih =>
    have hnext : s.nextCore = (j + 1) % 2 ^ 16 := by
      rw [nextCore, hcore, Nat.mod_add_mod]
    rw [countCores, hnext]
    split
    · rename_i hlt
      rw [hright] at hlt
      have hend : j < 2 * parts := by
        rcases Nat.lt_or_ge j parts with hj | hj
        · omega
        · exact Nat.lt_of_mul_lt_mul_right (hlt.trans_le (hsum hj))
      split
      · rename_i hlast
        refine ⟨j + 1, Nat.le_succ j, ?_, fun m hm hm' => ?_, .inl ⟨rfl, by omega, by omega⟩⟩
        · rw [Nat.add_sub_cancel_left]
        · obtain rfl : j = m := by omega
          exact hlt
      · rename_i hlast
        have hne : j + 1 ≠ parts := by
          intro heq
          exact hlast (by rw [heq, mod_eq_of_lt hparts])
        obtain ⟨j', hle, hbase, hsum', hstop'⟩ := ih (j := j + 1)
          (s := ⟨update s.statBase r (s.statBase r + 1), (j + 1) % 2 ^ 16, s.coreRight + avg⟩)
          (by omega) (fun _ => hsum (by omega)) (by omega) rfl
          (by rw [hright, Nat.add_mul, Nat.one_mul])
        refine ⟨j', by omega, ?_, fun m hm hm' => ?_, ?_⟩
        · dsimp only at hbase
          rw [hbase, update_self, update_idem]
          congr 1
          omega
        · rcases eq_or_lt_of_le hm with rfl | hm
          · exact hlt
          · exact hsum' m hm hm'
        · rcases hstop' with ⟨hflag, hj, hj'⟩ | ⟨hflag, hj, hrest⟩
          · exact .inl ⟨hflag, by omega, hj'⟩
          · exact .inr ⟨hflag, fun _ => hj (by omega), hrest⟩
    · rename_i hge
      rw [hright, not_lt] at hge
      exact ⟨j, counted_self hcore hright hge⟩

/-- The multiples of `avg` below the limit that lie inside the part of a rank. -/
def inside (counts : Nat → Nat) (avg limit rank : Nat) : Finset Nat :=
  {m ∈ range limit | sums counts rank < m * avg ∧ m * avg < sums counts (rank + 1)}

theorem inside_mono {limit limit' : Nat} (hle : limit ≤ limit') :
    inside counts avg limit r ⊆ inside counts avg limit' r :=
  filter_subset_filter _ (range_subset_range.mpr hle)

/-- The numbers of the first `r` ranks are final, the others have not been touched. -/
def Numbers (counts base : Nat → Nat) (g avg limit r : Nat) (statBase : Nat → Nat) : Prop :=
  ∀ p < g, statBase p = base p + if p < r then (inside counts avg limit p).card else 0

/-- Before the round for the rank `r` the share `j` is the first that begins behind the sum. -/
structure Counting (counts base : Nat → Nat) (g total parts limit r j : Nat) (s : StatScan) :
    Prop where
  numbers : Numbers counts base g (total / parts) limit r s.statBase
  pos : 0 < j
  core : s.core = j % 2 ^ 16
  coreRight : s.coreRight = j * (total / parts)
  le : (j - 1) * (total / parts) ≤ sums counts r
  lt : sums counts r < j * (total / parts)
  behind : parts ≤ j → limit = total

/-- The shares that begin inside are those from `j` up to `j'`. -/
theorem card_inside {limit j' : Nat} (hle : (j - 1) * avg ≤ sums counts r)
    (hlt : sums counts r < j * avg) (hlimit : ∀ m, j ≤ m → m < j' → m < limit)
    (hbegins : ∀ m, j ≤ m → m < j' → m * avg < sums counts (r + 1))
    (hends : ∀ m, j' ≤ m → m < limit → sums counts (r + 1) ≤ m * avg) :
    (inside counts avg limit r).card = j' - j := by
  have heq : inside counts avg limit r = Finset.Ico j j' := by
    ext m
    rw [inside, mem_filter, mem_range, mem_Ico]
    constructor
    · rintro ⟨hm, hafter, hbefore⟩
      constructor
      · by_contra hcon
        have hmono : m * avg ≤ (j - 1) * avg := Nat.mul_le_mul_right _ (by omega)
        omega
      · by_contra hcon
        have := hends m (not_lt.mp hcon) hm
        omega
    · rintro ⟨hm, hm'⟩
      have hmono : j * avg ≤ m * avg := Nat.mul_le_mul_right _ hm
      exact ⟨hlimit m hm hm', by omega, hbegins m hm hm'⟩
  rw [heq, card_Ico]

theorem inside_eq_empty {limit : Nat} (hle : (limit - 1) * avg ≤ sums counts r) :
    inside counts avg limit r = ∅ := by
  refine filter_eq_empty_iff.mpr fun m hm => ?_
  have hm := mem_range.mp hm
  have hmono : m * avg ≤ (limit - 1) * avg := Nat.mul_le_mul_right _ (by omega)
  omega

theorem Numbers.update {g limit : Nat} (h : Numbers counts base g avg limit r s.statBase)
    {statBase : Nat → Nat}
    (hbase : statBase = update s.statBase r (s.statBase r + (inside counts avg limit r).card)) :
    Numbers counts base g avg limit (r + 1) statBase := by
  intro p hp
  rw [hbase]
  rcases lt_trichotomy p r with hlt | rfl | hlt
  · rw [update_of_ne hlt.ne, h p hp, if_pos hlt, if_pos (by omega)]
  · rw [update_self, h p hp, if_neg (lt_irrefl p), if_pos (by omega), Nat.add_zero]
  · rw [update_of_ne hlt.ne', h p hp, if_neg (by omega), if_neg (by omega)]

@[simp] theorem passEqual_statBase (avg sum : Nat) :
    (s.passEqual avg sum).statBase = s.statBase := by
  rw [passEqual]
  split <;> rfl

theorem alltoAllScanRanks_of_le {cumsum : Nat → Nat} {n : Nat} (hr : k.groupSize ≤ r) :
    k.alltoAllScanRanks parts avg cumsum n r s = s := by
  cases n with
  | zero => rfl
  | succ n => rw [Launch.alltoAllScanRanks, if_neg (not_lt.mpr hr)]

theorem exists_countCores (aivNum avg sum r n : Nat) (s : StatScan) :
    ∃ more ≤ n, (countCores aivNum avg sum r n s).1.statBase =
      update s.statBase r (s.statBase r + more) := by
  induction n generalizing s with
  | zero => exact ⟨0, le_rfl, (update_eq_self r _).symm⟩
  | succ n ih =>
    rw [countCores]
    split
    · split
      · exact ⟨1, Nat.le_add_left _ _, rfl⟩
      · obtain ⟨more, hle, heq⟩ := ih _
        refine ⟨more + 1, Nat.succ_le_succ hle, ?_⟩
        rw [heq]
        dsimp only
        rw [update_self, update_idem, Nat.add_assoc, Nat.add_comm 1]
    · exact ⟨0, Nat.zero_le _, (update_eq_self r _).symm⟩

/-- A rank is looked at once. -/
theorem alltoAllScanRanks_bounds (cumsum : Nat → Nat) (p n : Nat) :
    s.statBase p ≤ (k.alltoAllScanRanks parts avg cumsum n r s).statBase p ∧
      (k.alltoAllScanRanks parts avg cumsum n r s).statBase p ≤
        s.statBase p + if r ≤ p then 2 ^ 16 else 0 := by
  induction n generalizing r s with
  | zero => exact ⟨le_rfl, Nat.le_add_right _ _⟩
  | succ n ih =>
    rw [Launch.alltoAllScanRanks]
    split
    · obtain ⟨more, hle, heq⟩ := exists_countCores parts avg (cumsum r) r (2 ^ 16) s
      have hcount : (countCores parts avg (cumsum r) r (2 ^ 16) s).1.statBase p =
          s.statBase p + if p = r then more else 0 := by
        rw [heq, update_apply]
        split
        · rename_i hp
          rw [hp]
        · rfl
      refine ⟨le_trans ?_ ih.1, ih.2.trans ?_⟩
      · rw [passEqual_statBase, hcount]
        exact Nat.le_add_right _ _
      · rw [passEqual_statBase, hcount]
        split <;> split <;> split <;> split <;> omega
    · exact ⟨le_rfl, Nat.le_add_right _ _⟩

/-- The last share begins with a part. -/
def Coincides (counts : Nat → Nat) (g total parts : Nat) : Prop :=
  ∃ p < g, sums counts (p + 1) = (parts - 1) * (total / parts)

instance (counts : Nat → Nat) (g total parts : Nat) : Decidable (Coincides counts g total parts) :=
  inferInstanceAs (Decidable (∃ p < g, _))

/-- The last share does not begin with a part, or else a part ends wherever another share
would begin inside the last one. -/
def NoneBehind (counts : Nat → Nat) (g total parts : Nat) : Prop :=
  ¬ Coincides counts g total parts ∨ ∀ m, parts ≤ m → m * (total / parts) < total →
    ∃ p < g, sums counts (p + 1) = m * (total / parts)

/-- The shares have at least half of the total. -/
theorem le_two_mul_div (havg : 0 < total / parts) : total ≤ 2 * parts * (total / parts) := by
  obtain ⟨hpos, -⟩ := Nat.div_pos_iff.mp havg
  have hlt := Nat.lt_mul_div_succ total hpos
  have hle := Nat.mul_le_mul_left parts havg
  rw [Nat.mul_add] at hlt
  rw [Nat.mul_assoc, Nat.two_mul]
  omega

section Rounds

variable {limit : Nat} (havg : 0 < total / parts) (hparts : parts < 2 ^ 16)
  (hpassed : parts = 1 ∨ Coincides counts k.groupSize total parts → limit = total)
  (hstopped : ¬ (parts = 1 ∨ Coincides counts k.groupSize total parts) → limit = parts)

include havg hpassed

/-- The next share if the part ends where one does. -/
theorem Counting.passEqual
    (hnumbers : Numbers counts base k.groupSize (total / parts) limit (r + 1) s.statBase)
    (hpos : 0 < j) (hcore : s.core = j % 2 ^ 16) (hright : s.coreRight = j * (total / parts))
    (hr : r < k.groupSize) (hle : (j - 1) * (total / parts) ≤ sums counts (r + 1))
    (hge : sums counts (r + 1) ≤ j * (total / parts)) (hbehind : parts ≤ j → limit = total) :
    ∃ j', Counting counts base k.groupSize total parts limit (r + 1) j'
      (s.passEqual (total / parts) (sums counts (r + 1))) := by
  have hsucc : (j + 1) * (total / parts) = j * (total / parts) + total / parts := by
    rw [Nat.add_mul, Nat.one_mul]
  rw [StatScan.passEqual, hright]
  split
  · rename_i heq
    refine ⟨j + 1, hnumbers, Nat.succ_pos j, ?_, hsucc.symm, heq.ge, by omega, fun hlast => ?_⟩
    · dsimp only
      rw [nextCore, hcore, Nat.mod_add_mod]
    · -- the scan passes the beginning of the last share together with the end of a part
      rcases Nat.lt_or_ge j parts with hj | hj
      · refine hpassed (.inr ⟨r, hr, ?_⟩)
        rw [heq, show parts - 1 = j by omega]
      · exact hbehind hj
  · exact ⟨j, hnumbers, hpos, hcore, hright, hle, by omega, hbehind⟩

include hparts hstopped

/-- One round of the loop: the scan goes on, or all shares have been counted. -/
theorem Counting.round (h : Counting counts base k.groupSize total parts limit r j s)
    (hr : r < k.groupSize) (hsum : sums counts k.groupSize = total) {cumsum : Nat → Nat}
    (hcumsum : cumsum r = sums counts (r + 1)) (n : Nat) :
    (∃ j' s', Counting counts base k.groupSize total parts limit (r + 1) j' s' ∧
      k.alltoAllScanRanks parts (total / parts) cumsum (n + 1) r s =
        k.alltoAllScanRanks parts (total / parts) cumsum n (r + 1) s') ∨
      Numbers counts base k.groupSize (total / parts) limit k.groupSize
        (k.alltoAllScanRanks parts (total / parts) cumsum (n + 1) r s).statBase := by
  have hmono : sums counts r ≤ sums counts (r + 1) := le_add_right _ _
  have htotal : sums counts (r + 1) ≤ total := (sums_mono counts hr).trans hsum.le
  rw [Launch.alltoAllScanRanks, if_pos hr]
  dsimp only
  rw [hcumsum]
  obtain ⟨j', hle, hbase, hbegins, hstop⟩ := exists_counted r hparts
    (show j < parts → parts - j ≤ 2 ^ 16 by omega) (fun _ => htotal.trans (le_two_mul_div havg))
    (show parts ≤ j → 2 * parts - j ≤ 2 ^ 16 by omega) h.core h.coreRight
  rcases hstop with ⟨hall, hj, rfl⟩ | ⟨hsome, hj', hcore', hright', hge⟩
  · right
    -- the last share begins inside this part, and so not with any other
    have hlast := hbegins (j' - 1) (by omega) (by omega)
    obtain rfl : limit = j' := by
      refine hstopped ?_
      rintro (hone | ⟨p, -, hp⟩)
      · have := h.pos
        omega
      · have hfirst : j * (total / j') ≤ (j' - 1) * (total / j') :=
          Nat.mul_le_mul_right _ (by omega)
        exact sums_ne (h.lt.trans_le hfirst) hlast hp
    have hinside := card_inside h.le h.lt (fun _ _ hm => hm) hbegins fun m hm hm' =>
      absurd hm' (not_lt.mpr hm)
    have hnumbers := h.numbers.update (hinside ▸ hbase)
    rw [hall, if_pos rfl, alltoAllScanRanks_of_le (by omega), passEqual_statBase]
    intro p hp
    rw [hnumbers p hp]
    split
    · rfl
    · rw [inside_eq_empty (hlast.le.trans (sums_mono counts (by omega))), card_empty]
  · left
    have hlimit : ∀ m, j ≤ m → m < j' → m < limit := by
      intro m hm hm'
      have hlt : m < total :=
        (Nat.le_mul_of_pos_right m havg).trans_lt ((hbegins m hm hm').trans_le htotal)
      by_cases hcase : parts = 1 ∨ Coincides counts k.groupSize total parts
      · exact hpassed hcase ▸ hlt
      · rcases Nat.lt_or_ge j parts with hj | hj
        · exact hstopped hcase ▸ hm'.trans (hj' hj)
        · exact h.behind hj ▸ hlt
    have hends : ∀ m, j' ≤ m → m < limit → sums counts (r + 1) ≤ m * (total / parts) :=
      fun m hm _ => hge.trans (Nat.mul_le_mul_right _ hm)
    have hinside := card_inside h.le h.lt hlimit hbegins hends
    have hbelow : (j' - 1) * (total / parts) ≤ sums counts (r + 1) := by
      rcases lt_or_eq_of_le hle with hlt | rfl
      · exact (hbegins (j' - 1) (by omega) (by omega)).le
      · exact h.le.trans hmono
    obtain ⟨j'', hnext⟩ := Counting.passEqual havg hpassed
      (h.numbers.update (hinside ▸ hbase)) (h.pos.trans_le hle) hcore' hright' hr hbelow hge
      fun hbehind => h.behind (by_contra fun hj => absurd (hj' (not_le.mp hj)) (by omega))
    refine ⟨j'', _, hnext, ?_⟩
    rw [hsome, if_neg Bool.false_ne_true, hcumsum]

/-- Every rank gets the number of the multiples below the limit that lie inside its part. -/
theorem alltoAllScanRanks_numbers (base : Nat → Nat) (hsum : sums counts k.groupSize = total)
    {cumsum : Nat → Nat} (hcumsum : ∀ p < k.groupSize, cumsum p = sums counts (p + 1))
    (hpos : 0 < parts) {p : Nat} (hp : p < k.groupSize) :
    (k.alltoAllScanRanks parts (total / parts) cumsum k.groupSize 0
      ⟨base, 1, total / parts⟩).statBase p =
        base p + (inside counts (total / parts) limit p).card := by
  have hrun : ∀ {n r j s}, r + n = k.groupSize →
      Counting counts base k.groupSize total parts limit r j s →
      Numbers counts base k.groupSize (total / parts) limit k.groupSize
        (k.alltoAllScanRanks parts (total / parts) cumsum n r s).statBase := by
    intro n
    induction n with
    | zero =>
      intro r j s hr h
      obtain rfl : r = k.groupSize := hr
      exact h.numbers
    | succ n ih =>
      intro r j s hr h
      rcases h.round havg hparts hpassed hstopped (by omega) hsum (hcumsum r (by omega)) n with
        ⟨j', s', hnext, heq⟩ | hall
      · rw [heq]
        exact ih (by omega) hnext
      · exact hall
  have hstart : Counting counts base k.groupSize total parts limit 0 1
      ⟨base, 1, total / parts⟩ := by
    refine ⟨fun q hq => by simp, one_pos, rfl, (Nat.one_mul _).symm, by simp, ?_, fun hone => ?_⟩
    · rw [Nat.one_mul]
      exact havg
    · exact hpassed (.inl (by omega))
  have hnumbers := hrun (Nat.zero_add _) hstart p hp
  rw [if_pos hp] at hnumbers
  exact hnumbers

variable (base)

omit hpassed hstopped in
/-- No rank gets less than the number of the shares that begin inside its part. -/
theorem card_inside_le_statBase (hsum : sums counts k.groupSize = total) (cumsum : Nat → Nat)
    (hcumsum : ∀ p < k.groupSize, cumsum p = sums counts (p + 1)) (hpos : 0 < parts) {p : Nat}
    (hp : p < k.groupSize) :
    base p + (inside counts (total / parts) parts p).card ≤
      (k.alltoAllScanRanks parts (total / parts) cumsum k.groupSize 0
        ⟨base, 1, total / parts⟩).statBase p := by
  by_cases hcase : parts = 1 ∨ Coincides counts k.groupSize total parts
  · rw [alltoAllScanRanks_numbers havg hparts (fun _ => rfl) (fun hnot => absurd hcase hnot) base
      hsum hcumsum hpos hp]
    exact Nat.add_le_add_left (card_le_card (inside_mono (Nat.div_pos_iff.mp havg).2)) _
  · exact (alltoAllScanRanks_numbers havg hparts (fun h => absurd h hcase) (fun _ => rfl) base
      hsum hcumsum hpos hp).ge

omit hpassed hstopped in
/-- Every rank gets the number of the shares that begin inside its part, unless there are
multiples behind the last share that are counted too. -/
theorem alltoAllScanRanks_numbers_iff (hsum : sums counts k.groupSize = total)
    (cumsum : Nat → Nat) (hcumsum : ∀ p < k.groupSize, cumsum p = sums counts (p + 1))
    (hpos : 0 < parts) :
    (∀ p < k.groupSize, (k.alltoAllScanRanks parts (total / parts) cumsum k.groupSize 0
      ⟨base, 1, total / parts⟩).statBase p =
        base p + (inside counts (total / parts) parts p).card) ↔
      NoneBehind counts k.groupSize total parts := by
  by_cases hcase : parts = 1 ∨ Coincides counts k.groupSize total parts
  · have hnumbers := fun p (hp : p < k.groupSize) => alltoAllScanRanks_numbers havg hparts
      (fun _ => rfl) (fun hnot => absurd hcase hnot) base hsum hcumsum hpos hp
    have hsub : ∀ p, inside counts (total / parts) parts p ⊆
        inside counts (total / parts) total p :=
      fun p => inside_mono (Nat.div_pos_iff.mp havg).2
    constructor
    · intro hall
      refine .inr fun m hm hlt => ?_
      obtain ⟨p, hp, hafter, hbefore⟩ := exists_sums_lt
        (Nat.mul_pos (hpos.trans_le hm) havg) (hlt.le.trans hsum.ge)
      refine ⟨p, hp, (lt_or_eq_of_le hbefore).elim (fun hinside => ?_) Eq.symm⟩
      -- a multiple inside the part would be counted for the rank
      have heq := eq_of_subset_of_card_le (hsub p)
        (Nat.add_left_cancel ((hnumbers p hp).symm.trans (hall p hp))).le
      have hmem : m ∈ inside counts (total / parts) total p :=
        mem_filter.mpr ⟨mem_range.mpr ((Nat.le_mul_of_pos_right m havg).trans_lt hlt), hafter,
          hinside⟩
      rw [← heq] at hmem
      exact absurd (mem_range.mp (mem_filter.mp hmem).1) (not_lt.mpr hm)
    · intro hnone p hp
      have hends : ∀ m, parts ≤ m → m * (total / parts) < total →
          ∃ p < k.groupSize, sums counts (p + 1) = m * (total / parts) := by
        rcases hnone with hnot | hends
        · rcases hcase with rfl | hcoincides
          · intro m hm hlt
            rw [Nat.div_one] at hlt
            exact absurd (Nat.le_mul_of_pos_left total hm) (not_le.mpr hlt)
          · exact absurd hcoincides hnot
        · exact hends
      rw [hnumbers p hp, Finset.Subset.antisymm (hsub p) fun m hm => ?_]
      obtain ⟨-, hafter, hbefore⟩ := mem_filter.mp hm
      refine mem_filter.mpr ⟨mem_range.mpr (not_le.mp fun hle => ?_), hafter, hbefore⟩
      obtain ⟨q, -, hq⟩ := hends m hle (hbefore.trans_le ((sums_mono counts hp).trans hsum.le))
      exact sums_ne hafter hbefore hq
  · refine iff_of_true (fun p hp => ?_) (.inl fun h => hcase (.inr h))
    exact alltoAllScanRanks_numbers havg hparts (fun h => absurd h hcase) (fun _ => rfl) base
      hsum hcumsum hpos hp

end Rounds

end StatScan

/-! ## The counters -/

/-- The counter of a rank holds the number of the cores that copy from it exactly when all of
them have counted it. -/
theorem localStatSend_eq_card_iff {copying : Nat → Finset Nat} {counted : List (Nat × Nat)}
    (hnodup : counted.Nodup) (hcopying : ∀ c ∈ counted, c.1 ∈ copying c.2) (rank : Nat) :
    localStatSend counted rank = (copying rank).card ↔
      ∀ core ∈ copying rank, (core, rank) ∈ counted := by
  set done := ((counted.filter fun c => decide (c.2 = rank)).map Prod.fst).toFinset with hdone
  have hmem : ∀ core, core ∈ done ↔ (core, rank) ∈ counted := by
    intro core
    rw [List.mem_toFinset, List.mem_map]
    constructor
    · rintro ⟨c, hc, rfl⟩
      obtain ⟨hc, hc2⟩ := List.mem_filter.mp hc
      rw [← of_decide_eq_true hc2]
      exact hc
    · intro hc
      exact ⟨(core, rank), List.mem_filter.mpr ⟨hc, decide_eq_true rfl⟩, rfl⟩
  have hcard : localStatSend counted rank = done.card := by
    rw [List.toFinset_card_of_nodup, List.length_map, localStatSend]
    refine List.Nodup.map_on (fun c hc d hd heq => ?_) (hnodup.filter _)
    have hc := of_decide_eq_true (List.mem_filter.mp hc).2
    have hd := of_decide_eq_true (List.mem_filter.mp hd).2
    exact Prod.ext heq (hc.trans hd.symm)
  have hsub : done ⊆ copying rank := fun core hcore => hcopying _ ((hmem core).mp hcore)
  rw [hcard]
  constructor
  · intro hcard core hcore
    rw [← eq_of_subset_of_card_le hsub hcard.ge] at hcore
    exact (hmem core).mp hcore
  · intro hall
    exact congrArg card
      (Finset.Subset.antisymm hsub fun core hcore => (hmem core).mpr (hall core hcore))

/-- The number that is waited for is that of the cores that copy exactly when every wait for it
ends with the last of them. -/
theorem eq_card_iff_waits {copying : Nat → Finset Nat} {rank expected : Nat} :
    expected = (copying rank).card ↔ ∀ counted : List (Nat × Nat), counted.Nodup →
      (∀ c ∈ counted, c.1 ∈ copying c.2) →
      (localStatSend counted rank = expected ↔
        ∀ core ∈ copying rank, (core, rank) ∈ counted) := by
  constructor
  · rintro rfl counted hnodup hcopying
    exact localStatSend_eq_card_iff hnodup hcopying rank
  · intro hwaits
    set counted := (copying rank).toList.map fun core => (core, rank)
    have hnodup : counted.Nodup :=
      (nodup_toList _).map fun _ _ heq => (Prod.mk.inj heq).1
    have hcopying : ∀ c ∈ counted, c.1 ∈ copying c.2 := by
      intro c hc
      obtain ⟨core, hcore, rfl⟩ := List.mem_map.mp hc
      exact mem_toList.mp hcore
    have hall : ∀ core ∈ copying rank, (core, rank) ∈ counted := fun core hcore =>
      List.mem_map.mpr ⟨core, mem_toList.mpr hcore, rfl⟩
    rw [← (hwaits counted hnodup hcopying).mpr hall]
    exact (localStatSend_eq_card_iff hnodup hcopying rank).mpr hall

end AlltoAllVKernel

end MemFabric.Zbal
