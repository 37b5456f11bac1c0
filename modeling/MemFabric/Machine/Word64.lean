import Mathlib.Data.Nat.Bitwise

/-!
# Words of 64 bits

Unsigned arithmetic modulo `2 ^ 64` on natural numbers, and the two ways in which a mask
rounds a number to a multiple of a power of two.
-/

namespace MemFabric.Machine.Word64

def add (a b : Nat) : Nat := (a + b) % 2 ^ 64

def sub (a b : Nat) : Nat := (a + (2 ^ 64 - b)) % 2 ^ 64

def compl (a : Nat) : Nat := 2 ^ 64 - 1 - a

theorem add_eq {a b : Nat} (h : a + b < 2 ^ 64) : add a b = a + b := Nat.mod_eq_of_lt h

theorem sub_eq {a b : Nat} (hle : b ≤ a) (hlt : a < 2 ^ 64) : sub a b = a - b := by
  rw [sub]
  omega

theorem and_compl_eq {n k : Nat} (hn : n < 2 ^ 64) (hk : k ≤ 64) :
    n &&& compl (2 ^ k - 1) = n / 2 ^ k * 2 ^ k := by
  have hpow : 2 ^ (64 - k) * 2 ^ k = 2 ^ 64 := by rw [← pow_add, Nat.sub_add_cancel hk]
  have hone : 0 < 2 ^ k := Nat.two_pow_pos k
  have hmask : compl (2 ^ k - 1) = (2 ^ (64 - k) - 1) * 2 ^ k := by
    rw [compl, Nat.sub_mul]
    omega
  refine Nat.eq_of_testBit_eq fun i => ?_
  have hhigh : 64 ≤ i → n.testBit i = false := fun hi =>
    Nat.testBit_lt_two_pow (hn.trans_le (Nat.pow_le_pow_right (by omega) hi))
  rw [hmask, Nat.testBit_and, Nat.testBit_mul_two_pow, Nat.testBit_two_pow_sub_one,
    Nat.testBit_mul_two_pow, Nat.testBit_div_two_pow]
  by_cases hle : k ≤ i
  · rw [Nat.sub_add_cancel hle]
    by_cases h64 : i < 64
    · simp [hle, show i - k < 64 - k by omega]
    · simp [hhigh (by omega)]
  · simp [hle]

/-! ## Rounding -/

def alignDown (a n : Nat) : Nat := n / a * a

def alignUp (a n : Nat) : Nat := (n + (a - 1)) / a * a

section

variable {a n m : Nat}

theorem alignDown_le : alignDown a n ≤ n := Nat.div_mul_le_self n a

theorem dvd_alignDown : a ∣ alignDown a n := Nat.dvd_mul_left a _

theorem le_alignDown (hdvd : a ∣ m) (hle : m ≤ n) : m ≤ alignDown a n := by
  obtain ⟨q, rfl⟩ := hdvd
  rcases Nat.eq_zero_or_pos a with rfl | ha
  · simp
  · have hq : q ≤ n / a := (Nat.le_div_iff_mul_le ha).mpr (by rwa [Nat.mul_comm])
    rw [Nat.mul_comm a q]
    exact Nat.mul_le_mul_right a hq

theorem dvd_alignUp : a ∣ alignUp a n := Nat.dvd_mul_left a _

theorem le_alignUp (ha : 0 < a) : n ≤ alignUp a n := by
  have hlt := Nat.lt_div_mul_add (a := n + (a - 1)) ha
  rw [alignUp]
  omega

theorem alignUp_le (hdvd : a ∣ m) (hle : n ≤ m) : alignUp a n ≤ m := by
  obtain ⟨q, rfl⟩ := hdvd
  rcases Nat.eq_zero_or_pos a with rfl | ha
  · simp [alignUp]
  · have hlt : (n + (a - 1)) / a < q + 1 := by
      rw [Nat.div_lt_iff_lt_mul ha, Nat.add_mul, Nat.mul_comm q a]
      omega
    rw [Nat.mul_comm a q]
    exact Nat.mul_le_mul_right a (Nat.le_of_lt_succ hlt)

theorem alignUp_lt (ha : 0 < a) : alignUp a n < n + a := by
  have hle : alignUp a n ≤ n + (a - 1) := Nat.div_mul_le_self _ a
  omega

end

end MemFabric.Machine.Word64
