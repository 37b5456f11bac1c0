import MemFabric.Smem.Store.Number

/-!
# Numbers from strings

`String2Uint` and `String2Int` of `mf_str_util.h` for every target type.  A sign is looked
for in the first character only, while `strtoull` reads one behind blanks too, and negates in
64 bits.  `String2Int` compares with the largest value of the target alone and then casts.
-/

namespace MemFabric.Util

open Simt Wire Smem.Store List

inductive Width
  | w16
  | w32
  | w64
deriving DecidableEq

def Width.bits : Width → Nat
  | .w16 => 16
  | .w32 => 32
  | .w64 => 64

/-- An integer type of the target. -/
structure IntType where
  signed : Bool
  width : Width
deriving DecidableEq

namespace IntType

variable (t : IntType)

def max : Int := if t.signed then 2 ^ (t.width.bits - 1) - 1 else 2 ^ t.width.bits - 1

def min : Int := if t.signed then -2 ^ (t.width.bits - 1) else 0

/-- `static_cast`. -/
def cast (n : Int) : Int := if t.signed then n.bmod (2 ^ t.width.bits) else n % 2 ^ t.width.bits

/-- What both conversions do with the number that `strtoull` or `strtoll` reads. -/
def convert (inRange : Int → Bool) (cast : Int → Int) (str : Bytes) : Option Int :=
  match strtoll (str.takeWhile (· ≠ 0)) with
  | none => none
  | some (n, rest) => if rest.all isSpace ∧ inRange n then some (cast n) else none

def string2Uint (str : Bytes) : Option Int :=
  if str.head? = some 45 then none
  else
    convert (fun n => n.natAbs < 2 ^ 64 ∧ n % 2 ^ 64 ≤ t.max) (fun n => t.cast (n % 2 ^ 64)) str

def string2Int (str : Bytes) : Option Int :=
  convert (fun n => (-2 ^ 63 ≤ n ∧ n < 2 ^ 63) ∧ n ≤ int64 t.max) t.cast str

variable {t} {n : Int} {str : Bytes}

theorem cast_eq (hmin : t.min ≤ n) (hmax : n ≤ t.max) : t.cast n = n := by
  rcases t with ⟨_ | _, _ | _ | _⟩
  all_goals
    simp only [cast, min, max, Width.bits, ↓reduceIte, Bool.false_eq_true] at hmin hmax ⊢
  iterate 3 exact Int.emod_eq_of_lt hmin (by omega)
  all_goals apply Int.bmod_eq_of_le <;> omega

end IntType

/-! ## The text of a number -/

/-- Blanks, a sign or none, digits, and blanks. -/
def Denotes (str : Bytes) (n : Int) : Prop :=
  ∃ blanks sign digits rest, str = blanks ++ (sign ++ (digits ++ rest)) ∧
    (∀ b ∈ blanks, isSpace b = true) ∧ (sign = [] ∨ sign = [43] ∨ sign = [45]) ∧ digits ≠ [] ∧
    (∀ b ∈ digits, isDigit b = true) ∧ (∀ b ∈ rest, isSpace b = true) ∧ n = numeral sign digits

variable {t : IntType} {n v : Int} {str : Bytes}

theorem exists_sign (str : Bytes) : ∃ sign : Bytes, (sign = [] ∨ sign = [43] ∨ sign = [45]) ∧
    (str.head? = some 45 ↔ sign = [45]) ∧
    str = sign ++ if str.head? = some 45 ∨ str.head? = some 43 then str.tail else str := by
  cases str with
  | nil => exact ⟨[], .inl rfl, by simp, by simp⟩
  | cons b str =>
    by_cases h45 : b = 45
    · exact ⟨[45], .inr (.inr rfl), by simp [h45], by simp [h45]⟩
    · by_cases h43 : b = 43
      · exact ⟨[43], .inr (.inl rfl), by simp [h43], by simp [h43]⟩
      · exact ⟨[], .inl rfl, by simp [h45], by simp [h45, h43]⟩

theorem denotes_iff :
    Denotes str n ↔ ∃ rest, strtoll str = some (n, rest) ∧ rest.all isSpace = true := by
  constructor
  · rintro ⟨blanks, sign, digits, rest, rfl, hblanks, hsign, hne, hdigits, hrest, rfl⟩
    refine ⟨rest, strtoll_eq hblanks hsign hne hdigits fun b hb => ?_, by simpa using hrest⟩
    have hspace := hrest b (mem_of_mem_head? hb)
    by_contra hdigit
    rw [isSpace_of_isDigit (by simpa using hdigit)] at hspace
    cases hspace
  · rintro ⟨rest, h, hrest⟩
    obtain ⟨sign, hsign, hminus, hsplit⟩ := exists_sign (str.dropWhile isSpace)
    have hstr := takeWhile_append_dropWhile (p := isSpace) (l := str)
    unfold strtoll at h
    dsimp only at h
    generalize (if (str.dropWhile isSpace).head? = some 45 ∨
      (str.dropWhile isSpace).head? = some 43 then (str.dropWhile isSpace).tail
      else str.dropWhile isSpace) = tail at h hsplit
    split at h
    · cases h
    · next hempty =>
      obtain ⟨hn, rfl⟩ := Prod.mk.inj (Option.some.inj h)
      refine ⟨str.takeWhile isSpace, sign, tail.takeWhile isDigit, tail.dropWhile isDigit, ?_,
        fun b => mem_takeWhile_imp, hsign, by simpa using hempty, fun b => mem_takeWhile_imp,
        by simpa using hrest, ?_⟩
      · rw [takeWhile_append_dropWhile, ← hsplit, hstr]
      · rw [← hn, numeral]
        simp only [hminus]

theorem Denotes.unique {m : Int} (hm : Denotes str m) (hn : Denotes str n) : m = n := by
  obtain ⟨_, hm, -⟩ := denotes_iff.mp hm
  obtain ⟨_, hn, -⟩ := denotes_iff.mp hn
  rw [hm] at hn
  exact (Prod.mk.inj (Option.some.inj hn)).1

theorem Denotes.zero_not_mem (h : Denotes str n) : 0 ∉ str := by
  obtain ⟨blanks, sign, digits, rest, rfl, hblanks, hsign, -, hdigits, hrest, -⟩ := h
  simp only [mem_append, not_or]
  refine ⟨fun h => ?_, ?_, fun h => ?_, fun h => ?_⟩
  · exact absurd (hblanks 0 h) (by decide)
  · rcases hsign with rfl | rfl | rfl <;> decide
  · exact absurd (hdigits 0 h) (by decide)
  · exact absurd (hrest 0 h) (by decide)

theorem Denotes.nonpos (h : Denotes str n) (hminus : str.head? = some 45) : n ≤ 0 := by
  obtain ⟨blanks, sign, digits, rest, rfl, hblanks, hsign, hne, hdigits, -, rfl⟩ := h
  have hsign : sign = [45] := by
    cases blanks with
    | cons b blanks =>
      obtain rfl : b = 45 := by simpa using hminus
      exact absurd (hblanks 45 (by simp)) (by decide)
    | nil =>
      rcases hsign with rfl | rfl | rfl
      · cases digits with
        | nil => exact absurd rfl hne
        | cons d digits =>
          obtain rfl : d = 45 := by simpa using hminus
          exact absurd (hdigits 45 (by simp)) (by decide)
      · simp at hminus
      · rfl
  rw [numeral, if_pos hsign]
  exact Int.neg_nonpos_of_nonneg (Int.natCast_nonneg _)

namespace IntType

theorem convert_eq_some_iff {inRange : Int → Bool} {cast : Int → Int} :
    convert inRange cast str = some v ↔
      ∃ n, Denotes (str.takeWhile (· ≠ 0)) n ∧ inRange n = true ∧ cast n = v := by
  simp only [convert, denotes_iff]
  cases strtoll (str.takeWhile fun b => decide (b ≠ 0)) with
  | none => simp
  | some r =>
    obtain ⟨n, rest⟩ := r
    simp only [Option.ite_none_right_eq_some, Option.some.injEq, Prod.mk.injEq]
    constructor
    · rintro ⟨⟨hrest, hrange⟩, hv⟩
      exact ⟨n, ⟨rest, ⟨rfl, rfl⟩, hrest⟩, hrange, hv⟩
    · rintro ⟨_, ⟨_, ⟨rfl, rfl⟩, hrest⟩, hrange, hv⟩
      exact ⟨⟨hrest, hrange⟩, hv⟩

/-- A conversion is exact on a text if it accepts the number that it reads, up to the first zero
character, if and only if that is the whole text and the number is one of the target. -/
theorem convert_exact_iff {inRange : Int → Bool} {cast : Int → Int} {p : Int → Prop}
    (hcast : ∀ n, p n → cast n = n) :
    (∀ v, convert inRange cast str = some v ↔ Denotes str v ∧ p v) ↔
      ∀ n, Denotes (str.takeWhile (· ≠ 0)) n → (inRange n = true ↔ 0 ∉ str ∧ p n) := by
  simp only [convert_eq_some_iff]
  constructor
  · intro h n hn
    constructor
    · intro hrange
      obtain ⟨hdenotes, hp⟩ := (h (cast n)).mp ⟨n, hn, hrange, rfl⟩
      have hzero := hdenotes.zero_not_mem
      rw [takeWhile_ne_zero hzero] at hn
      rw [hdenotes.unique hn] at hp
      exact ⟨hzero, hp⟩
    · rintro ⟨hzero, hp⟩
      have hdenotes := hn
      rw [takeWhile_ne_zero hzero] at hdenotes
      obtain ⟨m, hm, hrange, -⟩ := (h n).mpr ⟨hdenotes, hp⟩
      rwa [hm.unique hn] at hrange
  · intro h v
    constructor
    · rintro ⟨n, hn, hrange, rfl⟩
      obtain ⟨hzero, hp⟩ := (h n hn).mp hrange
      rw [takeWhile_ne_zero hzero] at hn
      rw [hcast n hp]
      exact ⟨hn, hp⟩
    · rintro ⟨hdenotes, hp⟩
      have hzero := hdenotes.zero_not_mem
      have hn := hdenotes
      rw [← takeWhile_ne_zero hzero] at hn
      exact ⟨v, hn, (h v hn).mpr ⟨hzero, hp⟩, hcast v hp⟩

variable (t) (str)

/-- The texts that `String2Uint` converts as it should, by the number in front of the first zero
character: behind such a character nothing may be, a minus sign at the beginning is refused even
with zero, and a number that is negated in 64 bits must be too large for the target. -/
def UintExact (n : Int) : Prop :=
  if 0 ∈ str then
    str.head? = some 45 ∨ t.max < n ∨ n < 0 ∧ (n ≤ -2 ^ 64 ∨ t.max < 2 ^ 64 + n)
  else if str.head? = some 45 then n ≠ 0
  else 0 ≤ n ∨ n ≤ -2 ^ 64 ∨ t.max < 2 ^ 64 + n

/-- The same for `String2Int`: numbers below the target are taken as far as `strtoll` reads
them, and the largest `uint64_t` is compared as minus one. -/
def IntExact (n : Int) : Prop :=
  if 0 ∈ str then n < -2 ^ 63 ∨ t.max < n ∨ t = ⟨false, .w64⟩ ∧ 0 ≤ n
  else if t = ⟨false, .w64⟩ then n < -2 ^ 63 ∨ t.max < n
  else t.min ≤ n ∨ n < -2 ^ 63

variable {t} {str}

theorem string2Uint_exact_iff (ht : t.signed = false) :
    (∀ v, t.string2Uint str = some v ↔ Denotes str v ∧ t.min ≤ v ∧ v ≤ t.max) ↔
      ∀ n, Denotes (str.takeWhile (· ≠ 0)) n → t.UintExact str n := by
  have hmin : t.min = 0 := by rw [min, ht, if_neg Bool.false_ne_true]
  have hmax : 0 ≤ t.max ∧ t.max < 2 ^ 64 := by
    obtain ⟨_, _ | _ | _⟩ := t <;> cases ht <;> decide
  rw [string2Uint]
  by_cases hminus : str.head? = some 45
  · simp only [if_pos hminus, reduceCtorEq, false_iff, UintExact]
    constructor
    · intro h n hn
      split_ifs with hzero
      · exact .inl hminus
      · rintro rfl
        rw [takeWhile_ne_zero hzero] at hn
        exact h 0 ⟨hn, hmin.le, hmax.1⟩
    · rintro h v ⟨hdenotes, hv⟩
      have hzero := hdenotes.zero_not_mem
      have hne := h v (by rwa [takeWhile_ne_zero hzero])
      have hle := hdenotes.nonpos hminus
      rw [if_neg hzero] at hne
      omega
  · rw [if_neg hminus, convert_exact_iff]
    · refine forall_congr' fun n => imp_congr_right fun _ => ?_
      rw [decide_eq_true_eq, hmin, UintExact, if_neg hminus]
      split_ifs with hzero
      · simp only [hzero, hminus, not_true_eq_false, false_and, iff_false, false_or]
        omega
      · simp only [hzero, not_false_eq_true, true_and]
        omega
    · rintro n ⟨hle, hge⟩
      rw [Int.emod_eq_of_lt (hmin ▸ hle) (by omega), cast_eq hle hge]

theorem string2Int_exact_iff :
    (∀ v, t.string2Int str = some v ↔ Denotes str v ∧ t.min ≤ v ∧ v ≤ t.max) ↔
      ∀ n, Denotes (str.takeWhile (· ≠ 0)) n → t.IntExact str n := by
  rw [string2Int, convert_exact_iff fun n hn => cast_eq hn.1 hn.2]
  refine forall_congr' fun n => imp_congr_right fun _ => ?_
  rw [decide_eq_true_eq, IntExact]
  by_cases ht : t = ⟨false, .w64⟩
  · have hmax : int64 t.max = -1 ∧ t.max = 2 ^ 64 - 1 ∧ t.min = 0 := by rw [ht]; decide +kernel
    rw [hmax.1, hmax.2.1, hmax.2.2, if_pos ht]
    split_ifs with hzero
    · simp only [hzero, ht, not_true_eq_false, false_and, iff_false, true_and]
      omega
    · simp only [hzero, not_false_eq_true, true_and]
      omega
  · have hmax : int64 t.max = t.max ∧ t.max < 2 ^ 63 ∧ -2 ^ 63 ≤ t.min ∧ t.min ≤ t.max := by
      obtain ⟨_ | _, _ | _ | _⟩ := t
      case false.w64 => exact absurd rfl ht
      all_goals decide +kernel
    rw [hmax.1, if_neg ht]
    split_ifs with hzero
    · simp only [hzero, ht, not_true_eq_false, false_and, iff_false, or_false]
      omega
    · simp only [hzero, not_false_eq_true, true_and]
      omega

/-- Both conversions accept exactly the texts of the numbers of the target, and give these
numbers, on the texts of `UintExact` and `IntExact`, and on no others. -/
theorem string2_exact (t : IntType) (str : Bytes) :
    (t.signed = false →
      ((∀ v, t.string2Uint str = some v ↔ Denotes str v ∧ t.min ≤ v ∧ v ≤ t.max) ↔
        ∀ n, Denotes (str.takeWhile (· ≠ 0)) n → t.UintExact str n)) ∧
    ((∀ v, t.string2Int str = some v ↔ Denotes str v ∧ t.min ≤ v ∧ v ≤ t.max) ↔
      ∀ n, Denotes (str.takeWhile (· ≠ 0)) n → t.IntExact str n) :=
  ⟨string2Uint_exact_iff, string2Int_exact_iff⟩

end IntType

/-- The text " -5" is refused for `uint16_t`, as it should be: the number is too large once it is
negated. -/
theorem string2_exact_negative :
    ∀ v, IntType.string2Uint ⟨false, .w16⟩ (ascii " -5") = some v ↔
      Denotes (ascii " -5") v ∧ IntType.min ⟨false, .w16⟩ ≤ v ∧ v ≤ IntType.max ⟨false, .w16⟩ := by
  refine ((IntType.string2_exact ⟨false, .w16⟩ (ascii " -5")).1 rfl).mpr fun n hn => ?_
  have hfive : Denotes ((ascii " -5").takeWhile (· ≠ 0)) (-5) :=
    ⟨[32], [45], [53], [], by decide +kernel⟩
  obtain rfl := hn.unique hfive
  rw [IntType.UintExact, if_neg (by decide +kernel), if_neg (by decide +kernel)]
  exact .inr (.inr (by decide))

/-- The text " -5" becomes a large `uint64_t`, and "-1" the largest `uint32_t`. -/
theorem negative_wraps :
    (Denotes (ascii " -5") (-5) ∧
      IntType.string2Uint ⟨false, .w64⟩ (ascii " -5") = some (2 ^ 64 - 5)) ∧
    Denotes (ascii "-1") (-1) ∧
      IntType.string2Int ⟨false, .w32⟩ (ascii "-1") = some (2 ^ 32 - 1) := by
  refine ⟨⟨⟨[32], [45], [53], [], ?_⟩, by decide +kernel⟩, ⟨[], [45], [49], [], ?_⟩,
    by decide +kernel⟩
  · decide +kernel
  · decide +kernel

end MemFabric.Util
