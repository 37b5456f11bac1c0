import Mathlib.Data.List.TakeWhile
import MemFabric.Smem.Store.Backend

/-!
# Numbers as strings

`String2Int` reads what `std::to_string` writes.  The decimal form of a number ends
where a byte comes that is not a digit, so keys that are put together from numbers
and separators can be taken apart again.
-/

namespace MemFabric.Smem.Store

open Wire List

/-! ## Digits -/

theorem utf8Size_of_isDigit {c : Char} (h : c.isDigit = true) : c.utf8Size = 1 := by
  simp only [Char.isDigit, Bool.and_eq_true, decide_eq_true_eq] at h
  have hle : c.val ≤ 127 := UInt32.le_trans h.2 (by decide)
  simp [Char.utf8Size, hle]

theorem ascii_ofList {l : List Char} (h : ∀ c ∈ l, c.isDigit = true) :
    ascii (String.ofList l) = l.map fun c => c.val.toUInt8 := by
  induction l with
  | nil => rfl
  | cons c l ih =>
    have hc : String.utf8EncodeChar c = [c.val.toUInt8] :=
      String.utf8EncodeChar_eq_singleton (utf8Size_of_isDigit (h c mem_cons_self))
    have hl := ih fun c hc => h c (mem_cons_of_mem _ hc)
    simp only [ascii, String.toUTF8_eq_toByteArray, String.toByteArray_ofList] at hl ⊢
    rw [utf8Encode_cons, utf8Encode_singleton, hc, ByteArray.data_append,
      Array.toList_append, hl]
    simp

theorem decimal_natCast (n : Nat) : decimal n = (Nat.toDigits 10 n).map fun c => c.val.toUInt8 := by
  exact ascii_ofList fun c hc => Nat.isDigit_of_mem_toDigits (by decide) (by decide) hc

theorem toNat_digit {c : Char} (h : c.isDigit = true) : c.val.toUInt8.toNat = c.toNat := by
  simp only [Char.isDigit, Bool.and_eq_true, decide_eq_true_eq] at h
  have hle : c.val.toNat ≤ 57 := UInt32.le_iff_toNat_le.mp h.2
  have hval : c.toNat = c.val.toNat := rfl
  rw [UInt32.toNat_toUInt8]
  omega

theorem isDigit_toUInt8 {c : Char} (h : c.isDigit = true) : isDigit c.val.toUInt8 = true := by
  have hnat := toNat_digit h
  simp only [Char.isDigit, Bool.and_eq_true, decide_eq_true_eq] at h
  have h0 : 48 ≤ c.val.toNat := UInt32.le_iff_toNat_le.mp h.1
  have h9 : c.val.toNat ≤ 57 := UInt32.le_iff_toNat_le.mp h.2
  simp only [isDigit, decide_eq_true_eq, UInt8.le_iff_toNat_le, hnat]
  exact ⟨h0, h9⟩

theorem isDigit_of_mem_decimal {n : Nat} {b : UInt8} (h : b ∈ decimal n) : isDigit b = true := by
  rw [decimal_natCast] at h
  obtain ⟨c, hc, rfl⟩ := mem_map.mp h
  exact isDigit_toUInt8 (Nat.isDigit_of_mem_toDigits (by decide) (by decide) hc)

theorem decimal_ne_nil (n : Nat) : decimal n ≠ [] := by
  rw [decimal_natCast]
  simp

theorem foldl_decimal (n : Nat) : (decimal n).foldl (fun n b => 10 * n + (b.toNat - 48)) 0 = n := by
  rw [decimal_natCast, foldl_map]
  have hfold := Nat.ofDigitChars_ten_toDigits (n := n)
  have hdigits : ∀ c ∈ Nat.toDigits 10 n, c.isDigit = true := fun c hc =>
    Nat.isDigit_of_mem_toDigits (by decide) (by decide) hc
  refine Eq.trans (foldl_ext _ _ _ fun m c hc => ?_) hfold
  rw [toNat_digit (hdigits c hc)]
  rfl

/-! ## Reading back -/

theorem takeWhile_digits {l rest : Bytes} (hl : ∀ b ∈ l, isDigit b = true)
    (hrest : ∀ b ∈ rest.head?, isDigit b = false) : (l ++ rest).takeWhile isDigit = l := by
  rw [takeWhile_append_of_pos hl]
  cases rest with
  | nil => simp
  | cons b rest => simp [hrest b rfl]

theorem decimal_inj {m n : Nat} (h : decimal m = decimal n) : m = n := by
  rw [← foldl_decimal m, h, foldl_decimal]

/-- A number in front of something that does not begin with a digit. -/
theorem decimal_append_inj {m n : Nat} {s t : Bytes} (hs : ∀ b ∈ s.head?, isDigit b = false)
    (ht : ∀ b ∈ t.head?, isDigit b = false) (h : decimal m ++ s = decimal n ++ t) :
    m = n ∧ s = t := by
  have htake := congrArg (takeWhile isDigit) h
  rw [takeWhile_digits (fun _ => isDigit_of_mem_decimal) hs,
    takeWhile_digits (fun _ => isDigit_of_mem_decimal) ht] at htake
  rw [htake] at h
  exact ⟨decimal_inj htake, append_cancel_left h⟩

theorem isSpace_of_isDigit {b : UInt8} (h : isDigit b = true) : isSpace b = false := by
  simp only [isDigit, isSpace, decide_eq_true_eq, decide_eq_false_iff_not,
    UInt8.le_iff_toNat_le, ← UInt8.toNat_inj, UInt8.reduceToNat] at h ⊢
  omega

def numeral (sign digits : Bytes) : Int :=
  let n : Nat := digits.foldl (fun n b => 10 * n + (b.toNat - 48)) 0
  if sign = [45] then -n else n

/-- `strtoll` reads blanks, a sign and digits, up to what does not begin with a digit. -/
theorem strtoll_eq {blanks sign digits rest : Bytes} (hblanks : ∀ b ∈ blanks, isSpace b = true)
    (hsign : sign = [] ∨ sign = [43] ∨ sign = [45]) (hne : digits ≠ [])
    (hdigits : ∀ b ∈ digits, isDigit b = true) (hrest : ∀ b ∈ rest.head?, isDigit b = false) :
    strtoll (blanks ++ (sign ++ (digits ++ rest))) = some (numeral sign digits, rest) := by
  have htake := takeWhile_digits hdigits hrest
  have hdrop : (digits ++ rest).dropWhile isDigit = rest := by
    have hsplit := takeWhile_append_dropWhile (p := isDigit) (l := digits ++ rest)
    rw [htake] at hsplit
    exact append_cancel_left hsplit
  obtain ⟨d, ds, rfl⟩ := exists_cons_of_ne_nil hne
  rw [cons_append] at htake hdrop
  have hd := hdigits d mem_cons_self
  have hfirst : d ≠ 45 ∧ d ≠ 43 := by
    constructor <;> rintro rfl <;> exact absurd hd (by decide)
  unfold strtoll numeral
  rw [dropWhile_append_of_pos hblanks]
  rcases hsign with rfl | rfl | rfl
  · simp [isSpace_of_isDigit hd, hfirst, htake, hdrop]
  · simp [isSpace, htake, hdrop]
  · simp [isSpace, htake, hdrop]

theorem takeWhile_ne_zero {str : Bytes} (h : 0 ∉ str) :
    str.takeWhile (fun b => decide (b ≠ 0)) = str := by
  rw [takeWhile_eq_self_iff]
  intro b hb
  rw [decide_eq_true_eq]
  rintro rfl
  exact h hb

theorem string2Int_decimal {n : Nat} (h : n < 2 ^ 63) :
    string2Int (decimal n) = some (n : Int) := by
  have hdigit : ∀ b ∈ decimal n, isDigit b = true := fun _ => isDigit_of_mem_decimal
  have hzero : (0 : UInt8) ∉ decimal n := fun h => absurd (hdigit 0 h) (by decide)
  have hread : strtoll (decimal n) = some ((n : Int), []) := by
    have hread := @strtoll_eq [] [] (decimal n) [] (by simp) (.inl rfl) (decimal_ne_nil n) hdigit
      (by simp)
    simpa [numeral, foldl_decimal] using hread
  rw [string2Int, takeWhile_ne_zero hzero, hread]
  dsimp only
  rw [if_pos ⟨rfl, by omega, by omega⟩]

end MemFabric.Smem.Store
