import Mathlib.Data.List.Basic
import Mathlib.Tactic.Linarith

/-!
# Byte strings in a buffer

Little-endian numbers, and decoders that read a buffer from an offset on.  A
decoder either accepts with a value and the next offset, rejects, or reads
outside the buffer; the last is kept apart so that it can be excluded.

`At buffer offset bytes` says that the bytes stand at the offset.  The
specification of a decoder is one equivalence: it accepts a value exactly when
the encoding of that value stands at the offset.
-/

namespace MemFabric.Wire

open List

abbrev Bytes := List UInt8

/-! ## Little-endian numbers -/

def leBytes : Nat → Nat → Bytes
  | 0, _ => []
  | w + 1, n => UInt8.ofNat n :: leBytes w (n / 256)

def leValue : Bytes → Nat
  | [] => 0
  | b :: l => b.toNat + 256 * leValue l

@[simp] theorem length_leBytes (w n : Nat) : (leBytes w n).length = w := by
  induction w generalizing n with
  | zero => rfl
  | succ w ih => simp [leBytes, ih]

theorem leValue_leBytes (w n : Nat) : leValue (leBytes w n) = n % 256 ^ w := by
  induction w generalizing n with
  | zero => simp [leBytes, leValue, Nat.mod_one]
  | succ w ih =>
    have hbyte : (UInt8.ofNat n).toNat = n % 256 := UInt8.toNat_ofNat'
    rw [leBytes, leValue, ih, hbyte, Nat.pow_succ', Nat.mod_mul]

theorem leBytes_leValue (l : Bytes) : leBytes l.length (leValue l) = l := by
  induction l with
  | nil => rfl
  | cons b l ih =>
    have hdiv : (b.toNat + 256 * leValue l) / 256 = leValue l := by
      have := b.toNat_lt
      omega
    have hmod : UInt8.ofNat (b.toNat + 256 * leValue l) = b := by
      apply UInt8.toNat_inj.mp
      rw [UInt8.toNat_ofNat']
      omega
    rw [length_cons, leValue, leBytes, hdiv, hmod, ih]

theorem leValue_lt (l : Bytes) : leValue l < 256 ^ l.length := by
  induction l with
  | nil => simp [leValue]
  | cons b l ih =>
    have := b.toNat_lt
    rw [leValue, length_cons]
    omega

variable {l buffer bytes : Bytes} {offset n : Nat} {ε α β : Type} {p : Prop}

theorem leBytes_eq_iff {w v : Nat} (hl : l.length = w) :
    leValue l = v ↔ v < 256 ^ w ∧ leBytes w v = l := by
  subst hl
  constructor
  · rintro rfl
    exact ⟨leValue_lt l, leBytes_leValue l⟩
  · rintro ⟨hv, hbytes⟩
    rw [← hbytes, leValue_leBytes, Nat.mod_eq_of_lt hv]

/-! ## Positions in a buffer -/

def At (buffer : Bytes) (offset : Nat) (bytes : Bytes) : Prop :=
  offset ≤ buffer.length ∧ bytes <+: buffer.drop offset

theorem At.le (h : At buffer offset bytes) : offset + bytes.length ≤ buffer.length := by
  have hlen := h.2.length_le
  rw [length_drop] at hlen
  have := h.1
  omega

theorem at_iff_slice :
    At buffer offset bytes ↔ offset + bytes.length ≤ buffer.length ∧
      (buffer.drop offset).take bytes.length = bytes := by
  constructor
  · intro h
    exact ⟨h.le, (prefix_iff_eq_take.mp h.2).symm⟩
  · rintro ⟨hle, hslice⟩
    exact ⟨by omega, hslice ▸ take_prefix _ _⟩

theorem at_append_iff {a b : Bytes} :
    At buffer offset (a ++ b) ↔ At buffer offset a ∧ At buffer (offset + a.length) b := by
  constructor
  · rintro ⟨hle, post, hpost⟩
    have hlen := congrArg length hpost
    simp only [length_append, length_drop] at hlen
    refine ⟨⟨hle, b ++ post, by rw [← hpost, append_assoc]⟩, by omega, post, ?_⟩
    rw [← drop_drop, ← hpost, append_assoc, drop_left]
  · rintro ⟨⟨hle, post, hpost⟩, -, post', hpost'⟩
    refine ⟨hle, post', ?_⟩
    rw [← drop_drop, ← hpost, drop_left] at hpost'
    rw [← hpost, ← hpost', append_assoc]

theorem at_nil_iff : At buffer offset [] ↔ offset ≤ buffer.length := by
  simp [At]

theorem at_zero_iff : At buffer 0 bytes ↔ bytes <+: buffer := by
  simp [At]

/-! ## Decoders -/

inductive Fail
  | rejected
  | outOfBounds
deriving DecidableEq

def load (buffer : Bytes) (offset n : Nat) : Except Fail Bytes :=
  if offset + n ≤ buffer.length then .ok ((buffer.drop offset).take n) else .error .outOfBounds

def check (p : Prop) [Decidable p] : Except Fail Unit := if p then .ok () else .error .rejected

theorem load_eq_ok_iff : load buffer offset n = .ok l ↔ l.length = n ∧ At buffer offset l := by
  rw [load, at_iff_slice]
  constructor
  · split_ifs with h
    · intro heq
      obtain rfl := Except.ok.inj heq
      have hlen : ((buffer.drop offset).take n).length = n := by
        rw [length_take, length_drop]
        omega
      exact ⟨hlen, by rw [hlen]; exact ⟨h, rfl⟩⟩
    · exact fun heq => by cases heq
  · rintro ⟨rfl, hle, hslice⟩
    rw [if_pos hle, hslice]

theorem bind_eq_ok_iff {x : Except ε α} {f : α → Except ε β} {b : β} :
    (x >>= f) = .ok b ↔ ∃ a, x = .ok a ∧ f a = .ok b := by
  cases x <;> simp [bind, Except.bind]

@[simp] theorem check_eq_ok_iff [Decidable p] {u : Unit} : check p = .ok u ↔ p := by
  unfold check
  split_ifs <;> simp_all

/-- Nothing outside the buffer is read. -/
def Inside (x : Except Fail α) : Prop := x ≠ .error .outOfBounds

theorem inside_ok (a : α) : Inside (.ok a) := by simp [Inside]

theorem inside_load (h : offset + n ≤ buffer.length) : Inside (load buffer offset n) := by
  simp [Inside, load, h]

theorem inside_check [Decidable p] : Inside (check p) := by
  unfold Inside check
  split_ifs <;> simp

theorem inside_bind {x : Except Fail α} {f : α → Except Fail β} (hx : Inside x)
    (hf : ∀ a, x = .ok a → Inside (f a)) : Inside (x >>= f) := by
  cases x with
  | error e => exact fun h => hx (congrArg _ (Except.error.inj h))
  | ok a => exact hf a rfl

end MemFabric.Wire
