import MemFabric.Machine.Run
import MemFabric.Wire.Bytes
import Mathlib.Data.List.GetD

/-!
# Exchange infos

`ExchangeInfoWriter` and `ExchangeInfoReader` of `hybm_ex_info_transfer.h`.  Neither looks at
the size of `desc` before it copies, so that the memory behind it is part of the model, and
`descLen` comes first there.
-/

namespace MemFabric.Hybm

open Machine Wire List

/-! ## Memory -/

/-- `std::copy_n` to the address `dst`. -/
def copyTo (m : Nat → UInt8) (dst : Nat) (data : Bytes) (i : Nat) : UInt8 :=
  if i < dst then m i else data.getD (i - dst) (m i)

section

variable {m : Nat → UInt8} {dst i : Nat} {data : Bytes}

theorem copyTo_congr {m' : Nat → UInt8} (h : m i = m' i) :
    copyTo m dst data i = copyTo m' dst data i := by
  rw [copyTo, copyTo, h]

theorem copyTo_of_lt (h : i < dst) : copyTo m dst data i = m i := if_pos h

theorem copyTo_of_le (h : dst + data.length ≤ i) : copyTo m dst data i = m i := by
  rw [copyTo, if_neg (by omega), getD_eq_default _ _ (by omega)]

theorem copyTo_of_mem (h : dst ≤ i) (h' : i < dst + data.length) (b : UInt8) :
    copyTo m dst data i = data.getD (i - dst) b := by
  have hlt : i - dst < data.length := by omega
  rw [copyTo, if_neg (not_lt.mpr h), getD_eq_getElem _ _ hlt, getD_eq_getElem _ _ hlt]

end

/-- The memory from `desc` on: its 512 bytes, the four of `descLen`, and what lies behind. -/
@[ext] structure HybmExchangeInfo where
  bytes : Nat → UInt8

namespace HybmExchangeInfo

variable (info : HybmExchangeInfo)

def descLen : Nat := leValue ((range 4).map fun i => info.bytes (512 + i))

def setDescLen (n : Nat) : HybmExchangeInfo := ⟨copyTo info.bytes 512 (leBytes 4 n)⟩

variable {info}

theorem bytes_setDescLen_of_lt {n i : Nat} (h : i < 512) :
    (info.setDescLen n).bytes i = info.bytes i := copyTo_of_lt h

theorem bytes_setDescLen_of_le {n i : Nat} (h : 516 ≤ i) :
    (info.setDescLen n).bytes i = info.bytes i :=
  copyTo_of_le (by rw [length_leBytes]; omega)

theorem descLen_setDescLen (n : Nat) : (info.setDescLen n).descLen = n % 2 ^ 32 := by
  have hbytes : (range 4).map (fun i => (info.setDescLen n).bytes (512 + i)) = leBytes 4 n := by
    refine ext_getElem (by simp) fun i hi hi' => ?_
    rw [length_leBytes] at hi'
    have hlt : 512 + i < 512 + (leBytes 4 n).length := by rw [length_leBytes]; omega
    rw [getElem_map, getElem_range]
    refine (copyTo_of_mem (Nat.le_add_right 512 i) hlt 0).trans ?_
    rw [Nat.add_sub_cancel_left, getD_eq_getElem]
  rw [descLen, hbytes, leValue_leBytes]
  rfl

theorem setDescLen_setDescLen (n k : Nat) :
    (info.setDescLen n).setDescLen k = info.setDescLen k := by
  refine HybmExchangeInfo.ext (funext fun i => ?_)
  rcases lt_or_ge i 512 with hi | hi
  · rw [bytes_setDescLen_of_lt hi, bytes_setDescLen_of_lt hi, bytes_setDescLen_of_lt hi]
  · rcases lt_or_ge i 516 with hi' | hi'
    · have hlt : i < 512 + (leBytes 4 k).length := by rw [length_leBytes]; omega
      exact (copyTo_of_mem hi hlt 0).trans (copyTo_of_mem hi hlt 0).symm
    · rw [bytes_setDescLen_of_le hi', bytes_setDescLen_of_le hi', bytes_setDescLen_of_le hi']

end HybmExchangeInfo

open HybmExchangeInfo

/-! ## The writer -/

/-- The constructor. -/
def exchangeInfoWriter (info : HybmExchangeInfo) : HybmExchangeInfo := info.setDescLen 0

/-- `Append`, which does not look at the length of the data.  The length that is added to is
the one after the copy. -/
def ExchangeInfoWriter.append (info : HybmExchangeInfo) (data : Bytes) :
    HybmExchangeInfo × List Int :=
  if 512 < info.descLen then (info, [-1])
  else
    let copied : HybmExchangeInfo := ⟨copyTo info.bytes info.descLen data⟩
    (copied.setDescLen (copied.descLen + data.length), [0])

/-! ## The reader -/

structure ExchangeInfoReader where
  exchangeInfo : HybmExchangeInfo
  readOffset : Nat := 0

namespace ExchangeInfoReader

variable (r : ExchangeInfoReader)

/-- `Test`; there are no bytes if the read is refused. -/
def test (length : Nat) : Option Bytes :=
  if r.exchangeInfo.descLen < (r.readOffset + length) % 2 ^ 64 then none
  else some ((range length).map fun i => r.exchangeInfo.bytes (r.readOffset + i))

def read (length : Nat) : ExchangeInfoReader × List (Option Bytes) :=
  match r.test length with
  | none => (r, [none])
  | some bytes => ({ r with readOffset := (r.readOffset + length) % 2 ^ 32 }, [some bytes])

def leftBytes : Nat := r.exchangeInfo.descLen - r.readOffset

end ExchangeInfoReader

open ExchangeInfoWriter ExchangeInfoReader

/-! ## Data that fits -/

/-- The bytes `l` have been appended. -/
def written (info : HybmExchangeInfo) (l : Bytes) : HybmExchangeInfo :=
  HybmExchangeInfo.setDescLen ⟨copyTo info.bytes 0 l⟩ l.length

section

variable {info : HybmExchangeInfo} {l d l' : Bytes} {ds : List Bytes} {i : Nat}

theorem descLen_written (h : l.length ≤ 512) : (written info l).descLen = l.length := by
  rw [written, descLen_setDescLen, Nat.mod_eq_of_lt (by omega)]

theorem bytes_written_of_lt (h : l.length ≤ 512) (hi : i < l.length) :
    (written info l).bytes i = l.get ⟨i, hi⟩ := by
  rw [written, bytes_setDescLen_of_lt (by omega)]
  refine (copyTo_of_mem (Nat.zero_le i) (by omega) 0).trans ?_
  exact getD_eq_getElem _ _ hi

theorem bytes_written_of_le (h : l.length ≤ 512) (hi : 516 ≤ i) :
    (written info l).bytes i = info.bytes i := by
  have hbehind : 0 + l.length ≤ i := by omega
  rw [written, bytes_setDescLen_of_le hi]
  exact copyTo_of_le hbehind

theorem copyTo_append :
    copyTo (copyTo info.bytes 0 l) l.length d = copyTo info.bytes 0 (l ++ d) := by
  funext i
  simp only [copyTo, Nat.not_lt_zero, if_false, Nat.sub_zero]
  split_ifs with hi
  · rw [getD_append _ _ _ _ hi]
  · rw [getD_append_right _ _ _ _ (not_lt.mp hi), getD_eq_default l _ (not_lt.mp hi)]

theorem append_written (h : l.length + d.length ≤ 512) :
    append (written info l) d = (written info (l ++ d), [0]) := by
  have hlen : (written info l).descLen = l.length := descLen_written (by omega)
  -- the copy ends before `descLen`, and can be made before `descLen` is set
  have hcopy : (⟨copyTo (written info l).bytes l.length d⟩ : HybmExchangeInfo) =
      HybmExchangeInfo.setDescLen ⟨copyTo info.bytes 0 (l ++ d)⟩ l.length := by
    refine HybmExchangeInfo.ext (funext fun i => ?_)
    rw [← copyTo_append]
    rcases lt_or_ge i 512 with hi | hi
    · rw [bytes_setDescLen_of_lt hi]
      simp only [copyTo, written, setDescLen, if_pos hi]
    · have hbehind : l.length + d.length ≤ i := by omega
      exact (copyTo_of_le hbehind).trans (copyTo_congr (copyTo_of_le hbehind).symm)
  rw [append, hlen, if_neg (by omega)]
  dsimp only
  rw [hcopy, descLen_setDescLen, setDescLen_setDescLen, Nat.mod_eq_of_lt (by omega), written,
    length_append]

theorem run_append (h : (l ++ ds.flatten).length ≤ 512) :
    run append (written info l) ds =
      (written info (l ++ ds.flatten), replicate ds.length 0) := by
  induction ds generalizing l with
  | nil => simp [run]
  | cons d ds ih =>
    rw [flatten_cons, ← append_assoc] at h ⊢
    rw [run, append_written (by simp only [length_append] at h; omega), ih h]
    rfl

theorem read_written (h : (l ++ (d ++ l')).length ≤ 512) :
    ExchangeInfoReader.read ⟨written info (l ++ (d ++ l')), l.length⟩ d.length =
      (⟨written info (l ++ (d ++ l')), (l ++ d).length⟩, [some d]) := by
  have hlen := h
  simp only [length_append] at hlen
  have htest : test ⟨written info (l ++ (d ++ l')), l.length⟩ d.length = some d := by
    unfold test
    dsimp only
    rw [descLen_written h, if_neg (by rw [Nat.mod_eq_of_lt (by omega)]; simp)]
    refine congrArg some (ext_getElem (by simp) fun i hi hi' => ?_)
    rw [getElem_map, getElem_range, bytes_written_of_lt h (by simp; omega)]
    simp [getElem_append_right, getElem_append_left hi']
  rw [ExchangeInfoReader.read, htest, length_append]
  dsimp only
  rw [Nat.mod_eq_of_lt (by omega)]

theorem run_read (h : (l ++ (ds.flatten ++ l')).length ≤ 512) :
    run read ⟨written info (l ++ (ds.flatten ++ l')), l.length⟩ (ds.map length) =
      (⟨written info (l ++ (ds.flatten ++ l')), (l ++ ds.flatten).length⟩, ds.map some) := by
  induction ds generalizing l with
  | nil => simp [run]
  | cons d ds ih =>
    rw [flatten_cons, append_assoc] at h ⊢
    have hrest := ih (l := l ++ d) (by rw [append_assoc]; exact h)
    rw [append_assoc] at hrest
    rw [map_cons, run, read_written h, hrest, append_assoc]
    rfl

end

/-! ## Transfers -/

/-- Appends that fit into the descriptor succeed and write nothing behind the info; the same
lengths read in the same order are the data, and no more can be read than is left, unless the
end wraps.  One append more is accepted whether it fits or not. -/
theorem exchange_info_transfer (info : HybmExchangeInfo) (ds rest : List Bytes)
    (hfits : (ds ++ rest).flatten.length ≤ 512) :
    let w := run append (exchangeInfoWriter info) (ds ++ rest)
    let r := run read ⟨w.1, 0⟩ (ds.map length)
    w.2 = replicate (ds ++ rest).length 0 ∧ w.1.descLen = (ds ++ rest).flatten.length ∧
      (∀ i ≥ 516, w.1.bytes i = info.bytes i) ∧ r.2 = ds.map some ∧
      r.1.leftBytes = rest.flatten.length ∧
      (∀ length < 2 ^ 64, r.1.read length = (r.1, [none]) ↔
        r.1.leftBytes < length ∧ r.1.readOffset + length < 2 ^ 64) ∧
      ∀ d, (append w.1 d).2 = [0] := by
  have hw : run append (exchangeInfoWriter info) (ds ++ rest) = _ := run_append (l := []) hfits
  rw [nil_append, flatten_append] at hw
  rw [flatten_append] at hfits ⊢
  have hr : run read ⟨written info (ds.flatten ++ rest.flatten), 0⟩ (ds.map length) = _ :=
    run_read (l := []) hfits
  have hlen : (written info (ds.flatten ++ rest.flatten)).descLen = _ := descLen_written hfits
  dsimp only
  rw [hw, hr]
  simp only [nil_append, true_and]
  refine ⟨hlen, fun i hi => bytes_written_of_le hfits hi, ?_, fun length hlength => ?_,
    fun d => ?_⟩
  · rw [leftBytes, hlen, length_append, Nat.add_sub_cancel_left]
  · rw [length_append] at hfits
    rw [leftBytes, ExchangeInfoReader.read, test, hlen, length_append]
    dsimp only
    split_ifs with hrefused
    · refine iff_of_true rfl ?_
      omega
    · refine iff_of_false (fun heq => ?_) (by omega)
      simp at heq
  · rw [append, hlen, if_neg (by omega)]

theorem exchange_info_transfer_twoAppends :
    (run read ⟨(run append (exchangeInfoWriter ⟨fun _ => 0⟩) [[1, 2], [3]]).1, 0⟩ [2, 1]).2 =
      [some [1, 2], some [3]] :=
  (exchange_info_transfer ⟨fun _ => 0⟩ [[1, 2], [3]] [] (by decide)).2.2.2.1

/-- One byte more than the descriptor has is appended: it is written over the lowest byte of
`descLen`, and the length is added to the result.  And a length that wraps is read. -/
theorem append_behind_desc :
    let w := append (exchangeInfoWriter ⟨fun _ => 0⟩) (replicate 513 1)
    w.2 = [0] ∧ w.1.descLen = 514 ∧ w.1.bytes 512 = 2 ∧
      (test ⟨written ⟨fun _ => 0⟩ (replicate 8 1), 8⟩ (2 ^ 64 - 8)).isSome := by
  refine ⟨by decide +kernel, by decide +kernel, by decide +kernel, ?_⟩
  rw [test, if_neg (by decide +kernel)]
  rfl

end MemFabric.Hybm
