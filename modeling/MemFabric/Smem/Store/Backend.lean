import MemFabric.Machine.Table
import MemFabric.Wire.Bytes
import MemFabric.Simt.Word

/-!
# The store behind the server

`ConfigStoreBackend` as a map from keys to values whose calls may fail without
effect: `fault n` is the failure of the `n`-th call from now on, if it fails.
`SmemLocalMemoryBackend` is the backend whose calls never fail.

Numbers are kept as decimal strings; `string2Int` is `StrUtil::String2Int<long>`.
-/

namespace MemFabric.Smem.Store

open Machine Wire

inductive StoreErrorCode
  | success
  | error
  | invalidMessage
  | invalidKey
  | notExist
  | restore
  | timeout
  | ioError
deriving DecidableEq

abbrev Failure := { code : StoreErrorCode // code ≠ .success }

def ascii (s : String) : Bytes := s.toUTF8.data.toList

/-! ## Backends -/

structure Backend where
  kvStore : Table Bytes Bytes := ∅
  fault : Nat → Option Failure := fun _ => none

namespace Backend

def called (b : Backend) : Backend := { b with fault := fun n => b.fault (n + 1) }

structure GetResult where
  ret : StoreErrorCode
  value : Bytes
  backend : Backend

/-- `Get(key, outValue)`, where `out` is the content of `outValue` before. -/
def get (b : Backend) (key out : Bytes) : GetResult :=
  match b.fault 0 with
  | some f => ⟨f.1, out, b.called⟩
  | none =>
    match b.kvStore.lookup key with
    | none => ⟨.notExist, out, b.called⟩
    | some value => ⟨.success, value, b.called⟩

structure Result where
  ret : StoreErrorCode
  backend : Backend

/-- `Put`; the time to live is not used in memory. -/
def put (b : Backend) (key value : Bytes) : Result :=
  match b.fault 0 with
  | some f => ⟨f.1, b.called⟩
  | none => ⟨.success, { b.called with kvStore := b.kvStore.insert key value }⟩

def delete (b : Backend) (key : Bytes) : Result :=
  match b.fault 0 with
  | some f => ⟨f.1, b.called⟩
  | none =>
    ⟨if key ∈ b.kvStore then .success else .notExist,
      { b.called with kvStore := b.kvStore.erase key }⟩

def exist (b : Backend) (key : Bytes) : Result :=
  match b.fault 0 with
  | some f => ⟨f.1, b.called⟩
  | none => ⟨if key ∈ b.kvStore then .success else .notExist, b.called⟩

structure PrefixResult where
  ret : StoreErrorCode
  entries : List (Bytes × Bytes)
  backend : Backend

/-- `PrefixGet`: the ordered map keeps the keys with the same beginning together. -/
def prefixGet (b : Backend) (key : Bytes) : PrefixResult :=
  match b.fault 0 with
  | some f => ⟨f.1, [], b.called⟩
  | none =>
    ⟨.success, (b.kvStore.entries.map fun e => (e.1, e.2)).filter fun e => key.isPrefixOf e.1,
      b.called⟩

def clear (b : Backend) : Backend := { b with kvStore := ∅ }

/-! ## Calls -/

/-- No call fails: `SmemLocalMemoryBackend`. -/
def InMemory (b : Backend) : Prop := ∀ n, b.fault n = none

variable {b : Backend} {key value out : Bytes}

theorem InMemory.called (h : b.InMemory) : b.called.InMemory := fun n => h (n + 1)

@[simp] theorem kvStore_called (b : Backend) : b.called.kvStore = b.kvStore := rfl

theorem get_of_inMemory (h : b.InMemory) :
    b.get key out = ⟨if key ∈ b.kvStore then .success else .notExist,
      (b.kvStore.lookup key).getD out, b.called⟩ := by
  unfold get
  rw [h 0]
  cases hv : b.kvStore.lookup key with
  | none => simp [AList.lookup_eq_none.mp hv]
  | some v =>
    have hmem : key ∈ b.kvStore := AList.lookup_isSome.mp (by rw [hv]; rfl)
    simp [hmem]

theorem put_of_ok (h : b.fault 0 = none) :
    b.put key value = ⟨.success, { b.called with kvStore := b.kvStore.insert key value }⟩ := by
  rw [put, h]

theorem put_of_fault {f : Failure} (h : b.fault 0 = some f) :
    b.put key value = ⟨f.1, b.called⟩ := by
  rw [put, h]

theorem get_of_found (h : b.fault 0 = none) (hv : b.kvStore.lookup key = some value) :
    b.get key out = ⟨.success, value, b.called⟩ := by
  rw [get, h, hv]

@[simp] theorem get_backend : (b.get key out).backend = b.called := by
  unfold get
  split
  · rfl
  · split <;> rfl

theorem get_ret_eq_success_iff :
    (b.get key out).ret = .success ↔
      b.fault 0 = none ∧ b.kvStore.lookup key = some (b.get key out).value := by
  unfold get
  cases hf : b.fault 0 with
  | some f => simp [f.2]
  | none => cases b.kvStore.lookup key <;> simp

theorem get_value_of_ne (h : (b.get key out).ret ≠ .success) : (b.get key out).value = out := by
  unfold get at h ⊢
  cases hf : b.fault 0 with
  | some f => rfl
  | none =>
    cases hv : b.kvStore.lookup key with
    | none => rfl
    | some v => simp [hf, hv] at h

theorem put_ret_eq_success_iff : (b.put key value).ret = .success ↔ b.fault 0 = none := by
  unfold put
  cases hf : b.fault 0 with
  | some f => simp [f.2]
  | none => simp

theorem kvStore_put :
    (b.put key value).backend.kvStore =
      if (b.put key value).ret = .success then b.kvStore.insert key value else b.kvStore := by
  unfold put
  cases hf : b.fault 0 with
  | some f => simp [f.2]
  | none => simp

theorem fault_put : (b.put key value).backend.fault = b.called.fault := by
  unfold put
  split <;> rfl

end Backend

/-! ## Numbers -/

def isSpace (b : UInt8) : Bool := b = 32 ∨ 9 ≤ b ∧ b ≤ 13

def isDigit (b : UInt8) : Bool := 48 ≤ b ∧ b ≤ 57

/-- `strtoll` in base 10: the number before it is clamped, and what is left of the
string. -/
def strtoll (str : Bytes) : Option (Int × Bytes) :=
  let str := str.dropWhile isSpace
  let negative := str.head? = some 45
  let str := if negative ∨ str.head? = some 43 then str.tail else str
  let digits := str.takeWhile isDigit
  let n : Nat := digits.foldl (fun n b => 10 * n + (b.toNat - 48)) 0
  if digits.isEmpty then none
  else some (if negative then -(n : Int) else n, str.dropWhile isDigit)

/-- `StrUtil::String2Int<long>`; the C string ends at the first zero byte. -/
def string2Int (str : Bytes) : Option Int :=
  match strtoll (str.takeWhile (· ≠ 0)) with
  | none => none
  | some (n, rest) => if rest.all isSpace ∧ -2 ^ 63 ≤ n ∧ n < 2 ^ 63 then some n else none

/-- `StrUtil::String2Uint<uint32_t>`; `strtoull` reads a sign after blanks and negates
in 64 bits. -/
def string2Uint (str : Bytes) : Option Nat :=
  if str.head? = some 45 then none
  else
    match strtoll (str.takeWhile (· ≠ 0)) with
    | none => none
    | some (n, rest) =>
      if rest.all isSpace ∧ n.natAbs < 2 ^ 64 ∧ n % 2 ^ 64 < 2 ^ 32 then some (n % 2 ^ 64).toNat
      else none

/-- `std::to_string`. -/
def decimal (n : Int) : Bytes := ascii (toString n)

end MemFabric.Smem.Store
