import MemFabric.Simt.Word
import MemFabric.Wire.Bytes

/-!
# Store messages

`smem_message_packer.cpp`: a message is packed as its total size, the user
value, the type, the keys and the values, every list with its count and every
string with its length in front.  All numbers are little-endian, and sizes and
offsets are `uint64_t`.

`Unpack` accepts exactly the buffers that start with the packed form of a
message within the limits, and never reads outside the buffer, whatever counts
and lengths the buffer declares.
-/

namespace MemFabric.Smem.Store

open Simt Wire List

/-! ## Messages -/

inductive MessageType
  | set
  | get
  | prefixGet
  | watch
  | add
  | remove
  | append
  | cas
  | write
  | queryAlive
  | watchRankState
  | heartbeat
  | invalidMsg
deriving DecidableEq

def MessageType.all : List MessageType :=
  [set, get, prefixGet, watch, add, remove, append, cas, write, queryAlive, watchRankState,
    heartbeat, invalidMsg]

def MessageType.code : MessageType → Nat
  | set => 0
  | get => 1
  | prefixGet => 2
  | watch => 3
  | add => 4
  | remove => 5
  | append => 6
  | cas => 7
  | write => 8
  | queryAlive => 9
  | watchRankState => 10
  | heartbeat => 11
  | invalidMsg => 12

structure SmemMessage where
  mt : MessageType
  userDef : Int64 := -1
  keys : List Bytes := []
  values : List Bytes := []
deriving DecidableEq

/-- `MAX_KEY_COUNT` and `MAX_VALUE_COUNT`. -/
def maxCount : Nat := 1024

def maxKeySize : Nat := 2048

def maxValueSize : Nat := 64 * 1024 * 1024

/-- `uint64_t` arithmetic. -/
def uint64 (n : Nat) : Nat := n % 2 ^ 64

/-! ## Packing -/

/-- `PackString` and `PackBytes`. -/
def packBytes (bytes : Bytes) : Bytes := leBytes 8 bytes.length ++ bytes

/-- `size + userDef + mt + keyN + vN`. -/
def baseSize : Nat := 4 * 8 + 2

def totalSize (m : SmemMessage) : Nat :=
  let n := m.keys.foldl (fun n key => uint64 (n + uint64 (8 + key.length))) baseSize
  m.values.foldl (fun n value => uint64 (n + uint64 (8 + value.length))) n

/-- The count and the strings of one of the two lists. -/
def packList (l : List Bytes) : Bytes := leBytes 8 l.length ++ l.flatMap packBytes

def pack (m : SmemMessage) : Bytes :=
  leBytes 8 (totalSize m) ++ leBytes 8 m.userDef.toUInt64.toNat ++ leBytes 2 m.mt.code ++
    packList m.keys ++ packList m.values

/-! ## Unpacking -/

/-- `ReadScalar` for a type of `w` bytes: the value and the next offset. -/
def readScalar (w : Nat) (buffer : Bytes) (offset : Nat) : Except Fail (Nat × Nat) := do
  check (uint64 (offset + w) ≤ buffer.length)
  let bytes ← load buffer offset w
  .ok (leValue bytes, uint64 (offset + w))

def full (buffer : Bytes) : Except Fail Bool := do
  if buffer.length < baseSize then .ok false
  else
    let (totalSize, _) ← readScalar 8 buffer 0
    .ok (decide (totalSize ≤ buffer.length))

/-- One iteration of the loops over keys and values. -/
def readString (maxSize : Nat) (buffer : Bytes) (length : Nat) : Except Fail (Bytes × Nat) := do
  let (size, length) ← readScalar 8 buffer length
  check (size ≤ maxSize ∧ uint64 (length + size) ≤ buffer.length)
  let bytes ← load buffer length size
  .ok (bytes, uint64 (length + size))

/-- The loops over keys and values. -/
def readStrings (maxSize : Nat) (buffer : Bytes) : Nat → Nat → Except Fail (List Bytes × Nat)
  | 0, length => .ok ([], length)
  | count + 1, length => do
    let (bytes, length) ← readString maxSize buffer length
    let (rest, length) ← readStrings maxSize buffer count length
    .ok (bytes :: rest, length)

/-- The count of one of the two lists, and its strings. -/
def readList (maxSize : Nat) (buffer : Bytes) (length : Nat) : Except Fail (List Bytes × Nat) := do
  let (count, length) ← readScalar 8 buffer length
  check (count ≤ maxCount)
  readStrings maxSize buffer count length

def int16 (raw : Nat) : Int := (raw : Int).bmod (2 ^ 16)

/-- The type read from two bytes, which must be `SET <= mt <= INVALID_MSG`. -/
def messageType (raw : Nat) : Except Fail MessageType :=
  if int16 raw < 0 then .error .rejected
  else (MessageType.all[raw]?).elim (.error .rejected) .ok

/-- The part of `Unpack` after the type. -/
def unpackLists (mt : MessageType) (userDef : Int64) (totalSize : Nat) (buffer : Bytes)
    (length : Nat) : Except Fail (Int × SmemMessage) := do
  let (keys, length) ← readList maxKeySize buffer length
  let (values, length) ← readList maxValueSize buffer length
  check (totalSize = length)
  .ok (int64 totalSize, ⟨mt, userDef, keys, values⟩)

/-- The `int64_t` result and the message; `rejected` is the result `-1`. -/
def unpack (buffer : Bytes) : Except Fail (Int × SmemMessage) := do
  let isFull ← full buffer
  check (isFull = true)
  let (totalSize, length) ← readScalar 8 buffer 0
  let (userDef, length) ← readScalar 8 buffer length
  let (raw, length) ← readScalar 2 buffer length
  let mt ← messageType raw
  unpackLists mt (UInt64.ofNat userDef).toInt64 totalSize buffer length

/-! ## Sizes -/

variable {n maxSize raw total offset : Nat} {l : List Bytes} {m : SmemMessage} {mt : MessageType}
  {buffer : Bytes} {userDef : Int64}

theorem uint64_eq (h : n < 2 ^ 64) : uint64 n = n := Nat.mod_eq_of_lt h

@[simp] theorem length_packBytes (bytes : Bytes) : (packBytes bytes).length = 8 + bytes.length := by
  simp [packBytes]

/-- The limits `Unpack` enforces. -/
structure WithinLimits (m : SmemMessage) : Prop where
  keyCount : m.keys.length ≤ maxCount
  keySize : ∀ key ∈ m.keys, key.length ≤ maxKeySize
  valueCount : m.values.length ≤ maxCount
  valueSize : ∀ value ∈ m.values, value.length ≤ maxValueSize

theorem length_flatMap_packBytes_le (h : ∀ bytes ∈ l, bytes.length ≤ maxSize) :
    (l.flatMap packBytes).length ≤ l.length * (8 + maxSize) := by
  induction l with
  | nil => simp
  | cons bytes l ih =>
    have hhead := h bytes (by simp)
    have htail := ih fun b hb => h b (by simp [hb])
    rw [flatMap_cons, length_append, length_packBytes, length_cons, Nat.succ_mul]
    omega

theorem foldl_size (h : n + (l.flatMap packBytes).length < 2 ^ 64) :
    l.foldl (fun n bytes => uint64 (n + uint64 (8 + bytes.length))) n =
      n + (l.flatMap packBytes).length := by
  induction l generalizing n with
  | nil => simp
  | cons bytes l ih =>
    rw [flatMap_cons, length_append, length_packBytes] at h ⊢
    rw [foldl_cons, uint64_eq (by omega : 8 + bytes.length < 2 ^ 64), uint64_eq (by omega),
      ih (by omega)]
    omega

theorem length_pack (m : SmemMessage) : (pack m).length =
    baseSize + (m.keys.flatMap packBytes).length + (m.values.flatMap packBytes).length := by
  simp only [pack, packList, length_append, length_leBytes, baseSize]
  omega

theorem length_pack_lists (m : SmemMessage) :
    (pack m).length = 18 + (packList m.keys).length + (packList m.values).length := by
  simp only [pack, length_append, length_leBytes]

theorem WithinLimits.length_pack_lt (h : WithinLimits m) : (pack m).length < 2 ^ 40 := by
  have hkeys := length_flatMap_packBytes_le h.keySize
  have hvalues := length_flatMap_packBytes_le h.valueSize
  have hk := Nat.mul_le_mul_right (8 + maxKeySize) h.keyCount
  have hv := Nat.mul_le_mul_right (8 + maxValueSize) h.valueCount
  rw [length_pack]
  simp only [maxCount, maxKeySize, maxValueSize, baseSize] at *
  omega

theorem totalSize_eq (h : (pack m).length < 2 ^ 64) : totalSize m = (pack m).length := by
  rw [length_pack] at h ⊢
  have hkeys := foldl_size (l := m.keys) (n := baseSize) (by omega)
  rw [totalSize, hkeys, foldl_size (by omega)]

theorem WithinLimits.totalSize_eq (h : WithinLimits m) : totalSize m = (pack m).length := by
  have := h.length_pack_lt
  exact Store.totalSize_eq (by omega)

/-! ## Decoders -/

section Decoders

variable {buffer : Bytes} {offset next : Nat}

variable {w maxSize count : Nat} {l : List Bytes}

theorem readScalar_eq_ok_iff {v : Nat} (hw : offset + w < 2 ^ 64) :
    readScalar w buffer offset = .ok (v, next) ↔
      v < 256 ^ w ∧ At buffer offset (leBytes w v) ∧ next = offset + w := by
  simp only [readScalar, bind_eq_ok_iff, check_eq_ok_iff, load_eq_ok_iff, uint64_eq hw,
    Except.ok.injEq, Prod.mk.injEq, exists_const]
  constructor
  · rintro ⟨-, bytes, ⟨hlen, hat⟩, hv, rfl⟩
    obtain ⟨hlt, hbytes⟩ := (leBytes_eq_iff hlen).mp hv
    exact ⟨hlt, hbytes ▸ hat, rfl⟩
  · rintro ⟨hlt, hat, rfl⟩
    have hle := hat.le
    rw [length_leBytes] at hle
    exact ⟨hle, _, ⟨length_leBytes w v, hat⟩,
      (leBytes_eq_iff (length_leBytes w v)).mpr ⟨hlt, rfl⟩, rfl⟩

theorem inside_readScalar (hw : offset + w < 2 ^ 64) : Inside (readScalar w buffer offset) := by
  refine inside_bind inside_check fun _ hle => inside_bind (inside_load ?_) fun _ _ => inside_ok _
  rwa [check_eq_ok_iff, uint64_eq hw] at hle

theorem inside_readScalar_bind {α : Type} {f : Nat × Nat → Except Fail α} (hw : offset + w < 2 ^ 64)
    (h : ∀ v, Inside (f (v, offset + w))) : Inside (readScalar w buffer offset >>= f) := by
  refine inside_bind (inside_readScalar hw) fun r hr => ?_
  obtain ⟨v, next⟩ := r
  obtain ⟨-, -, rfl⟩ := (readScalar_eq_ok_iff hw).mp hr
  exact h v

theorem readString_eq_ok_iff {bytes : Bytes} (h : offset + 8 + maxSize < 2 ^ 64) :
    readString maxSize buffer offset = .ok (bytes, next) ↔
      bytes.length ≤ maxSize ∧ At buffer offset (packBytes bytes) ∧
        next = offset + (packBytes bytes).length := by
  simp only [readString, bind_eq_ok_iff, check_eq_ok_iff, load_eq_ok_iff, Prod.exists,
    readScalar_eq_ok_iff (by omega : offset + 8 < 2 ^ 64), Except.ok.injEq, Prod.mk.injEq,
    exists_const, packBytes, at_append_iff, length_leBytes, length_append]
  constructor
  · rintro ⟨size, _, ⟨hlt, hat, rfl⟩, ⟨hmax, -⟩, _, ⟨rfl, hbytes⟩, rfl, rfl⟩
    exact ⟨hmax, ⟨hat, hbytes⟩, by rw [uint64_eq (by omega), add_assoc]⟩
  · rintro ⟨hmax, ⟨hat, hbytes⟩, rfl⟩
    have hle := hbytes.le
    refine ⟨bytes.length, offset + 8, ⟨by omega, hat, rfl⟩, ⟨hmax, ?_⟩, bytes, ⟨rfl, hbytes⟩,
      rfl, ?_⟩
    · rw [uint64_eq (by omega)]
      exact hle
    · rw [uint64_eq (by omega), add_assoc]

theorem inside_readString (h : offset + 8 + maxSize < 2 ^ 64) :
    Inside (readString maxSize buffer offset) := by
  refine inside_readScalar_bind (by omega) fun size => ?_
  refine inside_bind inside_check fun _ hle => inside_bind (inside_load ?_) fun _ _ => inside_ok _
  rw [check_eq_ok_iff] at hle
  have hend := uint64_eq (n := offset + 8 + size) (by omega)
  omega

theorem readStrings_eq_ok_iff (hoff : offset ≤ buffer.length)
    (h : offset + count * (8 + maxSize) < 2 ^ 64) :
    readStrings maxSize buffer count offset = .ok (l, next) ↔
      l.length = count ∧ (∀ bytes ∈ l, bytes.length ≤ maxSize) ∧
        At buffer offset (l.flatMap packBytes) ∧ next = offset + (l.flatMap packBytes).length := by
  induction count generalizing offset l with
  | zero =>
    rw [readStrings, Except.ok.injEq, Prod.mk.injEq]
    constructor
    · rintro ⟨rfl, rfl⟩
      exact ⟨rfl, by simp, by simpa [at_nil_iff] using hoff, rfl⟩
    · rintro ⟨hl, -, -, rfl⟩
      rw [eq_nil_of_length_eq_zero hl]
      exact ⟨rfl, rfl⟩
  | succ count ih =>
    rw [Nat.succ_mul] at h
    simp only [readStrings, bind_eq_ok_iff, Prod.exists,
      readString_eq_ok_iff (by omega : offset + 8 + maxSize < 2 ^ 64), Except.ok.injEq,
      Prod.mk.injEq]
    constructor
    · rintro ⟨bytes, _, ⟨hmax, hat, rfl⟩, rest, _, hrest, rfl, rfl⟩
      have hle := hat.le
      rw [length_packBytes] at hle hrest
      rw [ih (by omega) (by omega)] at hrest
      obtain ⟨rfl, hbound, hat', rfl⟩ := hrest
      rw [flatMap_cons, at_append_iff, length_append, length_packBytes]
      exact ⟨rfl, by simpa using ⟨hmax, hbound⟩, ⟨hat, hat'⟩, by omega⟩
    · rintro ⟨hl, hbound, hat, rfl⟩
      obtain ⟨bytes, rest, rfl⟩ := exists_cons_of_length_eq_add_one hl
      rw [flatMap_cons, at_append_iff] at hat
      have hmax := hbound bytes (by simp)
      have hle := hat.1.le
      rw [length_packBytes] at hle hat
      refine ⟨bytes, _, ⟨hmax, hat.1, rfl⟩, rest, _, ?_, rfl, rfl⟩
      rw [length_packBytes, ih (by omega) (by omega)]
      refine ⟨by simpa using hl, fun b hb => hbound b (by simp [hb]), hat.2, ?_⟩
      rw [flatMap_cons, length_append, length_packBytes]
      omega

theorem inside_readStrings (h : offset + count * (8 + maxSize) < 2 ^ 64) :
    Inside (readStrings maxSize buffer count offset) := by
  induction count generalizing offset with
  | zero => exact inside_ok _
  | succ count ih =>
    rw [Nat.succ_mul] at h
    refine inside_bind (inside_readString (by omega)) fun r hr => ?_
    obtain ⟨bytes, next⟩ := r
    obtain ⟨hmax, -, rfl⟩ := (readString_eq_ok_iff (by omega)).mp hr
    refine inside_bind (ih ?_) fun _ _ => inside_ok _
    rw [length_packBytes]
    omega

theorem readList_eq_ok_iff (h : offset + 8 + maxCount * (8 + maxSize) < 2 ^ 64) :
    readList maxSize buffer offset = .ok (l, next) ↔
      l.length ≤ maxCount ∧ (∀ bytes ∈ l, bytes.length ≤ maxSize) ∧
        At buffer offset (packList l) ∧ next = offset + (packList l).length := by
  have hcount : ∀ count, count ≤ maxCount → offset + 8 + count * (8 + maxSize) < 2 ^ 64 :=
    fun count hc => by
      have := Nat.mul_le_mul_right (8 + maxSize) hc
      omega
  simp only [readList, bind_eq_ok_iff, Prod.exists, check_eq_ok_iff, exists_const,
    readScalar_eq_ok_iff (by omega : offset + 8 < 2 ^ 64), packList, at_append_iff,
    length_leBytes, length_append]
  constructor
  · rintro ⟨count, _, ⟨-, hat, rfl⟩, hle, hstrings⟩
    have hoff := hat.le
    rw [length_leBytes] at hoff
    rw [readStrings_eq_ok_iff hoff (hcount count hle)] at hstrings
    obtain ⟨rfl, hbound, hat', rfl⟩ := hstrings
    exact ⟨hle, hbound, ⟨hat, hat'⟩, by omega⟩
  · rintro ⟨hle, hbound, ⟨hat, hat'⟩, rfl⟩
    have hoff := hat.le
    rw [length_leBytes] at hoff
    refine ⟨l.length, _, ⟨?_, hat, rfl⟩, hle, ?_⟩
    · unfold maxCount at hle
      omega
    · rw [readStrings_eq_ok_iff hoff (hcount _ hle)]
      exact ⟨rfl, hbound, hat', by omega⟩

theorem inside_readList (h : offset + 8 + maxCount * (8 + maxSize) < 2 ^ 64) :
    Inside (readList maxSize buffer offset) := by
  refine inside_readScalar_bind (by omega) fun count => ?_
  refine inside_bind inside_check fun _ hle => inside_readStrings ?_
  have := Nat.mul_le_mul_right (8 + maxSize) (check_eq_ok_iff.mp hle)
  omega

end Decoders

/-! ## The codec -/

theorem MessageType.getElem?_all : MessageType.all[raw]? = some mt ↔ raw = mt.code := by
  have hcode : MessageType.all[mt.code]? = some mt := by cases mt <;> rfl
  constructor
  · intro h
    have hnodup : MessageType.all.Nodup := by simp [MessageType.all]
    exact (List.getElem?_inj (List.getElem?_eq_some_iff.mp h).1 hnodup).mp (h.trans hcode.symm)
  · rintro rfl
    exact hcode

theorem le_of_int16_neg (h : int16 raw < 0) : 13 ≤ raw := by
  by_contra hlt
  have heq : int16 raw = raw := by
    apply Int.bmod_eq_of_le <;> omega
  omega

/-- Negative `int16_t` values are beyond the last enumerator. -/
theorem messageType_eq_ok_iff : messageType raw = .ok mt ↔ raw = mt.code := by
  rw [← MessageType.getElem?_all]
  unfold messageType
  split_ifs with hneg
  · rw [getElem?_eq_none (by simpa [MessageType.all] using le_of_int16_neg hneg)]
    simp
  · cases MessageType.all[raw]? <;> simp

theorem inside_messageType : Inside (messageType raw) := by
  unfold Inside messageType
  split_ifs
  · simp
  · cases MessageType.all[raw]? <;> simp

theorem full_eq_true_iff :
    full buffer = .ok true ↔ ∃ total, total < 256 ^ 8 ∧ At buffer 0 (leBytes 8 total) ∧
      baseSize ≤ buffer.length ∧ total ≤ buffer.length := by
  unfold full
  split_ifs with h
  · simp
    omega
  · simp only [bind_eq_ok_iff, Prod.exists, Except.ok.injEq, decide_eq_true_eq,
      readScalar_eq_ok_iff (by omega : 0 + 8 < 2 ^ 64)]
    constructor
    · rintro ⟨total, _, ⟨hlt, hat, -⟩, hle⟩
      exact ⟨total, hlt, hat, by omega, hle⟩
    · rintro ⟨total, hlt, hat, -, hle⟩
      exact ⟨total, _, ⟨hlt, hat, rfl⟩, hle⟩

theorem MessageType.code_lt (mt : MessageType) : mt.code < 256 ^ 2 := by
  cases mt <;> decide

theorem packList_bound (hcount : l.length ≤ maxCount)
    (hsize : ∀ bytes ∈ l, bytes.length ≤ maxSize) :
    (packList l).length ≤ 8 + maxCount * (8 + maxSize) := by
  have hlen := length_flatMap_packBytes_le hsize
  have hmul := Nat.mul_le_mul_right (8 + maxSize) hcount
  rw [packList, length_append, length_leBytes]
  omega

/-- The packed form of a message within the limits, taken apart. -/
theorem WithinLimits.at_pack_iff (h : WithinLimits m) :
    At buffer 0 (pack m) ↔ At buffer 0 (leBytes 8 (pack m).length) ∧
      At buffer 8 (leBytes 8 m.userDef.toUInt64.toNat) ∧ At buffer 16 (leBytes 2 m.mt.code) ∧
      At buffer 18 (packList m.keys) ∧
      At buffer (18 + (packList m.keys).length) (packList m.values) := by
  rw [← h.totalSize_eq]
  simp only [pack, at_append_iff, length_leBytes, length_append, and_assoc, zero_add]

theorem toNat_toInt64_ofNat {user : Nat} (h : user < 256 ^ 8) :
    (UInt64.ofNat user).toInt64.toUInt64.toNat = user := by
  exact Nat.mod_eq_of_lt h

theorem lists_end (hoff : offset ≤ 18) : offset + (8 + maxCount * (8 + maxKeySize)) +
    (8 + maxCount * (8 + maxValueSize)) < 2 ^ 63 := by
  simp only [maxCount, maxKeySize, maxValueSize]
  omega

theorem unpackLists_eq_ok_iff {n : Int} (hoff : offset ≤ 18) :
    unpackLists mt userDef total buffer offset = .ok (n, m) ↔
      m.mt = mt ∧ m.userDef = userDef ∧ WithinLimits m ∧ At buffer offset (packList m.keys) ∧
        At buffer (offset + (packList m.keys).length) (packList m.values) ∧
        total = offset + (packList m.keys).length + (packList m.values).length ∧ n = total := by
  have hend := lists_end hoff
  simp only [unpackLists, bind_eq_ok_iff, Prod.exists, check_eq_ok_iff, exists_const,
    readList_eq_ok_iff (by omega : offset + 8 + maxCount * (8 + maxKeySize) < 2 ^ 64)]
  constructor
  · rintro ⟨keys, _, ⟨hcount, hsize, hkeys, rfl⟩, values, _, hvalues, rfl, h⟩
    have hkb := packList_bound hcount hsize
    rw [readList_eq_ok_iff (by omega)] at hvalues
    obtain ⟨hcount', hsize', hvalues, rfl⟩ := hvalues
    have hvb := packList_bound hcount' hsize'
    rw [Except.ok.injEq, Prod.mk.injEq, int64_eq (by omega) (by omega)] at h
    obtain ⟨hn, rfl⟩ := h
    exact ⟨rfl, rfl, ⟨hcount, hsize, hcount', hsize'⟩, hkeys, hvalues, rfl, hn.symm⟩
  · rintro ⟨rfl, rfl, hm, hkeys, hvalues, rfl, rfl⟩
    have hkb := packList_bound hm.keyCount hm.keySize
    have hvb := packList_bound hm.valueCount hm.valueSize
    refine ⟨m.keys, _, ⟨hm.keyCount, hm.keySize, hkeys, rfl⟩, m.values, _, ?_, rfl, ?_⟩
    · rw [readList_eq_ok_iff (by omega)]
      exact ⟨hm.valueCount, hm.valueSize, hvalues, rfl⟩
    · rw [int64_eq (by omega) (by omega)]

theorem inside_unpackLists (hoff : offset ≤ 18) :
    Inside (unpackLists mt userDef total buffer offset) := by
  have hend := lists_end hoff
  refine inside_bind (inside_readList (by omega)) fun r hr => ?_
  obtain ⟨keys, next⟩ := r
  obtain ⟨hcount, hsize, -, rfl⟩ := (readList_eq_ok_iff (by omega)).mp hr
  have hkeys := packList_bound hcount hsize
  refine inside_bind (inside_readList (by omega)) fun _ _ => ?_
  exact inside_bind inside_check fun _ _ => inside_ok _

/-- `Unpack` accepts exactly the messages within the limits whose packed form the
buffer starts with. -/
theorem unpack_eq_ok_iff {n : Int} :
    unpack buffer = .ok (n, m) ↔ WithinLimits m ∧ At buffer 0 (pack m) ∧ n = (pack m).length := by
  constructor
  · intro h
    simp only [unpack, bind_eq_ok_iff, Prod.exists, check_eq_ok_iff, exists_const] at h
    obtain ⟨_, -, -, total, _, h1, user, _, h2, raw, _, h3, mt, hmt, h⟩ := h
    obtain ⟨-, htotal, rfl⟩ := (readScalar_eq_ok_iff (by norm_num)).mp h1
    obtain ⟨hlt, huser, rfl⟩ := (readScalar_eq_ok_iff (by norm_num)).mp h2
    obtain ⟨-, hraw, rfl⟩ := (readScalar_eq_ok_iff (by norm_num)).mp h3
    obtain rfl := messageType_eq_ok_iff.mp hmt
    obtain ⟨rfl, hu, hm, hkeys, hvalues, hsum, rfl⟩ := (unpackLists_eq_ok_iff (by norm_num)).mp h
    have hlen : (pack m).length = total := by
      rw [hsum, ← length_pack_lists]
    rw [hm.at_pack_iff, hlen, hu, toNat_toInt64_ofNat hlt]
    exact ⟨hm, ⟨htotal, huser, hraw, hkeys, hvalues⟩, rfl⟩
  · rintro ⟨hm, hat, rfl⟩
    have hle := hat.le
    have hlt := hm.length_pack_lt
    obtain ⟨htotal, huser, hraw, hkeys, hvalues⟩ := hm.at_pack_iff.mp hat
    simp only [unpack, bind_eq_ok_iff, Prod.exists, check_eq_ok_iff, exists_const]
    refine ⟨true, full_eq_true_iff.mpr ⟨_, by omega, htotal, ?_, by omega⟩, rfl, _, _,
      (readScalar_eq_ok_iff (by norm_num)).mpr ⟨by omega, htotal, rfl⟩, _, _,
      (readScalar_eq_ok_iff (by norm_num)).mpr ⟨?_, huser, rfl⟩, _, _,
      (readScalar_eq_ok_iff (by norm_num)).mpr ⟨m.mt.code_lt, hraw, rfl⟩, m.mt,
      messageType_eq_ok_iff.mpr rfl, ?_⟩
    · have := length_pack m
      omega
    · exact UInt64.toNat_lt _
    · rw [unpackLists_eq_ok_iff (by norm_num)]
      exact ⟨rfl, by simp, hm, hkeys, hvalues, length_pack_lists m, rfl⟩

theorem inside_full : Inside (full buffer) := by
  unfold full
  split_ifs
  · exact inside_ok _
  · exact inside_bind (inside_readScalar (by norm_num)) fun _ _ => inside_ok _

/-- Every read is below the length of the buffer. -/
theorem inside_unpack (buffer : Bytes) : Inside (unpack buffer) := by
  refine inside_bind inside_full fun _ _ => inside_bind inside_check fun _ _ => ?_
  refine inside_readScalar_bind (by norm_num) fun total => ?_
  refine inside_readScalar_bind (by norm_num) fun userDef => ?_
  refine inside_readScalar_bind (by norm_num) fun raw => ?_
  exact inside_bind inside_messageType fun mt _ => inside_unpackLists (by norm_num)

theorem unpack_pack_append (h : WithinLimits m) (trailing : Bytes) :
    unpack (pack m ++ trailing) = .ok ((pack m).length, m) :=
  unpack_eq_ok_iff.mpr ⟨h, at_zero_iff.mpr (prefix_append _ _), rfl⟩

theorem unpack_pack (h : WithinLimits m) : unpack (pack m) = .ok ((pack m).length, m) := by
  have happend := unpack_pack_append h []
  rwa [append_nil] at happend

theorem unpack_cut {b : Bytes} (hlt : (pack m).length < 2 ^ 64) (hb : b <+: pack m)
    (hcut : b.length < (pack m).length) : ∃ e, unpack b = .error e := by
  cases h : unpack b with
  | error e => exact ⟨e, rfl⟩
  | ok r =>
    obtain ⟨hm, hat, -⟩ := unpack_eq_ok_iff.mp h
    -- both messages start with their sizes, and these are the same bytes
    have hsize : ∀ m', pack m' <+: pack m → leBytes 8 (totalSize m') <+: pack m := by
      intro m' h'
      refine IsPrefix.trans ?_ h'
      exact prefix_append _ _
    have heq : leBytes 8 (totalSize r.2) = leBytes 8 (totalSize m) := by
      refine IsPrefix.eq_of_length ?_ (by simp)
      exact prefix_of_prefix_length_le (hsize _ ((at_zero_iff.mp hat).trans hb))
        (hsize m (prefix_refl _)) (by simp)
    have hvalue := congrArg leValue heq
    rw [leValue_leBytes, leValue_leBytes, totalSize_eq hlt, hm.totalSize_eq] at hvalue
    have hle := hat.le
    omega

/-- The codec: packed messages are read back, nothing outside the buffer is read,
and an accepted buffer starts with the packed form of the result. -/
theorem pack_unpack_codec :
    (∀ m trailing, WithinLimits m → unpack (pack m ++ trailing) = .ok ((pack m).length, m)) ∧
    (∀ buffer, unpack buffer ≠ .error .outOfBounds) ∧
    (∀ buffer n m, unpack buffer = .ok (n, m) →
      n = totalSize m ∧ pack m = buffer.take (totalSize m)) ∧
    (∀ m m', WithinLimits m → WithinLimits m' → pack m = pack m' → m = m') := by
  refine ⟨fun m trailing h => unpack_pack_append h trailing, inside_unpack, ?_, ?_⟩
  · intro buffer n m h
    obtain ⟨hm, hat, rfl⟩ := unpack_eq_ok_iff.mp h
    rw [hm.totalSize_eq]
    exact ⟨rfl, prefix_iff_eq_take.mp (at_zero_iff.mp hat)⟩
  · intro m m' hm hm' heq
    have h := unpack_pack hm
    rw [heq, unpack_pack hm', Except.ok.injEq, Prod.mk.injEq] at h
    exact h.2.symm

theorem pack_unpack_codec_set :
    unpack (pack ⟨.set, 7, [[1, 2]], [[3], []]⟩ ++ [9]) =
      .ok ((pack ⟨.set, 7, [[1, 2]], [[3], []]⟩).length, ⟨.set, 7, [[1, 2]], [[3], []]⟩) :=
  pack_unpack_codec.1 _ _ ⟨by decide, by decide, by decide, by decide⟩

end MemFabric.Smem.Store
