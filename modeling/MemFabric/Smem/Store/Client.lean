import MemFabric.Smem.Store.Wakeup

/-!
# The client

`smem_tcp_config_store.cpp` over a working connection: a call sends one request
and waits for the reply to it.  The links of `acc_links` carry bodies of at most
64 MiB; a request that is longer is refused when it is sent, a reply that is
longer is dropped, and the client goes on waiting.
-/

namespace MemFabric.Smem.Store.Client

open Machine Wire

/-! ## Transport -/

def maxRecvBodyLen : Nat := 64 * 1024 * 1024

/-- `AccDataBuffer::Create` takes the size as a `uint32_t`, and
`EnqueueAndModifyEpoll` refuses bodies that are too long.  Bodies of `2 ^ 64` bytes
do not exist. -/
def transfer (body : Bytes) : Option Bytes :=
  let sent := body.take (body.length % 2 ^ 32)
  if body.length < 2 ^ 64 ∧ sent.length ≤ maxRecvBodyLen then some sent else none

def bytes : Body → Bytes
  | .text s => ascii s
  | .packed m => pack m

inductive Response
  | refused
  | missing
  | received (code : StoreErrorCode) (body : Bytes)
deriving DecidableEq

/-- `SendMessageBlocked`: the request is handled, and the reply to it comes back. -/
def sendMessageBlocked (env : Env) (link seqNo : Nat) (request : SmemMessage) (s : Server) :
    Server × Response :=
  match transfer (pack request) with
  | none => (s, .refused)
  | some body =>
    let out := Server.receiveMessageHandler env link seqNo body s
    (out.1,
      match out.2.find? fun r => r.ctx.serial == s.received with
      | none => .missing
      | some r =>
        match transfer (bytes r.body) with
        | none => .missing
        | some body => .received r.code body)

/-! ## Calls -/

def maxKeyLenClient : Nat := 1024

section

variable (env : Env) (link seqNo : Nat)

/-- A call: the key is checked, the request is sent, and `finish` reads the reply.  A
call that is never answered returns nothing. -/
def call {α : Type} (key : Bytes) (request : SmemMessage) (dflt : α)
    (finish : StoreErrorCode → Bytes → StoreErrorCode × α) (s : Server) :
    Server × Option (StoreErrorCode × α) :=
  if key = [] ∨ maxKeyLenClient < key.length then (s, some (.invalidKey, dflt))
  else
    let out := sendMessageBlocked env link seqNo request s
    (out.1,
      match out.2 with
      | .refused => some (.ioError, dflt)
      | .missing => none
      | .received code body => some (finish code body))

def set (key value : Bytes) (s : Server) : Server × Option (StoreErrorCode × Unit) :=
  call env link seqNo key { mt := .set, keys := [key], values := [value] } ()
    (fun code _ => (code, ())) s

def finishGet (code : StoreErrorCode) (body : Bytes) : StoreErrorCode × Bytes :=
  if code ≠ .success ∧ code ≠ .restore then (code, [])
  else
    match unpack body with
    | .error _ => (.error, [])
    | .ok (_, response) =>
      match response.values with
      | [] => (.error, [])
      | value :: _ => (code, value)

def getRequest (key : Bytes) (timeoutMs : Int64) : SmemMessage :=
  { mt := .get, userDef := timeoutMs, keys := [key] }

def get (key : Bytes) (timeoutMs : Int64) (s : Server) : Server × Option (StoreErrorCode × Bytes) :=
  call env link seqNo key (getRequest key timeoutMs) [] finishGet s

/-- The entries of a PREFIX reply, later ones replacing earlier ones. -/
def finishPrefixGet (code : StoreErrorCode) (body : Bytes) : StoreErrorCode × Table Bytes Bytes :=
  if code ≠ .success ∧ code ≠ .restore then (code, ∅)
  else
    match unpack body with
    | .error _ => (.error, ∅)
    | .ok (_, response) =>
      if response.values.length ≠ response.keys.length then (.error, ∅)
      else (code, (response.keys.zip response.values).foldl (fun t e => t.insert e.1 e.2) ∅)

def prefixRequest (key : Bytes) : SmemMessage := { mt := .prefixGet, keys := [key] }

def prefixGet (key : Bytes) (s : Server) : Server × Option (StoreErrorCode × Table Bytes Bytes) :=
  call env link seqNo key (prefixRequest key) ∅ finishPrefixGet s

def finishAppend (code : StoreErrorCode) (body : Bytes) : StoreErrorCode × Nat :=
  if code ≠ .success then (code, 0)
  else
    match string2Int body with
    | none => (.error, 0)
    | some n => (.success, (n % 2 ^ 64).toNat)

def append (key value : Bytes) (s : Server) : Server × Option (StoreErrorCode × Nat) :=
  call env link seqNo key { mt := .append, keys := [key], values := [value] } 0 finishAppend s

/-- The offset stands in front of the value. -/
def writeRequest (key value : Bytes) (offset : UInt32) : SmemMessage :=
  { mt := .write, keys := [key], values := [leBytes 4 offset.toNat ++ value] }

def write (key value : Bytes) (offset : UInt32) (s : Server) :
    Server × Option (StoreErrorCode × Unit) :=
  call env link seqNo key (writeRequest key value offset) () (fun code _ => (code, ())) s

def casResult : List Bytes → StoreErrorCode × Bytes
  | [] => (.error, [])
  | [value] => (.success, value)
  | value :: _ :: _ => (.restore, value)

def finishCas (code : StoreErrorCode) (body : Bytes) : StoreErrorCode × Bytes :=
  if code ≠ .success then (code, [])
  else
    match unpack body with
    | .error _ => (.error, [])
    | .ok (_, response) => casResult response.values

def casRequest (key expect value : Bytes) : SmemMessage :=
  { mt := .cas, keys := [key], values := [expect, value] }

def cas (key expect value : Bytes) (s : Server) : Server × Option (StoreErrorCode × Bytes) :=
  call env link seqNo key (casRequest key expect value) [] finishCas s

end

/-! ## What a call does -/

section

variable {env : Env} {link seqNo : Nat} {request : SmemMessage} {s : Server}

variable {body : Bytes} {m : SmemMessage}

theorem transfer_eq (h : body.length ≤ maxRecvBodyLen) : transfer body = some body := by
  have hmax : maxRecvBodyLen < 2 ^ 32 := by decide
  rw [transfer, Nat.mod_eq_of_lt (by omega), List.take_length, if_pos ⟨by omega, h⟩]

theorem transfer_eq_none (h : maxRecvBodyLen < body.length)
    (hlt : body.length < 2 ^ 32) : transfer body = none := by
  rw [transfer, Nat.mod_eq_of_lt hlt, List.take_length, if_neg (by omega)]

theorem transfer_eq_some {b : Bytes} (h : transfer body = some b) :
    body.length < 2 ^ 64 ∧ b.length ≤ maxRecvBodyLen ∧ b <+: body := by
  unfold transfer at h
  dsimp only at h
  split_ifs at h with hle
  obtain rfl := Option.some.inj h
  exact ⟨hle.1, hle.2, List.take_prefix _ _⟩

/-- A message that is too long is not carried or arrives cut off. -/
theorem transfer_long (h : maxRecvBodyLen < (pack m).length) :
    transfer (pack m) = none ∨ ∃ b e, transfer (pack m) = some b ∧ unpack b = .error e := by
  cases hb : transfer (pack m) with
  | none => exact .inl rfl
  | some b =>
    obtain ⟨hlt, hle, hprefix⟩ := transfer_eq_some hb
    obtain ⟨e, he⟩ := unpack_cut hlt hprefix (by omega)
    exact .inr ⟨b, e, rfl, he⟩

/-- The links carry no value that `Unpack` finds too long. -/
theorem withinLimits_of_length_le (h : (pack m).length ≤ maxRecvBodyLen)
    (hkeys : m.keys.length ≤ maxCount) (hkey : ∀ key ∈ m.keys, key.length ≤ maxKeySize)
    (hvalues : m.values.length ≤ maxCount) : WithinLimits m := by
  refine ⟨hkeys, hkey, hvalues, fun value hvalue => ?_⟩
  have hle := (List.sublist_flatten_of_mem (List.mem_map_of_mem (f := packBytes) hvalue)).length_le
  rw [length_packBytes, ← List.flatMap_def] at hle
  rw [length_pack] at h
  simp only [maxRecvBodyLen, maxValueSize] at h ⊢
  omega

/-- A request that is too long is refused, by the link or by the server. -/
theorem sendMessageBlocked_long (env : Env) (link seqNo : Nat) (s : Server)
    (h : maxRecvBodyLen < (pack request).length) :
    (sendMessageBlocked env link seqNo request s).1.backend = s.backend ∧
      ((sendMessageBlocked env link seqNo request s).2 = .refused ∨
        ∃ body, (sendMessageBlocked env link seqNo request s).2 =
          .received .invalidMessage body) := by
  unfold sendMessageBlocked
  rcases transfer_long h with hnone | ⟨b, e, hsome, he⟩
  · rw [hnone]
    exact ⟨rfl, .inl rfl⟩
  · have htext : transfer (ascii "invalid request") = some (ascii "invalid request") := by
      decide +kernel
    rw [hsome]
    dsimp only
    rw [Server.receiveMessageHandler, he]
    simp [bytes, htext]

def ValidKey (key : Bytes) : Prop := key ≠ [] ∧ key.length ≤ maxKeyLenClient

section

variable {α : Type} {key : Bytes}

variable {dflt : α} {finish : StoreErrorCode → Bytes → StoreErrorCode × α}

theorem call_invalid (h : ¬ ValidKey key) :
    call env link seqNo key request dflt finish s = (s, some (.invalidKey, dflt)) := by
  rw [call, if_pos]
  by_contra hnot
  rw [not_or, not_lt] at hnot
  exact h hnot

theorem call_eq (hkey : ValidKey key) (hm : WithinLimits request)
    (hlen : (pack request).length ≤ maxRecvBodyLen) {s' : Server} {r : Reply} {rest : List Reply}
    (hhandler : Server.handler env ⟨link, seqNo, s.received, some request⟩ request
      { s with received := s.received + 1 } = (s', r :: rest)) (hr : r.ctx.serial = s.received) :
    call env link seqNo key request dflt finish s =
      (s', (transfer (bytes r.body)).map (finish r.code)) := by
  rw [call, if_neg (by rw [not_or, not_lt]; exact hkey), sendMessageBlocked, transfer_eq hlen]
  dsimp only
  rw [Server.receive_pack hm, hhandler]
  cases hbody : transfer (bytes r.body) <;> simp [hr, hbody]

/-- A request that is too long is answered with an error and changes nothing. -/
theorem call_long (env : Env) (link seqNo : Nat) (s : Server) (dflt : α)
    (finish : StoreErrorCode → Bytes → StoreErrorCode × α) (hkey : ValidKey key)
    (h : maxRecvBodyLen < (pack request).length) :
    (call env link seqNo key request dflt finish s).1.backend = s.backend ∧
      ((call env link seqNo key request dflt finish s).2 = some (.ioError, dflt) ∨
        ∃ body, (call env link seqNo key request dflt finish s).2 =
          some (finish .invalidMessage body)) := by
  rw [call, if_neg (by rw [not_or, not_lt]; exact hkey)]
  obtain ⟨hbackend, hout⟩ := sendMessageBlocked_long env link seqNo s h
  refine ⟨hbackend, ?_⟩
  dsimp only
  rcases hout with hout | ⟨body, hout⟩
  · exact .inl (by rw [hout])
  · exact .inr ⟨body, by rw [hout]⟩

end

end

end MemFabric.Smem.Store.Client
