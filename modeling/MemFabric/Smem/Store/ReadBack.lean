import MemFabric.Smem.Store.Client
import MemFabric.Smem.Store.Frame

/-!
# Reading back what was stored

After any successful writing calls on the in-memory backend, GET and PREFIX return
what is stored as long as the reply can be carried and decoded.  The writing calls
do not keep to these limits: APPEND and WRITE grow a value over the size of a
reply, and any number of keys may have the same beginning.
-/

namespace MemFabric.Smem.Store

open Machine Wire Backend Server List AList

/-! ## Keys -/

namespace Server

variable {env : Env} {ctx : Context} {key value k : Bytes} {s : Server}

theorem mem_handler {request : SmemMessage} (hmt : request.mt ≠ .get)
    (h : k ∈ (handler env ctx request s).1.backend.kvStore) (hk : k ∉ request.keys) :
    k ∈ s.backend.kvStore := by
  have hconfined : Confined request.keys s (handler env ctx request s).1 :=
    confined_handler fun hget => absurd hget hmt
  rw [← lookup_isSome, hconfined.lookup k hk] at h
  exact lookup_isSome.mp h

theorem write_new (ctx : Context) (hb : s.backend.InMemory)
    (hnew : s.backend.kvStore.lookup key = none) (happly : WriteApplies key value) :
    ∃ s' stored, write ctx key value s = (s', [⟨ctx, .success, .text "success"⟩]) ∧
      s'.backend.InMemory ∧ s'.backend.kvStore.lookup key = some stored ∧
      stored.length = leValue (value.take 4) + (value.drop 4).length := by
  have hmem : key ∉ s.backend.kvStore := lookup_eq_none.mp hnew
  rw [write_of_applies happly, writeAt, get_of_inMemory hb, if_neg hmem]
  dsimp only
  rw [put_of_ok (hb.called 0)]
  rw [if_neg (fun h => h.2 rfl), if_pos (by decide)]
  -- the backend that has the zeros
  generalize hzeros :
    replicate (leValue (value.take 4) + (value.drop 4).length) (0 : UInt8) = zeros
  generalize hb' : (⟨s.backend.called.kvStore.insert key zeros,
    s.backend.called.called.fault⟩ : Backend) = b
  have hinMemory : b.InMemory := hb' ▸ hb.called.called
  have hstored : b.kvStore.lookup key = some zeros := hb' ▸ lookup_insert _
  rw [Backend.get_of_found (hinMemory 0) hstored]
  rw [put_of_ok (hinMemory.called 0)]
  refine ⟨_, _, rfl, hinMemory.called.called, lookup_insert _, ?_⟩
  simp [overwrite, ← hzeros]

/-! ## Reading -/

theorem get_of_found (env : Env) (ctx : Context) (request : SmemMessage) (hb : s.backend.InMemory)
    (hrank : ¬ autoRankingStr <+: key) (hvalue : s.backend.kvStore.lookup key = some value) :
    get env ctx request key s =
      ({ s with backend := s.backend.called },
        [⟨ctx, .success, .packed { mt := request.mt, values := [value] }⟩]) := by
  rw [get, if_neg (by rwa [List.isPrefixOf_iff_prefix]), Backend.get_of_found (hb 0) hvalue]
  rw [if_pos rfl]

def matching (s : Server) (key : Bytes) : List (Bytes × Bytes) :=
  (s.backend.kvStore.entries.map fun e => (e.1, e.2)).filter fun e => key.isPrefixOf e.1

def prefixReply (s : Server) (key : Bytes) : SmemMessage :=
  { mt := .prefixGet
    keys := (s.matching key).map Prod.fst
    values := (s.matching key).map Prod.snd }

theorem prefixGet_eq (ctx : Context) (key : Bytes) (hb : s.backend.InMemory) :
    prefixGet ctx .prefixGet key s =
      ({ s with backend := s.backend.called },
        [⟨ctx, .success, .packed (s.prefixReply key)⟩]) := by
  rw [prefixGet, Backend.prefixGet, hb 0]
  rfl

theorem nodup_matching : ((s.matching key).map Prod.fst).Nodup := by
  refine Nodup.sublist (Sublist.map _ filter_sublist) ?_
  rw [map_map]
  exact s.backend.kvStore.nodupKeys

theorem mem_of_matching (h : k ∈ (s.matching key).map Prod.fst) : k ∈ s.backend.kvStore := by
  obtain ⟨e, he, rfl⟩ := mem_map.mp h
  obtain ⟨e', he', rfl⟩ := mem_map.mp (mem_filter.mp he).1
  exact mem_keys.mpr (mem_map_of_mem he')

theorem prefix_of_matching (h : k ∈ (s.matching key).map Prod.fst) : key <+: k := by
  obtain ⟨e, he, rfl⟩ := mem_map.mp h
  exact isPrefixOf_iff_prefix.mp (mem_filter.mp he).2

theorem find_matching :
    ((s.matching key).find? fun e => e.1 = k).map Prod.snd =
      if key <+: k then s.backend.kvStore.lookup k else none := by
  cases hfind : (s.matching key).find? fun e => e.1 = k with
  | none =>
    split_ifs with hkey
    · refine (Option.eq_none_iff_forall_ne_some.mpr fun v hv => ?_).symm
      have hmem : (k, v) ∈ s.matching key := by
        refine mem_filter.mpr ⟨mem_map.mpr ⟨⟨k, v⟩, Table.mem_entries.mpr hv, rfl⟩, ?_⟩
        exact isPrefixOf_iff_prefix.mpr hkey
      exact find?_eq_none.mp hfind _ hmem (by simp)
    · rfl
  | some e =>
    obtain ⟨hmem, hprefix⟩ := mem_filter.mp (mem_of_find?_eq_some hfind)
    obtain ⟨e', he', rfl⟩ := mem_map.mp hmem
    have hk : e'.1 = k := by simpa using find?_some hfind
    subst hk
    rw [if_pos (List.isPrefixOf_iff_prefix.mp hprefix), Table.mem_entries.mp he', Option.map_some]

end Server

namespace Client

/-! ## Runs of a client -/

inductive Op
  | set (key value : Bytes)
  | append (key value : Bytes)
  | write (key value : Bytes) (offset : UInt32)
  | cas (key expect value : Bytes)

structure WriteCall where
  env : Env
  link : Nat
  seqNo : Nat
  op : Op

def WriteCall.run (c : WriteCall) (s : Server) : Server × Option StoreErrorCode :=
  match c.op with
  | .set key value =>
    let out := set c.env c.link c.seqNo key value s
    (out.1, out.2.map Prod.fst)
  | .append key value =>
    let out := append c.env c.link c.seqNo key value s
    (out.1, out.2.map Prod.fst)
  | .write key value offset =>
    let out := write c.env c.link c.seqNo key value offset s
    (out.1, out.2.map Prod.fst)
  | .cas key expect value =>
    let out := cas c.env c.link c.seqNo key expect value s
    (out.1, out.2.map Prod.fst)

def step (s : Server) (c : WriteCall) : Server × List (Option StoreErrorCode) :=
  ((c.run s).1, [(c.run s).2])

def Accepted (s : Server) (c : WriteCall) : Prop := (c.run s).2 = some .success

section

variable {env : Env} {link seqNo : Nat} {key : Bytes} {s : Server}

structure ClientInv (s : Server) : Prop where
  inMemory : s.backend.InMemory
  keys : ∀ k ∈ s.backend.kvStore, ValidKey k

theorem ClientInv.call {α : Type} {request : SmemMessage} {dflt : α}
    {finish : StoreErrorCode → Bytes → StoreErrorCode × α} (h : ClientInv s)
    (hkeys : request.keys = [key]) (hvalues : request.values.length ≤ maxCount)
    (hmt : request.mt ≠ .get) :
    ClientInv (call env link seqNo key request dflt finish s).1 := by
  by_cases hkey : ValidKey key
  · by_cases hlen : (pack request).length ≤ maxRecvBodyLen
    · have hm : WithinLimits request := by
        refine withinLimits_of_length_le hlen (by simp [hkeys, maxCount]) ?_ hvalues
        have := hkey.2
        simp only [hkeys, mem_singleton, forall_eq, maxKeyLenClient, maxKeySize] at this ⊢
        omega
      have hs : (Client.call env link seqNo key request dflt finish s).1 =
          (receiveMessageHandler env link seqNo (pack request) s).1 := by
        rw [Client.call, if_neg (by rw [not_or, not_lt]; exact hkey)]
        rw [sendMessageBlocked, transfer_eq hlen]
      rw [hs]
      constructor
      · exact inMemory_step h.inMemory (.request env link seqNo (pack request))
      · intro k hk
        rw [receive_pack hm] at hk
        by_cases hnew : k = key
        · exact hnew ▸ hkey
        · have hold := mem_handler hmt hk (by simpa [hkeys] using hnew)
          exact h.keys k hold
    · have hbackend := (call_long env link seqNo s dflt finish hkey (not_le.mp hlen)).1
      constructor
      · rw [hbackend]
        exact h.inMemory
      · rw [hbackend]
        exact h.keys
  · rw [call_invalid hkey]
    exact h

theorem ClientInv.step (h : ClientInv s) (c : WriteCall) : ClientInv (step s c).1 := by
  obtain ⟨env, link, seqNo, op⟩ := c
  cases op with
  | set key value => exact h.call rfl (by simp [maxCount]) (by simp)
  | append key value => exact h.call rfl (by simp [maxCount]) (by simp)
  | write key value offset =>
    exact h.call rfl (by simp [writeRequest, maxCount]) (by simp [writeRequest])
  | cas key expect value => exact h.call rfl (by simp [casRequest, maxCount]) (by simp [casRequest])

theorem clientInv_of_reachable {worldSize : Nat}
    (h : Reachable step Accepted (start worldSize {}) s) : ClientInv s := by
  refine h.invariant ⟨fun _ => rfl, ?_⟩ fun s c hs _ => hs.step c
  intro k hk
  exact absurd hk (notMem_empty k)

end

/-! ## Reading back -/

section Read

variable (env : Env) (link seqNo : Nat) {key value : Bytes} {s : Server}

section

variable (hkey : ValidKey key)

include hkey

theorem ValidKey.not_long : ¬ maxKeyLenServer < key.length := by
  have := hkey.2
  simp only [maxKeyLenClient, maxKeyLenServer] at *
  omega

theorem handler_getRequest (timeoutMs : Int64) (ctx : Context) :
    Server.handler env ctx (getRequest key timeoutMs) s =
      Server.get env ctx (getRequest key timeoutMs) key s := by
  simp [Server.handler, getRequest, getHandler, checked, onlyKey,
    hkey.not_long]

theorem handler_prefixRequest (ctx : Context) :
    Server.handler env ctx (prefixRequest key) s = Server.prefixGet ctx .prefixGet key s := by
  simp [Server.handler, prefixRequest, prefixGetHandler, checked, onlyKey,
    hkey.not_long]

theorem handler_writeRequest {data : Bytes} {offset : UInt32} (ctx : Context) :
    Server.handler env ctx (writeRequest key data offset) s =
      Server.write ctx key (leBytes 4 offset.toNat ++ data) s := by
  simp [Server.handler, writeRequest, writeHandler, checked, keyValue,
    hkey.not_long]

theorem length_onlyKey {request : SmemMessage} (hkeys : request.keys = [key])
    (hvalues : request.values = []) :
    (pack request).length ≤ maxRecvBodyLen ∧ WithinLimits request := by
  have hle := hkey.2
  simp only [maxKeyLenClient] at hle
  have hlen : (pack request).length ≤ maxRecvBodyLen := by
    rw [length_pack, hkeys, hvalues]
    simp only [flatMap_cons, flatMap_nil, append_nil, length_nil,
      length_packBytes, baseSize, maxRecvBodyLen]
    omega
  refine ⟨hlen, withinLimits_of_length_le hlen (by simp [hkeys, maxCount]) ?_ (by simp [hvalues])⟩
  simp only [hkeys, mem_singleton, forall_eq, maxKeySize]
  omega

end

theorem length_getReply : (pack { mt := .get, values := [value] }).length = 42 + value.length := by
  simp [length_pack, baseSize]
  omega

section

variable (hb : s.backend.InMemory) (hkey : ValidKey key) (hrank : ¬ autoRankingStr <+: key)
  (hvalue : s.backend.kvStore.lookup key = some value)

include hb hkey hrank hvalue

theorem get_eq (timeoutMs : Int64) :
    (get env link seqNo key timeoutMs s).2 =
      (transfer (pack { mt := .get, values := [value] })).map (finishGet .success) := by
  have hrequest : (getRequest key timeoutMs).keys = [key] := rfl
  obtain ⟨hlen, hm⟩ := length_onlyKey hkey hrequest rfl
  have hget := get_of_found env ⟨link, seqNo, s.received, some (getRequest key timeoutMs)⟩
    (getRequest key timeoutMs) (s := { s with received := s.received + 1 }) hb hrank hvalue
  rw [get, call_eq hkey hm hlen ((handler_getRequest env hkey _ _).trans hget) rfl]
  rfl

theorem get_stored_iff (timeoutMs : Int64) :
    (get env link seqNo key timeoutMs s).2 = some (.success, value) ↔
      42 + value.length ≤ maxRecvBodyLen := by
  constructor
  · intro h
    by_contra hlong
    rw [get_eq env link seqNo hb hkey hrank hvalue] at h
    rw [← length_getReply, not_le] at hlong
    rcases transfer_long hlong with hnone | ⟨b, e, hsome, he⟩
    · rw [hnone] at h
      cases h
    · rw [hsome, Option.map_some, finishGet, he] at h
      cases h
  · intro hlen
    rw [← length_getReply] at hlen
    have hm : WithinLimits { mt := .get, values := [value] } :=
      withinLimits_of_length_le hlen (by simp) (by simp) (by simp [maxCount])
    rw [get_eq env link seqNo hb hkey hrank hvalue, transfer_eq hlen, Option.map_some, finishGet,
      if_neg (by simp), unpack_pack hm]

end

/-- `Write` to a new key stores zeros up to the offset. -/
theorem write_new {data : Bytes} {offset : UInt32} (hb : s.backend.InMemory) (hkey : ValidKey key)
    (hnew : s.backend.kvStore.lookup key = none)
    (hlen : 54 + key.length + data.length ≤ maxRecvBodyLen)
    (hoffset : offset.toNat ≤ maxU16Index * data.length)
    (hsize : offset.toNat + data.length ≤ maxWriteTotalSize) :
    ∃ s' stored, write env link seqNo key data offset s = (s', some (.success, ())) ∧
      s'.backend.InMemory ∧ s'.backend.kvStore.lookup key = some stored ∧
      stored.length = offset.toNat + data.length := by
  have hvalue : leValue (leBytes 4 offset.toNat) = offset.toNat := by
    rw [leValue_leBytes]
    exact Nat.mod_eq_of_lt offset.toNat_lt
  have htake : (leBytes 4 offset.toNat ++ data).take 4 = leBytes 4 offset.toNat :=
    take_left' (length_leBytes _ _)
  have hdrop : (leBytes 4 offset.toNat ++ data).drop 4 = data :=
    drop_left' (length_leBytes _ _)
  have happly : WriteApplies key (leBytes 4 offset.toNat ++ data) := by
    refine ⟨not_lt.mp hkey.not_long, by simp, ?_, ?_⟩
    · rwa [htake, hdrop, hvalue]
    · rwa [htake, hdrop, hvalue]
  have hpack : (pack (writeRequest key data offset)).length ≤ maxRecvBodyLen := by
    rw [length_pack]
    simp only [writeRequest, flatMap_cons, flatMap_nil, append_nil,
      length_packBytes, length_append, length_leBytes, baseSize]
    omega
  have hm : WithinLimits (writeRequest key data offset) := by
    refine withinLimits_of_length_le hpack (by simp [writeRequest, maxCount]) ?_
      (by simp [writeRequest, maxCount])
    have := hkey.2
    simp only [writeRequest, mem_singleton, forall_eq, maxKeyLenClient, maxKeySize] at this ⊢
    omega
  obtain ⟨s', stored, hwrite, hb', hlookup, hstored⟩ := Server.write_new
    ⟨link, seqNo, s.received, some (writeRequest key data offset)⟩
    (s := { s with received := s.received + 1 }) hb hnew happly
  refine ⟨s', stored, ?_, hb', hlookup, ?_⟩
  · have htext : transfer (ascii "success") = some (ascii "success") := by decide +kernel
    rw [write, call_eq hkey hm hpack ((handler_writeRequest env hkey _).trans hwrite) rfl]
    simp [bytes, htext]
  · rw [hstored, htake, hdrop, hvalue]

def prefixReplySize (s : Server) (key : Bytes) : Nat :=
  34 + ((s.matching key).map fun e => 16 + e.1.length + e.2.length).sum

theorem length_prefixReply : (pack (s.prefixReply key)).length = prefixReplySize s key := by
  rw [length_pack, prefixReplySize, prefixReply]
  induction s.matching key with
  | nil => rfl
  | cons e l ih =>
    simp only [map_cons, flatMap_cons, length_append, length_packBytes,
      sum_cons] at ih ⊢
    omega

theorem withinLimits_prefixReply (h : ClientInv s) (hcount : (s.matching key).length ≤ maxCount)
    (hlen : prefixReplySize s key ≤ maxRecvBodyLen) : WithinLimits (s.prefixReply key) := by
  rw [← length_prefixReply] at hlen
  refine withinLimits_of_length_le hlen (by simpa [prefixReply] using hcount) ?_
    (by simpa [prefixReply] using hcount)
  intro k hk
  have := (h.keys k (mem_of_matching hk)).2
  simp only [maxKeyLenClient, maxKeySize] at this ⊢
  omega

theorem prefixGet_eq (hb : s.backend.InMemory) (hkey : ValidKey key) :
    (prefixGet env link seqNo key s).2 =
      (transfer (pack (s.prefixReply key))).map (finishPrefixGet .success) := by
  have hrequest : (prefixRequest key).keys = [key] := rfl
  obtain ⟨hlen, hm⟩ := length_onlyKey hkey hrequest rfl
  have hprefix := Server.prefixGet_eq ⟨link, seqNo, s.received, some (prefixRequest key)⟩ key
    (s := { s with received := s.received + 1 }) hb
  rw [prefixGet, call_eq hkey hm hlen ((handler_prefixRequest env hkey _).trans hprefix) rfl]
  rfl

theorem finishPrefixGet_keys {body : Bytes} {t : Table Bytes Bytes}
    (h : finishPrefixGet .success body = (.success, t)) {l : List Bytes} (hl : l.Nodup)
    (hmem : ∀ k ∈ l, k ∈ t) : l.length ≤ maxCount := by
  rw [finishPrefixGet] at h
  cases hunpack : unpack body with
  | error e =>
    rw [hunpack] at h
    cases h
  | ok r =>
    rw [hunpack] at h
    dsimp only at h
    by_cases hlen : r.2.values.length ≠ r.2.keys.length
    · rw [if_pos hlen] at h
      cases h
    rw [if_neg hlen] at h
    obtain rfl := (Prod.mk.inj h).2
    have hm := (unpack_eq_ok_iff.mp hunpack).1
    have hsub : l ⊆ r.2.keys := by
      intro k hk
      rcases Table.mem_foldl_insert (hmem k hk) with hk | hk
      · obtain ⟨e, he, rfl⟩ := mem_map.mp hk
        exact (of_mem_zip he).1
      · exact absurd hk (notMem_empty k)
    exact (subperm_of_subset hl hsub).length_le.trans hm.keyCount

theorem prefixGet_stored_iff (h : ClientInv s) :
    (∃ t, (prefixGet env link seqNo key s).2 = some (.success, t) ∧
        ∀ k, t.lookup k = if key <+: k then s.backend.kvStore.lookup k else none) ↔
      ValidKey key ∧ (s.matching key).length ≤ maxCount ∧
        prefixReplySize s key ≤ maxRecvBodyLen := by
  constructor
  · rintro ⟨t, hout, ht⟩
    have hkey : ValidKey key := by
      by_contra hkey
      rw [prefixGet, call_invalid hkey] at hout
      cases hout
    rw [prefixGet_eq env link seqNo h.inMemory hkey] at hout
    have hlen : prefixReplySize s key ≤ maxRecvBodyLen := by
      by_contra hlong
      rw [← length_prefixReply, not_le] at hlong
      rcases transfer_long hlong with hnone | ⟨b, e, hsome, he⟩
      · rw [hnone] at hout
        cases hout
      · rw [hsome, Option.map_some, finishPrefixGet, he] at hout
        cases hout
    refine ⟨hkey, ?_, hlen⟩
    rw [transfer_eq (length_prefixReply ▸ hlen)] at hout
    have hcount := finishPrefixGet_keys (Option.some.inj hout) nodup_matching fun k hk => by
      obtain ⟨v, hv⟩ := Option.isSome_iff_exists.mp
        (lookup_isSome.mpr (mem_of_matching hk))
      refine lookup_isSome.mp ?_
      rw [ht, if_pos (prefix_of_matching hk), hv]
      rfl
    rwa [length_map] at hcount
  · rintro ⟨hkey, hcount, hlen⟩
    have hm := withinLimits_prefixReply h hcount hlen
    rw [prefixGet_eq env link seqNo h.inMemory hkey, transfer_eq (length_prefixReply ▸ hlen),
      Option.map_some, finishPrefixGet, if_neg (by simp), unpack_pack hm]
    dsimp only
    rw [if_neg (by simp [prefixReply])]
    refine ⟨_, rfl, fun k => ?_⟩
    have hzip : (s.prefixReply key).keys.zip (s.prefixReply key).values = s.matching key := by
      rw [prefixReply, zip_map']
      simp
    rw [hzip, Table.lookup_foldl_insert nodup_matching, find_matching,
      lookup_empty, Option.or_none]

end Read

/-- After any accepted calls, a stored value and the entries under a prefix are read back
exactly if the reply is within the limits of the links and of the decoder.  Ranking keys
are apart: GET does not read them. -/
theorem stored_read_back {worldSize : Nat} {s : Server}
    (h : Reachable step Accepted (start worldSize {}) s) (env : Env) (link seqNo : Nat) :
    (∀ key value timeoutMs, s.backend.kvStore.lookup key = some value →
      ¬ autoRankingStr <+: key →
      ((get env link seqNo key timeoutMs s).2 = some (.success, value) ↔
        42 + value.length ≤ maxRecvBodyLen)) ∧
    (∀ key, (∃ t, (prefixGet env link seqNo key s).2 = some (.success, t) ∧
        ∀ k, t.lookup k = if key <+: k then s.backend.kvStore.lookup k else none) ↔
      ValidKey key ∧ (s.matching key).length ≤ maxCount ∧
        prefixReplySize s key ≤ maxRecvBodyLen) := by
  have hinv := clientInv_of_reachable h
  constructor
  · intro key value timeoutMs hvalue hrank
    have hmem : key ∈ s.backend.kvStore := lookup_isSome.mp (by rw [hvalue]; rfl)
    exact get_stored_iff env link seqNo hinv.inMemory (hinv.keys key hmem) hrank hvalue timeoutMs
  · intro key
    exact prefixGet_stored_iff env link seqNo hinv

def writeByteCall : WriteCall := ⟨openEnv, 0, 0, .write [107] [1] 0⟩

theorem reachable_writeByte :
    Reachable step Accepted (start 4 {}) (writeByteCall.run (start 4 {})).1 :=
  Reachable.next ⟨[], .nil⟩ writeByteCall (by unfold Accepted; decide +kernel)

/-- One byte is written and read back. -/
theorem stored_read_back_writeByte :
    (get openEnv 1 0 [107] 0 (writeByteCall.run (start 4 {})).1).2 =
      some (.success, [1]) :=
  ((stored_read_back reachable_writeByte openEnv 1 0).1 [107] [1] 0 (by decide +kernel)
    (by decide)).mpr (by decide)

/-- `Write` of 2048 bytes at the largest offset that is allowed for them. -/
def farWrite : WriteCall := ⟨openEnv, 0, 0, .write [107] (replicate 2048 1) 134215680⟩

theorem far_not_read_back {data : Bytes} (hlen : data.length = 2048) {c : WriteCall}
    (hc : c = ⟨openEnv, 0, 0, .write [107] data 134215680⟩) :
    Accepted (start 4 {}) c ∧
      (∃ value, (c.run (start 4 {})).1.backend.kvStore.lookup [107] = some value) ∧
      (get openEnv 1 0 [107] 0 (c.run (start 4 {})).1).2 = none := by
  have hoffset : (134215680 : UInt32).toNat ≤ maxU16Index * data.length := by
    rw [hlen]
    decide
  obtain ⟨s', stored, hwrite, hb, hlookup, hstored⟩ := write_new openEnv 0 0
    (s := start 4 {}) (fun _ => rfl) (⟨by decide, by decide⟩ : ValidKey [107]) rfl
    (by rw [hlen]; decide) hoffset (by rw [hlen]; decide)
  have hrun : c.run (start 4 {}) = (s', some .success) := by
    rw [hc, WriteCall.run]
    dsimp only
    rw [hwrite, Option.map_some]
  have hlong : (pack { mt := .get, values := [stored] }).length = 134217770 := by
    rw [length_getReply, hstored, hlen]
    decide
  rw [Accepted, hrun]
  refine ⟨rfl, ⟨stored, hlookup⟩, ?_⟩
  rw [get_eq openEnv 1 0 hb ⟨by decide, by decide⟩ (by decide) hlookup,
    transfer_eq_none (by rw [hlong]; decide) (by rw [hlong]; decide), Option.map_none]

/-- The call is accepted, and a `Get` of the key is never answered: 128 MiB are stored. -/
theorem farWrite_not_read_back :
    Accepted (start 4 {}) farWrite ∧
      (∃ value, (farWrite.run (start 4 {})).1.backend.kvStore.lookup [107] = some value) ∧
      (get openEnv 1 0 [107] 0 (farWrite.run (start 4 {})).1).2 = none :=
  far_not_read_back length_replicate rfl

end Client

end MemFabric.Smem.Store
