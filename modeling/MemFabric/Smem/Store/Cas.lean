import MemFabric.Smem.Store.Client

/-!
# Compare and swap

`Cas` is meant to compare the current content of the key, which is empty for an
absent key, with `expect`.  The server does not compare at all when the key is
absent: then every `expect` matches.
-/

namespace MemFabric.Smem.Store

open Machine Wire Server Option Backend

namespace Server

variable {mt : MessageType} {key expected exchange : Bytes} {s : Server}

theorem cas_of_match (env : Env) (ctx : Context) (hb : s.backend.InMemory)
    (h : ∀ old, s.backend.kvStore.lookup key = some old → expected = old) :
    ∃ s' rest, cas env ctx mt key expected exchange s =
        (s', ⟨ctx, .success, .packed { mt, values := [exchange] }⟩ :: rest) ∧
      s'.backend.kvStore = s.backend.kvStore.insert key exchange ∧ s'.backend.InMemory := by
  unfold cas
  cases hold : s.backend.kvStore.lookup key with
  | none =>
    have hmem : key ∉ s.backend.kvStore := AList.lookup_eq_none.mp hold
    rw [get_of_inMemory hb, if_neg hmem]
    dsimp only
    rw [put_of_ok (hb.called 0)]
    exact ⟨_, _, rfl, rfl, hb.called.called⟩
  | some old =>
    obtain rfl := h old hold
    rw [get_of_found (hb 0) hold]
    dsimp only
    rw [if_pos rfl, if_pos rfl, getWakeupList, put_of_ok (hb.called 0)]
    exact ⟨_, _, rfl, rfl, hb.called.called⟩

theorem cas_of_mismatch {old : Bytes} (mt : MessageType) (exchange : Bytes) (env : Env)
    (ctx : Context) (hb : s.backend.InMemory) (hold : s.backend.kvStore.lookup key = some old)
    (hne : expected ≠ old) :
    cas env ctx mt key expected exchange s =
      ({ s with backend := s.backend.called },
        [⟨ctx, .success, .packed { mt, values := [old, old] }⟩]) := by
  rw [cas, get_of_found (hb 0) hold]
  rw [if_pos rfl, if_neg hne]

end Server

namespace Client

/-! ## One call -/

section Call

variable (env : Env) (link seqNo : Nat) {key expect value : Bytes} {s : Server}

def Fails (out : Option (StoreErrorCode × Bytes)) : Prop :=
  ∀ code x, out = some (code, x) → code ≠ .success ∧ code ≠ .restore

def CasSendable (key expect value : Bytes) : Prop :=
  ValidKey key ∧ 58 + key.length + expect.length + value.length ≤ maxRecvBodyLen

/-- What a call does.  A mismatch is reported with two copies of the current content. -/
inductive CasOutcome (key expect value : Bytes) (s : Server) :
    Server → Option (StoreErrorCode × Bytes) → Prop
  | applied {s' : Server} (hsend : CasSendable key expect value)
      (hmatch : ∀ old, s.backend.kvStore.lookup key = some old → expect = old)
      (hkv : s'.backend.kvStore = s.backend.kvStore.insert key value) :
      CasOutcome key expect value s s' (some (.success, value))
  | mismatch {s' : Server} (hsend : CasSendable key expect value) {old : Bytes}
      (hold : s.backend.kvStore.lookup key = some old) (hne : expect ≠ old)
      (hlen : 50 + 2 * old.length ≤ maxRecvBodyLen)
      (hkv : s'.backend.kvStore = s.backend.kvStore) :
      CasOutcome key expect value s s' (some (.restore, old))
  | lost {s' : Server} {out : Option (StoreErrorCode × Bytes)} {old : Bytes}
      (hold : s.backend.kvStore.lookup key = some old) (hne : expect ≠ old)
      (hlen : maxRecvBodyLen < 50 + 2 * old.length)
      (hkv : s'.backend.kvStore = s.backend.kvStore) (hout : Fails out) :
      CasOutcome key expect value s s' out
  | unsent {s' : Server} {out : Option (StoreErrorCode × Bytes)}
      (hsend : ¬ CasSendable key expect value)
      (hkv : s'.backend.kvStore = s.backend.kvStore) (hout : Fails out) :
      CasOutcome key expect value s s' out

theorem length_casRequest :
    (pack (casRequest key expect value)).length =
      58 + key.length + expect.length + value.length := by
  simp [casRequest, length_pack, baseSize]
  omega

theorem length_casReply (old : Bytes) :
    (pack { mt := .cas, values := [old, old] }).length = 50 + 2 * old.length := by
  simp [length_pack, baseSize]
  omega

theorem fails_some {code : StoreErrorCode} {x : Bytes} (h : code ≠ .success)
    (h' : code ≠ .restore) : Fails (some (code, x)) := by
  intro code' x' heq
  obtain ⟨rfl, -⟩ := Prod.mk.inj (some.inj heq)
  exact ⟨h, h'⟩

theorem withinLimits_casRequest (h : CasSendable key expect value) :
    WithinLimits (casRequest key expect value) := by
  refine withinLimits_of_length_le (length_casRequest ▸ h.2) ?_ ?_ ?_
  · simp [casRequest, maxCount]
  · have := h.1.2
    simp only [casRequest, List.mem_singleton, forall_eq, maxKeyLenClient, maxKeySize] at this ⊢
    omega
  · simp [casRequest, maxCount]

theorem finishCas_pack {values : List Bytes} (hcount : values.length ≤ 2)
    (hlen : (pack { mt := .cas, values }).length ≤ maxRecvBodyLen) :
    (transfer (pack { mt := .cas, values })).map (finishCas .success) =
      some (casResult values) := by
  have hm : WithinLimits { mt := .cas, values } :=
    withinLimits_of_length_le hlen (by simp) (by simp) (by simp only [maxCount]; omega)
  rw [transfer_eq hlen, map_some, finishCas, if_neg (by simp), unpack_pack hm]

theorem handler_casRequest (hkey : ValidKey key) (ctx : Context) :
    handler env ctx (casRequest key expect value) s =
      Server.cas env ctx .cas key expect value s := by
  have hle : ¬ maxKeyLenServer < key.length := by
    have := hkey.2
    simp only [maxKeyLenClient, maxKeyLenServer] at *
    omega
  simp [handler, casRequest, casHandler, keyTwoValues, checked, hle]

theorem cas_outcome_of_match (hb : s.backend.InMemory) (hsend : CasSendable key expect value)
    (hmatch : ∀ old, s.backend.kvStore.lookup key = some old → expect = old) :
    ∃ s', cas env link seqNo key expect value s = (s', some (.success, value)) ∧
      s'.backend.kvStore = s.backend.kvStore.insert key value ∧ s'.backend.InMemory := by
  obtain ⟨s', rest, hcas, hkv, hb'⟩ := cas_of_match env
    ⟨link, seqNo, s.received, some (casRequest key expect value)⟩
    (s := { s with received := s.received + 1 }) hb hmatch
  have hreply : (pack { mt := .cas, values := [value] }).length ≤ maxRecvBodyLen := by
    have hlen := length_pack { mt := .cas, values := [value] }
    simp only [List.flatMap_nil, List.flatMap_cons, List.append_nil, List.length_nil,
      length_packBytes, baseSize] at hlen
    have := hsend.2
    omega
  refine ⟨s', ?_, hkv, hb'⟩
  rw [cas, call_eq hsend.1 (withinLimits_casRequest hsend) (length_casRequest ▸ hsend.2)
    ((handler_casRequest env hsend.1 _).trans hcas) rfl]
  simp only [bytes]
  rw [finishCas_pack (by simp) hreply, casResult]

/-- With another content, the outcome depends on whether the reply can be carried. -/
theorem cas_outcome_of_mismatch {old : Bytes} (hb : s.backend.InMemory)
    (hsend : CasSendable key expect value) (hold : s.backend.kvStore.lookup key = some old)
    (hne : expect ≠ old) :
    CasOutcome key expect value s (cas env link seqNo key expect value s).1
        (cas env link seqNo key expect value s).2 ∧
      (cas env link seqNo key expect value s).1.backend.InMemory := by
  have hcas := cas_of_mismatch .cas value env
    ⟨link, seqNo, s.received, some (casRequest key expect value)⟩
    (s := { s with received := s.received + 1 }) hb hold hne
  rw [cas, call_eq hsend.1 (withinLimits_casRequest hsend) (length_casRequest ▸ hsend.2)
    ((handler_casRequest env hsend.1 _).trans hcas) rfl]
  refine ⟨?_, hb.called⟩
  simp only [bytes]
  by_cases hreply : (pack { mt := .cas, values := [old, old] }).length ≤ maxRecvBodyLen
  · rw [finishCas_pack (by simp) hreply]
    exact .mismatch hsend hold hne (length_casReply old ▸ hreply) rfl
  · rw [not_le] at hreply
    refine .lost hold hne (length_casReply old ▸ hreply) rfl ?_
    rcases transfer_long hreply with hnone | ⟨b, e, hsome, he⟩
    · rw [hnone]
      exact fun _ _ h => by cases h
    · rw [hsome, map_some, finishCas, he]
      exact fails_some (by simp) (by simp)

theorem cas_unsent (hsend : ¬ CasSendable key expect value) :
    (cas env link seqNo key expect value s).1.backend = s.backend ∧
      Fails (cas env link seqNo key expect value s).2 := by
  by_cases hkey : ValidKey key
  · have hlong : maxRecvBodyLen < (pack (casRequest key expect value)).length := by
      rw [length_casRequest]
      by_contra hle
      exact hsend ⟨hkey, by omega⟩
    obtain ⟨hbackend, hout⟩ := call_long env link seqNo s [] finishCas hkey hlong
    refine ⟨hbackend, ?_⟩
    rw [cas]
    rcases hout with hout | ⟨body, hout⟩
    · rw [hout]
      exact fails_some (by simp) (by simp)
    · rw [hout]
      exact fails_some (by simp) (by simp)
  · rw [cas, call_invalid hkey]
    exact ⟨rfl, fails_some (by simp) (by simp)⟩

theorem cas_outcome (key expect value : Bytes) (hb : s.backend.InMemory) :
    CasOutcome key expect value s (cas env link seqNo key expect value s).1
        (cas env link seqNo key expect value s).2 ∧
      (cas env link seqNo key expect value s).1.backend.InMemory := by
  by_cases hsend : CasSendable key expect value
  · by_cases hmatch : ∀ old, s.backend.kvStore.lookup key = some old → expect = old
    · obtain ⟨s', hcas, hkv, hb'⟩ := cas_outcome_of_match env link seqNo hb hsend hmatch
      rw [hcas]
      exact ⟨.applied hsend hmatch hkv, hb'⟩
    · push Not at hmatch
      obtain ⟨old, hold, hne⟩ := hmatch
      exact cas_outcome_of_mismatch env link seqNo hb hsend hold hne
  · obtain ⟨hbackend, hfails⟩ := cas_unsent env link seqNo hsend
    refine ⟨.unsent hsend (congrArg kvStore hbackend) hfails, ?_⟩
    rw [hbackend]
    exact hb

/-! ## The contract -/

def content (s : Server) (key : Bytes) : Bytes := (s.backend.kvStore.lookup key).getD []

/-- `value` is stored exactly if the content is `expect`, and otherwise the content is
returned and nothing changes. -/
def CasContract (env : Env) (link seqNo : Nat) (key expect value : Bytes) (s : Server) : Prop :=
  let out := cas env link seqNo key expect value s
  if content s key = expect then
    (∃ x, out.2 = some (.success, x)) ∧
      ∀ k, out.1.backend.kvStore.lookup k =
        if k = key then some value else s.backend.kvStore.lookup k
  else
    out.2 = some (.restore, content s key) ∧
      ∀ k, out.1.backend.kvStore.lookup k = s.backend.kvStore.lookup k

/-- The request can be sent, an absent key is expected to be empty, and a content that
does not match can be sent back. -/
structure CasWorks (key expect value : Bytes) (s : Server) : Prop where
  sendable : CasSendable key expect value
  absent : s.backend.kvStore.lookup key = none → expect = []
  reply : ∀ old, s.backend.kvStore.lookup key = some old → expect ≠ old →
    50 + 2 * old.length ≤ maxRecvBodyLen

theorem content_of_some {old : Bytes} (h : s.backend.kvStore.lookup key = some old) :
    content s key = old := by
  rw [content, h, getD_some]

theorem not_casContract_of_fails {env : Env} {link seqNo : Nat}
    (h : Fails (cas env link seqNo key expect value s).2) :
    ¬ CasContract env link seqNo key expect value s := by
  intro hcontract
  unfold CasContract at hcontract
  split_ifs at hcontract
  · obtain ⟨⟨x, hx⟩, -⟩ := hcontract
    exact (h _ _ hx).1 rfl
  · exact (h _ _ hcontract.1).2 rfl

theorem casContract_iff {env : Env} {link seqNo : Nat} (hb : s.backend.InMemory) :
    CasContract env link seqNo key expect value s ↔ CasWorks key expect value s := by
  have houtcome := (cas_outcome env link seqNo key expect value hb).1
  constructor
  · intro hcontract
    generalize hout : (cas env link seqNo key expect value s).2 = out at houtcome
    cases houtcome with
    | applied hsend hmatch hkv =>
      refine ⟨hsend, fun habsent => ?_, fun old hold hne => absurd (hmatch old hold) hne⟩
      unfold CasContract at hcontract
      dsimp only at hcontract
      rw [hout, content, habsent] at hcontract
      by_contra hne
      rw [if_neg (fun h => hne h.symm)] at hcontract
      simp at hcontract
    | mismatch hsend hold hne hlen hkv =>
      refine ⟨hsend, ?_, ?_⟩
      · intro hnone
        rw [hold] at hnone
        cases hnone
      · intro old' hold' _
        obtain rfl := some.inj (hold.symm.trans hold')
        exact hlen
    | lost hold hne hlen hkv hfails =>
      exact absurd hcontract (not_casContract_of_fails (hout ▸ hfails))
    | unsent hsend hkv hfails =>
      exact absurd hcontract (not_casContract_of_fails (hout ▸ hfails))
  · rintro ⟨hsend, habsent, hreply⟩
    unfold CasContract
    dsimp only
    generalize (cas env link seqNo key expect value s).2 = out at houtcome ⊢
    cases houtcome with
    | applied _ hmatch hkv =>
      have hcontent : content s key = expect := by
        cases hold : s.backend.kvStore.lookup key with
        | none => rw [content, hold, habsent hold, getD_none]
        | some old => rw [content_of_some hold, hmatch old hold]
      rw [if_pos hcontent, hkv]
      exact ⟨⟨_, rfl⟩, fun k => Table.lookup_insert_eq _ _ _ _⟩
    | mismatch _ hold hne hlen hkv =>
      rw [content_of_some hold, if_neg (fun h => hne h.symm), hkv]
      exact ⟨rfl, fun _ => rfl⟩
    | lost hold hne hlen => exact absurd (hreply _ hold hne) (by omega)
    | unsent hnot => exact absurd hsend hnot

end Call

/-! ## Several clients -/

structure CasCall where
  env : Env
  link : Nat
  seqNo : Nat
  expect : Bytes
  value : Bytes

def CasCall.run (key : Bytes) (c : CasCall) (s : Server) :
    Server × Option (StoreErrorCode × Bytes) :=
  cas c.env c.link c.seqNo key c.expect c.value s

def CasCall.succeeds (key : Bytes) (c : CasCall) (s : Server) : Prop :=
  ∃ x, (c.run key s).2 = some (.success, x)

/-- The state after the calls, in the order in which the server handles them. -/
def casRun (key : Bytes) (calls : List CasCall) (s : Server) : Server :=
  calls.foldl (fun s c => (c.run key s).1) s

section

variable {key : Bytes} {c : CasCall} {s : Server}

section

variable (hb : s.backend.InMemory)

include hb

theorem CasCall.inMemory_run : (c.run key s).1.backend.InMemory :=
  (cas_outcome c.env c.link c.seqNo key c.expect c.value hb).2

theorem CasCall.mem_run (h : key ∈ s.backend.kvStore) :
    key ∈ (c.run key s).1.backend.kvStore := by
  have houtcome := (cas_outcome c.env c.link c.seqNo key c.expect c.value hb).1
  unfold CasCall.run
  generalize (cas c.env c.link c.seqNo key c.expect c.value s).2 = out at houtcome
  cases houtcome with
  | applied _ _ hkv =>
    rw [hkv, AList.mem_insert]
    exact .inl rfl
  | mismatch _ _ _ _ hkv => rwa [hkv]
  | lost _ _ _ hkv => rwa [hkv]
  | unsent _ hkv => rwa [hkv]

theorem CasCall.succeeds.applied (h : c.succeeds key s) :
    (∀ old, s.backend.kvStore.lookup key = some old → c.expect = old) ∧
      key ∈ (c.run key s).1.backend.kvStore := by
  have houtcome := (cas_outcome c.env c.link c.seqNo key c.expect c.value hb).1
  obtain ⟨x, hx⟩ := h
  unfold CasCall.run at hx ⊢
  rw [hx] at houtcome
  cases houtcome with
  | applied _ hmatch hkv =>
    rw [hkv, AList.mem_insert]
    exact ⟨hmatch, .inl rfl⟩
  | lost _ _ _ _ hfails => exact absurd rfl (hfails _ _ rfl).1
  | unsent _ _ hfails => exact absurd rfl (hfails _ _ rfl).1

theorem casRun_mem (h : key ∈ s.backend.kvStore) (calls : List CasCall) :
    (casRun key calls s).backend.InMemory ∧ key ∈ (casRun key calls s).backend.kvStore := by
  induction calls generalizing s with
  | nil => exact ⟨hb, h⟩
  | cons c calls ih => exact ih (CasCall.inMemory_run hb) (CasCall.mem_run hb h)

end

end

/-- The contract of one call, and of the calls of any number of clients on one key: after
a call that succeeds, another one succeeds only when the key holds what that one expects.
So two calls with the same `expect` do not both succeed unless the key holds it again. -/
theorem cas_contract_iff (key : Bytes) :
    (∀ env link seqNo expect value s, s.backend.InMemory →
      (CasContract env link seqNo key expect value s ↔ CasWorks key expect value s)) ∧
    (∀ (first second : CasCall) (between : List CasCall) (s : Server), s.backend.InMemory →
      first.succeeds key s →
      second.succeeds key (casRun key between (first.run key s).1) →
      (casRun key between (first.run key s).1).backend.kvStore.lookup key =
        some second.expect) := by
  refine ⟨fun env link seqNo expect value s hb => casContract_iff hb, ?_⟩
  intro first second between s hb hfirst hsecond
  have hmem := (hfirst.applied hb).2
  obtain ⟨hb', hmem'⟩ := casRun_mem (CasCall.inMemory_run hb) hmem between
  obtain ⟨old, hold⟩ := isSome_iff_exists.mp (AList.lookup_isSome.mpr hmem')
  rw [hold, (hsecond.applied hb').1 old hold]

def newKey : Bytes := [107]

theorem casWorks_newKey : CasWorks newKey [] [1] (start 4 {}) := by
  refine ⟨⟨⟨by decide, by decide⟩, by decide⟩, fun _ => rfl, ?_⟩
  intro old hold
  cases hold

/-- Taking a lock: the first call succeeds. -/
theorem cas_contract_iff_newKey :
    CasContract openEnv 0 1 newKey [] [1] (start 4 {}) :=
  ((cas_contract_iff newKey).1 openEnv 0 1 [] [1] _ (fun _ => rfl)).mpr casWorks_newKey

/-- The key is absent and `[1]` is expected, and the call succeeds all the same. -/
theorem cas_ignores_expect :
    content (start 4 {}) newKey ≠ [1] ∧
      (cas openEnv 0 1 newKey [1] [2] (start 4 {})).2 = some (.success, [2]) ∧
      content (cas openEnv 0 1 newKey [1] [2] (start 4 {})).1 newKey = [2] ∧
      ¬ CasContract openEnv 0 1 newKey [1] [2] (start 4 {}) := by
  have habsent : ∀ old, (start 4 {}).backend.kvStore.lookup newKey = some old →
      ([1] : Bytes) = old := fun old hold => by cases hold
  have hsend : CasSendable newKey [1] [2] := ⟨⟨by decide, by decide⟩, by decide⟩
  obtain ⟨s', hcas, hkv, -⟩ := cas_outcome_of_match openEnv 0 1
    (fun _ => rfl) hsend habsent
  rw [casContract_iff (fun _ => rfl), hcas]
  refine ⟨by decide, rfl, ?_, fun h => absurd (h.absent rfl) (by decide)⟩
  rw [content, hkv]
  rfl

end Client

end MemFabric.Smem.Store
