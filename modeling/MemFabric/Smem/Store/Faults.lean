import MemFabric.Smem.Store.Wakeup

/-!
# Reply codes under backend failures

A request that changes a key is answered truthfully if a success reply means that
the key now has the content the request asks for, and a failure reply that
nothing happened: the key is as before, no blocked GET was taken out, and no one
was told a value.  Which failures of which backend calls are answered truthfully
is stated for each request.
-/

namespace MemFabric.Smem.Store.Server

open Machine Wire Backend Option List

/-! ## What requests ask for -/

/-- The requests that change a key. -/
inductive Mutation
  | set (value : Bytes)
  | add (value : Bytes)
  | append (value : Bytes)
  | cas (expected exchange : Bytes)
  | write (value : Bytes)
  | remove

def mutation? (request : SmemMessage) : Option (Bytes × Mutation) :=
  match request.mt with
  | .set => (keyValue request).map fun a => (a.1, .set a.2)
  | .add => (keyValue request).map fun a => (a.1, .add a.2)
  | .append => (keyValue request).map fun a => (a.1, .append a.2)
  | .cas => (keyTwoValues request).map fun a => (a.1, .cas a.2.1 a.2.2)
  | .write => (keyValue request).map fun a => (a.1, .write a.2)
  | .remove => (onlyKey request).map fun a => (a.1, .remove)
  | _ => none

def mutates (mt : MessageType) : Bool :=
  match mt with
  | .set | .add | .append | .cas | .write | .remove => true
  | _ => false

def addResult (old : Option Bytes) (value : Bytes) : Option Bytes :=
  match old with
  | none => some value
  | some old =>
    match string2Int old, string2Int value with
    | some n, some v =>
      if n = 0 ∧ old ≠ ascii "0" ∨ n + v < -2 ^ 63 ∨ 2 ^ 63 ≤ n + v then none
      else some (decimal (n + v))
    | _, _ => none

/-- The content of the key once the request has taken effect, if it can. -/
def Mutation.result (old : Option Bytes) : Mutation → Option (Option Bytes)
  | .set value => some (some value)
  | .add value => (addResult old value).map some
  | .append value => some (some (old.getD [] ++ value))
  | .cas _ exchange => some (some exchange)
  | .write value =>
    some (some (overwrite (old.getD []) (leValue (value.take 4)) (value.drop 4)))
  | .remove => some none

/-- A success reply; the reply to a CAS that does not match carries two values. -/
def Reply.succeeds (r : Reply) : Bool :=
  decide (r.code = .success) &&
    match r.body with
    | .text _ => true
    | .packed m => decide (m.values.length ≤ 1)

/-- The first reply, the one to the request, tells what happened. -/
def Truthful (request : SmemMessage) (s s' : Server) (out : List Reply) : Prop :=
  ∀ r rest, out = r :: rest →
    if Reply.succeeds r then
      ∃ key op, mutation? request = some (key, op) ∧
        op.result (s.backend.kvStore.lookup key) = some (s'.backend.kvStore.lookup key)
    else
      (∀ key ∈ request.keys, s'.backend.kvStore.lookup key = s.backend.kvStore.lookup key) ∧
        (∀ id, s'.waiters.waitCtx.lookup id = s.waiters.waitCtx.lookup id) ∧ rest = []

/-! ## Which failures are told -/

def Audience (env : Env) (s : Server) (key : Bytes) : Prop :=
  (∃ id ∈ Table.get s.waiters.keyWaiters key, s.waiters.waitCtx.lookup id ≠ none) ∨
    ∃ ctx ∈ s.watchersOf key, env.established ctx.link = true

def Mutation.Told (env : Env) (key : Bytes) (s : Server) : Mutation → Prop
  | .set value =>
    -- `Get`, `Put`
    s.backend.fault 1 = none ∨
      s.backend.fault 0 = none ∧ s.backend.kvStore.lookup key = some value ∨ ¬ Audience env s key
  | .append _ =>
    -- `Get`, `Put`
    if s.backend.fault 1 = none then
      s.backend.fault 0 = none ∨ (s.backend.kvStore.lookup key).getD [] = []
    else ¬ Audience env s key
  | .cas expected _ =>
    -- `Get`, `Put`
    s.backend.fault 1 = none ∨
      s.backend.fault 0 = none ∧ (∃ old, s.backend.kvStore.lookup key = some old ∧ expected ≠ old) ∨
      ¬ Audience env s key
  | .add value =>
    -- `Get`, `Put`; nothing is called if the operand is not a number
    (∃ n, string2Int value = some n ∧ value = decimal n) →
      match s.backend.fault 0, s.backend.kvStore.lookup key with
      | none, some old =>
        s.backend.fault 1 = none ∨ addResult (some old) value = none ∨
          addResult (some old) value = some old
      | _, _ =>
        if s.backend.fault 1 = none then
          addResult (s.backend.kvStore.lookup key) value = some value
        else ¬ Audience env s key
  | .write value =>
    -- `Get`, then `Get`, `Put`; or `Put` of zeros, `Get`, `Put` if the key was not found
    let offset := leValue (value.take 4)
    let data := value.drop 4
    WriteApplies key value →
      match s.backend.fault 0, s.backend.kvStore.lookup key with
      | none, some _ => True
      | _, old =>
        s.backend.fault 1 = none →
          if s.backend.fault 3 = none then
            overwrite (old.getD []) offset data = overwrite [] offset data
          else old = some (replicate (offset + data.length) 0)
  | .remove =>
    -- `Exist`, `Delete`
    s.backend.fault 0 = none → key ∈ s.backend.kvStore → s.backend.fault 1 = none

section Requests

variable {env : Env} {ctx : Context} {request : SmemMessage} {s : Server} {key : Bytes}

variable {op : Mutation} {s' : Server} {r : Reply} {rest : List Reply} {b : Backend}
  {value old data : Bytes} {n v : Int} {offset : Nat}

theorem mutation?_keys (h : mutation? request = some (key, op)) : request.keys = [key] := by
  unfold mutation? at h
  split at h <;> simp only [map_eq_some_iff, Prod.exists, reduceCtorEq] at h
  case h_4 =>
    obtain ⟨k, v, w, hargs, rfl, -⟩ := h
    exact keyTwoValues_eq_some hargs
  case h_6 =>
    obtain ⟨k, u, hargs, rfl, -⟩ := h
    exact onlyKey_eq_some hargs
  all_goals
    obtain ⟨k, v, hargs, rfl, -⟩ := h
    exact (keyValue_eq_some hargs).1

theorem truthful_nil : Truthful request s s' [] := by
  intro r rest h
  cases h

theorem truthful_cons_iff (hop : mutation? request = some (key, op)) :
    Truthful request s s' (r :: rest) ↔
      if Reply.succeeds r then
        op.result (s.backend.kvStore.lookup key) = some (s'.backend.kvStore.lookup key)
      else
        s'.backend.kvStore.lookup key = s.backend.kvStore.lookup key ∧
          (∀ id, s'.waiters.waitCtx.lookup id = s.waiters.waitCtx.lookup id) ∧ rest = [] := by
  simp only [Truthful, cons.injEq, hop, some.injEq, Prod.mk.injEq, mutation?_keys hop]
  constructor
  · intro h
    have := h r rest ⟨rfl, rfl⟩
    split_ifs at this ⊢
    · obtain ⟨_, _, ⟨rfl, rfl⟩, hresult⟩ := this
      exact hresult
    · exact ⟨this.1 key (by simp), this.2⟩
  · rintro h r' rest' ⟨rfl, rfl⟩
    split_ifs at h ⊢
    · exact ⟨key, op, ⟨rfl, rfl⟩, h⟩
    · exact ⟨by simpa using h.1, h.2⟩

theorem truthful_fail (hr : Reply.succeeds r = false) (hkv : s'.backend.kvStore = s.backend.kvStore)
    (hw : s'.waiters = s.waiters) : Truthful request s s' [r] := by
  rintro r' rest h
  obtain ⟨rfl, rfl⟩ := cons.inj h
  rw [if_neg (by simp [hr]), hkv, hw]
  exact ⟨fun _ _ => rfl, fun _ => rfl, rfl⟩

/-- Collecting the waiters of a key goes unnoticed exactly if there is no audience. -/
theorem wake_unnoticed_iff (value : Bytes) :
    (∀ id, (s.getWakeupList key).2.waiters.waitCtx.lookup id = s.waiters.waitCtx.lookup id) ∧
        wakeupWaiters env (s.getWakeupList key).1 value = [] ↔ ¬ Audience env s key := by
  have hlookup : ∀ id, (s.getWakeupList key).2.waiters.waitCtx.lookup id =
      if id ∈ Table.get s.waiters.keyWaiters key then none else s.waiters.waitCtx.lookup id := by
    intro id
    rw [getWakeupList, Waiters.takeKey_eq]
    exact Waiters.lookup_getOut _ _ id
  have hwaiters : ∀ c, c ∈ (s.getWakeupList key).1.waiters ↔
      ∃ id ∈ Table.get s.waiters.keyWaiters key,
        ∃ w, s.waiters.waitCtx.lookup id = some w ∧ w.reqCtx = c := by
    intro c
    rw [getWakeupList, Waiters.takeKey_eq]
    exact Waiters.mem_getOut
  have hnil : ∀ mt l, notify env mt value l = [] ↔ ∀ c ∈ l, env.established c.link = false := by
    simp [notify]
  rw [wakeupWaiters, append_eq_nil_iff, hnil, hnil, Audience, not_or]
  constructor
  · rintro ⟨hsame, -, hwatch⟩
    refine ⟨?_, ?_⟩
    · rintro ⟨id, hid, hne⟩
      have := hsame id
      rw [hlookup, if_pos hid] at this
      exact hne this.symm
    · rintro ⟨c, hc, hup⟩
      rw [hwatch c hc] at hup
      cases hup
  · rintro ⟨hwait, hwatch⟩
    refine ⟨fun id => ?_, fun c hc => ?_, fun c hc => ?_⟩
    · rw [hlookup]
      split_ifs with hid
      · by_contra hne
        exact hwait ⟨id, hid, fun h => hne h.symm⟩
      · rfl
    · obtain ⟨id, hid, w, hw, -⟩ := (hwaiters c).mp hc
      exact absurd ⟨id, hid, by simp [hw]⟩ hwait
    · by_contra hup
      exact hwatch ⟨c, hc, by simpa using hup⟩

theorem truthful_put_iff (hop : mutation? request = some (key, op)) (hr : Reply.succeeds r = true)
    (hkv : s'.backend.kvStore = b.kvStore.insert key value) :
    Truthful request s s' (r :: rest) ↔
      op.result (s.backend.kvStore.lookup key) = some (some value) := by
  rw [truthful_cons_iff hop, if_pos hr, hkv, AList.lookup_insert]

theorem succeeds_fault {f : Failure} {body : Body} : Reply.succeeds ⟨ctx, f.1, body⟩ = false := by
  simp [Reply.succeeds, f.2]

/-- A value is stored, and then its waiters and watchers are told. -/
theorem truthful_put_wake_iff {sent : Bytes} {body : Body}
    (hop : mutation? request = some (key, op))
    (hbody : Reply.succeeds ⟨ctx, .success, body⟩ = true) :
    Truthful request s
        { (s.getWakeupList key).2 with backend := (s.backend.called.put key value).backend }
        (⟨ctx, (s.backend.called.put key value).ret, body⟩ ::
          wakeupWaiters env (s.getWakeupList key).1 sent) ↔
      if s.backend.fault 1 = none then
        op.result (s.backend.kvStore.lookup key) = some (some value)
      else ¬ Audience env s key := by
  cases hf : s.backend.fault 1 with
  | none =>
    rw [put_of_ok hf, if_pos rfl]
    exact truthful_put_iff hop hbody rfl
  | some f =>
    rw [put_of_fault hf, if_neg (some_ne_none f), truthful_cons_iff hop,
      if_neg (by simp [succeeds_fault]), ← wake_unnoticed_iff sent]
    exact and_iff_right rfl

theorem truthful_set_iff (hop : mutation? request = some (key, .set value)) :
    Truthful request s (set env ctx key value s).1 (set env ctx key value s).2 ↔
      (Mutation.set value).Told env key s := by
  unfold set Mutation.Told
  dsimp only
  rw [get_backend]
  by_cases hwake : (s.backend.get key []).ret ≠ .success ∨ (s.backend.get key []).value ≠ value
  · have hsame : ¬ (s.backend.fault 0 = none ∧ s.backend.kvStore.lookup key = some value) := by
      rintro ⟨h0, hv⟩
      rcases hwake with h | h <;> simp [Backend.get, h0, hv] at h
    rw [if_pos hwake]
    refine (truthful_put_wake_iff hop (by simp [Reply.succeeds])).trans ?_
    split_ifs with hf <;> simp [hf, hsame, Mutation.result]
  · rw [not_or, not_not, not_not, get_ret_eq_success_iff] at hwake
    obtain ⟨⟨h0, hlookup⟩, hv⟩ := hwake
    rw [hv] at hlookup
    refine iff_of_true ?_ (.inr (.inl ⟨h0, hlookup⟩))
    rw [if_neg (by simp [Backend.get, h0, hlookup])]
    cases hf : s.backend.fault 1 with
    | none =>
      rw [put_of_ok hf]
      exact (truthful_put_iff hop (by simp [Reply.succeeds]) rfl).mpr rfl
    | some f =>
      rw [put_of_fault hf]
      exact truthful_fail succeeds_fault rfl rfl

theorem truthful_append_iff (hop : mutation? request = some (key, .append value)) :
    Truthful request s (append env ctx key value s).1 (append env ctx key value s).2 ↔
      (Mutation.append value).Told env key s := by
  unfold append Mutation.Told
  dsimp only
  rw [get_backend]
  refine (truthful_put_wake_iff hop (by simp [Reply.succeeds])).trans ?_
  refine Iff.of_eq (ite_congr rfl (fun _ => propext ?_) fun _ => rfl)
  cases h0 : s.backend.fault 0 with
  | none => cases hv : s.backend.kvStore.lookup key <;> simp [Backend.get, h0, hv, Mutation.result]
  | some g => simp [Backend.get, h0, Mutation.result, g.2]

theorem truthful_cas_iff {mt : MessageType} {expected exchange : Bytes}
    (hop : mutation? request = some (key, .cas expected exchange)) :
    Truthful request s (cas env ctx mt key expected exchange s).1
      (cas env ctx mt key expected exchange s).2 ↔
      (Mutation.cas expected exchange).Told env key s := by
  unfold cas Mutation.Told
  dsimp only
  rw [get_backend]
  by_cases hmismatch :
    (s.backend.get key []).ret = .success ∧ expected ≠ (s.backend.get key []).value
  · obtain ⟨hret, hne⟩ := hmismatch
    have hget := get_ret_eq_success_iff.mp hret
    rw [if_pos hret, if_neg hne]
    refine iff_of_true (truthful_fail (by simp [Reply.succeeds]) rfl rfl) (.inr (.inl ⟨hget.1, ?_⟩))
    exact ⟨_, hget.2, hne⟩
  · have hsame : ¬ (s.backend.fault 0 = none ∧
        ∃ old, s.backend.kvStore.lookup key = some old ∧ expected ≠ old) := by
      rintro ⟨h0, old, hold, hne⟩
      exact hmismatch (by simp [Backend.get, h0, hold, hne])
    have htold : (if s.backend.fault 1 = none then
        (Mutation.cas expected exchange).result (s.backend.kvStore.lookup key) =
          some (some exchange)
        else ¬ Audience env s key) ↔ s.backend.fault 1 = none ∨ ¬ Audience env s key := by
      split_ifs with hf <;> simp [hf, Mutation.result]
    simp only [hsame, false_or]
    refine Iff.trans ?_ htold
    by_cases hret : (s.backend.get key []).ret = .success
    · rw [if_pos hret, if_pos (by_contra fun hne => hmismatch ⟨hret, hne⟩)]
      exact truthful_put_wake_iff hop (by simp [Reply.succeeds])
    · rw [if_neg hret]
      exact truthful_put_wake_iff hop (by simp [Reply.succeeds])

theorem truthful_remove_iff (hop : mutation? request = some (key, .remove)) :
    Truthful request s (remove ctx key s).1 (remove ctx key s).2 ↔
      Mutation.remove.Told env key s := by
  unfold remove Mutation.Told
  dsimp only
  rw [exist_backend]
  by_cases hfound : s.backend.fault 0 = none ∧ key ∈ s.backend.kvStore
  · obtain ⟨h0, hmem⟩ := hfound
    rw [if_pos (by simp [exist, h0, hmem]), truthful_cons_iff hop,
      if_pos (by simp [Reply.succeeds])]
    cases hf : s.backend.fault 1 with
    | none =>
      simp [delete, called, hf, Mutation.result]
    | some f =>
      refine iff_of_false ?_ fun h => by cases h h0 hmem
      intro h
      have hlookup : s.backend.kvStore.lookup key = none := by
        simpa [delete, called, hf, Mutation.result, eq_comm] using h
      exact AList.lookup_eq_none.mp hlookup hmem
  · rw [if_neg]
    · refine iff_of_true (truthful_fail (by simp [Reply.succeeds]) rfl rfl) ?_
      exact fun h0 hmem => absurd ⟨h0, hmem⟩ hfound
    · intro hret
      apply hfound
      unfold exist at hret
      cases h0 : s.backend.fault 0 with
      | none =>
        refine ⟨rfl, ?_⟩
        by_contra hmem
        simp [h0, hmem] at hret
      | some f =>
        simp only [h0] at hret
        exact absurd hret f.2

theorem string2Int_bounds {str : Bytes} (h : string2Int str = some n) :
    -2 ^ 63 ≤ n ∧ n < 2 ^ 63 := by
  unfold string2Int at h
  split at h
  · cases h
  · split_ifs at h with hbounds
    rw [← some.inj h]
    exact hbounds.2

theorem add_overflow_iff (hn : -2 ^ 63 ≤ n ∧ n < 2 ^ 63) (hv : -2 ^ 63 ≤ v ∧ v < 2 ^ 63) :
    (0 < v ∧ 2 ^ 63 - 1 - v < n ∨ v < 0 ∧ n < -2 ^ 63 - v) ↔ n + v < -2 ^ 63 ∨ 2 ^ 63 ≤ n + v := by
  omega

theorem truthful_add_found_iff (hop : mutation? request = some (key, .add value))
    (hnum : string2Int value = some v) (hcanon : value = decimal v) (h0 : s.backend.fault 0 = none)
    (hold : s.backend.kvStore.lookup key = some old) :
    Truthful request s (add env ctx key value s).1 (add env ctx key value s).2 ↔
      s.backend.fault 1 = none ∨ addResult (some old) value = none ∨
        addResult (some old) value = some old := by
  unfold add
  simp only [hnum, get_of_found h0 hold, if_neg (not_not.mpr hcanon), ne_eq, not_true_eq_false,
    if_false]
  have hinvalid : ∀ text, Truthful request s { s with backend := s.backend.called }
      [⟨ctx, .invalidMessage, .text text⟩] := fun _ =>
    truthful_fail (by simp [Reply.succeeds]) rfl rfl
  cases hn : string2Int old with
  | none => exact iff_of_true (hinvalid _) (.inr (.inl (by simp [addResult, hn])))
  | some n =>
    have hbounds := add_overflow_iff (string2Int_bounds hn) (string2Int_bounds hnum)
    have hresult : addResult (some old) value =
        if n = 0 ∧ old ≠ ascii "0" ∨ n + v < -2 ^ 63 ∨ 2 ^ 63 ≤ n + v then none
        else some (decimal (n + v)) := by simp only [addResult, hn, hnum]
    dsimp only
    by_cases hzero : n = 0 ∧ old ≠ ascii "0"
    · rw [if_pos hzero]
      exact iff_of_true (hinvalid _) (.inr (.inl (by rw [hresult, if_pos (.inl hzero)])))
    · rw [if_neg hzero]
      by_cases hover : n + v < -2 ^ 63 ∨ 2 ^ 63 ≤ n + v
      · rw [if_pos (hbounds.mpr hover)]
        exact iff_of_true (hinvalid _) (.inr (.inl (by rw [hresult, if_pos (.inr hover)])))
      · rw [if_neg fun h => hover (hbounds.mp h)]
        rw [if_neg (not_or.mpr ⟨hzero, hover⟩)] at hresult
        -- the reply is a success whatever `Put` returns
        rw [truthful_cons_iff hop, if_pos (by simp [Reply.succeeds]), Mutation.result, hold,
          hresult]
        cases hf : s.backend.fault 1 with
        | none =>
          rw [put_of_ok hf]
          exact iff_of_true (by simp [getWakeupList]) (.inl rfl)
        | some f =>
          rw [put_of_fault hf]
          simp [getWakeupList, hold]

theorem truthful_add_iff (hop : mutation? request = some (key, .add value)) :
    Truthful request s (add env ctx key value s).1 (add env ctx key value s).2 ↔
      (Mutation.add value).Told env key s := by
  unfold Mutation.Told
  dsimp only
  by_cases hoperand : ∃ n, string2Int value = some n ∧ value = decimal n
  · obtain ⟨v, hnum, hcanon⟩ := hoperand
    -- ADD to a key that is not found
    have hmissing : (s.backend.get key []).ret ≠ .success →
        (Truthful request s (add env ctx key value s).1 (add env ctx key value s).2 ↔
          if s.backend.fault 1 = none then
            addResult (s.backend.kvStore.lookup key) value = some value
          else ¬ Audience env s key) := by
      intro hret
      unfold add
      simp only [hnum, if_neg (not_not.mpr hcanon), get_backend, if_pos hret]
      refine (truthful_put_wake_iff hop (by simp [Reply.succeeds])).trans ?_
      simp [Mutation.result]
    rw [imp_iff_right ⟨v, hnum, hcanon⟩]
    cases h0 : s.backend.fault 0 with
    | none =>
      cases hold : s.backend.kvStore.lookup key with
      | none =>
        rw [hmissing (by simp [Backend.get, h0, hold]), hold]
      | some old => exact truthful_add_found_iff hop hnum hcanon h0 hold
    | some f => exact hmissing (by simp [Backend.get, h0, f.2])
  · refine iff_of_true ?_ fun h => absurd h hoperand
    unfold add
    cases hnum : string2Int value with
    | none => exact truthful_nil
    | some v =>
      dsimp only
      rw [if_pos fun hcanon => hoperand ⟨v, hnum, hcanon⟩]
      exact truthful_fail (by simp [Reply.succeeds]) rfl rfl

theorem overwrite_replicate (offset : Nat) (data : Bytes) :
    overwrite (replicate (offset + data.length) 0) offset data = overwrite [] offset data := by
  simp [overwrite]

/-- Zeros have been put before the second `Get`; it does not matter whether that one fails. -/
theorem overwrite_get_zeros
    (h : b.kvStore.lookup key = some (replicate (offset + data.length) 0)) :
    overwrite (b.get key []).value offset data = overwrite [] offset data := by
  by_cases hret : (b.get key []).ret = .success
  · have hlookup := (get_ret_eq_success_iff.mp hret).2
    rw [h] at hlookup
    rw [← some.inj hlookup, overwrite_replicate]
  · rw [get_value_of_ne hret]

theorem get_value_again (h : b.kvStore.lookup key = some old) : (b.get key old).value = old := by
  by_cases hret : (b.get key old).ret = .success
  · have hlookup := (get_ret_eq_success_iff.mp hret).2
    rw [h] at hlookup
    exact (some.inj hlookup).symm
  · exact get_value_of_ne hret

section

variable (hop : mutation? request = some (key, .write value))

include hop

theorem truthful_writeAt_missing_iff
    (hoffset : leValue (value.take 4) = offset) (hdata : value.drop 4 = data)
    (hret : (s.backend.get key []).ret ≠ .success) :
    Truthful request s (writeAt ctx key offset data s).1 (writeAt ctx key offset data s).2 ↔
      (s.backend.fault 1 = none →
        if s.backend.fault 3 = none then
          overwrite ((s.backend.kvStore.lookup key).getD []) offset data = overwrite [] offset data
        else s.backend.kvStore.lookup key = some (replicate (offset + data.length) 0)) := by
  unfold writeAt
  simp only [get_backend, get_value_of_ne hret]
  cases hf : s.backend.fault 1 with
  | some f =>
    rw [put_of_fault hf, if_pos ⟨hret, f.2⟩]
    exact iff_of_true (truthful_fail (by simp [Reply.succeeds]) rfl rfl) fun h => by cases h
  | none =>
    rw [put_of_ok hf, if_neg fun h => h.2 rfl, if_pos hret,
      imp_iff_right rfl]
    rw [overwrite_get_zeros (AList.lookup_insert _)]
    cases h3 : s.backend.fault 3 with
    | none =>
      rw [put_of_ok h3]
      refine Iff.trans (truthful_put_iff hop (by simp [Reply.succeeds]) rfl) ?_
      rw [Mutation.result, hoffset, hdata]
      simp
    | some f =>
      rw [if_neg (some_ne_none f), put_of_fault h3, if_pos f.2,
        truthful_cons_iff hop, if_neg (by simp [Reply.succeeds])]
      simp [eq_comm]

theorem truthful_writeAt_found
    (hoffset : leValue (value.take 4) = offset) (hdata : value.drop 4 = data)
    (h0 : s.backend.fault 0 = none) (hold : s.backend.kvStore.lookup key = some old) :
    Truthful request s (writeAt ctx key offset data s).1 (writeAt ctx key offset data s).2 := by
  have hagain : (s.backend.called.get key old).value = old := get_value_again hold
  unfold writeAt
  simp only [get_of_found h0 hold, ne_eq, not_true_eq_false, false_and, if_false,
    get_backend, hagain]
  cases h2 : s.backend.fault 2 with
  | none =>
    rw [put_of_ok h2]
    refine (truthful_put_iff hop ?_ rfl).mpr ?_
    · simp [Reply.succeeds]
    · rw [Mutation.result, hold, hoffset, hdata, getD_some]
  | some f =>
    rw [put_of_fault h2, if_pos f.2]
    exact truthful_fail (by simp [Reply.succeeds]) rfl rfl

theorem truthful_write_iff (hkey : key.length ≤ maxKeyLenServer) :
    Truthful request s (write ctx key value s).1 (write ctx key value s).2 ↔
      (Mutation.write value).Told env key s := by
  have hinvalid : ∀ text, Truthful request s s [⟨ctx, .invalidMessage, .text text⟩] := fun _ =>
    truthful_fail (by simp [Reply.succeeds]) rfl rfl
  unfold Mutation.Told
  dsimp only
  by_cases happly : WriteApplies key value
  · rw [imp_iff_right happly, write_of_applies happly]
    cases h0 : s.backend.fault 0 with
    | none =>
      cases hold : s.backend.kvStore.lookup key with
      | none =>
        have hret : (s.backend.get key []).ret ≠ .success := by simp [Backend.get, h0, hold]
        rw [truthful_writeAt_missing_iff hop rfl rfl hret, hold]
      | some old => exact iff_of_true (truthful_writeAt_found hop rfl rfl h0 hold) trivial
    | some f =>
      exact truthful_writeAt_missing_iff hop rfl rfl (by simp [Backend.get, h0, f.2])
  · refine iff_of_true ?_ fun h => absurd h happly
    unfold write
    dsimp only
    split_ifs with hshort hlarge hoffset hwrap htotal
    · exact hinvalid _
    · exact hinvalid _
    · exact hinvalid _
    · exact hinvalid _
    · exact absurd ⟨hkey, by omega, by omega, by omega⟩ happly
    · exact truthful_nil

end

theorem truthful_checked_iff {α : Type} {args : Option (Bytes × α)} {text : String}
    {handle : Bytes → α → Server × List Reply} (op : α → Mutation)
    (hargs : mutation? request = args.map fun a => (a.1, op a.2))
    (h : ∀ key a, mutation? request = some (key, op a) → key.length ≤ maxKeyLenServer →
      (Truthful request s (handle key a).1 (handle key a).2 ↔ (op a).Told env key s)) :
    Truthful request s (checked ctx args text s handle).1 (checked ctx args text s handle).2 ↔
      ∀ key op, mutation? request = some (key, op) → key.length ≤ maxKeyLenServer →
        op.Told env key s := by
  unfold checked
  cases args with
  | none =>
    rw [hargs]
    exact iff_of_true (truthful_fail (by simp [Reply.succeeds]) rfl rfl) (by simp)
  | some a =>
    obtain ⟨key, a⟩ := a
    rw [map_some] at hargs
    dsimp only at hargs ⊢
    split_ifs with hlen
    · refine iff_of_true truthful_nil fun key' op' hop hle => ?_
      rw [hargs, some.injEq, Prod.mk.injEq] at hop
      rw [← hop.1] at hle
      omega
    · rw [h key a hargs (not_lt.mp hlen)]
      constructor
      · intro htold key' op' hop _
        rw [hargs, some.injEq, Prod.mk.injEq] at hop
        rw [← hop.1, ← hop.2]
        exact htold
      · exact fun htold => htold key (op a) hargs (not_lt.mp hlen)

end Requests

/-- A request that changes a key is answered truthfully exactly for the backend failures
listed in `Mutation.Told`. -/
theorem reply_truthful_iff {env : Env} {ctx : Context} {request : SmemMessage} {s : Server}
    (hmt : mutates request.mt = true) :
    Truthful request s (handler env ctx request s).1 (handler env ctx request s).2 ↔
      ∀ key op, mutation? request = some (key, op) → key.length ≤ maxKeyLenServer →
        op.Told env key s := by
  unfold handler
  cases h : request.mt with
  | set =>
    exact truthful_checked_iff .set (by rw [mutation?, h]) fun key value hop _ =>
      truthful_set_iff hop
  | add =>
    exact truthful_checked_iff .add (by rw [mutation?, h]) fun key value hop _ =>
      truthful_add_iff hop
  | remove =>
    exact truthful_checked_iff (fun _ => .remove) (by rw [mutation?, h]) fun key u hop _ =>
      truthful_remove_iff hop
  | append =>
    exact truthful_checked_iff .append (by rw [mutation?, h]) fun key value hop _ =>
      truthful_append_iff hop
  | cas =>
    exact truthful_checked_iff (fun v => .cas v.1 v.2) (by rw [mutation?, h])
      fun key values hop _ => truthful_cas_iff hop
  | write =>
    exact truthful_checked_iff .write (by rw [mutation?, h]) fun key value hop hkey =>
      truthful_write_iff hop hkey
  | _ => simp [mutates, h] at hmt

/-- A SET whose two calls succeed. -/
theorem reply_truthful_iff_set :
    Truthful setByte (start 1 {}) (handler openEnv ⟨6, 0, 0, some setByte⟩ setByte (start 1 {})).1
      (handler openEnv ⟨6, 0, 0, some setByte⟩ setByte (start 1 {})).2 := by
  refine (reply_truthful_iff rfl).mpr fun key op hop _ => ?_
  obtain ⟨-, rfl⟩ := Prod.mk.inj (some.inj hop)
  exact .inl rfl

def thirdCallFails : Backend :=
  { fault := fun n => if n = 2 then some ⟨.error, by decide⟩ else none }

/-- After a WATCH, the `Put` of a SET fails: the watcher is told the value. -/
theorem set_tells_unstored :
    ¬ Truthful setByte
      (handler openEnv ⟨5, 0, 0, some watchKey⟩ watchKey (start 1 thirdCallFails)).1
      (handler openEnv ⟨6, 0, 1, some setByte⟩ setByte
        (handler openEnv ⟨5, 0, 0, some watchKey⟩ watchKey (start 1 thirdCallFails)).1).1
      (handler openEnv ⟨6, 0, 1, some setByte⟩ setByte
        (handler openEnv ⟨5, 0, 0, some watchKey⟩ watchKey (start 1 thirdCallFails)).1).2 := by
  intro h
  have hfail := h ⟨⟨6, 0, 1, some setByte⟩, .error, .text "error"⟩
    [⟨⟨5, 0, 0, some watchKey⟩, .success, .packed { mt := .watch, values := [[1]] }⟩] (by decide)
  cases hfail.2.2

end MemFabric.Smem.Store.Server
