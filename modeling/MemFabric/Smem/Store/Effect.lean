import MemFabric.Machine.Run
import MemFabric.Smem.Store.Server

/-!
# What a step of the server does

Every request has one of five effects on the blocked GETs and the watches, and
the link and timer events have effects of their own.  The invariants of runs are
derived from these effects and not from the handlers.
-/

namespace MemFabric.Smem.Store

open Machine Wire Backend Table List

/-! ## Backends over a call -/

namespace Backend

variable {b : Backend} {key value k out : Bytes}

theorem mem_put (h : k ∈ (b.put key value).backend.kvStore) : k ∈ b.kvStore ∨ k = key := by
  rw [kvStore_put] at h
  split_ifs at h
  · rw [AList.mem_insert] at h
    exact h.symm
  · exact .inl h

theorem mem_delete (h : k ∈ (b.delete key).backend.kvStore) : k ∈ b.kvStore := by
  unfold delete at h
  split at h
  · exact h
  · exact (AList.mem_erase.mp h).2

theorem InMemory.put (h : b.InMemory) : (b.put key value).backend.InMemory := by
  intro n
  rw [fault_put]
  exact h (n + 1)

theorem InMemory.delete (h : b.InMemory) : (b.delete key).backend.InMemory := by
  intro n
  unfold Backend.delete
  split <;> exact h (n + 1)

theorem InMemory.lookup_put (h : b.InMemory) :
    (b.put key value).backend.kvStore.lookup key = some value := by
  rw [put_of_ok (h 0)]
  exact AList.lookup_insert _

theorem mem_of_get (h : (b.get key out).ret = .success) : key ∈ b.kvStore :=
  AList.lookup_isSome.mp (by rw [(get_ret_eq_success_iff.mp h).2]; rfl)

theorem InMemory.notMem_of_get (hb : b.InMemory) (h : (b.get key out).ret ≠ .success) :
    key ∉ b.kvStore := by
  rw [get_of_inMemory hb] at h
  intro hmem
  exact h (by simp [hmem])

@[simp] theorem exist_backend : (b.exist key).backend = b.called := by
  unfold exist
  split <;> rfl

@[simp] theorem prefixGet_backend : (b.prefixGet key).backend = b.called := by
  unfold prefixGet
  split <;> rfl

end Backend

/-! ## Requests -/

def Context.Asks (ctx : Context) (mt : MessageType) (key : Bytes) : Prop :=
  ∃ m, ctx.request = some m ∧ m.mt = mt ∧ m.keys = [key]

def Context.isGet (ctx : Context) : Bool := ctx.request.any fun m => decide (m.mt = .get)

variable {ctx : Context} {key : Bytes}

theorem Context.Asks.isGet_eq_false {mt : MessageType} (h : ctx.Asks mt key)
    (hmt : mt ≠ .get) : ctx.isGet = false := by
  obtain ⟨m, hm, rfl, -⟩ := h
  simp [Context.isGet, hm, hmt]

structure WriteApplies (key value : Bytes) : Prop where
  key_le : key.length ≤ maxKeyLenServer
  offset : 4 ≤ value.length
  offset_le : leValue (value.take 4) ≤ maxU16Index * (value.drop 4).length
  size_le : leValue (value.take 4) + (value.drop 4).length ≤ maxWriteTotalSize

def Context.Writes (ctx : Context) (key : Bytes) : Prop :=
  ∃ m value, ctx.request = some m ∧ m.mt = .write ∧ m.keys = [key] ∧ m.values = [value] ∧
    WriteApplies key value

theorem Context.Writes.isGet_eq_false (h : ctx.Writes key) : ctx.isGet = false := by
  obtain ⟨m, -, hm, hmt, -⟩ := h
  simp [Context.isGet, hm, hmt]

def timeoutBody : Body := .text "<timeout>"

namespace Server

theorem write_of_applies {ctx : Context} {key value : Bytes} {s : Server}
    (h : WriteApplies key value) :
    write ctx key value s = writeAt ctx key (leValue (value.take 4)) (value.drop 4) s := by
  have hsize := h.size_le
  simp only [maxWriteTotalSize, maxValueSize] at hsize
  rw [write, if_neg (by have := h.offset; omega)]
  rw [if_neg (by simp only [maxU16Index]; omega), if_neg (not_not.mpr h.offset_le),
    if_neg (by rw [uint64_eq (by omega)]; omega), if_neg (by have := h.size_le; omega)]

structure Quiet (s s' : Server) : Prop where
  waiters : s'.waiters = s.waiters
  watchWaiters : s'.watchWaiters = s.watchWaiters
  rankStateWaiters : s'.rankStateWaiters = s.rankStateWaiters
  nextId : s'.nextId = s.nextId
  received : s'.received = s.received
  inMemory : s.backend.InMemory → s'.backend.InMemory

def OwnReply (ctx : Context) (r : Reply) : Prop :=
  r.ctx = ctx ∧ (ctx.isGet = true → r.body ≠ timeoutBody)

def Own (ctx : Context) (out : List Reply) : Prop :=
  out.length ≤ 1 ∧ ∀ r ∈ out, OwnReply ctx r

def rankWatchers (s : Server) : List Context := s.rankStateWaiters.entries.map fun e => e.2.reqCtx

/-- The effects of a request.  `quiet`: at most a reply; new keys are ranks or come
from a WRITE.  `wake`: the value of a key was set, and its waiters and watchers are
told `sent`.  `wait`: a GET is blocked. -/
inductive Effect (env : Env) (ctx : Context) (s s' : Server) (out : List Reply) : Prop
  | quiet (hs : Quiet s s') (hown : Own ctx out)
      (hkv : ∀ k ∈ s'.backend.kvStore, k ∈ s.backend.kvStore ∨ autoRankingStr <+: k ∨ ctx.Writes k)
  | wake (key sent : Bytes) (r : Reply)
      (hs : Quiet (s.getWakeupList key).2 s') (hr : OwnReply ctx r)
      (hout : out = r :: wakeupWaiters env (s.getWakeupList key).1 sent)
      (hkv : ∀ k ∈ s'.backend.kvStore, k ∈ s.backend.kvStore ∨ k = key)
      (hsent : s.backend.InMemory → ∃ value, s'.backend.kvStore.lookup key = some value ∧
        (sent = value ∨ ctx.Asks .append key ∧
          ∃ old, s.backend.kvStore.lookup key = some old ∧ value = old ++ sent))
  | wait (c : StoreWaitContext)
      (hs : Quiet { s with waiters := s.waiters.register c, nextId := s.nextId + 1 } s')
      (hid : c.id = s.nextId) (hctx : c.reqCtx = ctx) (hask : ctx.Asks .get c.key)
      (hrank : ¬ autoRankingStr <+: c.key) (hout : out = [])
      (hkv : s'.backend.kvStore = s.backend.kvStore)
      (habsent : s.backend.InMemory → c.key ∉ s.backend.kvStore)
  | watch (key : Bytes) (hask : ctx.Asks .watch key)
      (hs : Quiet { s with watchWaiters := s'.watchWaiters, nextId := s.nextId + 1 } s')
      (hwatch : ∀ k, ∀ c ∈ s'.watchersOf k, c ∈ s.watchersOf k ∨ k = key ∧ c = ctx)
      (hown : Own ctx out) (hkv : s'.backend.kvStore = s.backend.kvStore)
  | watchRank (hask : ctx.Asks .watchRankState watchRankDownKey)
      (hs : Quiet { s with rankStateWaiters := s'.rankStateWaiters, nextId := s.nextId + 1 } s')
      (hwatch : ∀ c ∈ s'.rankWatchers, c ∈ s.rankWatchers ∨ c = ctx)
      (hout : out = []) (hkv : s'.backend.kvStore = s.backend.kvStore)

variable {env : Env} {ctx : Context} {s : Server} {key value : Bytes}

theorem Own.nil : Own ctx [] := ⟨by simp, by simp⟩

theorem Own.single {code : StoreErrorCode} {body : Body}
    (h : ctx.isGet = true → body ≠ timeoutBody) : Own ctx [⟨ctx, code, body⟩] :=
  ⟨by simp, by simpa [OwnReply] using h⟩

theorem Quiet.refl (s : Server) : Quiet s s := ⟨rfl, rfl, rfl, rfl, rfl, id⟩

variable {b : Backend} {out : List Reply} {mt : MessageType} {request : SmemMessage} {link : Nat}

theorem Quiet.backend (h : s.backend.InMemory → b.InMemory) : Quiet s { s with backend := b } :=
  ⟨rfl, rfl, rfl, rfl, rfl, h⟩

theorem Effect.reply (h : Own ctx out) : Effect env ctx s s out :=
  .quiet (.refl s) h fun _ hk => .inl hk

/-- A value is stored, and then its waiters and watchers are told. -/
theorem Effect.put_wake {sent : Bytes} {r : Reply} (hb : s.backend.InMemory → b.InMemory)
    (hkv : b.kvStore = s.backend.kvStore) (hr : OwnReply ctx r)
    (hsent : s.backend.InMemory → sent = value ∨ ctx.Asks .append key ∧
      ∃ old, s.backend.kvStore.lookup key = some old ∧ value = old ++ sent) :
    Effect env ctx s { (s.getWakeupList key).2 with backend := (b.put key value).backend }
      (r :: wakeupWaiters env (s.getWakeupList key).1 sent) := by
  refine .wake key sent r ⟨rfl, rfl, rfl, rfl, rfl, fun h => (hb h).put⟩ hr rfl ?_ ?_
  · intro k hk
    rw [← hkv]
    exact mem_put hk
  · intro h
    exact ⟨value, (hb h).lookup_put, hsent h⟩

/-- The store was only asked. -/
theorem Effect.called (h : Own ctx out) :
    Effect env ctx s { s with backend := s.backend.called } out :=
  .quiet (.backend .called) h fun _ hk => .inl hk

/-- A value is stored under a key that is there or may be created. -/
theorem Effect.put_quiet (hb : s.backend.InMemory → b.InMemory)
    (hkv : b.kvStore = s.backend.kvStore) (hown : Own ctx out)
    (hkey : key ∈ s.backend.kvStore ∨ autoRankingStr <+: key ∨ ctx.Writes key) :
    Effect env ctx s { s with backend := (b.put key value).backend } out := by
  refine .quiet (.backend fun h => (hb h).put) hown fun k hk => ?_
  rcases mem_put hk with hk | rfl
  · rw [hkv] at hk
    exact .inl hk
  · exact hkey

theorem effect_set : Effect env ctx s (set env ctx key value s).1 (set env ctx key value s).2 := by
  have hr : ∀ ret, OwnReply ctx
      ⟨ctx, ret, .text (if ret = StoreErrorCode.success then "success" else "error")⟩ := by
    intro ret
    refine ⟨rfl, fun _ => ?_⟩
    cases ret <;> simp [timeoutBody]
  unfold set
  dsimp only
  rw [get_backend]
  by_cases hwake : (s.backend.get key []).ret ≠ .success ∨ (s.backend.get key []).value ≠ value
  · rw [if_pos hwake]
    exact .put_wake .called rfl (hr _) fun _ => .inl rfl
  · rw [if_neg hwake]
    have hret : (s.backend.get key []).ret = .success := by
      by_contra hret
      exact hwake (.inl hret)
    refine .put_quiet .called rfl ⟨by simp [wakeupWaiters, notify], ?_⟩
      (.inl (mem_of_get hret))
    intro r hmem
    obtain rfl := mem_singleton.mp hmem
    exact hr _

theorem effect_findOrInsertRank (hkey : autoRankingStr <+: key) :
    Effect env ctx s (findOrInsertRank ctx mt key s).1 (findOrInsertRank ctx mt key s).2 := by
  unfold findOrInsertRank
  dsimp only
  rw [get_backend]
  split_ifs
  · exact .called (.single fun _ => by simp [timeoutBody])
  · exact .called (.single fun _ => by decide)
  · split
    · exact .called .nil
    · refine .quiet ⟨rfl, rfl, rfl, rfl, rfl, fun h => h.called.put⟩
        (.single fun _ => by simp [timeoutBody]) fun k hk => ?_
      rcases mem_put hk with hk | rfl
      · exact .inl hk
      · exact .inr (.inl (hkey.trans (prefix_append _ _)))

theorem effect_get (hask : ctx.Asks .get key) :
    Effect env ctx s (get env ctx request key s).1 (get env ctx request key s).2 := by
  unfold get
  dsimp only
  rw [get_backend]
  split_ifs with hrank hret
  · exact effect_findOrInsertRank (List.isPrefixOf_iff_prefix.mp hrank)
  · exact .called (.single fun _ => by simp [timeoutBody])
  · exact .called (.single fun _ => by decide)
  · refine .wait ⟨s.nextId, deadlineMs env.nowNs request.userDef, key, ctx⟩
      ⟨rfl, rfl, rfl, rfl, rfl, .called⟩ rfl rfl hask ?_ rfl rfl fun h => h.notMem_of_get hret
    exact fun h => hrank (List.isPrefixOf_iff_prefix.mpr h)

theorem effect_prefixGet :
    Effect env ctx s (prefixGet ctx mt key s).1 (prefixGet ctx mt key s).2 := by
  unfold prefixGet
  dsimp only
  rw [prefixGet_backend]
  split_ifs
  · exact .called (.single fun _ => by simp [timeoutBody])
  · exact .called (.single fun _ => by simp [timeoutBody])

theorem mem_entries_emplace {t : Table Nat StoreWaitContext} {c c' : StoreWaitContext} {i : Nat}
    (h : (⟨i, c'⟩ : Sigma fun _ : Nat => StoreWaitContext) ∈ (emplace t link c).entries) :
    (⟨i, c'⟩ : Sigma fun _ : Nat => StoreWaitContext) ∈ t.entries ∨ c' = c := by
  rw [mem_entries, lookup_emplace_eq] at h
  split_ifs at h with hi
  · subst hi
    cases ht : t.lookup i with
    | none =>
      rw [ht] at h
      exact .inr (Option.some.inj h).symm
    | some v =>
      rw [ht] at h
      left
      rw [mem_entries, ht, ← Option.some.inj h]
      rfl
  · exact .inl (mem_entries.mpr h)

theorem effect_watch (hask : ctx.Asks .watch key) :
    Effect env ctx s (watch ctx mt key s).1 (watch ctx mt key s).2 := by
  unfold watch
  dsimp only
  rw [get_backend]
  refine .watch key hask ⟨rfl, rfl, rfl, rfl, rfl, .called⟩ ?_ ?_ rfl
  · intro k c hc
    unfold watchersOf at hc ⊢
    rw [lookup_insert_eq] at hc
    split_ifs at hc with hk
    · subst hk
      obtain ⟨⟨i, c'⟩, hmem, rfl⟩ := mem_map.mp hc
      rcases mem_entries_emplace hmem with hmem | rfl
      · exact .inl (mem_map.mpr ⟨_, hmem, rfl⟩)
      · exact .inr ⟨rfl, rfl⟩
    · exact .inl hc
  · split_ifs
    · exact .single fun _ => by simp [timeoutBody]
    · exact .nil

theorem effect_add (hget : ctx.isGet = false) :
    Effect env ctx s (add env ctx key value s).1 (add env ctx key value s).2 := by
  have hr : ∀ code body, OwnReply ctx ⟨ctx, code, body⟩ := fun _ _ =>
    ⟨rfl, fun h => absurd (hget.symm.trans h) (by simp)⟩
  have hown : ∀ code body, Own ctx [⟨ctx, code, body⟩] := fun code body =>
    ⟨by simp, by simpa using hr code body⟩
  unfold add
  split
  · exact .reply .nil
  · dsimp only
    rw [get_backend]
    split_ifs
    · exact .reply (hown _ _)
    · exact .put_wake .called rfl (hr _ _) fun _ => .inl rfl
    · split
      · exact .called (hown _ _)
      · split_ifs
        · exact .called (hown _ _)
        · exact .called (hown _ _)
        · exact .put_wake .called rfl (hr _ _) fun _ => .inl rfl

theorem effect_remove : Effect env ctx s (remove ctx key s).1 (remove ctx key s).2 := by
  unfold remove
  dsimp only
  rw [exist_backend]
  split_ifs
  · exact .quiet (.backend fun h => h.called.delete) (.single fun _ => by decide)
      fun k hk => .inl (mem_delete (b := s.backend.called) hk)
  · exact .called (.single fun _ => by decide)

theorem effect_append (hask : ctx.Asks .append key) :
    Effect env ctx s (append env ctx key value s).1 (append env ctx key value s).2 := by
  have hget := hask.isGet_eq_false (by decide)
  unfold append
  dsimp only
  rw [get_backend]
  refine .put_wake .called rfl ⟨rfl, fun h => absurd (hget.symm.trans h) (by simp)⟩ fun _ => ?_
  split_ifs with hret
  · exact .inr ⟨hask, _, (get_ret_eq_success_iff.mp hret).2, rfl⟩
  · exact .inl rfl

theorem effect_writeAt {offset : Nat} {data : Bytes} (hask : ctx.Writes key) :
    Effect env ctx s (writeAt ctx key offset data s).1 (writeAt ctx key offset data s).2 := by
  have hget := hask.isGet_eq_false
  have hown : ∀ p : Prop, ∀ _ : Decidable p, ∀ r r' : Reply, r.ctx = ctx → r'.ctx = ctx →
      Own ctx [if p then r else r'] := by
    intro p _ r r' hr hr'
    refine ⟨by simp, fun t ht => ⟨?_, fun h => absurd (hget.symm.trans h) (by simp)⟩⟩
    rw [mem_singleton.mp ht]
    split_ifs <;> assumption
  unfold writeAt
  dsimp only
  rw [get_backend]
  split
  · exact .put_quiet .called rfl (.single fun _ => by decide) (.inr (.inr hask))
  · rw [get_backend]
    split
    · refine .quiet (.backend fun h => h.called.put.called.put) (hown _ _ _ _ rfl rfl)
        fun k hk => ?_
      rcases mem_put hk with hk | rfl
      · rcases mem_put hk with hk | rfl
        · exact .inl hk
        · exact .inr (.inr hask)
      · exact .inr (.inr hask)
    · exact .put_quiet (fun h => h.called.called) rfl (hown _ _ _ _ rfl rfl) (.inr (.inr hask))

theorem effect_cas {expected exchange : Bytes} :
    Effect env ctx s (cas env ctx mt key expected exchange s).1
      (cas env ctx mt key expected exchange s).2 := by
  have hr : ∀ code m, OwnReply ctx ⟨ctx, code, .packed m⟩ := fun _ _ =>
    ⟨rfl, fun _ => by simp [timeoutBody]⟩
  unfold cas
  dsimp only
  rw [get_backend]
  split_ifs
  · exact .put_wake .called rfl (hr _ _) fun _ => .inl rfl
  · exact .called (.single fun _ => by simp [timeoutBody])
  · exact .put_wake .called rfl (hr _ _) fun _ => .inl rfl

theorem effect_write
    (hask : WriteApplies key value → ctx.Writes key) (hkey : key.length ≤ maxKeyLenServer) :
    Effect env ctx s (write ctx key value s).1 (write ctx key value s).2 := by
  unfold write
  dsimp only
  split_ifs with hsize hlarge hoffset hwrap htotal
  · exact .reply (.single fun _ => by decide)
  · exact .reply (.single fun _ => by decide)
  · exact .reply (.single fun _ => by decide)
  · exact .reply (.single fun _ => by decide)
  · exact effect_writeAt (hask ⟨hkey, by omega, by omega, by omega⟩)
  · exact .reply .nil

theorem effect_checked {α : Type} {args : Option (Bytes × α)} {text : String}
    {handle : Bytes → α → Server × List Reply} (htext : text ≠ "<timeout>")
    (h : ∀ key a, args = some (key, a) → key.length ≤ maxKeyLenServer →
      Effect env ctx s (handle key a).1 (handle key a).2) :
    Effect env ctx s (checked ctx args text s handle).1 (checked ctx args text s handle).2 := by
  unfold checked
  split
  · exact .reply (.single fun _ => by simpa [timeoutBody] using htext)
  · split_ifs with hkey
    · exact .reply .nil
    · exact h _ _ rfl (not_lt.mp hkey)

theorem onlyKey_eq_some {u : Unit} (h : onlyKey request = some (key, u)) :
    request.keys = [key] := by
  unfold onlyKey at h
  split at h <;> simp_all

theorem keyValue_eq_some (h : keyValue request = some (key, value)) :
    request.keys = [key] ∧ request.values = [value] := by
  unfold keyValue at h
  split at h <;> simp_all

theorem keyTwoValues_eq_some {values : Bytes × Bytes}
    (h : keyTwoValues request = some (key, values)) : request.keys = [key] := by
  unfold keyTwoValues at h
  split at h <;> simp_all

theorem effect_watchRankStateHandler (hctx : ctx.request = some request)
    (hmt : request.mt = .watchRankState) :
    Effect env ctx s (watchRankStateHandler ctx request s).1
      (watchRankStateHandler ctx request s).2 := by
  unfold watchRankStateHandler
  split_ifs with hkeys
  · exact .reply (.single fun _ => by decide)
  · rw [not_not] at hkeys
    refine .watchRank ⟨request, hctx, hmt, hkeys⟩ ⟨rfl, rfl, rfl, rfl, rfl, id⟩ ?_ rfl rfl
    intro c hc
    obtain ⟨⟨i, c'⟩, hmem, rfl⟩ := mem_map.mp hc
    rcases mem_entries_emplace hmem with hmem | rfl
    · exact .inl (mem_map.mpr ⟨_, hmem, rfl⟩)
    · exact .inr rfl

theorem effect_queryAliveHandler :
    Effect env ctx s (queryAliveHandler ctx request s).1 (queryAliveHandler ctx request s).2 := by
  unfold queryAliveHandler
  split
  · exact .reply (.single fun _ => by decide)
  · split
    · exact .reply (.single fun _ => by decide)
    · exact .reply (.single fun _ => by simp [timeoutBody])

/-- Every request has one of the effects. -/
theorem effect_handler (hctx : ctx.request = some request) :
    Effect env ctx s (handler env ctx request s).1 (handler env ctx request s).2 := by
  have hget : request.mt ≠ .get → ctx.isGet = false := by
    intro h
    simp [Context.isGet, hctx, h]
  unfold handler
  cases hmt : request.mt with
  | set => exact effect_checked (by decide) fun key value h _ => effect_set
  | get =>
    exact effect_checked (by decide) fun key u h _ =>
      effect_get ⟨request, hctx, hmt, onlyKey_eq_some h⟩
  | prefixGet => exact effect_checked (by decide) fun key u h _ => effect_prefixGet
  | watch =>
    exact effect_checked (by decide) fun key u h _ =>
      effect_watch ⟨request, hctx, hmt, onlyKey_eq_some h⟩
  | add =>
    exact effect_checked (by decide) fun key value h _ => effect_add (hget (by simp [hmt]))
  | remove => exact effect_checked (by decide) fun key u h _ => effect_remove
  | append =>
    exact effect_checked (by decide) fun key value h _ =>
      effect_append ⟨request, hctx, hmt, (keyValue_eq_some h).1⟩
  | cas => exact effect_checked (by decide) fun key values h _ => effect_cas
  | write =>
    exact effect_checked (by decide) fun key value h hkey =>
      effect_write (fun happly => ⟨request, value, hctx, hmt, (keyValue_eq_some h).1,
        (keyValue_eq_some h).2, happly⟩) hkey
  | queryAlive => exact effect_queryAliveHandler
  | watchRankState => exact effect_watchRankStateHandler hctx hmt
  | heartbeat => exact .reply .nil
  | invalidMsg => exact .reply (.single fun _ => by decide)

/-! ## Links -/

structure Silent (s s' : Server) : Prop where
  waiters : s'.waiters = s.waiters ∨ s'.waiters = {}
  watchers : ∀ k, ∀ c ∈ s'.watchersOf k, c ∈ s.watchersOf k
  rankWatchers : ∀ c ∈ s'.rankWatchers, c ∈ s.rankWatchers
  nextId : s'.nextId = s.nextId
  received : s'.received = s.received
  inMemory : s.backend.InMemory → s'.backend.InMemory
  kvStore : ∀ k ∈ s'.backend.kvStore, k ∈ s.backend.kvStore ∨ autoRankingStr <+: k

theorem silent_linkConnectedHandler {req : ConnReq} :
    Silent s (linkConnectedHandler req link s) := by
  have hkeep : ∀ worldSize, Silent s { s with worldSize } := fun _ =>
    ⟨.inl rfl, fun _ _ hc => hc, fun _ hc => hc, rfl, rfl, id, fun _ hk => .inl hk⟩
  unfold linkConnectedHandler
  dsimp only
  split_ifs
  · exact hkeep s.worldSize
  · exact hkeep req.worldSize
  · exact hkeep req.worldSize
  · exact hkeep req.worldSize
  all_goals
    refine ⟨.inl rfl, fun _ _ hc => hc, fun _ hc => hc, rfl, rfl, fun h => h.put, fun k hk => ?_⟩
    rcases mem_put hk with hk | rfl
    · exact .inl hk
    · exact .inr (prefix_append _ _)

theorem Silent.trans {s' s'' : Server} (h : Silent s s') (h' : Silent s' s'') : Silent s s'' where
  waiters := by
    rcases h'.waiters with hw | hw
    · rw [hw]
      exact h.waiters
    · exact .inr hw
  watchers := fun k c hc => h.watchers k c (h'.watchers k c hc)
  rankWatchers := fun c hc => h.rankWatchers c (h'.rankWatchers c hc)
  nextId := h'.nextId.trans h.nextId
  received := h'.received.trans h.received
  inMemory := fun hb => h'.inMemory (h.inMemory hb)
  kvStore := by
    intro k hk
    rcases h'.kvStore k hk with hk | hk
    · exact h.kvStore k hk
    · exact .inr hk

theorem Silent.backend {alive queue : List Nat} (hb : s.backend.InMemory → b.InMemory)
    (hkv : ∀ k ∈ b.kvStore, k ∈ s.backend.kvStore) :
    Silent s { s with backend := b, aliveRankSet := alive, rankStateTaskQueue := queue } :=
  ⟨.inl rfl, fun _ _ hc => hc, fun _ hc => hc, rfl, rfl, hb, fun k hk => .inl (hkv k hk)⟩

theorem silent_cleared : Silent s s.cleared where
  waiters := .inr rfl
  watchers := by simp [cleared, watchersOf]
  rankWatchers := by simp [cleared, Server.rankWatchers]
  nextId := rfl
  received := rfl
  inMemory := fun h => InMemory.delete h
  kvStore := by
    intro k hk
    exact absurd (mem_delete hk) (AList.notMem_empty k)

theorem silent_unwatch : Silent s (unwatch link s) where
  waiters := .inl rfl
  watchers := by
    intro k c hc
    obtain ⟨⟨i, c'⟩, hmem, rfl⟩ := mem_map.mp hc
    rw [mem_entries, unwatch, lookup_foldl_erase] at hmem
    split_ifs at hmem
    exact mem_map.mpr ⟨⟨i, c'⟩, mem_entries.mpr hmem, rfl⟩
  rankWatchers := by
    intro c hc
    obtain ⟨⟨i, c'⟩, hmem, rfl⟩ := mem_map.mp hc
    rw [mem_entries, unwatch, lookup_erase_eq] at hmem
    split_ifs at hmem
    exact mem_map.mpr ⟨⟨i, c'⟩, mem_entries.mpr hmem, rfl⟩
  nextId := rfl
  received := rfl
  inMemory := id
  kvStore := fun _ hk => .inl hk

theorem silent_drop :
    Silent s (unwatch link (if s.aliveRankSet.isEmpty then s.cleared else s)) := by
  split_ifs
  · exact silent_cleared.trans silent_unwatch
  · exact silent_unwatch

theorem silent_linkBrokenHandler : Silent s (linkBrokenHandler link s) := by
  have hcalled : Silent s { s with backend := s.backend.called } :=
    .backend .called fun _ hk => hk
  unfold linkBrokenHandler
  dsimp only
  rw [get_backend]
  split
  · have hdelete : ∀ alive key, Silent s { s with
        backend := (s.backend.called.delete key).backend, aliveRankSet := alive } :=
      fun _ _ => .backend (fun h => h.called.delete) fun _ hk =>
        mem_delete (b := s.backend.called) hk
    split
    · exact hdelete _ _
    · split
      · exact (hdelete _ _).trans silent_drop
      · exact ((hdelete _ _).trans silent_drop).trans (.backend id fun _ hk => hk)
  · exact hcalled.trans silent_drop

/-- The task queue is all the rank state thread changes. -/
theorem silent_rankStateTask : Silent s (rankStateTask env s).1 := by
  unfold rankStateTask
  split
  · exact .backend id fun _ hk => hk
  · exact .backend id fun _ hk => hk

end Server

end MemFabric.Smem.Store
