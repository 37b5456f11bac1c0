import MemFabric.Smem.Store.Effect

/-!
# Wakeups

A blocked GET waits for an absent key, and whoever is woken or notified is told
the stored value.  Both hold except for two requests: WRITE creates a key without
looking at its waiters, and APPEND to a key that has a value sends the appended
part in place of the value.
-/

namespace MemFabric.Smem.Store.Server

open Machine Wire

/-- The waiters of every state that the server reaches. -/
structure Inv (s : Server) : Prop where
  wf : s.waiters.Wf s.nextId
  waiter : ∀ id c, s.waiters.waitCtx.lookup id = some c →
    c.reqCtx.Asks .get c.key ∧ ¬ autoRankingStr <+: c.key ∧ c.reqCtx.serial < s.received
  serial_inj : ∀ i j c c', s.waiters.waitCtx.lookup i = some c →
    s.waiters.waitCtx.lookup j = some c' → c.reqCtx.serial = c'.reqCtx.serial → i = j
  watcher : ∀ key, ∀ ctx ∈ s.watchersOf key, ctx.Asks .watch key ∧ ctx.serial < s.received
  rankWatcher : ∀ ctx ∈ s.rankWatchers,
    ctx.Asks .watchRankState watchRankDownKey ∧ ctx.serial < s.received

theorem inv_start (worldSize : Nat) (backend : Backend) : Inv (start worldSize backend) where
  wf := Waiters.wf_empty _
  waiter := by simp [start]
  serial_inj := by simp [start]
  watcher := by simp [start, watchersOf]
  rankWatcher := by simp [start, rankWatchers]

variable {s s' : Server} {env : Env}

theorem Inv.of_subset (h : Inv s) (hwf : s'.waiters.Wf s'.nextId)
    (hwaiter : ∀ id c, s'.waiters.waitCtx.lookup id = some c → s.waiters.waitCtx.lookup id = some c)
    (hwatch : ∀ key, ∀ ctx ∈ s'.watchersOf key, ctx ∈ s.watchersOf key)
    (hrank : ∀ ctx ∈ s'.rankWatchers, ctx ∈ s.rankWatchers) (hrec : s.received ≤ s'.received) :
    Inv s' where
  wf := hwf
  waiter := by
    intro id c hc
    obtain ⟨hask, hkey, hlt⟩ := h.waiter id c (hwaiter id c hc)
    exact ⟨hask, hkey, hlt.trans_le hrec⟩
  serial_inj := fun i j c c' hc hc' => h.serial_inj i j c c' (hwaiter i c hc) (hwaiter j c' hc')
  watcher := by
    intro key ctx hctx
    obtain ⟨hask, hlt⟩ := h.watcher key ctx (hwatch key ctx hctx)
    exact ⟨hask, hlt.trans_le hrec⟩
  rankWatcher := by
    intro ctx hctx
    obtain ⟨hask, hlt⟩ := h.rankWatcher ctx (hrank ctx hctx)
    exact ⟨hask, hlt.trans_le hrec⟩

theorem Quiet.watchersOf_eq (h : Quiet s s') (key : Bytes) :
    s'.watchersOf key = s.watchersOf key := by
  rw [watchersOf, watchersOf, h.watchWaiters]

theorem Quiet.rankWatchers_eq (h : Quiet s s') : s'.rankWatchers = s.rankWatchers := by
  rw [rankWatchers, rankWatchers, h.rankStateWaiters]

theorem Inv.quiet (h : Inv s) (hs : Quiet s s') : Inv s' := by
  refine h.of_subset ?_ ?_ ?_ ?_ hs.received.ge
  · rw [hs.waiters, hs.nextId]
    exact h.wf
  · intro id c hc
    rwa [hs.waiters] at hc
  · intro key ctx hctx
    rwa [hs.watchersOf_eq] at hctx
  · intro ctx hctx
    rwa [hs.rankWatchers_eq] at hctx

theorem Inv.takeKey (h : Inv s) (key : Bytes) : Inv (s.getWakeupList key).2 :=
  h.of_subset (h.wf.takeKey key) (fun _ _ hc => (h.wf.lookup_takeKey.mp hc).1)
    (fun _ _ hc => hc) (fun _ hc => hc) le_rfl

theorem Inv.count (h : Inv s) : Inv { s with received := s.received + 1 } :=
  h.of_subset h.wf (fun _ _ hc => hc) (fun _ _ hc => hc) (fun _ hc => hc) (Nat.le_succ _)

theorem Inv.silent (h : Inv s) (hs : Silent s s') : Inv s' := by
  refine h.of_subset ?_ ?_ hs.watchers hs.rankWatchers hs.received.ge
  · rw [hs.nextId]
    rcases hs.waiters with hw | hw
    · rw [hw]
      exact h.wf
    · rw [hw]
      exact Waiters.wf_empty _
  · intro id c hc
    rcases hs.waiters with hw | hw
    · rwa [hw] at hc
    · rw [hw] at hc
      exact absurd hc (by simp)

/-- A request keeps the invariant; its own serial is not yet used. -/
theorem Inv.effect {ctx : Context} {out : List Reply} (h : Inv s)
    (hserial : ∀ id c, s.waiters.waitCtx.lookup id = some c → c.reqCtx.serial ≠ ctx.serial)
    (hlt : ctx.serial < s.received) (heffect : Effect env ctx s s' out) : Inv s' := by
  cases heffect with
  | quiet hs => exact h.quiet hs
  | wake key sent r hs => exact (h.takeKey key).quiet hs
  | wait c hs hid hctx hask hrank =>
    refine Inv.quiet ?_ hs
    have hwf : s.waiters.Wf c.id := by
      rw [hid]
      exact h.wf
    refine ⟨?_, ?_, ?_, h.watcher, h.rankWatcher⟩
    · rw [← hid]
      exact hwf.register
    · intro id c' hc'
      rw [hwf.lookup_register] at hc'
      split_ifs at hc'
      · obtain rfl := Option.some.inj hc'
        rw [hctx]
        exact ⟨hask, hrank, hlt⟩
      · exact h.waiter id c' hc'
    · intro i j c1 c2 hi hj heq
      rw [hwf.lookup_register] at hi hj
      split_ifs at hi hj with hi' hj' hj'
      · rw [hi', hj']
      · obtain rfl := Option.some.inj hi
        rw [hctx] at heq
        exact absurd heq.symm (hserial j c2 hj)
      · obtain rfl := Option.some.inj hj
        rw [hctx] at heq
        exact absurd heq (hserial i c1 hi)
      · exact h.serial_inj i j c1 c2 hi hj heq
  | watch key hask hs hwatch =>
    refine Inv.quiet ?_ hs
    refine { h with wf := h.wf.mono (Nat.le_succ _), watcher := ?_ }
    intro k c hc
    rcases hwatch k c hc with hc | ⟨rfl, rfl⟩
    · exact h.watcher k c hc
    · exact ⟨hask, hlt⟩
  | watchRank hask hs hwatch =>
    refine Inv.quiet ?_ hs
    refine { h with wf := h.wf.mono (Nat.le_succ _), rankWatcher := ?_ }
    intro c hc
    rcases hwatch c hc with hc | rfl
    · exact h.rankWatcher c hc
    · exact ⟨hask, hlt⟩

/-- What a received request does: it is counted, and then has its effect. -/
theorem effect_receive (env : Env) (link seqNo : Nat) (body : Bytes) (s : Server) :
    ∃ ctx, ctx.serial = s.received ∧
      (∀ m, ctx.request = some m → ∃ n, unpack body = .ok (n, m)) ∧
      Effect env ctx { s with received := s.received + 1 }
        (receiveMessageHandler env link seqNo body s).1
        (receiveMessageHandler env link seqNo body s).2 := by
  unfold receiveMessageHandler
  cases hbody : unpack body with
  | error e =>
    refine ⟨⟨link, seqNo, s.received, none⟩, rfl, by simp, ?_⟩
    exact .reply (.single fun _ => by decide)
  | ok r =>
    obtain ⟨n, request⟩ := r
    refine ⟨⟨link, seqNo, s.received, some request⟩, rfl, ?_, effect_handler rfl⟩
    intro m hm
    rw [Option.some.inj hm]
    exact ⟨n, rfl⟩

theorem Inv.timerPass (h : Inv s) {timestamp : Int} {order : List Int}
    (hnodup : order.Nodup) : Inv (timerPass env timestamp order s).1 :=
  h.of_subset (h.wf.timerPass hnodup timestamp)
    (fun _ _ hc => ((h.wf.lookup_timerPass hnodup).mp hc).1) (fun _ _ hc => hc) (fun _ hc => hc)
    le_rfl

theorem Inv.step (h : Inv s) (e : Event) : Inv (step s e).1 := by
  cases e with
  | request env link seqNo body =>
    obtain ⟨ctx, hserial, -, heffect⟩ := effect_receive env link seqNo body s
    refine h.count.effect ?_ ?_ heffect
    · intro id c hc
      have := (h.waiter id c hc).2.2
      omega
    · dsimp only
      omega
  | connected req link => exact h.silent silent_linkConnectedHandler
  | broken link => exact h.silent silent_linkBrokenHandler
  | timer env timestamp order =>
    unfold Server.step
    dsimp only
    split_ifs with horder
    · exact h.timerPass (horder.nodup_iff.mpr (AList.keys_nodup _))
    · exact h
  | rankState env => exact h.silent silent_rankStateTask

theorem inv_of_reachable {allowed : Server → Event → Prop} {worldSize : Nat} {backend : Backend}
    (h : Reachable step allowed (start worldSize backend) s) : Inv s :=
  h.invariant (inv_start worldSize backend) fun _ e hs _ => hs.step e

/-! ## Whom a request wakes -/

open List

variable {m : SmemMessage} {s s' : Server} {env : Env} {ctx : Context} {out : List Reply}
  {e : Event} {mt : MessageType} {key : Bytes} {r : Reply}

theorem receive_pack (hm : WithinLimits m) (env : Env) (link seqNo : Nat) (s : Server) :
    receiveMessageHandler env link seqNo (pack m) s =
      handler env ⟨link, seqNo, s.received, some m⟩ m { s with received := s.received + 1 } := by
  rw [receiveMessageHandler, unpack_pack hm]

theorem inMemory_step (hb : s.backend.InMemory) (e : Event) : (step s e).1.backend.InMemory := by
  cases e with
  | request env link seqNo body =>
    obtain ⟨ctx, -, -, heffect⟩ := effect_receive env link seqNo body s
    cases heffect with
    | quiet hs => exact hs.inMemory hb
    | wake key sent r hs => exact hs.inMemory hb
    | wait c hs => exact hs.inMemory hb
    | watch key hask hs => exact hs.inMemory hb
    | watchRank hask hs => exact hs.inMemory hb
  | connected req link => exact silent_linkConnectedHandler.inMemory hb
  | broken link => exact silent_linkBrokenHandler.inMemory hb
  | timer env timestamp order =>
    unfold step
    dsimp only
    split_ifs
    · exact hb
    · exact hb
  | rankState env => exact silent_rankStateTask.inMemory hb

/-! ## No waiter for a key that is present -/

/-- No registered GET waits for a key that is present. -/
def Awaited (s : Server) : Prop :=
  ∀ id c, s.waiters.waitCtx.lookup id = some c → c.key ∉ s.backend.kvStore

/-- A WRITE that is carried out does not create a key some registered GET waits for. -/
def WriteFindsNoWaiter (s : Server) : Event → Prop
  | .request _ _ _ body => ∀ n m key value, unpack body = .ok (n, m) → m.mt = .write →
      m.keys = [key] → m.values = [value] → WriteApplies key value →
      key ∉ s.backend.kvStore → ∀ id c, s.waiters.waitCtx.lookup id = some c → c.key ≠ key
  | _ => True

theorem Awaited.silent (h : Awaited s) (hinv : Inv s) (hs : Silent s s') : Awaited s' := by
  intro id c hc hkey
  rcases hs.waiters with hw | hw
  · rw [hw] at hc
    rcases hs.kvStore _ hkey with hkey | hkey
    · exact h id c hc hkey
    · exact (hinv.waiter id c hc).2.1 hkey
  · rw [hw] at hc
    exact absurd hc (by simp)

theorem Awaited.effect (h : Awaited s) (hinv : Inv s) (hb : s.backend.InMemory)
    (hwrite : ∀ key, ctx.Writes key → key ∉ s.backend.kvStore →
      ∀ id c, s.waiters.waitCtx.lookup id = some c → c.key ≠ key)
    (heffect : Effect env ctx s s' out) : Awaited s' := by
  intro id c hc
  cases heffect with
  | quiet hs hown hkv =>
    rw [hs.waiters] at hc
    intro hkey
    rcases hkv _ hkey with hkey | hkey | hkey
    · exact h id c hc hkey
    · exact (hinv.waiter id c hc).2.1 hkey
    · exact hwrite _ hkey (h id c hc) id c hc rfl
  | wake key sent r hs hr hout hkv =>
    rw [hs.waiters] at hc
    obtain ⟨hc, hne⟩ := hinv.wf.lookup_takeKey.mp hc
    intro hkey
    rcases hkv _ hkey with hkey | hkey
    · exact h id c hc hkey
    · exact hne hkey
  | wait c' hs hid hctx hask hrank hout hkv habsent =>
    have hwf : s.waiters.Wf c'.id := by
      rw [hid]
      exact hinv.wf
    rw [hs.waiters] at hc
    rw [hwf.lookup_register] at hc
    rw [hkv]
    split_ifs at hc
    · rw [← Option.some.inj hc]
      exact habsent hb
    · exact h id c hc
  | watch key hask hs hwatch hown hkv =>
    rw [hs.waiters] at hc
    rw [hkv]
    exact h id c hc
  | watchRank hask hs hwatch hout hkv =>
    rw [hs.waiters] at hc
    rw [hkv]
    exact h id c hc

theorem Awaited.step (h : Awaited s) (hinv : Inv s) (hb : s.backend.InMemory)
    (he : WriteFindsNoWaiter s e) : Awaited (step s e).1 := by
  cases e with
  | request env link seqNo body =>
    obtain ⟨ctx, -, hrequest, heffect⟩ := effect_receive env link seqNo body s
    refine Awaited.effect (s := { s with received := s.received + 1 }) h hinv.count hb ?_ heffect
    rintro key ⟨m, value, hm, hmt, hkeys, hvalues, happly⟩
    obtain ⟨n, hunpack⟩ := hrequest m hm
    exact he n m key value hunpack hmt hkeys hvalues happly
  | connected req link => exact h.silent hinv silent_linkConnectedHandler
  | broken link => exact h.silent hinv silent_linkBrokenHandler
  | timer env timestamp order =>
    unfold Server.step
    dsimp only
    split_ifs with horder
    · intro id c hc
      have hnodup := horder.nodup_iff.mpr (AList.keys_nodup _)
      exact h id c ((hinv.wf.lookup_timerPass hnodup).mp hc).1
    · exact h
  | rankState env => exact h.silent hinv silent_rankStateTask

theorem awaited_start (worldSize : Nat) (backend : Backend) :
    Awaited (start worldSize backend) := by
  simp [Awaited, start]

/-- In every run on an in-memory backend in which no WRITE creates a key that a
blocked GET waits for, no registered GET waits for a key that is present. -/
theorem waiter_key_absent {worldSize : Nat} {backend : Backend} {s : Server}
    (hb : backend.InMemory) (h : Reachable step WriteFindsNoWaiter (start worldSize backend) s)
    (id : Nat) (c : StoreWaitContext) (hc : s.waiters.waitCtx.lookup id = some c) :
    c.key ∉ s.backend.kvStore := by
  have hall : Inv s ∧ s.backend.InMemory ∧ Awaited s := by
    refine h.invariant (P := fun s => Inv s ∧ s.backend.InMemory ∧ Awaited s)
      ⟨inv_start _ _, hb, awaited_start _ _⟩ ?_
    rintro s e ⟨hinv, hb, hawait⟩ he
    exact ⟨hinv.step e, inMemory_step hb e, hawait.step hinv hb he⟩
  exact hall.2.2 id c hc

/-! ### A GET that waits, and a WRITE to its key -/

def openEnv : Env := ⟨0, fun _ => true⟩

def getForever : SmemMessage := { mt := .get, keys := [[107]] }

def writeByte : SmemMessage := { mt := .write, keys := [[107]], values := [[0, 0, 0, 0, 7]] }

theorem withinLimits_getForever : WithinLimits getForever :=
  ⟨by decide, by decide, by decide, by decide⟩

theorem waiter_key_absent_get :
    [107] ∉ (step (start 1 {}) (.request openEnv 0 0 (pack getForever))).1.backend.kvStore := by
  have hallowed : WriteFindsNoWaiter (start 1 {}) (.request openEnv 0 0 (pack getForever)) := by
    intro n m key value hunpack hmt
    rw [unpack_pack withinLimits_getForever] at hunpack
    rw [← (Prod.mk.inj (Except.ok.inj hunpack)).2] at hmt
    cases hmt
  have hreach : Reachable step WriteFindsNoWaiter (start 1 {})
      (step (start 1 {}) (.request openEnv 0 0 (pack getForever))).1 :=
    .next ⟨[], .nil⟩ _ hallowed
  refine waiter_key_absent (fun _ => rfl) hreach 1
    ⟨1, deadlineMs 0 (-1), [107], ⟨0, 0, 0, some getForever⟩⟩ ?_
  rw [step, receive_pack withinLimits_getForever]
  decide

/-- The WRITE creates the key and leaves the GET waiting. -/
theorem write_leaves_waiter :
    ∃ s, Reachable step (fun _ _ => True) (start 1 {}) s ∧
      ∃ id c, s.waiters.waitCtx.lookup id = some c ∧ c.key ∈ s.backend.kvStore := by
  refine ⟨_, .next (.next ⟨[], .nil⟩ (.request openEnv 0 0 (pack getForever)) trivial)
    (.request openEnv 0 1 (pack writeByte)) trivial, 1,
    ⟨1, deadlineMs 0 (-1), [107], ⟨0, 0, 0, some getForever⟩⟩, ?_, ?_⟩
  · decide
  · decide

/-! ## The value told is the value stored -/

theorem Asks_unique {mt' : MessageType} {key' : Bytes} (h : ctx.Asks mt key)
    (h' : ctx.Asks mt' key') : mt = mt' ∧ key = key' := by
  obtain ⟨m, hm, rfl, hkeys⟩ := h
  obtain ⟨m', hm', rfl, hkeys'⟩ := h'
  obtain rfl := Option.some.inj (hm.symm.trans hm')
  exact ⟨rfl, by simpa using hkeys.symm.trans hkeys'⟩

theorem mem_notify {value : Bytes} {l : List Context} :
    r ∈ notify env mt value l ↔ r.ctx ∈ l ∧ env.established r.ctx.link = true ∧
      r = ⟨r.ctx, .success, .packed { mt, values := [value] }⟩ := by
  unfold notify
  simp only [mem_map, mem_filter]
  constructor
  · rintro ⟨ctx, ⟨hctx, hup⟩, rfl⟩
    exact ⟨hctx, hup, rfl⟩
  · rintro ⟨hctx, hup, hr⟩
    exact ⟨r.ctx, ⟨hctx, hup⟩, hr.symm⟩

/-- An APPEND to a key that has a value finds no one to be told. -/
def AppendUnheard (s : Server) : Event → Prop
  | .request env _ _ body => ∀ n m key old, unpack body = .ok (n, m) → m.mt = .append →
      m.keys = [key] → s.backend.kvStore.lookup key = some old → old ≠ [] →
      (∀ id c, s.waiters.waitCtx.lookup id = some c → c.key = key →
        env.established c.reqCtx.link = false) ∧
      ∀ ctx ∈ s.watchersOf key, env.established ctx.link = false
  | _ => True

/-- The reply tells a request of type `mt` for the key the value the key holds. -/
def Tells (s : Server) (mt : MessageType) (key : Bytes) (r : Reply) : Prop :=
  ∃ value, s.backend.kvStore.lookup key = some value ∧ r.body = .packed { mt, values := [value] }

theorem watchHandler_tells {request : SmemMessage} (hr : r ∈ (watchHandler ctx request s).2)
    (hcode : r.code = .success) :
    ∃ key, request.keys = [key] ∧ Tells (watchHandler ctx request s).1 request.mt key r := by
  unfold watchHandler checked at hr ⊢
  split at hr
  · simp_all
  · split_ifs at hr with hlen
    · simp at hr
    · rename_i key u hargs
      unfold watch at hr
      dsimp only at hr
      split_ifs at hr with hret
      · obtain rfl := mem_singleton.mp hr
        refine ⟨key, onlyKey_eq_some hargs, _, ?_, rfl⟩
        simp only [if_neg hlen]
        rw [watch, Backend.get_backend]
        exact (Backend.get_ret_eq_success_iff.mp hret).2
      · simp at hr

/-- A reply to another request than the one handled tells the stored value. -/
theorem tells_of_effect (hinv : Inv s) (hb : s.backend.InMemory)
    (happend : ∀ key, ctx.Asks .append key → ∀ old, s.backend.kvStore.lookup key = some old →
      old ≠ [] → (∀ id c, s.waiters.waitCtx.lookup id = some c → c.key = key →
        env.established c.reqCtx.link = false) ∧
      ∀ ctx ∈ s.watchersOf key, env.established ctx.link = false)
    (heffect : Effect env ctx s s' out) (hr : r ∈ out) (hne : r.ctx ≠ ctx) :
    ∃ mt key, r.ctx.Asks mt key ∧ (mt = .get ∨ mt = .watch) ∧ Tells s' mt key r := by
  cases heffect with
  | quiet hs hown => exact absurd (hown.2 r hr).1 hne
  | wake key sent own hs hown hout hkv hsent =>
    rw [hout, mem_cons] at hr
    rcases hr with rfl | hr
    · exact absurd hown.1 hne
    · obtain ⟨value, hvalue, hsent⟩ := hsent hb
      -- the contexts that are told are established waiters or watchers of the key
      have htold : ∃ mt, r.ctx.Asks mt key ∧ (mt = .get ∨ mt = .watch) ∧
          r.body = .packed { mt, values := [sent] } ∧ env.established r.ctx.link = true ∧
          ((∃ id c, s.waiters.waitCtx.lookup id = some c ∧ c.key = key ∧ c.reqCtx = r.ctx) ∨
            r.ctx ∈ s.watchersOf key) := by
        rcases mem_append.mp hr with hr | hr
        · obtain ⟨hctx, hup, hbody⟩ := mem_notify.mp hr
          obtain ⟨id, c, hc, rfl, heq⟩ := hinv.wf.mem_takeKey.mp hctx
          refine ⟨.get, ?_, .inl rfl, by rw [hbody], hup, .inl ⟨id, c, hc, rfl, heq⟩⟩
          rw [← heq]
          exact (hinv.waiter id c hc).1
        · obtain ⟨hctx, hup, hbody⟩ := mem_notify.mp hr
          exact ⟨.watch, (hinv.watcher key r.ctx hctx).1, .inr rfl, by rw [hbody], hup, .inr hctx⟩
      obtain ⟨mt, hask, hmt, hbody, hup, hwho⟩ := htold
      refine ⟨mt, key, hask, hmt, value, hvalue, ?_⟩
      rcases hsent with rfl | ⟨hctx, old, hold, rfl⟩
      · exact hbody
      · by_cases hnil : old = []
        · rw [hnil]
          exact hbody
        · obtain ⟨hwaiters, hwatchers⟩ := happend key hctx old hold hnil
          rcases hwho with ⟨id, c, hc, hkey, hc'⟩ | hmem
          · have := hwaiters id c hc hkey
            rw [hc', hup] at this
            cases this
          · have := hwatchers r.ctx hmem
            rw [hup] at this
            cases this
  | wait c hs hid hctx hask hrank hout =>
    rw [hout] at hr
    exact absurd hr (by simp)
  | watch key hask hs hwatch hown => exact absurd (hown.2 r hr).1 hne
  | watchRank hask hs hwatch hout =>
    rw [hout] at hr
    exact absurd hr (by simp)

/-- A success reply to a waiter, or to any WATCH, tells the value that is stored
when the step is done. -/
theorem tells_of_step (hinv : Inv s) (hb : s.backend.InMemory) (he : AppendUnheard s e)
    (hr : r ∈ (step s e).2) (hcode : r.code = .success) (hask : r.ctx.Asks mt key)
    (hwho : mt = .watch ∨ mt = .get ∧ r.ctx.serial < s.received) : Tells (step s e).1 mt key r := by
  cases e with
  | request env link seqNo body =>
    unfold step at hr ⊢
    obtain ⟨ctx, hserial, hrequest, heffect⟩ := effect_receive env link seqNo body s
    by_cases hown : r.ctx = ctx
    · -- the request's own reply, so that the request is a WATCH
      rcases hwho with rfl | ⟨-, hlt⟩
      · obtain ⟨m, hm, hmt, hkeys⟩ := hask
        obtain ⟨n, hunpack⟩ := hrequest m (hown ▸ hm)
        unfold receiveMessageHandler at hr ⊢
        simp only [hunpack, handler, hmt] at hr ⊢
        obtain ⟨k, hk, htell⟩ := watchHandler_tells hr hcode
        rw [hkeys] at hk
        rw [hmt] at htell
        rwa [← singleton_inj.mp hk] at htell
      · rw [hown] at hlt
        omega
    · obtain ⟨mt', key', hask', -, htell⟩ := tells_of_effect hinv.count hb (by
        rintro k ⟨m, hm, hmt, hkeys⟩ old hold hnil
        obtain ⟨n, hunpack⟩ := hrequest m hm
        exact he n m k old hunpack hmt hkeys hold hnil) heffect hr hown
      obtain ⟨rfl, rfl⟩ := Asks_unique hask hask'
      exact htell
  | connected req link => exact absurd hr (by simp [step])
  | broken link => exact absurd hr (by simp [step])
  | timer env timestamp order =>
    unfold step at hr
    dsimp only at hr
    split_ifs at hr
    · obtain ⟨ctx, -, rfl⟩ := mem_map.mp hr
      cases hcode
    · exact absurd hr (by simp)
  | rankState env =>
    unfold step rankStateTask at hr
    dsimp only at hr
    split at hr
    · exact absurd hr (by simp)
    · have hrank := (hinv.rankWatcher r.ctx (mem_notify.mp hr).1).1
      obtain ⟨rfl, -⟩ := Asks_unique hask hrank
      rcases hwho with hmt | ⟨hmt, -⟩ <;> cases hmt

/-- In every run on an in-memory backend in which an APPEND to a key that has a value
finds no established waiter or watcher of it: the reply that wakes a blocked GET and
every WATCH notification carry the complete value the key holds after the step. -/
theorem notified_value_stored {worldSize : Nat} {backend : Backend} {s : Server}
    (hb : backend.InMemory) (h : Reachable step AppendUnheard (start worldSize backend) s)
    (e : Event) (he : AppendUnheard s e) :
    (∀ id c, s.waiters.waitCtx.lookup id = some c → ∀ r ∈ (step s e).2, r.ctx = c.reqCtx →
      r.code = .success → Tells (step s e).1 .get c.key r) ∧
    (∀ key, ∀ r ∈ (step s e).2, r.ctx.Asks .watch key → r.code = .success →
      Tells (step s e).1 .watch key r) := by
  obtain ⟨hinv, hb⟩ : Inv s ∧ s.backend.InMemory := by
    refine h.invariant (P := fun s => Inv s ∧ s.backend.InMemory) ⟨inv_start _ _, hb⟩ ?_
    rintro s e ⟨hinv, hb⟩ -
    exact ⟨hinv.step e, inMemory_step hb e⟩
  constructor
  · intro id c hc r hr hctx hcode
    obtain ⟨hask, -, hlt⟩ := hinv.waiter id c hc
    rw [← hctx] at hask hlt
    exact tells_of_step hinv hb he hr hcode hask (.inr ⟨rfl, hlt⟩)
  · intro key r hr hask hcode
    exact tells_of_step hinv hb he hr hcode hask (.inl rfl)

/-! ### A watch, and an APPEND to its key -/

def setByte : SmemMessage := { mt := .set, keys := [[107]], values := [[1]] }

def watchKey : SmemMessage := { mt := .watch, keys := [[107]] }

def appendByte : SmemMessage := { mt := .append, keys := [[107]], values := [[2]] }

theorem withinLimits_setByte : WithinLimits setByte := ⟨by decide, by decide, by decide, by decide⟩

theorem withinLimits_watchKey : WithinLimits watchKey :=
  ⟨by decide, by decide, by decide, by decide⟩

theorem appendUnheard_pack (hm : WithinLimits m) (hmt : m.mt ≠ .append) (s : Server) (env : Env)
    (link seqNo : Nat) : AppendUnheard s (.request env link seqNo (pack m)) := by
  intro n m' key old hunpack hmt'
  rw [unpack_pack hm] at hunpack
  rw [← (Prod.mk.inj (Except.ok.inj hunpack)).2] at hmt'
  exact absurd hmt' hmt

/-- A watched key is set. -/
theorem notified_value_stored_set :
    Tells (step (step (start 1 {}) (.request openEnv 5 0 (pack watchKey))).1
        (.request openEnv 6 0 (pack setByte))).1 .watch [107]
      ⟨⟨5, 0, 0, some watchKey⟩, .success, .packed { mt := .watch, values := [[1]] }⟩ := by
  have hreach : Reachable step AppendUnheard (start 1 {})
      (step (start 1 {}) (.request openEnv 5 0 (pack watchKey))).1 :=
    .next ⟨[], .nil⟩ _ (appendUnheard_pack withinLimits_watchKey (by decide) _ _ _ _)
  refine (notified_value_stored (fun _ => rfl) hreach (.request openEnv 6 0 (pack setByte))
    (appendUnheard_pack withinLimits_setByte (by decide) _ _ _ _)).2 [107] _ ?_
    ⟨watchKey, rfl, rfl, rfl⟩ rfl
  decide

/-- The watcher of a key that holds `[1]` is told `[2]` when `[2]` is appended. -/
theorem append_tells_fragment :
    ∃ s e r, Reachable step (fun _ _ => True) (start 1 {}) s ∧ r ∈ (step s e).2 ∧
      r.ctx ∈ s.watchersOf [107] ∧ r.code = .success ∧ ¬ Tells (step s e).1 .watch [107] r := by
  refine ⟨_, .request openEnv 6 1 (pack appendByte),
    ⟨⟨5, 0, 1, some watchKey⟩, .success, .packed { mt := .watch, values := [[2]] }⟩,
    .next (.next ⟨[], .nil⟩ (.request openEnv 6 0 (pack setByte)) trivial)
      (.request openEnv 5 0 (pack watchKey)) trivial, ?_, ?_, rfl, ?_⟩
  · decide
  · decide
  · rintro ⟨value, hvalue, hbody⟩
    have hstored : some value = some [1, 2] := hvalue.symm.trans (by decide)
    rw [Option.some.inj hstored] at hbody
    exact absurd hbody (by decide)

end MemFabric.Smem.Store.Server
