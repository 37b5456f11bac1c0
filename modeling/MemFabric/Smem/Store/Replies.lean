import Mathlib.Data.List.TakeWhile
import MemFabric.Smem.Store.Wakeup

/-!
# Replies to GET requests

Every GET is answered at most once, whatever the order of wakeups, timer passes
and link breaks, and a timeout is not sent before the deadline.  A timer pass
answers all overdue waiters only if the container happens to list the due
deadlines first.
-/

namespace MemFabric.Smem.Store.Server

open Machine Wire List

/-! ## At most one reply -/

def getSerials (out : List Reply) : List Nat :=
  (out.filter fun r => r.ctx.isGet).map fun r => r.ctx.serial

theorem getSerials_append (l l' : List Reply) :
    getSerials (l ++ l') = getSerials l ++ getSerials l' := by
  rw [getSerials, filter_append, map_append, getSerials, getSerials]

variable {out log : List Reply} {s s' : Server} {taken : List Context} {env : Env} {ctx : Context}

theorem mem_getSerials {n : Nat} :
    n ∈ getSerials out ↔ ∃ r ∈ out, r.ctx.isGet = true ∧ r.ctx.serial = n := by
  simp [getSerials, and_assoc]

theorem getSerials_eq_nil (h : ∀ r ∈ out, r.ctx.isGet = false) : getSerials out = [] := by
  rw [getSerials, filter_eq_nil_iff.mpr (by simpa using h), map_nil]

theorem getSerials_sublist {l : List Context} {p : Context → Bool} {f : Context → Reply}
    (hf : ∀ ctx, (f ctx).ctx = ctx) :
    (getSerials ((l.filter p).map f)).Sublist (l.map (·.serial)) := by
  have hmap : ((l.filter p).map f).map (fun r => r.ctx.serial) = (l.filter p).map (·.serial) := by
    rw [map_map]
    exact map_congr_left fun ctx _ => by simp [hf]
  have hsub : (getSerials ((l.filter p).map f)).Sublist ((l.filter p).map (·.serial)) := by
    rw [← hmap]
    exact filter_sublist.map _
  exact hsub.trans (filter_sublist.map _)

/-- What a step means for the GETs: those it answers are the request itself or
registered waiters, each once, and they are not registered afterwards. -/
structure Answers (s s' : Server) (out : List Reply) : Prop where
  nodup : (getSerials out).Nodup
  who : ∀ n ∈ getSerials out,
    n = s.received ∨ ∃ id c, s.waiters.waitCtx.lookup id = some c ∧ c.reqCtx.serial = n
  left : ∀ id c, s'.waiters.waitCtx.lookup id = some c → c.reqCtx.serial ∉ getSerials out ∧
    (s.waiters.waitCtx.lookup id = some c ∨ c.reqCtx.serial = s.received)
  received : s.received ≤ s'.received
  lt : ∀ n ∈ getSerials out, n < s'.received

theorem Answers.silent (hs : Silent s s')
    (hout : ∀ r ∈ out, r.ctx.isGet = false) : Answers s s' out := by
  have hnil := getSerials_eq_nil hout
  refine ⟨?_, ?_, ?_, hs.received.ge, ?_⟩
  · simp [hnil]
  · simp [hnil]
  · intro id c hc
    rw [hnil]
    refine ⟨by simp, .inl ?_⟩
    rcases hs.waiters with hw | hw
    · rwa [hw] at hc
    · rw [hw] at hc
      exact absurd hc (by simp)
  · simp [hnil]

theorem Answers.takeOut (hinv : Inv s) (hsub : (getSerials out).Sublist (taken.map (·.serial)))
    (hnodup : (taken.map (·.serial)).Nodup)
    (htaken : ∀ ctx ∈ taken, ∃ id c, s.waiters.waitCtx.lookup id = some c ∧ c.reqCtx = ctx)
    (hleft : ∀ id c, s'.waiters.waitCtx.lookup id = some c →
      s.waiters.waitCtx.lookup id = some c ∧ c.reqCtx.serial ∉ taken.map (·.serial))
    (hreceived : s.received ≤ s'.received) : Answers s s' out := by
  have hwho : ∀ n ∈ getSerials out,
      ∃ id c, s.waiters.waitCtx.lookup id = some c ∧ c.reqCtx.serial = n := by
    intro n hn
    obtain ⟨ctx, hctx, rfl⟩ := mem_map.mp (hsub.subset hn)
    obtain ⟨id, c, hc, rfl⟩ := htaken ctx hctx
    exact ⟨id, c, hc, rfl⟩
  refine ⟨hsub.nodup hnodup, fun n hn => .inr (hwho n hn), ?_, hreceived, ?_⟩
  · intro id c hc
    obtain ⟨hc, hnot⟩ := hleft id c hc
    exact ⟨fun hmem => hnot (hsub.subset hmem), .inl hc⟩
  · intro n hn
    obtain ⟨id, c, hc, rfl⟩ := hwho n hn
    exact (hinv.waiter id c hc).2.2.trans_le hreceived

theorem serial_notMem (hinv : Inv s) {id : Nat} {c : StoreWaitContext}
    (hc : s.waiters.waitCtx.lookup id = some c)
    (htaken : ∀ ctx ∈ taken, ∃ j c', s.waiters.waitCtx.lookup j = some c' ∧ c'.reqCtx = ctx ∧
      (j = id → c' ≠ c)) : c.reqCtx.serial ∉ taken.map (·.serial) := by
  intro hmem
  obtain ⟨ctx, hctx, hserial⟩ := mem_map.mp hmem
  obtain ⟨j, c', hc', rfl, hne⟩ := htaken ctx hctx
  have hj := hinv.serial_inj j id c' c hc' hc hserial
  subst hj
  exact hne rfl (Option.some.inj (hc'.symm.trans hc))

theorem nodup_takeKey (hinv : Inv s) (key : Bytes) :
    ((s.waiters.takeKey key).1.map (·.serial)).Nodup := by
  rw [Waiters.takeKey_eq]
  exact Waiters.nodup_getOut hinv.serial_inj

theorem answers_timerPass (hinv : Inv s) {timestamp : Int} {order : List Int}
    (hnodup : order.Nodup) :
    Answers s (timerPass env timestamp order s).1 (timerPass env timestamp order s).2 := by
  refine .takeOut hinv (getSerials_sublist fun _ => rfl) (Waiters.nodup_getOut hinv.serial_inj)
    ?_ ?_ le_rfl
  · intro ctx hctx
    obtain ⟨id, c, hc, -, -, rfl⟩ := (hinv.wf.mem_timerPass hnodup).mp hctx
    exact ⟨id, c, hc, rfl⟩
  · intro id c hc
    obtain ⟨hc, hnot⟩ := (hinv.wf.lookup_timerPass hnodup).mp hc
    refine ⟨hc, serial_notMem hinv hc fun ctx hctx => ?_⟩
    obtain ⟨j, c', hc', htimed, hdue, rfl⟩ := (hinv.wf.mem_timerPass hnodup).mp hctx
    refine ⟨j, c', hc', rfl, ?_⟩
    rintro - rfl
    exact hnot ⟨htimed, hdue⟩

theorem answers_wake (hinv : Inv s) (env : Env) (key sent : Bytes) :
    Answers s (s.getWakeupList key).2 (wakeupWaiters env (s.getWakeupList key).1 sent) := by
  have hwatch : getSerials (notify env .watch sent (s.getWakeupList key).1.watchers) = [] := by
    apply getSerials_eq_nil
    intro r hr
    exact (hinv.watcher key r.ctx (mem_notify.mp hr).1).1.isGet_eq_false (by decide)
  have hsub : (getSerials (wakeupWaiters env (s.getWakeupList key).1 sent)).Sublist
      ((s.waiters.takeKey key).1.map (·.serial)) := by
    rw [wakeupWaiters, getSerials_append, hwatch, append_nil]
    exact getSerials_sublist fun _ => rfl
  refine .takeOut hinv hsub (nodup_takeKey hinv key) ?_ ?_ le_rfl
  · intro ctx hctx
    obtain ⟨id, c, hc, -, rfl⟩ := hinv.wf.mem_takeKey.mp hctx
    exact ⟨id, c, hc, rfl⟩
  · intro id c hc
    obtain ⟨hc, hne⟩ := hinv.wf.lookup_takeKey.mp hc
    refine ⟨hc, serial_notMem hinv hc fun ctx hctx => ?_⟩
    obtain ⟨j, c', hc', hkey, rfl⟩ := hinv.wf.mem_takeKey.mp hctx
    refine ⟨j, c', hc', rfl, ?_⟩
    rintro - rfl
    exact hne hkey

theorem Answers.congr {s1 : Server} (h : Answers s s1 out) (hw : s'.waiters = s1.waiters)
    (hreceived : s1.received ≤ s'.received) : Answers s s' out :=
  ⟨h.nodup, h.who, fun id c hc => h.left id c (by rwa [hw] at hc), h.received.trans hreceived,
    fun n hn => (h.lt n hn).trans_le hreceived⟩

/-- The request's own reply in front: its serial is new. -/
theorem Answers.own {own rest : List Reply} (hinv : Inv s) (h : Answers s s' rest)
    (hlow : ∀ n ∈ getSerials rest, n < s.received) (hown : Own ctx own)
    (hserial : ctx.serial = s.received) (hreceived : s.received < s'.received)
    (hleft : ∀ id c, s'.waiters.waitCtx.lookup id = some c →
      s.waiters.waitCtx.lookup id = some c) : Answers s s' (own ++ rest) := by
  have hmem : ∀ n ∈ getSerials own, n = s.received := by
    intro n hn
    obtain ⟨r, hr, -, rfl⟩ := mem_getSerials.mp hn
    rw [(hown.2 r hr).1, hserial]
  have hone : (getSerials own).Nodup := by
    have hlen : (getSerials own).length ≤ 1 := by
      rw [getSerials, length_map]
      exact (length_filter_le _ _).trans hown.1
    cases hl : getSerials own with
    | nil => exact nodup_nil
    | cons n l =>
      rw [hl, length_cons] at hlen
      rw [eq_nil_of_length_eq_zero (by omega : l.length = 0)]
      exact nodup_singleton n
  refine ⟨?_, ?_, ?_, h.received, ?_⟩
  · rw [getSerials_append]
    refine nodup_append.mpr ⟨hone, h.nodup, fun n hn n' hn' heq => ?_⟩
    have := hlow n' hn'
    rw [← heq, hmem n hn] at this
    exact lt_irrefl _ this
  · intro n hn
    rw [getSerials_append] at hn
    rcases List.mem_append.mp hn with hn | hn
    · exact .inl (hmem n hn)
    · exact h.who n hn
  · intro id c hc
    have hlt := (hinv.waiter id c (hleft id c hc)).2.2
    refine ⟨fun hn => ?_, (h.left id c hc).2⟩
    rw [getSerials_append] at hn
    rcases List.mem_append.mp hn with hn | hn
    · exact absurd (hmem _ hn) hlt.ne
    · exact (h.left id c hc).1 hn
  · intro n hn
    rw [getSerials_append] at hn
    rcases List.mem_append.mp hn with hn | hn
    · rw [hmem n hn]
      exact hreceived
    · exact h.lt n hn

/-- No one is answered, and at most the request itself is registered. -/
theorem Answers.none (hreceived : s.received ≤ s'.received)
    (hleft : ∀ id c, s'.waiters.waitCtx.lookup id = some c →
      s.waiters.waitCtx.lookup id = some c ∨ c.reqCtx.serial = s.received) : Answers s s' [] :=
  ⟨nodup_nil, by simp [getSerials], fun id c hc => ⟨by simp [getSerials], hleft id c hc⟩,
    hreceived, by simp [getSerials]⟩

theorem answers_effect (hinv : Inv s) (hserial : ctx.serial = s.received)
    (heffect : Effect env ctx { s with received := s.received + 1 } s' out) : Answers s s' out := by
  -- the cases in which the waiters stay and at most the request is answered
  have hquiet : s'.waiters = s.waiters → s'.received = s.received + 1 → Own ctx out →
      Answers s s' out := by
    intro hw hrec hown
    have hnone : Answers s s' [] := .none (by omega) fun id c hc => .inl (by rwa [hw] at hc)
    have := hnone.own hinv (by simp [getSerials]) hown hserial (by omega) fun id c hc => by
      rwa [hw] at hc
    rwa [append_nil] at this
  cases heffect with
  | quiet hs hown => exact hquiet hs.waiters hs.received hown
  | wake key sent r hs hr hout =>
    have hrec : s'.received = s.received + 1 := hs.received
    have hwake := answers_wake hinv env key sent
    have hown : Own ctx [r] := ⟨le_rfl, by simpa using hr⟩
    rw [hout]
    refine (hwake.congr hs.waiters (by rw [hrec]; exact Nat.le_succ _)).own hinv hwake.lt hown
      hserial (by omega) fun id c hc => ?_
    rw [hs.waiters] at hc
    exact (hinv.wf.lookup_takeKey.mp hc).1
  | wait c hs hid hctx hask hrank hout =>
    have hwf : s.waiters.Wf c.id := by
      rw [hid]
      exact hinv.wf
    have hrec : s'.received = s.received + 1 := hs.received
    rw [hout]
    refine .none (by omega) fun id c' hc' => ?_
    rw [hs.waiters] at hc'
    rw [hwf.lookup_register] at hc'
    split_ifs at hc'
    · rw [← Option.some.inj hc', hctx]
      exact .inr hserial
    · exact .inl hc'
  | watch key hask hs hwatch hown => exact hquiet hs.waiters hs.received hown
  | watchRank hask hs hwatch hout =>
    rw [hout] at hquiet ⊢
    exact hquiet hs.waiters hs.received .nil

theorem answers_step (hinv : Inv s) (e : Event) : Answers s (step s e).1 (step s e).2 := by
  cases e with
  | request env link seqNo body =>
    obtain ⟨ctx, hserial, -, heffect⟩ := effect_receive env link seqNo body s
    exact answers_effect hinv hserial heffect
  | connected req link => exact .silent silent_linkConnectedHandler (by simp [step])
  | broken link => exact .silent silent_linkBrokenHandler (by simp [step])
  | timer env timestamp order =>
    unfold step
    dsimp only
    split_ifs with horder
    · exact answers_timerPass hinv (horder.nodup_iff.mpr (AList.keys_nodup _))
    · exact .none le_rfl fun id c hc => .inl hc
  | rankState env =>
    refine .silent silent_rankStateTask fun r hr => ?_
    unfold step rankStateTask at hr
    dsimp only at hr
    split at hr
    · exact absurd hr (by simp)
    · exact (hinv.rankWatcher r.ctx (mem_notify.mp hr).1).1.isGet_eq_false (by decide)

/-- The replies so far answer every GET at most once, and no waiter. -/
structure LogInv (log : List Reply) (s : Server) : Prop where
  inv : Inv s
  nodup : (getSerials log).Nodup
  lt : ∀ n ∈ getSerials log, n < s.received
  waiting : ∀ id c, s.waiters.waitCtx.lookup id = some c → c.reqCtx.serial ∉ getSerials log

theorem LogInv.step (h : LogInv log s) (e : Event) : LogInv (log ++ (step s e).2) (step s e).1 := by
  have ha := answers_step h.inv e
  refine ⟨h.inv.step e, ?_, ?_, ?_⟩
  · rw [getSerials_append]
    refine nodup_append.mpr ⟨h.nodup, ha.nodup, fun n hn n' hn' heq => ?_⟩
    subst heq
    rcases ha.who n hn' with rfl | ⟨id, c, hc, rfl⟩
    · exact lt_irrefl _ (h.lt _ hn)
    · exact h.waiting id c hc hn
  · intro n hn
    rw [getSerials_append] at hn
    rcases List.mem_append.mp hn with hn | hn
    · exact (h.lt n hn).trans_le ha.received
    · exact ha.lt n hn
  · intro id c hc hn
    obtain ⟨hnot, hwho⟩ := ha.left id c hc
    rw [getSerials_append] at hn
    rcases List.mem_append.mp hn with hn | hn
    · rcases hwho with hc | hserial
      · exact h.waiting id c hc hn
      · exact absurd (h.lt _ hn) (by omega)
    · exact hnot hn

theorem logInv_of_trace {allowed : Server → Event → Prop} {worldSize : Nat} {backend : Backend}
    (h : Trace step allowed (start worldSize backend) log s) : LogInv log s := by
  refine h.invariant ⟨inv_start _ _, nodup_nil, by simp [getSerials], by simp [getSerials]⟩ ?_
  exact fun log s e hlog _ => hlog.step e

/-! ## Timeouts -/

theorem timeout_of_step (hinv : Inv s) {e : Event} {r : Reply} (hr : r ∈ (step s e).2)
    (hget : r.ctx.isGet = true) (hbody : r.body = timeoutBody) :
    ∃ env timestamp order id c, e = .timer env timestamp order ∧
      s.waiters.waitCtx.lookup id = some c ∧ c.reqCtx = r.ctx ∧ c.timed = true ∧
      c.timeoutMs ≤ timestamp := by
  cases e with
  | request env link seqNo body =>
    obtain ⟨ctx, -, -, heffect⟩ := effect_receive env link seqNo body s
    have hown : ∀ r', OwnReply ctx r' → r = r' → False := by
      rintro r' ⟨hctx, hnot⟩ rfl
      rw [hctx] at hget
      exact hnot hget hbody
    cases heffect with
    | quiet hs ho => exact (hown r (ho.2 r hr) rfl).elim
    | wake key sent r' hs ho hout =>
      have hr' : r ∈ r' :: wakeupWaiters env _ sent := hout ▸ hr
      rcases mem_cons.mp hr' with heq | hr'
      · exact (hown r' ho heq).elim
      · rcases List.mem_append.mp hr' with hr' | hr' <;>
          rw [(mem_notify.mp hr').2.2] at hbody <;> cases hbody
    | wait c hs hid hctx hask hrank hout =>
      have hr' : r ∈ [] := hout ▸ hr
      exact absurd hr' (by simp)
    | watch key hask hs hwatch ho => exact (hown r (ho.2 r hr) rfl).elim
    | watchRank hask hs hwatch hout =>
      have hr' : r ∈ [] := hout ▸ hr
      exact absurd hr' (by simp)
  | connected req link => exact absurd hr (by simp [step])
  | broken link => exact absurd hr (by simp [step])
  | timer env timestamp order =>
    unfold step at hr
    dsimp only at hr
    split_ifs at hr with horder
    · obtain ⟨ctx, hctx, rfl⟩ := mem_map.mp hr
      have hnodup := horder.nodup_iff.mpr (AList.keys_nodup _)
      obtain ⟨id, c, hc, htimed, hdue, rfl⟩ :=
        (hinv.wf.mem_timerPass hnodup).mp (mem_filter.mp hctx).1
      exact ⟨env, timestamp, order, id, c, rfl, hc, rfl, htimed,
        by simpa using mem_takeWhile_imp hdue⟩
    · exact absurd hr (by simp)
  | rankState env =>
    unfold step rankStateTask at hr
    dsimp only at hr
    split at hr
    · exact absurd hr (by simp)
    · rw [(mem_notify.mp hr).2.2] at hbody
      cases hbody

/-- In every run each GET is answered at most once, and a timeout goes to a waiter
whose deadline the clock of the timer pass has reached. -/
theorem get_answered_once {worldSize : Nat} {backend : Backend} {log : List Reply} {s : Server}
    (h : Trace step (fun _ _ => True) (start worldSize backend) log s) :
    (∀ n, (log.filter fun r => r.ctx.serial == n && r.ctx.isGet).length ≤ 1) ∧
    ∀ e, ∀ r ∈ (step s e).2, r.ctx.isGet = true → r.body = timeoutBody →
      ∃ env timestamp order id c, e = .timer env timestamp order ∧
        s.waiters.waitCtx.lookup id = some c ∧ c.reqCtx = r.ctx ∧ c.timed = true ∧
        c.timeoutMs ≤ timestamp := by
  have hlog := logInv_of_trace h
  constructor
  · intro n
    have hcount := nodup_iff_count_le_one.mp hlog.nodup n
    rw [getSerials, count, countP_map, countP_filter, countP_eq_length_filter]
      at hcount
    exact hcount
  · exact fun e r hr hget hbody => timeout_of_step hlog.inv hr hget hbody

theorem get_answered_once_run :
    ((run step (start 1 {}) [.request openEnv 5 0 (pack getForever),
      .request openEnv 6 0 (pack setByte), .broken 5]).2.filter fun r =>
        r.ctx.serial == 0 && r.ctx.isGet).length ≤ 1 :=
  (get_answered_once (trace_run (fun _ _ => trivial) _ _)).1 0

/-! ## One timer pass -/

/-- Exactly for the iteration orders that list every due deadline before every one
that is not due, the pass leaves no overdue waiter. -/
theorem timerPass_answers_overdue_iff {worldSize : Nat} {backend : Backend} {s : Server}
    (h : Reachable step (fun _ _ => True) (start worldSize backend) s) (env : Env)
    (timestamp : Int) (order : List Int) (horder : order.Perm s.waiters.timedWaiters.keys) :
    (∀ id c, (timerPass env timestamp order s).1.waiters.waitCtx.lookup id = some c →
      c.timed = true → timestamp < c.timeoutMs) ↔
      order.Pairwise fun d e => timestamp < d → timestamp < e :=
  (inv_of_reachable h).wf.timerPass_no_overdue_iff horder

def getWithin (timeoutMs : Int64) : SmemMessage :=
  { mt := .get, userDef := timeoutMs, keys := [[107]] }

def twoWaiting : Server :=
  (step (step (start 1 {}) (.request openEnv 5 0 (pack (getWithin 10)))).1
    (.request openEnv 6 0 (pack (getWithin 1000)))).1

theorem twoWaiting_reachable : Reachable step (fun _ _ => True) (start 1 {}) twoWaiting :=
  .next (.next ⟨[], .nil⟩ _ trivial) _ trivial

theorem timerPass_answers_overdue_iff_sorted :
    [10, 1000].Perm twoWaiting.waiters.timedWaiters.keys ∧
      ∀ id c, (timerPass openEnv 20 [10, 1000] twoWaiting).1.waiters.waitCtx.lookup id = some c →
        c.timed = true → 20 < c.timeoutMs := by
  have horder : [10, 1000].Perm twoWaiting.waiters.timedWaiters.keys := by
    decide
  exact ⟨horder, (timerPass_answers_overdue_iff twoWaiting_reachable openEnv 20 [10, 1000]
    horder).mpr (by decide)⟩

/-- The deadline 1000 is listed first, so that the pass at time 20 leaves the waiter
with deadline 10. -/
theorem timerPass_skips_overdue :
    ∃ s order id c, Reachable step (fun _ _ => True) (start 1 {}) s ∧
      order.Perm s.waiters.timedWaiters.keys ∧
      (timerPass openEnv 20 order s).1.waiters.waitCtx.lookup id = some c ∧
      c.timed = true ∧ c.timeoutMs ≤ 20 := by
  refine ⟨twoWaiting, [1000, 10], 1, ⟨1, 10, [107], ⟨5, 0, 0, some (getWithin 10)⟩⟩,
    twoWaiting_reachable, ?_, ?_, by decide, by decide⟩
  · decide
  · decide

end MemFabric.Smem.Store.Server
