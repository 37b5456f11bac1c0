import MemFabric.Smem.Group.Safety
import MemFabric.Smem.Group.System

/-!
# Counters of pending events

The callback of the watch counts the events of ranks that go and the events that stop
another one, and the listener takes them off when it has processed an event.  When the
watch has failed, the listener drops what it has and takes off only the first kind: the
count of stops stays too large by the number of stops that were dropped.
-/

namespace MemFabric.Smem.Group

open Machine List

/-! ## The listener alone -/

/-- `GroupWatchCb`: the result, whether the key is the event key, and the value if it has
the size of a group info. -/
def Engine.groupWatchCbOf (result : Int) (keyOk : Bool) (value : Option SmemGroupInfo)
    (e : Engine) : Engine :=
  match value with
  | some info =>
    if result = smOk ∧ keyOk = true then e.groupWatchCb info
    else { e with eventRet := smError, eventSignal := true }
  | none => { e with eventRet := smError, eventSignal := true }

namespace Listening

/-- `others` stands for the other threads of the engine: they leave the events, the two
counters and the listener itself alone. -/
inductive Input
  | callback (result : Int) (keyOk : Bool) (value : Option SmemGroupInfo)
  | listen
  | exec (env : Env) (watchOk : Bool)
  | others (e : Engine)

/-- What the other threads may change. -/
def mix (e e' : Engine) : Engine :=
  { e' with
    counts := fun c => if c = .linkDown then e'.counts c else e.counts c
    eventValues := e.eventValues
    currentEvents := e.currentEvents
    listener := e.listener }

/-- An action of the listener.  It makes no other requests than to watch the event key. -/
def perform (env : Env) (watchOk : Bool) (e : Engine) : (a : Act) → Resp a × Engine
  | .own a => performLocal env e a
  | .watchEvent => (watchOk, { e with eventWatched := watchOk })
  | .watchLinkDown => (false, e)
  | .queryAlive _ => (none, e)
  | .cas _ _ => (.ioError, e)

def dropped (e : Engine) : Act → List SmemGroupInfo
  | .own .clearEvents => e.currentEvents
  | _ => []

def step (e : Engine) : Input → Engine × List SmemGroupInfo
  | .callback result keyOk value => (e.groupWatchCbOf result keyOk value, [])
  | .listen =>
    match e.listener with
    | .ret _ => ({ e with listener := groupListenEvent e.option }, [])
    | .act _ _ => (e, [])
  | .exec env watchOk =>
    match e.listener with
    | .ret _ => (e, [])
    | .act a k =>
      let out := perform env watchOk e a
      ({ out.2 with listener := k out.1 }, dropped e a)
  | .others e' => (mix e e', [])

def start (option : SmemGroupOption) : Engine := { option }

/-! ## Counting -/

def counts (c : Counter) (info : SmemGroupInfo) : Bool :=
  match c with
  | .leave => decide (info.curEvent = .leave ∨ info.curEvent = .linkDown)
  | .stop => decide (info.curEvent = .stop)
  | .linkDown => false

def queued (e : Engine) : List SmemGroupInfo := e.currentEvents ++ e.eventValues

/-- Where the listener is in its list: the list, and what it has taken off the counters for
events that are still in it. -/
structure Ledger where
  list : List SmemGroupInfo
  taken : Counter → Nat

def Ledger.even (list : List SmemGroupInfo) : Ledger := ⟨list, fun _ => 0⟩

def Ledger.take (g : Ledger) (c : Counter) : Ledger :=
  { g with taken := Function.update g.taken c (g.taken c + 1) }

theorem Ledger.taken_take (g : Ledger) (c c' : Counter) :
    (g.take c).taken c' = if c' = c then g.taken c + 1 else g.taken c' :=
  Function.update_apply ..

def account : Account Act Resp Ledger where
  pre g
    | .own (.sub _ n) => n = 1
    | .own .waitEvent => g.taken = fun _ => 0
    | .own .popEvent => ∀ c, g.taken c = (g.list.take 1).countP (counts c)
    | .own .clearEvents => g.taken .leave = g.list.countP (counts .leave) ∧ g.taken .stop = 0
    | _ => True
  poss g
    | .own .waitEvent, r => ∃ more, r.2.2 = g.list ++ more
    | _, _ => True
  post g
    | .own (.sub c _), _ => g.take c
    | .own .waitEvent, r => .even r.2.2
    | .own .popEvent, _ => .even g.list.tail
    | .own .clearEvents, _ => .even []
    | _, _ => g

/-- Actions that have nothing to do with the account. -/
def Neutral : Act → Prop
  | .own (.sub _ _) | .own .waitEvent | .own .popEvent | .own .clearEvents => False
  | _ => True

theorem neutral_account (g : Ledger) (a : Act) (h : Neutral a) :
    account.pre g a ∧ ∀ r, account.post g a r = g := by
  unfold Neutral at h
  split at h
  · exact h.elim
  · exact h.elim
  · exact h.elim
  · exact h.elim
  · next hsub hwait hpop hclear =>
    constructor
    · unfold account
      dsimp only
      split
      · exact absurd rfl (hsub _ _)
      · exact absurd rfl hwait
      · exact absurd rfl hpop
      · exact absurd rfl hclear
      · trivial
    · intro r
      unfold account
      dsimp only
      split
      · exact absurd rfl (hsub _ _)
      · exact absurd rfl hwait
      · exact absurd rfl hpop
      · exact absurd rfl hclear
      · rfl

/-! ## The programs of the listener -/

variable {option : SmemGroupOption}

abbrev Plain {α : Type} (p : Program α) : Prop := Prog.All Neutral (fun _ => True) p

theorem plain_of_quiet {α : Type} {p : Program α} (h : Quiet p) : Plain p := by
  refine h.imp (fun a ha => ?_) fun _ => id
  unfold Neutral
  split <;> first | exact ha | trivial

theorem plain_takeOver (info : SmemGroupInfo) : Plain (takeOver option info) := by
  refine ⟨trivial, fun newer => ?_⟩
  cases newer with
  | true => exact plain_of_quiet quiet_joinLeaveEventProcess
  | false => trivial

/-- Between two rounds nothing has been taken off for an event that is still there. -/
def Even (_ : Unit) (g : Ledger) : Prop := g = .even g.list

theorem Plain.follows_bind {α : Type} {p : Program α} {f : α → Program Unit} {g : Ledger}
    (hp : Plain p) (hf : ∀ x, Prog.Follows account Even (f x) g) :
    Prog.Follows account Even (p >>= f) g :=
  (hp.follows neutral_account).bind fun x _ h => h ▸ hf x

theorem follows_uncount {info : SmemGroupInfo} {list : List SmemGroupInfo} :
    Prog.Follows account (fun _ g => g.list = list ∧ ∀ c, g.taken c = [info].countP (counts c))
      (uncount info) (.even list) := by
  unfold uncount
  by_cases hleave : info.curEvent = .leave ∨ info.curEvent = .linkDown
  · rw [if_pos hleave]
    refine ⟨rfl, fun _ _ => ⟨rfl, fun c => ?_⟩⟩
    have hstop : ¬ info.curEvent = .stop := by
      rcases hleave with h | h <;> rw [h] <;> decide
    cases c <;> simp [account, Ledger.take, Ledger.even, counts, hleave, hstop]
  · rw [if_neg hleave]
    by_cases hstop : info.curEvent = .stop
    · rw [if_pos hstop]
      refine ⟨rfl, fun _ _ => ⟨rfl, fun c => ?_⟩⟩
      cases c <;> simp [account, Ledger.take, Ledger.even, counts, hstop]
    · rw [if_neg hstop]
      refine ⟨rfl, fun c => ?_⟩
      cases c <;> simp [Ledger.even, counts, hleave, hstop]

theorem follows_processEvents (list : List SmemGroupInfo) :
    Prog.Follows account Even (processEvents option list) (.even list) := by
  induction list with
  | nil => exact rfl
  | cons info rest ih =>
    refine (plain_takeOver info).follows_bind fun _ => ?_
    refine follows_uncount.bind fun _ g ⟨hlist, htaken⟩ => ?_
    refine ⟨fun c => ?_, fun _ _ => ?_⟩
    · rw [hlist]
      exact htaken c
    · change Prog.Follows account Even _ (Ledger.even g.list.tail)
      rw [hlist]
      exact ih

/-- What the loop over dropped events has taken off: the events of ranks that go, up to
the ones that are left. -/
theorem follows_dropEvents (list rest : List SmemGroupInfo) (g : Ledger) (hlist : g.list = list)
    (hleave : g.taken .leave + rest.countP (counts .leave) = list.countP (counts .leave))
    (hstop : g.taken .stop = 0) : Prog.Follows account Even (dropEvents rest) g := by
  induction rest generalizing g with
  | nil => exact ⟨⟨hlist ▸ hleave, hstop⟩, fun _ _ => rfl⟩
  | cons info rest ih =>
    change Prog.Follows account Even (uncountLeave info >>= fun _ => dropEvents rest) g
    rw [countP_cons] at hleave
    unfold uncountLeave
    by_cases h : info.curEvent = .leave ∨ info.curEvent = .linkDown
    · rw [if_pos h]
      have hcount : counts .leave info = true := decide_eq_true h
      rw [if_pos hcount] at hleave
      refine ⟨rfl, fun _ _ => ih (g.take .leave) hlist ?_ ?_⟩
      · rw [Ledger.taken_take, if_pos rfl]
        omega
      · exact (Ledger.taken_take ..).trans hstop
    · rw [if_neg h]
      have hcount : ¬ counts .leave info = true := by simpa [counts] using h
      rw [if_neg hcount] at hleave
      exact ih g hlist hleave hstop

/-- The only place where the account does not come out even is that of stops among the
dropped events, which `dropEvents` leaves counted. -/
theorem follows_groupListenEvent (list : List SmemGroupInfo) :
    Prog.Follows account Even (groupListenEvent option) (.even list) := by
  refine (plain_of_quiet quiet_ensureEventWatch).follows_bind fun watched => ?_
  split
  · refine ⟨rfl, fun r _ => ?_⟩
    obtain ⟨ret, cRet, events⟩ := r
    change Prog.Follows account Even (if ret = smOk then _ else _) (.even events)
    split
    · split
      · refine ⟨trivial, fun _ _ => ?_⟩
        exact follows_dropEvents events events (.even events) rfl (Nat.zero_add _) rfl
      · exact follows_processEvents events
    · exact rfl
  · exact rfl

/-! ## Runs -/

def kept (log : List SmemGroupInfo) : Counter → Nat
  | .stop => log.countP (counts .stop)
  | _ => 0

/-- Where the ledger stands, the counters are those of the queued events and of the stops
that were dropped. -/
structure Booked (log : List SmemGroupInfo) (e : Engine) (g : Ledger) : Prop where
  list : e.currentEvents = g.list
  count : ∀ c ≠ .linkDown, e.counts c + UInt32.ofNat (g.taken c) =
    UInt32.ofNat ((queued e).countP (counts c) + kept log c)

/-- What is left of the round leads from the ledger to an even one. -/
def Counted (log : List SmemGroupInfo) (e : Engine) : Prop :=
  ∃ g, Booked log e g ∧ Prog.Follows account Even e.listener g

theorem counted_start : Counted [] (start option) :=
  ⟨.even [], ⟨rfl, fun c _ => by cases c <;> rfl⟩, rfl⟩

variable {log : List SmemGroupInfo} {e : Engine} {g : Ledger}

section

variable (h : Booked log e g)

include h

theorem Booked.more {e' : Engine} (more : List SmemGroupInfo)
    (hcurrent : e'.currentEvents = e.currentEvents)
    (hvalues : e'.eventValues = e.eventValues ++ more) (hcounts : ∀ c ≠ .linkDown,
      e'.counts c = e.counts c + UInt32.ofNat (more.countP (counts c))) : Booked log e' g := by
  refine ⟨hcurrent ▸ h.list, fun c hc => ?_⟩
  have hqueued : queued e' = queued e ++ more := by
    rw [queued, queued, hcurrent, hvalues, append_assoc]
  have hcount := h.count c hc
  rw [hcounts c hc, hqueued, countP_append]
  simp only [UInt32.ofNat_add] at hcount ⊢
  rw [UInt32.add_assoc, UInt32.add_comm (UInt32.ofNat (more.countP _)), ← UInt32.add_assoc, hcount]
  ac_rfl

theorem Booked.same {e' : Engine}
    (hcurrent : e'.currentEvents = e.currentEvents) (hvalues : e'.eventValues = e.eventValues)
    (hcounts : ∀ c ≠ .linkDown, e'.counts c = e.counts c) : Booked log e' g :=
  h.more [] hcurrent (hvalues.trans (append_nil _).symm)
    fun c hc => (hcounts c hc).trans (UInt32.add_zero _).symm

theorem Booked.groupWatchCb (info : SmemGroupInfo) :
    Booked log (e.groupWatchCb info) g := by
  unfold Engine.groupWatchCb
  split
  · by_cases hleave : info.curEvent = .leave ∨ info.curEvent = .linkDown
    · rw [if_pos hleave]
      refine h.more [info] rfl rfl fun c hc => ?_
      have hstop : ¬ info.curEvent = .stop := by
        rcases hleave with h | h <;> rw [h] <;> decide
      cases c <;> simp_all [Engine.withCount, counts]
    · rw [if_neg hleave]
      by_cases hstop : info.curEvent = .stop
      · rw [if_pos hstop]
        refine h.more [info] rfl rfl fun c hc => ?_
        cases c <;> simp_all [Engine.withCount, counts]
      · rw [if_neg hstop]
        refine h.more [info] rfl rfl fun c hc => ?_
        cases c <;> simp_all [counts]
  · exact h.same rfl rfl fun _ _ => rfl

theorem Booked.groupWatchCbOf (result : Int) (keyOk : Bool)
    (value : Option SmemGroupInfo) : Booked log (e.groupWatchCbOf result keyOk value) g := by
  unfold Engine.groupWatchCbOf
  split
  · split
    · exact h.groupWatchCb _
    · exact h.same rfl rfl fun _ _ => rfl
  · exact h.same rfl rfl fun _ _ => rfl

end

theorem groupWatchCb_listener (e : Engine) (info : SmemGroupInfo) :
    (e.groupWatchCb info).listener = e.listener := by
  unfold Engine.groupWatchCb
  split
  · split
    · rfl
    · split <;> rfl
  · rfl

theorem groupWatchCbOf_listener (e : Engine) (result : Int) (keyOk : Bool)
    (value : Option SmemGroupInfo) :
    (e.groupWatchCbOf result keyOk value).listener = e.listener := by
  unfold Engine.groupWatchCbOf
  split
  · split
    · exact groupWatchCb_listener e _
    · rfl
  · rfl

/-- An action that has nothing to do with the account leaves the events and counters alone. -/
theorem perform_neutral (env : Env) (watchOk : Bool) (e : Engine) {a : Act} (ha : Neutral a) :
    (perform env watchOk e a).2.counts = e.counts ∧
      (perform env watchOk e a).2.eventValues = e.eventValues ∧
      (perform env watchOk e a).2.currentEvents = e.currentEvents ∧ dropped e a = [] := by
  cases a with
  | own a =>
    cases a
    case tryUpdateInfo info =>
      unfold perform performLocal
      dsimp only
      split <;> exact ⟨rfl, rfl, rfl, rfl⟩
    case sub => exact ha.elim
    case waitEvent => exact ha.elim
    case popEvent => exact ha.elim
    case clearEvents => exact ha.elim
    all_goals exact ⟨rfl, rfl, rfl, rfl⟩
  | watchEvent => exact ⟨rfl, rfl, rfl, rfl⟩
  | watchLinkDown => exact ⟨rfl, rfl, rfl, rfl⟩
  | queryAlive rank => exact ⟨rfl, rfl, rfl, rfl⟩
  | cas expect value => exact ⟨rfl, rfl, rfl, rfl⟩

section

variable (h : Booked log e g)

include h

theorem Booked.sub (c : Counter) : Booked log (e.withCount c (e.counts c - 1)) (g.take c) := by
  refine ⟨h.list, fun c' hc => ?_⟩
  change (if c' = c then e.counts c - 1 else e.counts c') + _ =
    UInt32.ofNat ((queued e).countP _ + _)
  rw [← h.count c' hc, Ledger.taken_take]
  by_cases heq : c' = c
  · rw [if_pos heq, if_pos heq, heq, Nat.add_comm, UInt32.ofNat_add, ← UInt32.add_assoc]
    exact congrArg (· + _) (UInt32.sub_add_cancel _ 1)
  · rw [if_neg heq, if_neg heq]

theorem Booked.waitEvent (hg : g.taken = fun _ => 0) :
    Booked log
      { e with
        currentEvents := e.currentEvents ++ e.eventValues
        eventValues := []
        eventSignal := false }
      (.even (e.currentEvents ++ e.eventValues)) := by
  refine ⟨rfl, fun c hc => ?_⟩
  have hcount := h.count c hc
  rw [hg] at hcount
  simpa [queued, Ledger.even] using hcount

theorem Booked.leave {log' : List SmemGroupInfo} {front back : List SmemGroupInfo}
    (hlist : g.list = front ++ back)
    (hg : ∀ c ≠ .linkDown, g.taken c + kept log' c = front.countP (counts c) + kept log c) :
    Booked log' { e with currentEvents := back } (.even back) := by
  refine ⟨rfl, fun c hc => ?_⟩
  have hcount := h.count c hc
  have hqueued : queued e = front ++ queued { e with currentEvents := back } := by
    rw [queued, queued, h.list, hlist, append_assoc]
  rw [hqueued, countP_append, Nat.add_right_comm, ← hg c hc, Nat.add_assoc, UInt32.ofNat_add,
    UInt32.add_comm (UInt32.ofNat _)] at hcount
  rw [(UInt32.add_left_inj _).mp hcount, Nat.add_comm]
  exact UInt32.add_zero _

theorem Booked.popEvent (hg : ∀ c, g.taken c = (g.list.take 1).countP (counts c)) :
    Booked log { e with currentEvents := e.currentEvents.tail } (.even g.list.tail) := by
  rw [h.list]
  have hsplit : g.list = g.list.take 1 ++ g.list.tail := by
    rw [← drop_one, take_append_drop]
  exact h.leave hsplit fun c _ => congrArg (· + _) (hg c)

theorem Booked.clearEvents
    (hleave : g.taken .leave = g.list.countP (counts .leave)) (hstop : g.taken .stop = 0) :
    Booked (log ++ e.currentEvents) { e with currentEvents := [] } (.even []) := by
  refine h.leave (append_nil _).symm fun c hc => ?_
  cases c with
  | leave => exact congrArg (· + 0) hleave
  | stop =>
    rw [kept, kept, countP_append, h.list]
    omega
  | linkDown => exact absurd rfl hc

/-- An action that the account allows is answered as it says, and booked. -/
theorem Booked.perform (env : Env) (watchOk : Bool) (a : Act) (hpre : account.pre g a) :
    account.poss g a (perform env watchOk e a).1 ∧
      Booked (log ++ dropped e a) (perform env watchOk e a).2
        (account.post g a (perform env watchOk e a).1) := by
  by_cases ha : Neutral a
  · obtain ⟨hcounts, hvalues, hcurrent, hdropped⟩ := perform_neutral env watchOk e ha
    rw [(neutral_account g a ha).2, hdropped, append_nil]
    refine ⟨?_, h.same hcurrent hvalues fun c _ => congrFun hcounts c⟩
    unfold account
    dsimp only
    split
    · exact ha.elim
    · trivial
  · unfold Neutral at ha
    split at ha
    · next c n =>
      cases hpre
      refine ⟨trivial, ?_⟩
      rw [dropped, append_nil]
      · exact h.sub c
      · exact fun h => by cases h
    · refine ⟨⟨e.eventValues, by rw [← h.list]; rfl⟩, ?_⟩
      rw [dropped, append_nil]
      · exact h.waitEvent hpre
      · exact fun h => by cases h
    · refine ⟨trivial, ?_⟩
      rw [dropped, append_nil]
      · exact h.popEvent hpre
      · exact fun h => by cases h
    · exact ⟨trivial, h.clearEvents hpre.1 hpre.2⟩
    · exact absurd trivial ha

end

theorem Counted.step (h : Counted log e) (i : Input) :
    Counted (log ++ (step e i).2) (step e i).1 := by
  obtain ⟨g, hbooked, hfollows⟩ := h
  cases i with
  | callback result keyOk value =>
    refine ⟨g, ?_, ?_⟩
    · rw [show (Listening.step e _).2 = [] from rfl, append_nil]
      exact hbooked.groupWatchCbOf result keyOk value
    · exact (groupWatchCbOf_listener e result keyOk value).symm ▸ hfollows
  | listen =>
    unfold Listening.step
    dsimp only
    split
    · next x hret =>
      rw [append_nil]
      refine ⟨g, ⟨hbooked.list, hbooked.count⟩, ?_⟩
      have heven : g = .even g.list := by
        rw [hret] at hfollows
        exact hfollows
      rw [heven]
      exact follows_groupListenEvent g.list
    · rw [append_nil]
      exact ⟨g, hbooked, hfollows⟩
  | exec env watchOk =>
    unfold Listening.step
    dsimp only
    split
    · rw [append_nil]
      exact ⟨g, hbooked, hfollows⟩
    · next a k hact =>
      rw [hact] at hfollows
      obtain ⟨hposs, hnext⟩ := hbooked.perform env watchOk a hfollows.1
      exact ⟨_, ⟨hnext.list, hnext.count⟩, hfollows.2 _ hposs⟩
  | others e' =>
    rw [show (Listening.step e _).2 = [] from rfl, append_nil]
    refine ⟨g, hbooked.same rfl rfl fun c hc => ?_, hfollows⟩
    exact if_neg hc

/-- Between two rounds the counters are those of the queued events, and the stops that were
dropped are still counted. -/
theorem counts_between_rounds
    (h : Trace step (fun _ _ => True) (start option) log e) (hidle : e.listener = .ret ())
    (c : Counter) (hc : c ≠ .linkDown) :
    e.counts c = UInt32.ofNat ((queued e).countP (counts c) + kept log c) := by
  obtain ⟨g, hbooked, hfollows⟩ := Trace.invariant (P := Counted) h counted_start
    fun log e i he _ => he.step i
  rw [hidle] at hfollows
  have heven : g = .even g.list := hfollows
  have hcount := hbooked.count c hc
  rw [heven] at hcount
  rw [← hcount]
  exact (UInt32.add_zero _).symm

/-- Whenever the listener is between two rounds, the count of leaving ranks is the number
of such events that are queued; the count of stops is the number of queued stops as long
as no stop has been dropped after a failure of the watch. -/
theorem counters_exact
    (h : Trace step (fun _ _ => True) (start option) log e) (hidle : e.listener = .ret ()) :
    e.counts .leave = UInt32.ofNat ((queued e).countP (counts .leave)) ∧
      ((∀ info ∈ log, info.curEvent ≠ .stop) →
        e.counts .stop = UInt32.ofNat ((queued e).countP (counts .stop))) := by
  refine ⟨counts_between_rounds h hidle .leave (by decide), fun hlog => ?_⟩
  have hcount := counts_between_rounds h hidle .stop (by decide)
  have hkept : kept log .stop = 0 := by
    refine countP_eq_zero.mpr fun info hinfo => ?_
    simpa [counts] using hlog info hinfo
  rwa [hkept] at hcount

def leaveAndStop : List Input :=
  [.callback 0 true (some { version := 1, curEvent := .leave }),
    .callback 0 true (some { version := 2, curEvent := .stop })]

theorem counters_exact_leaveAndStop :
    (run step (start { rank := 0 }) leaveAndStop).1.counts .leave = 1 ∧
      (run step (start { rank := 0 }) leaveAndStop).1.counts .stop = 1 :=
  have htrace : Trace step (fun _ _ => True) (start { rank := 0 }) _ _ :=
    trace_run (fun _ _ => trivial) _ leaveAndStop
  ⟨(counters_exact htrace rfl).1, (counters_exact htrace rfl).2 fun _ hinfo => by cases hinfo⟩

/-- The listener has set up the watch and waits.  A stop arrives, then the link of the
watch breaks, and the listener drops the stop. -/
def stopThenFailure : List Input :=
  [.listen] ++ replicate 3 (.exec {} true) ++
  [.callback 0 true (some { version := 2, curEvent := .stop }), .callback (-1) true none] ++
  replicate 3 (.exec {} true)

theorem dropped_stop_counted :
    ∃ log e, Trace step (fun _ _ => True) (start { rank := 0 }) log e ∧ e.listener = .ret () ∧
      queued e = [] ∧ e.counts .stop = 1 :=
  ⟨_, _, trace_run (fun _ _ => trivial) _ stopThenFailure, rfl, rfl, rfl⟩

end Listening

end MemFabric.Smem.Group
