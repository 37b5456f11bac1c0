import MemFabric.Smem.Group.Safety
import MemFabric.Smem.Group.System

/-!
# Runs of a group

What a step does to the event key, in every reachable state: nothing, or it stores an
info that is built from the stored one.  The first info is stored on an absent key.
-/

namespace MemFabric.Smem.Group

open Machine Prog List

/-! ## The invariant -/

/-- As long as the key is absent, a rank knows of nothing but the initial info. -/
structure EngineInv (w : Bool) (e : Engine) : Prop where
  copy : w = false → e.groupInfo = {}
  joined : e.joined = true → w = true
  values : e.eventValues ≠ [] → w = true
  events : e.currentEvents ≠ [] → w = true
  user : SafeProgram e.user w
  listener : SafeProgram e.listener w
  linkListener : SafeProgram e.linkListener w
  reconnector : SafeProgram e.reconnector w

theorem EngineInv.watched {w : Bool} {e : Engine} (h : EngineInv w e)
    (eventWatched linkWatched : Bool) : EngineInv w { e with eventWatched, linkWatched } :=
  { h with }

def System.present (s : System) : Bool := s.store.isSome

structure Inv (s : System) : Prop where
  engines : ∀ r, EngineInv s.present (s.engines r)
  notices : ∀ r, (s.links r).notices ≠ [] → s.present = true
  inflight : ∀ request ∈ s.inflight, groupSpec.ok s.present (.cas request.1 request.2)

/-- The info that is stored comes from the one it replaces. -/
def Follows : Option SmemGroupInfo → SmemGroupInfo → Prop
  | none, value => Built {} value ∧ First {} value
  | some base, value => Built base value

inductive Effect (s s' : System) (out : List SmemGroupInfo) : Prop
  | quiet (hout : out = []) (hstore : s'.store = s.store)
  | stores (value : SmemGroupInfo) (hout : out = [value]) (hstore : s'.store = some value)
      (hfollows : Follows s.store value)

/-! ## Engines -/

section

variable {w w' : Bool} {e : Engine}

theorem SafeProgram.mono {p : Program Unit} (h : SafeProgram p w) (hle : w ≤ w') :
    SafeProgram p w' :=
  Safe.mono (fun _ _ _ _ _ => trivial) h hle

theorem EngineInv.mono (h : EngineInv w e) (hle : w ≤ w') : EngineInv w' e where
  copy hw := h.copy (by
    rw [hw] at hle
    exact Bool.eq_false_of_le_false hle)
  joined hj := hle (h.joined hj)
  values hv := hle (h.values hv)
  events hv := hle (h.events hv)
  user := h.user.mono hle
  listener := h.listener.mono hle
  linkListener := h.linkListener.mono hle
  reconnector := h.reconnector.mono hle

theorem EngineInv.program (h : EngineInv w e) (t : Thread) : SafeProgram (e.program t) w := by
  cases t with
  | user => exact h.user
  | listener => exact h.listener
  | linkListener => exact h.linkListener
  | reconnector => exact h.reconnector

theorem EngineInv.setProgram {p : Program Unit} (h : EngineInv w e) (hp : SafeProgram p w)
    (t : Thread) : EngineInv w (e.setProgram t p) := by
  cases t with
  | user => exact { h with user := hp }
  | listener => exact { h with listener := hp }
  | linkListener => exact { h with linkListener := hp }
  | reconnector => exact { h with reconnector := hp }

/-- Actions on the fields keep the invariant, and the answers are as expected. -/
theorem EngineInv.performLocal {a : LocalAct} (env : Env) (h : EngineInv w e)
    (hok : groupSpec.ok w (.own a)) :
    EngineInv w (performLocal env e a).2 ∧ groupSpec.resp w (.own a) (performLocal env e a).1 := by
  cases a with
  | joined => exact ⟨h, h.joined⟩
  | setJoined joined => exact ⟨{ h with joined := hok }, trivial⟩
  | groupInfo => exact ⟨h, h.copy⟩
  | infoAndTime => exact ⟨{ h with }, h.copy⟩
  | tryUpdateInfo info =>
    have hcopy : w = false → ∀ i : SmemGroupInfo, i = {} := fun hw =>
      absurd (Eq.trans hok.symm hw) (by decide)
    unfold Group.performLocal
    dsimp only
    split_ifs
    · exact ⟨{ h with copy := fun hw => hcopy hw info }, trivial⟩
    · exact ⟨h, trivial⟩
  | waitEvent =>
    have hall : e.currentEvents ++ e.eventValues ≠ [] → w = true := by
      intro hne
      by_cases hempty : e.currentEvents = []
      · exact h.values fun hv => hne (by rw [hempty, hv]; rfl)
      · exact h.events hempty
    exact ⟨{ h with values := fun hne => absurd rfl hne, events := hall }, hall⟩
  | popEvent =>
    refine ⟨{ h with events := fun hne => h.events fun hnil => hne ?_ }, trivial⟩
    exact (congrArg tail hnil).trans rfl
  | clearEvents => exact ⟨{ h with events := fun hne => absurd rfl hne }, trivial⟩
  | _ => exact ⟨{ h with }, trivial⟩

theorem EngineInv.groupWatchCb (h : EngineInv w e) (hw : w = true) (info : SmemGroupInfo) :
    EngineInv w (e.groupWatchCb info) := by
  unfold Engine.groupWatchCb
  split_ifs
  · exact { h with values := fun _ => hw }
  · exact { h with values := fun _ => hw }
  · exact { h with values := fun _ => hw }
  · exact { h with }

theorem EngineInv.remoteRankLinkDownCb (h : EngineInv w e) (rank : Nat) :
    EngineInv w (e.remoteRankLinkDownCb rank) :=
  { h with }

theorem EngineInv.disconnected (h : EngineInv w e) :
    EngineInv w ({ e with isConnect := false } : Engine).watchFailed := by
  unfold Engine.watchFailed
  split_ifs
  all_goals
    exact { h with }

end

/-! ## Steps -/

section Steps

variable {s : System} {env : Env} {r : Nat}

theorem Inv.setEngine (h : Inv s) {e : Engine} (he : EngineInv s.present e) (r : Nat) :
    Inv (s.setEngine r e) where
  engines q := by
    unfold System.setEngine setAt
    dsimp only
    split_ifs
    · exact he
    · exact h.engines q
  notices := h.notices
  inflight := h.inflight

theorem Inv.setLink (h : Inv s) {link : Link} (hlink : link.notices ≠ [] → s.present = true)
    (r : Nat) : Inv (s.setLink r link) where
  engines := h.engines
  notices q := by
    unfold System.setLink setAt
    dsimp only
    split_ifs
    · exact hlink
    · exact h.notices q
  inflight := h.inflight

theorem Inv.setProgram (h : Inv s) {p : Program Unit} (hp : SafeProgram p s.present) (r : Nat)
    (t : Thread) : Inv (s.setProgram r t p) :=
  h.setEngine ((h.engines r).setProgram hp t) r

theorem Inv.stored (h : Inv s) (value : SmemGroupInfo) : Inv (storeCas.stored value s) := by
  have hle : s.present ≤ (storeCas.stored value s).present := fun _ => rfl
  exact ⟨fun r => (h.engines r).mono hle, fun _ _ => rfl, fun request hr =>
    groupSpec.ok_mono hle (h.inflight request hr)⟩

/-- A `Cas` that the threads may do stores what follows the stored info, or nothing. -/
theorem Inv.storeCas (h : Inv s) {expect : Option SmemGroupInfo} {value : SmemGroupInfo}
    (hok : groupSpec.ok s.present (.cas expect value)) :
    Inv (storeCas expect value s).2.1 ∧ s.present ≤ (storeCas expect value s).2.1.present ∧
      (storeCas expect value s).2.1.present = true ∧
      Effect s (storeCas expect value s).2.1 (storeCas expect value s).2.2 := by
  unfold Group.storeCas
  cases hstore : s.store with
  | none =>
    have hpresent : s.present = false := by rw [System.present, hstore]; rfl
    refine ⟨h.stored value, fun _ => rfl, rfl, .stores value rfl rfl ?_⟩
    rw [hstore]
    cases expect with
    | none => exact absurd (hok.symm.trans hpresent) (by decide)
    | some base =>
      obtain ⟨hbuilt, hfirst⟩ := hok
      obtain ⟨rfl, hrest⟩ := hfirst hpresent
      exact ⟨hbuilt, rfl, hrest⟩
  | some current =>
    have hpresent : s.present = true := by rw [System.present, hstore]; rfl
    dsimp only
    split_ifs with hmatch
    · refine ⟨h.stored value, fun _ => rfl, rfl, .stores value rfl rfl ?_⟩
      subst hmatch
      rw [hstore]
      exact hok.1
    · exact ⟨h, fun h => h, hpresent, .quiet rfl rfl⟩

theorem Inv.performAct (env : Env) (r : Nat) (h : Inv s) {a : Act}
    (hok : groupSpec.ok s.present a) :
    Inv (performAct env r s a).2.1 ∧ s.present ≤ (performAct env r s a).2.1.present ∧
      groupSpec.resp (performAct env r s a).2.1.present a (performAct env r s a).1 ∧
      Effect s (performAct env r s a).2.1 (performAct env r s a).2.2 := by
  cases a with
  | own a =>
    obtain ⟨he, hresp⟩ := (h.engines r).performLocal env hok
    exact ⟨h.setEngine he r, fun h => h, hresp, .quiet rfl rfl⟩
  | watchEvent =>
    have he := (h.engines r).watched (s.links r).up (s.engines r).linkWatched
    refine ⟨(h.setEngine he r).setLink ?_ r, fun h => h, trivial, .quiet rfl rfl⟩
    exact h.notices r
  | watchLinkDown =>
    have he := (h.engines r).watched (s.engines r).eventWatched (s.links r).up
    refine ⟨(h.setEngine he r).setLink ?_ r, fun h => h, trivial, .quiet rfl rfl⟩
    exact h.notices r
  | queryAlive rank => exact ⟨h, fun h => h, trivial, .quiet rfl rfl⟩
  | cas expect value =>
    simp only [Group.performAct]
    split_ifs
    · obtain ⟨hinv, hle, hpresent, heffect⟩ := h.storeCas hok
      exact ⟨hinv, hle, fun _ => hpresent, heffect⟩
    · refine ⟨⟨h.engines, h.notices, fun request hr => ?_⟩, fun h => h, fun h => absurd rfl h,
        .quiet rfl rfl⟩
      rcases mem_append.mp hr with hr | hr
      · exact h.inflight request hr
      · rw [mem_singleton.mp hr]
        exact hok
    · exact ⟨h, fun h => h, fun h => absurd rfl h, .quiet rfl rfl⟩

theorem Inv.exec (h : Inv s) (t : Thread) :
    Inv (exec env r t s).1 ∧ Effect s (exec env r t s).1 (exec env r t s).2 := by
  have hsafe := (h.engines r).program t
  unfold Group.exec
  cases hp : (s.engines r).program t with
  | ret x => exact ⟨h, .quiet rfl rfl⟩
  | act a k =>
    rw [hp] at hsafe
    obtain ⟨hinv, hle, hresp, heffect⟩ := h.performAct env r hsafe.1
    refine ⟨hinv.setProgram (hsafe.2 _ hle _ hresp) r t, ?_⟩
    cases heffect with
    | quiet hout hstore => exact .quiet hout hstore
    | stores value hout hstore hfollows => exact .stores value hout hstore hfollows

theorem Inv.launch (h : Inv s) {p : Program Unit} (hp : SafeProgram p s.present) (r : Nat)
    (t : Thread) : Inv (launch r t p s) ∧ (launch r t p s).store = s.store := by
  unfold Group.launch
  split
  · exact ⟨h.setProgram hp r t, rfl⟩
  · exact ⟨h, rfl⟩

theorem safe_op {w : Bool} (op : Op) (option : SmemGroupOption) :
    SafeProgram (op.program option >>= fun _ => pure ()) w := by
  refine SafeProgram.bind ?_ fun _ _ _ => safeProgram_pure
  cases op with
  | join => exact safe_groupJoin
  | update => exact safe_groupUpdate
  | leave => exact safe_groupLeave

theorem inv_step (h : Inv s) (i : Input) :
    Inv (step s i).1 ∧ Effect s (step s i).1 (step s i).2 := by
  cases i with
  | exec env r t => exact h.exec t
  | call r op =>
    obtain ⟨hinv, hstore⟩ := h.launch (safe_op op _) r .user
    exact ⟨hinv, .quiet rfl hstore⟩
  | listen r =>
    obtain ⟨hinv, hstore⟩ := h.launch safe_groupListenEvent r .listener
    exact ⟨hinv, .quiet rfl hstore⟩
  | listenLinks r =>
    obtain ⟨hinv, hstore⟩ := h.launch safe_groupListenLinkState r .linkListener
    exact ⟨hinv, .quiet rfl hstore⟩
  | deliver r =>
    unfold step
    dsimp only
    split
    · exact ⟨h, .quiet rfl rfl⟩
    · rename_i info rest hnotices
      have hw : s.present = true := h.notices r (by rw [hnotices]; simp)
      exact ⟨(h.setEngine ((h.engines r).groupWatchCb hw info) r).setLink (fun _ => hw) r,
        .quiet rfl rfl⟩
  | deliverDown r =>
    unfold step
    dsimp only
    split
    · exact ⟨h, .quiet rfl rfl⟩
    · refine ⟨(h.setEngine ((h.engines r).remoteRankLinkDownCb _) r).setLink ?_ r, .quiet rfl rfl⟩
      exact h.notices r
  | watch r =>
    unfold step
    dsimp only
    split_ifs
    · refine ⟨h.setLink (fun hne => ?_) r, .quiet rfl rfl⟩
      by_cases hnil : (s.links r).notices = []
      · by_contra hw
        have hnone : s.store = none := by simpa [System.present] using hw
        exact hne (by simp [hnil, hnone])
      · exact h.notices r hnil
    · exact ⟨h, .quiet rfl rfl⟩
  | watchDown r =>
    unfold step
    dsimp only
    split_ifs
    · refine ⟨h.setLink ?_ r, .quiet rfl rfl⟩
      exact h.notices r
    · exact ⟨h, .quiet rfl rfl⟩
  | breakLink r =>
    unfold step
    dsimp only
    split_ifs
    · have hengine := h.setEngine (h.engines r).disconnected r
      refine ⟨⟨hengine.engines, fun q => ?_, h.inflight⟩, .quiet rfl rfl⟩
      dsimp only
      split_ifs
      · exact fun hne => absurd rfl hne
      · exact h.notices q
      · exact h.notices q
    · exact ⟨h, .quiet rfl rfl⟩
  | reconnect r =>
    unfold step
    dsimp only
    split
    · exact ⟨h, .quiet rfl rfl⟩
    · split_ifs with hup hjoined
      · exact ⟨h, .quiet rfl rfl⟩
      · have hw := (h.engines r).joined hjoined
        refine ⟨(h.setProgram (safe_linkReconnectHandler hw) r .reconnector).setLink ?_ r,
          .quiet rfl rfl⟩
        exact h.notices r
      · have hp : SafeProgram (own (.setConnectStatus true)) s.present :=
          safeProgram_perform trivial
        refine ⟨(h.setProgram hp r .reconnector).setLink ?_ r, .quiet rfl rfl⟩
        exact h.notices r
  | arrive i =>
    unfold step
    dsimp only
    cases hrequest : s.inflight[i]? with
    | none => exact ⟨h, .quiet rfl rfl⟩
    | some request =>
      have hmem := mem_of_getElem? hrequest
      have hinv : Inv { s with inflight := s.inflight.eraseIdx i } :=
        ⟨h.engines, h.notices, fun request hr => h.inflight request (mem_of_mem_eraseIdx hr)⟩
      obtain ⟨hinv', -, -, heffect⟩ := hinv.storeCas (h.inflight request hmem)
      refine ⟨hinv', ?_⟩
      cases heffect with
      | quiet hout hstore => exact .quiet hout hstore
      | stores value hout hstore hfollows => exact .stores value hout hstore hfollows

end Steps

theorem inv_start : Inv System.start :=
  ⟨fun _ => ⟨fun _ => rfl, (fun h => by cases h), fun h => absurd rfl h, fun h => absurd rfl h,
    safeProgram_pure, safeProgram_pure, safeProgram_pure, safeProgram_pure⟩,
    fun _ h => absurd rfl h, fun _ h => by cases h⟩

/-- An invariant of the sequence of the stored infos: it is kept when an info is stored
that follows the last one. -/
theorem Trace.stored_invariant {allowed : System → Input → Prop} {log : List SmemGroupInfo}
    {s : System} {P : List SmemGroupInfo → Prop} (h : Trace step allowed System.start log s)
    (h0 : P [])
    (hstep : ∀ log s i value, P log → Inv s → s.store = log.getLast? → allowed s i →
      (step s i).2 = [value] → Follows log.getLast? value → P (log ++ [value])) :
    P log ∧ s.store = log.getLast? := by
  have hall : P log ∧ Inv s ∧ s.store = log.getLast? := by
    refine Trace.invariant (P := fun log s => P log ∧ Inv s ∧ s.store = log.getLast?) h
      ⟨h0, inv_start, rfl⟩ ?_
    rintro log s i ⟨hP, hinv, hlast⟩ hi
    obtain ⟨hinv', heffect⟩ := inv_step hinv i
    cases heffect with
    | quiet hout hstore => exact ⟨by rwa [hout, append_nil], hinv', by
        rw [hout, append_nil, hstore, hlast]⟩
    | stores value hout hstore hfollows =>
      rw [hlast] at hfollows
      refine ⟨?_, hinv', ?_⟩
      · rw [hout]
        exact hstep log s i value hP hinv hlast hi hout hfollows
      · rw [hout, hstore, getLast?_concat]
  exact ⟨hall.1, hall.2.2⟩

/-! ## Requests -/

/-- The `Cas` that the input brings to the store: one that a thread is about to send, or one
that was under way when its link broke.  What it expects is the copy it was built from. -/
def System.request (s : System) : Input → Option (Option SmemGroupInfo × SmemGroupInfo)
  | .exec _ r t =>
    match (s.engines r).program t with
    | .act (.cas expect value) _ => some (expect, value)
    | _ => none
  | .arrive i => s.inflight[i]?
  | _ => none

theorem storeCas_stores {s : System} {expect : Option SmemGroupInfo}
    {value value' base : SmemGroupInfo} (hstore : s.store = some base)
    (hout : (storeCas expect value s).2.2 = [value']) : expect = some base ∧ value = value' := by
  rw [storeCas, hstore] at hout
  dsimp only at hout
  split at hout
  · rename_i heq
    exact ⟨heq, singleton_inj.mp hout⟩
  · cases hout

/-- An info that replaces another one was requested, and built from the one it replaces. -/
theorem request_of_stores {s : System} {i : Input} {value base : SmemGroupInfo}
    (hstore : s.store = some base) (hout : (step s i).2 = [value]) :
    s.request i = some (some base, value) := by
  cases i with
  | exec env r t =>
    rw [step, exec] at hout
    rw [System.request]
    split at hout
    · cases hout
    · rename_i a k hprogram
      rw [hprogram]
      cases a with
      | cas expect value' =>
        dsimp only [performAct] at hout
        split_ifs at hout
        obtain ⟨rfl, rfl⟩ := storeCas_stores hstore hout
        rfl
      | own a => cases hout
      | watchEvent => cases hout
      | watchLinkDown => cases hout
      | queryAlive rank => cases hout
  | arrive i =>
    rw [step] at hout
    rw [System.request]
    split at hout
    · cases hout
    · rename_i request hrequest
      rw [hrequest]
      obtain ⟨hexpect, rfl⟩ :=
        storeCas_stores (s := { s with inflight := s.inflight.eraseIdx i }) hstore hout
      rw [← hexpect]
  | _ =>
    -- no other input stores anything
    rw [step] at hout
    (repeat' split at hout) <;> cases hout

open Input in
/-- Rank 0 joins and then leaves the group. -/
def joinThenLeave : List Input :=
  [listen 0] ++ runs 0 .listener 3 ++ [watch 0] ++
  -- `JOIN`, version 1, and its end, version 2
  [call 0 .join] ++ runs 0 .user 8 ++ [deliver 0] ++ runs 0 .listener 13 ++ runs 0 .user 6 ++
  [deliver 0, listen 0] ++ runs 0 .listener 10 ++
  -- `LEAVE`, version 3, and its end, version 4
  [call 0 .leave] ++ runs 0 .user 5 ++
  [deliver 0, listen 0] ++ runs 0 .listener 10 ++ runs 0 .user 6

end MemFabric.Smem.Group
