import MemFabric.Smem.Group.Serial

/-!
# Recovery after the loss of the store

When the server has lost its data, each rank that has joined runs `LinkReconnectHandler`
once its link is back: it offers its copy of the group info to the store, which keeps the
first offer, and it may stop an event that was open.  The ranks whose copy is newer than
the first offer never learn of the stored info, and their events are refused.
-/

namespace MemFabric.Smem.Group

open Machine Prog List

/-! ## The store is lost -/

/-- The store is empty and no link is up; the ranks that have joined have copies of infos
that were stored. -/
structure Lost (log : List SmemGroupInfo) (s : System) : Prop where
  store : s.store = none
  down : ∀ r, (s.links r).up = false
  idle : ∀ r, (s.engines r).reconnector = .ret ()
  copy : ∀ r, (s.engines r).joined = true → (s.engines r).groupInfo ∈ log

/-- Steps of the recovery: a link is back, or the thread that reconnects runs. -/
def Recovers : Input → Prop
  | .reconnect _ => True
  | .exec env _ .reconnector => env.carried = true
  | _ => False

instance : DecidablePred Recovers := fun i => by
  unfold Recovers
  split <;> infer_instance

def Recovered (s : System) (r : Nat) : Prop :=
  (s.links r).up = true ∧ (s.engines r).reconnector = .ret ()

def Newest (s0 : System) (r : Nat) : Prop :=
  ∀ q, (s0.engines q).joined = true →
    (s0.engines q).groupInfo.version ≤ (s0.engines r).groupInfo.version

/-- The rank that puts the first info into the empty store has a newest copy. -/
def NewestFirst (s0 s : System) (i : Input) : Prop :=
  Recovers i ∧ ∀ env r, i = .exec env r .reconnector → s.store = none → (step s i).2 ≠ [] →
    Newest s0 r

/-! ## The handler -/

/-- What the handler of a rank does with the store while the copy of the rank is `info`. -/
def copyAccount (joined : Bool) (info : SmemGroupInfo) : Account Act Resp Unit where
  pre
    | _, .cas none value => joined = true ∧ value = info
    | _, .cas (some base) value => joined = true ∧ base = info ∧ Built base value
    | _, .own (.tryUpdateInfo _) => False
    | _, .own (.setJoined _) => False
    | _, .watchEvent => False
    | _, .watchLinkDown => False
    | _, _ => True
  poss
    | _, .own .groupInfo, r => r = info
    | _, .own .infoAndTime, r => r.1 = info
    | _, _, _ => True
  post _ _ _ := ()

abbrev Copies (joined : Bool) (info : SmemGroupInfo) {α : Type} (p : Program α) : Prop :=
  Prog.Follows (copyAccount joined info) (fun _ _ => True) p ()

section

variable {option : SmemGroupOption} {joined : Bool} {info : SmemGroupInfo}

theorem Copies.bind {α β : Type} {p : Program α} {f : α → Program β} (hp : Copies joined info p)
    (hf : ∀ x, Copies joined info (f x)) : Copies joined info (p >>= f) :=
  Prog.Follows.bind hp fun x _ _ => hf x

theorem copies_pure {α : Type} (x : α) : Copies joined info (pure x) := trivial

theorem copies_perform {a : Act} (h : (copyAccount joined info).pre () a) :
    Copies joined info (perform a) :=
  ⟨h, fun _ _ => trivial⟩

theorem copies_mayClean {now last : Nat} {oldInfo : SmemGroupInfo} :
    Copies joined info (mayClean option now last oldInfo) := by
  refine .bind ?_ fun own => ?_
  · unfold ownOldEvent
    split
    · exact .bind (copies_perform trivial) fun _ => copies_pure _
    · exact copies_pure _
  · split
    · exact copies_pure _
    · split
      · exact .bind (copies_perform trivial) fun _ => copies_pure _
      · exact copies_pure _

theorem copies_tryCleanOldEvent : Copies true info (tryCleanOldEvent option) := by
  refine .bind (copies_perform trivial) fun now => ?_
  refine .bind (copies_perform trivial) fun r => ?_
  dsimp only
  split
  · refine copies_mayClean.bind fun clean => ?_
    split
    · refine Prog.Follows.perform_bind trivial fun base hbase => ?_
      split
      · exact Copies.bind (copies_perform ⟨rfl, hbase, built_stopInfo⟩) fun _ => copies_pure _
      · exact copies_pure _
    · exact copies_pure _
  · exact copies_pure _

theorem copies_linkReconnectHandler : Copies true info (linkReconnectHandler option) := by
  refine Prog.Follows.perform_bind trivial fun base hbase => ?_
  refine Copies.bind (copies_perform trivial) fun _ => ?_
  refine Copies.bind (copies_perform trivial) fun _ => ?_
  refine Copies.bind ?_ fun odd => Copies.bind ?_ fun _ => copies_perform trivial
  · refine Copies.bind (copies_perform ⟨rfl, hbase⟩) fun reply => ?_
    cases reply with
    | ok => exact copies_pure _
    | restore stored => exact copies_pure _
    | ioError => exact copies_perform trivial
  · cases odd with
    | true => exact copies_tryCleanOldEvent
    | false => exact copies_pure _

end

def Act.IsCas : Act → Prop
  | .cas _ _ => True
  | _ => False

theorem must_linkReconnectHandler (option : SmemGroupOption) :
    Must Act.IsCas (linkReconnectHandler option) :=
  .inr fun _ => .inr fun _ => .inr fun _ => .inl trivial

/-- Actions of the handler on the engine leave the copy and the other threads alone. -/
theorem performLocal_copies (env : Env) (e : Engine) {a : LocalAct}
    (h : (copyAccount e.joined e.groupInfo).pre () (.own a)) :
    (copyAccount e.joined e.groupInfo).poss () (.own a) (performLocal env e a).1 ∧
      (performLocal env e a).2.joined = e.joined ∧
      (performLocal env e a).2.groupInfo = e.groupInfo := by
  cases a
  case tryUpdateInfo info => exact h.elim
  case setJoined joined => exact h.elim
  case groupInfo => exact ⟨rfl, rfl, rfl⟩
  case infoAndTime => exact ⟨rfl, rfl, rfl⟩
  all_goals exact ⟨trivial, rfl, rfl⟩

/-! ## The history of the group -/

section

variable {log : List SmemGroupInfo} {info info' : SmemGroupInfo}

/-- The infos that the group has stored are numbered by their versions. -/
theorem versions_stored {s : System} (h : Trace step (fun _ _ => True) System.start log s)
    (hlen : log.length < 2 ^ 32) :
    log.map (fun info => info.version.toNat) = range' 1 log.length := by
  have hall := Trace.stored_invariant
    (P := fun log => log.length < 2 ^ 32 →
      log.map (fun info => info.version.toNat) = range' 1 log.length)
    h (fun _ => rfl) fun log s i value hlog _ _ _ _ hfollows hlt => by
      rw [length_append] at hlt
      have hversions := hlog (by omega)
      exact versions_concat hversions (hfollows.version_toNat hversions hlt)
  exact hall.1 hlen

variable (h : log.map (fun info => info.version.toNat) = range' 1 log.length)

include h

theorem version_le_length (hinfo : info ∈ log) : info.version.toNat ≤ log.length := by
  have hmem : info.version.toNat ∈ log.map (fun info => info.version.toNat) :=
    mem_map_of_mem hinfo
  rw [h, mem_range'_1] at hmem
  omega

theorem eq_of_version_eq (hinfo : info ∈ log) (hinfo' : info' ∈ log)
    (heq : info.version = info'.version) : info = info' := by
  have hnodup : (log.map fun info => info.version.toNat).Nodup := by
    rw [h]
    exact nodup_range'
  exact inj_on_of_nodup_map hnodup hinfo hinfo' (congrArg UInt32.toNat heq)

end

/-! ## The recovery -/

def Behind (e : Engine) (stored : SmemGroupInfo) : Prop :=
  e.groupInfo.version < stored.version ∨ e.groupInfo = stored

structure Recovering (s0 s : System) : Prop where
  copy : ∀ r, (s.engines r).joined = (s0.engines r).joined ∧
    (s.engines r).groupInfo = (s0.engines r).groupInfo
  safe : ∀ r, Copies (s0.engines r).joined (s0.engines r).groupInfo (s.engines r).reconnector
  behind : ∀ stored, s.store = some stored → ∀ r, (s0.engines r).joined = true →
    Behind (s0.engines r) stored
  offers : ∀ r, (s0.engines r).joined = true → (s.links r).up = true → s.store = none →
    Must Act.IsCas (s.engines r).reconnector

section Steps

variable {log : List SmemGroupInfo} {s0 s : System}

theorem Lost.recovering (h : Lost log s) : Recovering s s where
  copy _ := ⟨rfl, rfl⟩
  safe r := by
    rw [h.idle r]
    trivial
  behind stored hstored := by
    rw [h.store] at hstored
    cases hstored
  offers r _ hup := by
    rw [h.down r] at hup
    cases hup

/-- A step that changes the engine of one rank, its thread, its link and the store. -/
theorem Recovering.next (h : Recovering s0 s) {s' : System} {r : Nat} {p : Program Unit}
    (hengines : ∀ q ≠ r, s'.engines q = s.engines q)
    (hlinks : ∀ q ≠ r, (s'.links q).up = (s.links q).up)
    (hcopy : (s'.engines r).joined = (s.engines r).joined ∧
      (s'.engines r).groupInfo = (s.engines r).groupInfo)
    (hsafe : Copies (s0.engines r).joined (s0.engines r).groupInfo p)
    (hbehind : ∀ stored, s'.store = some stored → ∀ q, (s0.engines q).joined = true →
      Behind (s0.engines q) stored)
    (hnone : s'.store = none → s.store = none)
    (hoffers : (s0.engines r).joined = true → (s'.links r).up = true → s'.store = none →
      Must Act.IsCas p) : Recovering s0 (s'.setProgram r .reconnector p) := by
  have hself : (s'.setProgram r .reconnector p).engines r =
      (s'.engines r).setProgram .reconnector p := if_pos rfl
  have hother : ∀ q ≠ r, (s'.setProgram r .reconnector p).engines q = s.engines q :=
    fun q hq => (if_neg hq).trans (hengines q hq)
  refine ⟨fun q => ?_, fun q => ?_, hbehind, fun q hjoined hup hstore => ?_⟩ <;>
    by_cases hq : q = r
  · subst hq
    rw [hself]
    exact ⟨hcopy.1.trans (h.copy q).1, hcopy.2.trans (h.copy q).2⟩
  · rw [hother q hq]
    exact h.copy q
  · subst hq
    rw [hself]
    exact hsafe
  · rw [hother q hq]
    exact h.safe q
  · subst hq
    rw [hself]
    exact hoffers hjoined hup hstore
  · rw [hother q hq]
    exact h.offers q hjoined ((hlinks q hq).symm.trans hup) (hnone hstore)

theorem storeCas_frame (expect : Option SmemGroupInfo) (value : SmemGroupInfo) (s : System) :
    (storeCas expect value s).2.1.engines = s.engines ∧
      ∀ q, ((storeCas expect value s).2.1.links q).up = (s.links q).up := by
  have hstored : ∀ q, ((storeCas.stored value s).links q).up = (s.links q).up := fun q => by
    unfold storeCas.stored
    dsimp only
    split <;> rfl
  unfold Group.storeCas
  split
  · exact ⟨rfl, hstored⟩
  · split
    · exact ⟨rfl, hstored⟩
    · exact ⟨rfl, fun _ => rfl⟩

theorem lt_of_built {base value : SmemGroupInfo} {n : UInt32} (hbuilt : Built base value)
    (hlt : base.version.toNat + 1 < 2 ^ 32) (hle : n ≤ base.version) : n < value.version := by
  have hversion : value.version.toNat = base.version.toNat + 1 := by
    rw [hbuilt.version]
    exact Nat.mod_eq_of_lt hlt
  rw [UInt32.le_iff_toNat_le] at hle
  rw [UInt32.lt_iff_toNat_lt]
  omega

theorem Recovering.reconnect (h : Recovering s0 s) (r : Nat) :
    Recovering s0 ((s.setLink r { s.links r with up := true }).setProgram r .reconnector
      (if (s.engines r).joined then linkReconnectHandler (s.engines r).option
        else own (.setConnectStatus true))) := by
  refine h.next (fun _ _ => rfl) (fun q hq => congrArg Link.up (if_neg hq)) ⟨rfl, rfl⟩ ?_ h.behind
    id fun hjoined _ _ => ?_
  · rw [(h.copy r).1]
    split
    · next hjoined =>
      rw [hjoined]
      exact copies_linkReconnectHandler
    · exact copies_perform trivial
  · rw [(h.copy r).1, if_pos hjoined]
    exact must_linkReconnectHandler _

section Cas

variable (hversions : log.map (fun info => info.version.toNat) = range' 1 log.length)
  (hlen : log.length < 2 ^ 32 - 1)
  (hcopy : ∀ r, (s0.engines r).joined = true → (s0.engines r).groupInfo ∈ log)

include hversions hlen hcopy

variable {r : Nat} {expect : Option SmemGroupInfo} {value : SmemGroupInfo}

/-- An offer of the newest copy, or an event built from it, puts every rank behind. -/
theorem Newest.behind (h : Newest s0 r)
    (hok : (copyAccount (s0.engines r).joined (s0.engines r).groupInfo).pre () (.cas expect value))
    (q : Nat) (hq : (s0.engines q).joined = true) : Behind (s0.engines q) value := by
  cases expect with
  | none =>
    obtain ⟨hjoined, rfl⟩ := hok
    rcases UInt32.le_iff_lt_or_eq.mp (h q hq) with hlt | heq
    · exact .inl hlt
    · exact .inr (eq_of_version_eq hversions (hcopy q hq) (hcopy r hjoined) heq)
  | some base =>
    obtain ⟨hjoined, rfl, hbuilt⟩ := hok
    have hle := version_le_length hversions (hcopy r hjoined)
    exact .inl (lt_of_built hbuilt (by omega) (h q hq))

theorem Recovering.storeCas (h : Recovering s0 s)
    (hok : (copyAccount (s0.engines r).joined (s0.engines r).groupInfo).pre () (.cas expect value))
    (hfirst : s.store = none → Newest s0 r) :
    (storeCas expect value s).2.1.store ≠ none ∧
      ∀ stored, (storeCas expect value s).2.1.store = some stored →
        ∀ q, (s0.engines q).joined = true → Behind (s0.engines q) stored := by
  unfold Group.storeCas
  split
  · next hnone =>
    refine ⟨(fun h => by cases h), fun stored hstored => ?_⟩
    cases hstored
    exact (hfirst hnone).behind hversions hlen hcopy hok
  · next current hsome =>
    split
    · next hexpect =>
      refine ⟨(fun h => by cases h), fun stored hstored q hq => ?_⟩
      cases hstored
      subst hexpect
      -- the expected info is the copy of the rank, so the stored one was a newest copy
      have hnewest : Newest s0 r := fun q hq => by
        rw [← hok.2.1]
        rcases h.behind current hsome q hq with hlt | heq
        · exact UInt32.le_of_lt hlt
        · exact heq ▸ UInt32.le_refl _
      exact hnewest.behind hversions hlen hcopy hok q hq
    · refine ⟨fun hnone => ?_, h.behind⟩
      rw [show s.store = none from hnone] at hsome
      cases hsome

theorem Recovering.exec (h : Recovering s0 s) {env : Env} (henv : env.carried = true)
    (hfirst : s.store = none → (exec env r .reconnector s).2 ≠ [] → Newest s0 r) :
    Recovering s0 (exec env r .reconnector s).1 := by
  unfold Group.exec at hfirst ⊢
  cases hprogram : (s.engines r).program .reconnector with
  | ret x => exact h
  | act a k =>
    rw [hprogram] at hfirst
    have hsafe := h.safe r
    have hoffers := h.offers r
    rw [show (s.engines r).reconnector = .act a k from hprogram] at hsafe hoffers
    cases a with
    | own a =>
      obtain ⟨hjoined, hinfo⟩ := h.copy r
      rw [← hjoined, ← hinfo] at hsafe
      obtain ⟨hresp, hkept⟩ := performLocal_copies env (s.engines r) hsafe.1
      have hrest := hsafe.2 _ hresp
      rw [hjoined, hinfo] at hrest
      refine h.next (fun q hq => if_neg hq) (fun _ _ => rfl) ?_ hrest h.behind id ?_
      · rw [show (performAct env r s (.own a)).2.1.engines r =
          (performLocal env (s.engines r) a).2 from if_pos rfl]
        exact hkept
      · exact fun hjoined hup hstore => (hoffers hjoined hup hstore).resolve_left id _
    | watchEvent => exact hsafe.1.elim
    | watchLinkDown => exact hsafe.1.elim
    | queryAlive rank =>
      refine h.next (fun _ _ => rfl) (fun _ _ => rfl) ⟨rfl, rfl⟩ (hsafe.2 _ trivial) h.behind id ?_
      exact fun hjoined hup hstore => (hoffers hjoined hup hstore).resolve_left id _
    | cas expect value =>
      have hrest := fun reply => hsafe.2 reply trivial
      unfold performAct at hfirst ⊢
      dsimp only at hfirst ⊢
      cases hup : (s.links r).up with
      | false =>
        refine h.next (fun _ _ => rfl) (fun _ _ => rfl) ⟨rfl, rfl⟩ (hrest _) h.behind id ?_
        exact fun _ hup' => absurd (hup.symm.trans hup') (by decide)
      | true =>
        rw [hup, henv] at hfirst
        rw [if_pos rfl, henv, if_pos rfl]
        have hnewest : s.store = none → Newest s0 r := fun hnone => hfirst hnone (by
          unfold Group.storeCas
          rw [hnone]
          exact cons_ne_nil _ _)
        obtain ⟨hengines, hlinks⟩ := storeCas_frame expect value s
        obtain ⟨hsome, hbehind⟩ := h.storeCas hversions hlen hcopy hsafe.1 hnewest
        refine h.next (fun q _ => congrFun hengines q) (fun q _ => hlinks q) ?_ (hrest _)
          hbehind (fun hnone => absurd hnone hsome) fun _ _ hnone => absurd hnone hsome
        rw [hengines]
        exact ⟨rfl, rfl⟩

theorem Recovering.step (h : Recovering s0 s) (i : Input) (hi : NewestFirst s0 s i) :
    Recovering s0 (step s i).1 := by
  cases i with
  | exec env r t =>
    cases t with
    | reconnector =>
      exact h.exec hversions hlen hcopy hi.1 (hi.2 env r rfl)
    | user => exact hi.1.elim
    | listener => exact hi.1.elim
    | linkListener => exact hi.1.elim
  | reconnect r =>
    unfold Group.step
    dsimp only
    split
    · exact h
    · split
      · exact h
      · exact h.reconnect r
  | call r op => exact hi.1.elim
  | listen r => exact hi.1.elim
  | listenLinks r => exact hi.1.elim
  | deliver r => exact hi.1.elim
  | deliverDown r => exact hi.1.elim
  | watch r => exact hi.1.elim
  | watchDown r => exact hi.1.elim
  | breakLink r => exact hi.1.elim
  | arrive j => exact hi.1.elim

end Cas

end Steps

variable {e : Engine} {stored : SmemGroupInfo} {r : Nat}

/-- A rank that is behind takes over the stored info when it is told of it. -/
theorem Behind.tryUpdateInfo (h : Behind e stored)
    (env : Env) : (performLocal env e (.tryUpdateInfo stored)).2.groupInfo = stored := by
  unfold performLocal
  dsimp only
  split
  · rfl
  · next hle => exact h.resolve_left hle

theorem Behind.version_le (h : Behind e stored) : e.groupInfo.version ≤ stored.version := by
  rcases h with hlt | heq
  · exact UInt32.le_of_lt hlt
  · exact heq ▸ UInt32.le_refl _

/-- If the first rank that reaches the empty store has a newest copy, then after the recovery
the stored info is as new as every copy, and once a rank has been told of it, the store
accepts its events. -/
theorem recovery_newest {log out : List SmemGroupInfo} {s s0 s' : System}
    (hlog : Trace step (fun _ _ => True) System.start log s) (hlen : log.length < 2 ^ 32 - 1)
    (hlost : Lost log s0) (hrun : Trace step (NewestFirst s0) s0 out s')
    (hjoined : ∃ r, (s0.engines r).joined = true)
    (hdone : ∀ r, (s0.engines r).joined = true → Recovered s' r) :
    ∃ stored, s'.store = some stored ∧ ∀ r, (s0.engines r).joined = true →
      (s0.engines r).groupInfo.version ≤ stored.version ∧
      (s'.engines r).groupInfo = (s0.engines r).groupInfo ∧
      ∀ env value, (storeCas
        (some (performLocal env (s'.engines r) (.tryUpdateInfo stored)).2.groupInfo) value s').1 =
          .ok := by
  have hversions := versions_stored hlog (by omega)
  have h : Recovering s0 s' := Reachable.invariant hrun.reachable hlost.recovering
    fun s i hs hi => hs.step hversions hlen hlost.copy i hi
  cases hstore : s'.store with
  | none =>
    obtain ⟨r, hr⟩ := hjoined
    have hmust := h.offers r hr (hdone r hr).1 hstore
    rw [(hdone r hr).2] at hmust
    exact hmust.elim
  | some stored =>
    refine ⟨stored, rfl, fun r hr => ?_⟩
    have hbehind := h.behind stored hstore r hr
    refine ⟨hbehind.version_le, (h.copy r).2, fun env value => ?_⟩
    have hbehind' : Behind (s'.engines r) stored := by
      unfold Behind
      rw [(h.copy r).2]
      exact hbehind
    rw [hbehind'.tryUpdateInfo, storeCas, hstore]
    exact congrArg Prod.fst (if_pos rfl)

/-! ## Two ranks -/

open Input in
def twoJoins : List Input :=
  [listen 0] ++ runs 0 .listener 3 ++ [watch 0] ++
  [call 0 .join] ++ runs 0 .user 8 ++
  [deliver 0] ++ runs 0 .listener 13 ++ runs 0 .user 6 ++
  [listen 1] ++ runs 1 .listener 3 ++ [watch 1, deliver 1] ++ runs 1 .listener 5 ++
  [call 1 .join] ++ runs 1 .user 8 ++
  [listen 1, deliver 1] ++ runs 1 .listener 13 ++ runs 1 .user 6

def joinsLog : List SmemGroupInfo := (run step System.start twoJoins).2

def joinsCopy : Nat → Option SmemGroupInfo
  | 0 => joinsLog[1]?
  | 1 => joinsLog[3]?
  | _ => none

/-- The store is lost when the ranks that have joined have these copies. -/
def System.lost (copies : Nat → Option SmemGroupInfo) : System where
  engines r :=
    { option := { rank := r }
      groupInfo := (copies r).getD {}
      joined := (copies r).isSome
      isConnect := false }
  links _ := { up := false }

theorem lost_lost {log : List SmemGroupInfo} {copies : Nat → Option SmemGroupInfo}
    (h : ∀ r, ∀ info ∈ copies r, info ∈ log) : Lost log (System.lost copies) := by
  refine ⟨rfl, fun _ => rfl, fun _ => rfl, fun r hr => ?_⟩
  obtain ⟨info, hinfo⟩ := Option.isSome_iff_exists.mp hr
  change (copies r).getD {} ∈ log
  rw [hinfo]
  exact h r info hinfo

theorem lost_joinsCopy : Lost joinsLog (System.lost joinsCopy) := by
  refine lost_lost fun r info hinfo => ?_
  match r with
  | 0 => exact mem_of_getElem? hinfo
  | 1 => exact mem_of_getElem? hinfo

theorem joined_joinsCopy (h : ((System.lost joinsCopy).engines r).joined = true) :
    r = 0 ∨ r = 1 := by
  match r with
  | 0 => exact .inl rfl
  | 1 => exact .inr rfl

def reconnects (r : Nat) : List Input := .reconnect r :: runs r .reconnector 5

theorem recovered_joinsCopy {l : List Input}
    (h : Recovered (run step (System.lost joinsCopy) l).1 0 ∧
      Recovered (run step (System.lost joinsCopy) l).1 1) (r : Nat)
    (hr : ((System.lost joinsCopy).engines r).joined = true) :
    Recovered (run step (System.lost joinsCopy) l).1 r := by
  rcases joined_joinsCopy hr with rfl | rfl
  · exact h.1
  · exact h.2

def Input.execRank : Input → Option Nat
  | .exec _ r _ => some r
  | _ => none

theorem newestFirst_of_first {s0 s : System} {i : Input} (h : Newest s0 r)
    (hi : Recovers i ∧ (s.store = none → ∀ q ∈ i.execRank, q = r)) : NewestFirst s0 s i := by
  refine ⟨hi.1, fun env q heq hstore _ => ?_⟩
  subst heq
  rw [hi.2 hstore q rfl]
  exact h

theorem newest_joinsCopy : Newest (System.lost joinsCopy) 1 := by
  intro q hq
  rcases joined_joinsCopy hq with rfl | rfl <;> decide +kernel

def newestFirst : List Input := reconnects 1 ++ reconnects 0

theorem recovery_newest_newestFirst :
    ∃ stored, (run step (System.lost joinsCopy) newestFirst).1.store = some stored ∧
      ((System.lost joinsCopy).engines 1).groupInfo.version ≤ stored.version := by
  have hrun : Trace step
      (fun s i => Recovers i ∧ (s.store = none → ∀ q ∈ i.execRank, q = 1))
      (System.lost joinsCopy) _ _ :=
    trace_run_of_allowed (l := newestFirst) (by decide +kernel)
  obtain ⟨stored, hstored, h⟩ := recovery_newest (trace_run (fun _ _ => trivial) _ twoJoins)
    (by decide +kernel) lost_joinsCopy (hrun.mono fun _ _ => newestFirst_of_first newest_joinsCopy)
    ⟨1, by decide +kernel⟩ (recovered_joinsCopy ⟨⟨rfl, rfl⟩, rfl, rfl⟩)
  exact ⟨stored, hstored, (h 1 (by decide +kernel)).1⟩

def oldestFirst : List Input := reconnects 0 ++ reconnects 1

/-- The store keeps version 2, and rank 1 has version 4. -/
theorem oldestFirst_loses :
    ∃ log out s s0 s', Trace step (fun _ _ => True) System.start log s ∧ Lost log s0 ∧
      Trace step (fun _ i => Recovers i) s0 out s' ∧
      (∀ r, (s0.engines r).joined = true → Recovered s' r) ∧
      ∃ stored, s'.store = some stored ∧ ∃ r, (s0.engines r).joined = true ∧
        stored.version < (s0.engines r).groupInfo.version := by
  have hversion : ∃ stored ∈ (run step (System.lost joinsCopy) oldestFirst).1.store,
      stored.version = 2 := by
    decide +kernel
  obtain ⟨stored, hstored, hversion⟩ := hversion
  refine ⟨joinsLog, _, _, System.lost joinsCopy, _, trace_run (fun _ _ => trivial) _ twoJoins,
    lost_joinsCopy, trace_run_of_allowed (by decide +kernel),
    recovered_joinsCopy ⟨⟨rfl, rfl⟩, rfl, rfl⟩, stored, hstored, 1, by decide +kernel, ?_⟩
  rw [hversion]
  decide +kernel

end MemFabric.Smem.Group
