import MemFabric.Machine.Run
import MemFabric.Smem.Group.Engine

/-!
# Ranks, links and the store

All engines of a group with the store they share.  A `Cas` takes effect at the server
at one moment; the watches of the event key then get the new value, each link in order
and as late as it likes.  A request whose link breaks is answered with an I/O error,
and the server may still find it afterwards (`inflight`).

What is not decided by the state is part of the input: which thread runs, the clock,
the results of the callbacks, when a wait times out (a thread that is run at a wait
without a signal has timed out) and which messages are lost.
-/

namespace MemFabric.Smem.Group

/-! ## State -/

/-- The fields of `SmemNetGroupEngine` and what each of its threads has left to do.
`currentEvents` and `currentLinks` are the lists of the listener threads. -/
structure Engine where
  option : SmemGroupOption
  groupInfo : SmemGroupInfo := {}
  joined : Bool := false
  lastSubmitVersion : UInt32 := 0
  lastUpdateTime : Nat := 2 ^ 64 - 1
  isConnect : Bool := true
  counts : Counter → UInt32 := fun _ => 0
  opRets : Signal → Int := fun _ => 0
  signals : Signal → Bool := fun _ => false
  eventWatched : Bool := false
  eventRet : Int := 0
  eventValues : List SmemGroupInfo := []
  eventSignal : Bool := false
  currentEvents : List SmemGroupInfo := []
  linkWatched : Bool := false
  linkRet : Int := 0
  linkValues : List Nat := []
  linkSignal : Bool := false
  currentLinks : List Nat := []
  user : Program Unit := pure ()
  listener : Program Unit := pure ()
  linkListener : Program Unit := pure ()
  reconnector : Program Unit := pure ()

/-- What the server keeps for the link of a rank, and the notifications that are under way. -/
structure Link where
  up : Bool := true
  watchRequested : Bool := false
  watching : Bool := false
  notices : List SmemGroupInfo := []
  downRequested : Bool := false
  downWatching : Bool := false
  downNotices : List Nat := []

structure System where
  store : Option SmemGroupInfo := none
  inflight : List (Option SmemGroupInfo × SmemGroupInfo) := []
  engines : Nat → Engine
  links : Nat → Link := fun _ => {}

def System.start : System := { engines := fun r => { option := { rank := r } } }

def setAt {α : Type} (f : Nat → α) (r : Nat) (x : α) : Nat → α := fun q => if q = r then x else f q

/-! ## The store -/

def storeCas (expect : Option SmemGroupInfo) (value : SmemGroupInfo) (s : System) :
    CasReply × System × List SmemGroupInfo :=
  match s.store with
  | none => (.ok, stored, [value])
  | some current =>
    if expect = some current then (.ok, stored, [value]) else (.restore current, s, [])
where
  stored : System :=
    { s with
      store := some value
      links := fun q =>
        let link := s.links q
        if link.up ∧ link.watching then { link with notices := link.notices ++ [value] } else link }

/-! ## Actions -/

/-- What the state does not decide. -/
structure Env where
  nowUs : Nat := 0
  ret : Int := 0
  attempts : Nat := 0
  unspecified : Bool := false
  carried : Bool := true

def Engine.withCount (e : Engine) (c : Counter) (n : UInt32) : Engine :=
  { e with counts := fun c' => if c' = c then n else e.counts c' }

def Engine.withSignal (e : Engine) (sig : Signal) (b : Bool) : Engine :=
  { e with signals := fun sig' => if sig' = sig then b else e.signals sig' }

def Engine.withOpRet (e : Engine) (sig : Signal) (ret : Int) : Engine :=
  { e with opRets := fun sig' => if sig' = sig then ret else e.opRets sig' }

def performLocal (env : Env) (e : Engine) : (a : LocalAct) → LocalResp a × Engine
  | .joined => (e.joined, e)
  | .setJoined joined => ((), { e with joined })
  | .groupInfo => (e.groupInfo, e)
  | .infoAndTime => ((e.groupInfo, e.lastUpdateTime), e)
  | .clock => (env.nowUs, e)
  | .tryUpdateInfo info =>
    if info.version > e.groupInfo.version then
      (true, { e with groupInfo := info, lastUpdateTime := env.nowUs })
    else (false, e)
  | .lastSubmitVersion => (e.lastSubmitVersion, e)
  | .setLastSubmitVersion version => ((), { e with lastSubmitVersion := version })
  | .setLastUpdateTime time => ((), { e with lastUpdateTime := time })
  | .connectStatus => (e.isConnect, e)
  | .setConnectStatus status => ((), { e with isConnect := status })
  | .load c => (e.counts c, e)
  | .sub c n => ((), e.withCount c (e.counts c - n))
  | .opRet sig => (e.opRets sig, e)
  | .setOpRet sig ret => ((), e.withOpRet sig ret)
  | .signal sig => ((), e.withSignal sig true)
  | .timedwait sig => (if e.signals sig then smOk else smTimeout, e.withSignal sig false)
  | .callback => (env.ret, e)
  | .attempts => (env.attempts, e)
  | .unspecified => (env.unspecified, e)
  | .eventWatched => (e.eventWatched, e)
  | .resetEvent => ((), { e with eventRet := smOk })
  | .unwatchEvent => ((), { e with eventWatched := false })
  | .waitEvent =>
    let events := e.currentEvents ++ e.eventValues
    ((if e.eventSignal then smOk else smTimeout, e.eventRet, events),
      { e with currentEvents := events, eventValues := [], eventSignal := false })
  | .popEvent => ((), { e with currentEvents := e.currentEvents.tail })
  | .clearEvents => ((), { e with currentEvents := [] })
  | .wakeListener => ((), { e with eventSignal := true })
  | .linkWatched => (e.linkWatched, e)
  | .resetLink => ((), { e with linkRet := smOk })
  | .unwatchLink => ((), { e with linkWatched := false })
  | .waitLink =>
    let ranks := e.currentLinks ++ e.linkValues
    ((if e.linkSignal then smOk else smTimeout, e.linkRet, ranks),
      { e with currentLinks := ranks, linkValues := [], linkSignal := false })
  | .clearLinks => ((), { e with currentLinks := [] })

def System.setEngine (s : System) (r : Nat) (e : Engine) : System :=
  { s with engines := setAt s.engines r e }

def System.setLink (s : System) (r : Nat) (link : Link) : System :=
  { s with links := setAt s.links r link }

/-- An action of a thread of rank `r`.  A watch that cannot be sent fails. -/
def performAct (env : Env) (r : Nat) (s : System) : (a : Act) → Resp a × System × List SmemGroupInfo
  | .own a =>
    let out := performLocal env (s.engines r) a
    (out.1, s.setEngine r out.2, [])
  | .watchEvent =>
    let link := s.links r
    (link.up, (s.setEngine r { s.engines r with eventWatched := link.up }).setLink r
      { link with watchRequested := link.up }, [])
  | .watchLinkDown =>
    let link := s.links r
    (link.up, (s.setEngine r { s.engines r with linkWatched := link.up }).setLink r
      { link with downRequested := link.up }, [])
  | .queryAlive rank =>
    (if (s.links r).up ∧ env.carried then some (s.links rank).up else none, s, [])
  | .cas expect value =>
    if (s.links r).up then
      if env.carried then storeCas expect value s
      else (.ioError, { s with inflight := s.inflight ++ [(expect, value)] }, [])
    else (.ioError, s, [])

/-! ## Steps -/

inductive Thread
  | user
  | listener
  | linkListener
  | reconnector
deriving DecidableEq

def Engine.program (e : Engine) : Thread → Program Unit
  | .user => e.user
  | .listener => e.listener
  | .linkListener => e.linkListener
  | .reconnector => e.reconnector

def Engine.setProgram (e : Engine) (t : Thread) (p : Program Unit) : Engine :=
  match t with
  | .user => { e with user := p }
  | .listener => { e with listener := p }
  | .linkListener => { e with linkListener := p }
  | .reconnector => { e with reconnector := p }

def System.setProgram (s : System) (r : Nat) (t : Thread) (p : Program Unit) : System :=
  s.setEngine r ((s.engines r).setProgram t p)

def exec (env : Env) (r : Nat) (t : Thread) (s : System) : System × List SmemGroupInfo :=
  match (s.engines r).program t with
  | .ret _ => (s, [])
  | .act a k =>
    let out := performAct env r s a
    (out.2.1.setProgram r t (k out.1), out.2.2)

inductive Op
  | join
  | update
  | leave
deriving DecidableEq

def Op.program (op : Op) (option : SmemGroupOption) : Program Int :=
  match op with
  | .join => groupJoin option
  | .update => groupUpdate option
  | .leave => groupLeave option

def launch (r : Nat) (t : Thread) (p : Program Unit) (s : System) : System :=
  match (s.engines r).program t with
  | .ret _ => s.setProgram r t p
  | .act _ _ => s

def Engine.groupWatchCb (e : Engine) (info : SmemGroupInfo) : Engine :=
  let e := { e with eventSignal := true }
  if info.version > 0 then
    let e := { e with eventValues := e.eventValues ++ [info] }
    if info.curEvent = .leave ∨ info.curEvent = .linkDown then
      e.withCount .leave (e.counts .leave + 1)
    else if info.curEvent = .stop then e.withCount .stop (e.counts .stop + 1)
    else e
  else e

/-- `GroupWatchCb` for a watch that has failed. -/
def Engine.watchFailed (e : Engine) : Engine :=
  if e.eventWatched then { e with eventRet := smError, eventSignal := true } else e

def Engine.remoteRankLinkDownCb (e : Engine) (rank : Nat) : Engine :=
  { e.withCount .linkDown (e.counts .linkDown + 1) with
    linkRet := smOk
    linkValues := e.linkValues ++ [rank]
    linkSignal := true }

inductive Input
  | exec (env : Env) (r : Nat) (t : Thread)
  | call (r : Nat) (op : Op)
  | listen (r : Nat)
  | listenLinks (r : Nat)
  | deliver (r : Nat)
  | deliverDown (r : Nat)
  | watch (r : Nat)
  | watchDown (r : Nat)
  | breakLink (r : Nat)
  | reconnect (r : Nat)
  | arrive (i : Nat)

def step (s : System) : Input → System × List SmemGroupInfo
  | .exec env r t => Group.exec env r t s
  | .call r op => (launch r .user (op.program (s.engines r).option >>= fun _ => pure ()) s, [])
  | .listen r => (launch r .listener (groupListenEvent (s.engines r).option) s, [])
  | .listenLinks r => (launch r .linkListener (groupListenLinkState (s.engines r).option) s, [])
  | .deliver r =>
    match (s.links r).notices with
    | [] => (s, [])
    | info :: rest =>
      ((s.setEngine r ((s.engines r).groupWatchCb info)).setLink r
        { s.links r with notices := rest }, [])
  | .deliverDown r =>
    match (s.links r).downNotices with
    | [] => (s, [])
    | rank :: rest =>
      ((s.setEngine r ((s.engines r).remoteRankLinkDownCb rank)).setLink r
        { s.links r with downNotices := rest }, [])
  | .watch r =>
    -- the server answers a WATCH with the value the key has
    let link := s.links r
    if link.up ∧ link.watchRequested then
      (s.setLink r
        { link with
          watchRequested := false
          watching := true
          notices := link.notices ++ s.store.toList }, [])
    else (s, [])
  | .watchDown r =>
    let link := s.links r
    if link.up ∧ link.downRequested then
      (s.setLink r { link with downRequested := false, downWatching := true }, [])
    else (s, [])
  | .breakLink r =>
    -- what was under way on the link is lost, and the others are told
    if (s.links r).up then
      ({ s.setEngine r ({ s.engines r with isConnect := false } : Engine).watchFailed with
        links := fun q =>
          let link := s.links q
          if q = r then { up := false }
          else if link.up ∧ link.downWatching then
            { link with downNotices := link.downNotices ++ [r] }
          else link }, [])
    else (s, [])
  | .reconnect r =>
    match (s.engines r).reconnector with
    | .act _ _ => (s, [])
    | .ret _ =>
      if (s.links r).up then (s, [])
      else
        let e := s.engines r
        let program := if e.joined then linkReconnectHandler e.option
          else own (.setConnectStatus true)
        ((s.setProgram r .reconnector program).setLink r { s.links r with up := true }, [])
  | .arrive i =>
    match s.inflight[i]? with
    | none => (s, [])
    | some request =>
      let s := { s with inflight := s.inflight.eraseIdx i }
      (storeCas request.1 request.2 s).2

def runs (r : Nat) (t : Thread) (n : Nat) (env : Env := {}) : List Input :=
  List.replicate n (.exec env r t)

end MemFabric.Smem.Group
