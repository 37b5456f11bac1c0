import MemFabric.Smem.Store.Backend
import MemFabric.Smem.Store.Waiters

/-!
# The config-store server

`smem_tcp_config_store_server.cpp` over a backend that is not distributed.  A
handler changes the server under `storeMutex_` and sends its replies after that;
the model takes both as one step.  What a handler asks the environment for is
part of its input: the clock, and which links are established when replies are
sent.  Ids of wait contexts come from a 64-bit counter and are not reused.

Heartbeats have no effect here: the handler that would close a link on their
absence is registered only for other backends.
-/

namespace MemFabric.Smem.Store

open Machine Wire

/-! ## State and replies -/

/-- The two overloads of `ReplyWithMessage`: a text, or the packed form of a message. -/
inductive Body
  | text (s : String)
  | packed (m : SmemMessage)
deriving DecidableEq

structure Reply where
  ctx : Context
  code : StoreErrorCode
  body : Body
deriving DecidableEq

def autoRankingStr : Bytes := ascii "AutoRanking#"

def watchRankDownKey : Bytes := ascii "WATCH_RANK_DOWN_KEY"

def keyAliveRankList : Bytes := ascii "/memfabric_hybrid/config_store/data/alive_rank_list"

def maxKeyLenServer : Nat := 2048

def maxU16Index : Nat := 65535

def maxWriteTotalSize : Nat := maxValueSize * 16

/-- The largest `uint32_t`: no world size, no rank. -/
def uint32Max : Nat := 2 ^ 32 - 1

/-- `received` counts the requests of the run. -/
structure Server where
  worldSize : Nat
  backend : Backend := {}
  waiters : Waiters := {}
  watchWaiters : Table Bytes (Table Nat StoreWaitContext) := ∅
  linkWatchList : Table Nat (List Bytes) := ∅
  rankStateWaiters : Table Nat StoreWaitContext := ∅
  rankStateTaskQueue : List Nat := []
  aliveRankSet : List Nat := []
  rankIndex : Nat := 0
  nextId : Nat := 1
  received : Nat := 0

/-- The clock (`steady_clock`, in nanoseconds) and the state of the links. -/
structure Env where
  nowNs : Int
  established : Nat → Bool

namespace Server

/-! ## Waking up -/

structure Wakeup where
  waiters : List Context := []
  watchers : List Context := []

def watchersOf (s : Server) (key : Bytes) : List Context :=
  ((s.watchWaiters.lookup key).getD ∅).entries.map fun e => e.2.reqCtx

def getWakeupList (s : Server) (key : Bytes) : Wakeup × Server :=
  (⟨(s.waiters.takeKey key).1, s.watchersOf key⟩, { s with waiters := (s.waiters.takeKey key).2 })

/-- The loop over the contexts in `WakeupWaiters`. -/
def notify (env : Env) (mt : MessageType) (value : Bytes) (l : List Context) : List Reply :=
  (l.filter fun ctx => env.established ctx.link).map fun ctx =>
    ⟨ctx, .success, .packed { mt, values := [value] }⟩

def wakeupWaiters (env : Env) (wakeup : Wakeup) (value : Bytes) : List Reply :=
  notify env .get value wakeup.waiters ++ notify env .watch value wakeup.watchers

/-! ## Requests on one key -/

section Handlers

variable (env : Env) (ctx : Context)

def set (key value : Bytes) (s : Server) : Server × List Reply :=
  let got := s.backend.get key []
  let s := { s with backend := got.backend }
  let woken := if got.ret ≠ .success ∨ got.value ≠ value then s.getWakeupList key else ({}, s)
  let put := woken.2.backend.put key value
  ({ woken.2 with backend := put.backend },
    ⟨ctx, put.ret, .text (if put.ret = .success then "success" else "error")⟩ ::
      wakeupWaiters env woken.1 value)

/-- The search of `FindOrInsertRank`, from `rankIndex_` on. -/
def freeRank (s : Server) : Option Nat :=
  ((List.range s.worldSize).map fun k => (s.rankIndex + k) % s.worldSize).find? fun rank =>
    rank ∉ s.aliveRankSet

def findOrInsertRank (mt : MessageType) (key : Bytes) (s : Server) : Server × List Reply :=
  let rankingKey := key ++ decimal ctx.link
  let got := s.backend.get rankingKey []
  let s := { s with backend := got.backend }
  if got.ret = .success then (s, [⟨ctx, .success, .packed { mt, values := [got.value] }⟩])
  else if s.worldSize ≤ s.aliveRankSet.length then
    (s, [⟨ctx, .error, .text "error: worldSize rankSize bigger than worldSize."⟩])
  else
    match s.freeRank with
    | none => (s, [])
    | some rank =>
      let put := s.backend.put rankingKey (leBytes 4 rank)
      ({ s with
          backend := put.backend, rankIndex := rank, aliveRankSet := s.aliveRankSet.insert rank },
        [⟨ctx, put.ret, .packed { mt, values := [leBytes 4 rank] }⟩])

/-- The deadline in milliseconds; the sum of the clock and the timeout is an `int64_t`
number of nanoseconds. -/
def deadlineMs (nowNs : Int) (timeoutMs : Int64) : Int :=
  (Simt.int64 (nowNs + Simt.int64 (timeoutMs.toInt * 1000000))).tdiv 1000000

def get (request : SmemMessage) (key : Bytes) (s : Server) : Server × List Reply :=
  if autoRankingStr.isPrefixOf key then findOrInsertRank ctx request.mt key s
  else
    let got := s.backend.get key []
    let s := { s with backend := got.backend }
    if got.ret = .success then
      (s, [⟨ctx, .success, .packed { mt := request.mt, values := [got.value] }⟩])
    else if request.userDef = 0 then (s, [⟨ctx, .notExist, .text "<not exist>"⟩])
    else
      ({ s with
          waiters := s.waiters.register ⟨s.nextId, deadlineMs env.nowNs request.userDef, key, ctx⟩
          nextId := s.nextId + 1 }, [])

def prefixGet (mt : MessageType) (key : Bytes) (s : Server) : Server × List Reply :=
  let got := s.backend.prefixGet key
  let s := { s with backend := got.backend }
  if got.ret = .success then
    (s, [⟨ctx, .success,
      .packed { mt, keys := got.entries.map (·.1), values := got.entries.map (·.2) }⟩])
  else (s, [⟨ctx, .error, .packed { mt }⟩])

def watch (mt : MessageType) (key : Bytes) (s : Server) : Server × List Reply :=
  let got := s.backend.get key []
  let watching := (s.watchWaiters.lookup key).getD ∅
  ({ s with
      backend := got.backend
      watchWaiters :=
        s.watchWaiters.insert key (Table.emplace watching ctx.link ⟨s.nextId, -1, key, ctx⟩)
      linkWatchList := s.linkWatchList.insert ctx.link (Table.get s.linkWatchList ctx.link ++ [key])
      nextId := s.nextId + 1 },
    if got.ret = .success then [⟨ctx, .success, .packed { mt, values := [got.value] }⟩] else [])

def add (key value : Bytes) (s : Server) : Server × List Reply :=
  match string2Int value with
  | none => (s, [])
  | some valueNum =>
    if value ≠ decimal valueNum then
      (s, [⟨ctx, .invalidMessage, .text "invalid request: value should be a number."⟩])
    else
      let got := s.backend.get key []
      let s := { s with backend := got.backend }
      if got.ret ≠ .success then
        let put := s.backend.put key value
        let woken := { s with backend := put.backend }.getWakeupList key
        (woken.2, ⟨ctx, put.ret, .text (toString valueNum)⟩ :: wakeupWaiters env woken.1 value)
      else
        match string2Int got.value with
        | none => (s, [⟨ctx, .invalidMessage, .text "oldValueStr should be a number."⟩])
        | some storedValueNum =>
          if storedValueNum = 0 ∧ got.value ≠ ascii "0" then
            (s, [⟨ctx, .invalidMessage, .text "oldValueStr should be a number."⟩])
          else if 0 < valueNum ∧ 2 ^ 63 - 1 - valueNum < storedValueNum ∨
              valueNum < 0 ∧ storedValueNum < -2 ^ 63 - valueNum then
            (s, [⟨ctx, .invalidMessage, .text "add result overflow."⟩])
          else
            let reqVal := decimal (storedValueNum + valueNum)
            -- the result of this `Put` goes to a variable that shadows the one replied with
            let put := s.backend.put key reqVal
            let woken := { s with backend := put.backend }.getWakeupList key
            (woken.2, ⟨ctx, .success, .text (toString (storedValueNum + valueNum))⟩ ::
              wakeupWaiters env woken.1 reqVal)

def remove (key : Bytes) (s : Server) : Server × List Reply :=
  let found := s.backend.exist key
  let s := { s with backend := found.backend }
  if found.ret = .success then
    ({ s with backend := (s.backend.delete key).backend }, [⟨ctx, .success, .text "success"⟩])
  else (s, [⟨ctx, .notExist, .text "not exist"⟩])

def append (key value : Bytes) (s : Server) : Server × List Reply :=
  let got := s.backend.get key []
  let s := { s with backend := got.backend }
  let newValue := if got.ret = .success then got.value ++ value else value
  let put := s.backend.put key newValue
  let woken := { s with backend := put.backend }.getWakeupList key
  (woken.2, ⟨ctx, put.ret, .text (toString newValue.length)⟩ :: wakeupWaiters env woken.1 value)

/-- `data` copied over `value` from the offset on, where the value is extended with
zeros if it is too short. -/
def overwrite (value : Bytes) (offset : Nat) (data : Bytes) : Bytes :=
  let value := value ++ List.replicate (offset + data.length - value.length) 0
  value.take offset ++ data ++ value.drop (offset + data.length)

/-- The part of `WriteHandler` under the lock. -/
def writeAt (key : Bytes) (offset : Nat) (data : Bytes) (s : Server) : Server × List Reply :=
  let got := s.backend.get key []
  let alloc := got.backend.put key (List.replicate (offset + data.length) 0)
  if got.ret ≠ .success ∧ alloc.ret ≠ .success then
    ({ s with backend := alloc.backend }, [⟨ctx, .error, .text "failed"⟩])
  else
    let backend := if got.ret ≠ .success then alloc.backend else got.backend
    let again := backend.get key got.value
    let put := again.backend.put key (overwrite again.value offset data)
    ({ s with backend := put.backend },
      [if put.ret ≠ .success then ⟨ctx, .error, .text "failed"⟩
        else ⟨ctx, .success, .text "success"⟩])

def write (key value : Bytes) (s : Server) : Server × List Reply :=
  if value.length < 4 then (s, [⟨ctx, .invalidMessage, .text "value size too small."⟩])
  else
    let offset := leValue (value.take 4)
    let data := value.drop 4
    if (2 ^ 64 - 1) / maxU16Index < data.length then
      (s, [⟨ctx, .invalidMessage, .text "value size too large."⟩])
    else if ¬ offset ≤ maxU16Index * data.length then (s, [])
    else if uint64 (offset + data.length) < data.length then
      (s, [⟨ctx, .invalidMessage, .text "offset plus value size overflow."⟩])
    else if maxWriteTotalSize < offset + data.length then
      (s, [⟨ctx, .invalidMessage, .text "write total size exceeds limit."⟩])
    else writeAt ctx key offset data s

def cas (mt : MessageType) (key expected exchange : Bytes) (s : Server) : Server × List Reply :=
  let got := s.backend.get key []
  let s := { s with backend := got.backend }
  if got.ret = .success then
    if expected = got.value then
      let woken := s.getWakeupList key
      let put := woken.2.backend.put key exchange
      ({ woken.2 with backend := put.backend },
        ⟨ctx, put.ret, .packed { mt, values := [exchange] }⟩ ::
          wakeupWaiters env woken.1 exchange)
    else (s, [⟨ctx, .success, .packed { mt, values := [got.value, got.value] }⟩])
  else
    let put := s.backend.put key exchange
    let woken := { s with backend := put.backend }.getWakeupList key
    (woken.2, ⟨ctx, put.ret, .packed { mt, values := [exchange] }⟩ ::
      wakeupWaiters env woken.1 exchange)

/-! ## Handlers -/

/-- The checks at the start of a handler: the numbers of keys and values, and the
length of the key. -/
def checked {α : Type} (args : Option (Bytes × α)) (text : String) (s : Server)
    (handle : Bytes → α → Server × List Reply) : Server × List Reply :=
  match args with
  | none => (s, [⟨ctx, .invalidMessage, .text text⟩])
  | some (key, a) => if maxKeyLenServer < key.length then (s, []) else handle key a

/-- One key and no values. -/
def onlyKey (request : SmemMessage) : Option (Bytes × Unit) :=
  match request.keys, request.values with
  | [key], [] => some (key, ())
  | _, _ => none

def keyValue (request : SmemMessage) : Option (Bytes × Bytes) :=
  match request.keys, request.values with
  | [key], [value] => some (key, value)
  | _, _ => none

def keyTwoValues (request : SmemMessage) : Option (Bytes × Bytes × Bytes) :=
  match request.keys, request.values with
  | [key], [expected, exchange] => some (key, expected, exchange)
  | _, _ => none

def setHandler (request : SmemMessage) (s : Server) : Server × List Reply :=
  checked ctx (keyValue request) "invalid request: key value should be one" s
    fun key value => set env ctx key value s

def getHandler (request : SmemMessage) (s : Server) : Server × List Reply :=
  checked ctx (onlyKey request) "invalid request: key should be one and no values." s
    fun key _ => get env ctx request key s

def prefixGetHandler (request : SmemMessage) (s : Server) : Server × List Reply :=
  checked ctx (onlyKey request) "invalid request: key should be one and no values." s
    fun key _ => prefixGet ctx request.mt key s

def watchHandler (request : SmemMessage) (s : Server) : Server × List Reply :=
  checked ctx (onlyKey request) "invalid request: key should be one and has values." s
    fun key _ => watch ctx request.mt key s

def addHandler (request : SmemMessage) (s : Server) : Server × List Reply :=
  checked ctx (keyValue request) "invalid request: key value should be one." s
    fun key value => add env ctx key value s

def removeHandler (request : SmemMessage) (s : Server) : Server × List Reply :=
  checked ctx (onlyKey request) "invalid request: key should be one and no values." s
    fun key _ => remove ctx key s

def appendHandler (request : SmemMessage) (s : Server) : Server × List Reply :=
  checked ctx (keyValue request) "invalid request: key & value should be one." s
    fun key value => append env ctx key value s

def casHandler (request : SmemMessage) (s : Server) : Server × List Reply :=
  checked ctx (keyTwoValues request) "invalid request: count(key)=1 & count(value)=2" s
    fun key values => cas env ctx request.mt key values.1 values.2 s

def writeHandler (request : SmemMessage) (s : Server) : Server × List Reply :=
  checked ctx (keyValue request) "invalid request: key & value should be one." s
    fun key value => write ctx key value s

/-- Without the check of the key's length. -/
def queryAliveHandler (request : SmemMessage) (s : Server) : Server × List Reply :=
  match onlyKey request with
  | none =>
    (s, [⟨ctx, .invalidMessage, .text "invalid request: key should be one and no values."⟩])
  | some (key, _) =>
    match string2Uint key with
    | none => (s, [⟨ctx, .invalidMessage, .text "invalid input"⟩])
    | some rank =>
      (s, [⟨ctx, .success,
        .packed { mt := request.mt, values := if rank ∈ s.aliveRankSet then [[1]] else [] }⟩])

def watchRankStateHandler (request : SmemMessage) (s : Server) : Server × List Reply :=
  if request.keys ≠ [watchRankDownKey] then
    (s, [⟨ctx, .invalidMessage, .text "invalid request: key should be"⟩])
  else
    ({ s with
        rankStateWaiters :=
          Table.emplace s.rankStateWaiters ctx.link ⟨s.nextId, -1, watchRankDownKey, ctx⟩
        nextId := s.nextId + 1 }, [])

/-- `requestHandlers_`. -/
def handler (request : SmemMessage) (s : Server) : Server × List Reply :=
  match request.mt with
  | .set => setHandler env ctx request s
  | .get => getHandler env ctx request s
  | .prefixGet => prefixGetHandler ctx request s
  | .watch => watchHandler ctx request s
  | .add => addHandler env ctx request s
  | .remove => removeHandler ctx request s
  | .append => appendHandler env ctx request s
  | .cas => casHandler env ctx request s
  | .write => writeHandler ctx request s
  | .queryAlive => queryAliveHandler ctx request s
  | .watchRankState => watchRankStateHandler ctx request s
  | .heartbeat => (s, [])
  | .invalidMsg => (s, [⟨ctx, .invalidMessage, .text "invalid request message type"⟩])

end Handlers

def receiveMessageHandler (env : Env) (link seqNo : Nat) (body : Bytes) (s : Server) :
    Server × List Reply :=
  let received := { s with received := s.received + 1 }
  match unpack body with
  | .error _ =>
    (received, [⟨⟨link, seqNo, s.received, none⟩, .invalidMessage, .text "invalid request"⟩])
  | .ok (_, request) => handler env ⟨link, seqNo, s.received, some request⟩ request received

/-! ## Links -/

/-- `AccConnReq`, with the result of `CanReceiveNewLink`. -/
structure ConnReq where
  worldSize : Nat
  rankId : Nat
  reconnect : Bool
  canReceive : Bool

def linkConnectedHandler (req : ConnReq) (link : Nat) (s : Server) : Server :=
  if s.worldSize ≠ uint32Max ∧ s.worldSize ≠ req.worldSize then s
  else
    let s := { s with worldSize := req.worldSize }
    if ¬ req.canReceive ∧ ¬ req.reconnect then s
    else if uint32Max ≤ req.rankId then s
    else if req.rankId ∈ s.aliveRankSet then s
    else
      let put := s.backend.put (autoRankingStr ++ decimal link) (leBytes 4 req.rankId)
      let s := { s with backend := put.backend }
      if put.ret = .success then { s with aliveRankSet := s.aliveRankSet.insert req.rankId } else s

def cleared (s : Server) : Server :=
  { s with
    rankIndex := 0, backend := (s.backend.clear.delete keyAliveRankList).backend, waiters := {}
    rankStateWaiters := ∅, linkWatchList := ∅, watchWaiters := ∅, rankStateTaskQueue := [] }

def unwatch (link : Nat) (s : Server) : Server :=
  { s with
    rankStateWaiters := s.rankStateWaiters.erase link
    watchWaiters := (Table.get s.linkWatchList link).foldl
      (fun t key => t.insert key (((t.lookup key).getD ∅).erase link)) s.watchWaiters
    linkWatchList := s.linkWatchList.erase link }

/-- `LinkBrokenHandler` without an external handler.  The rank is the first four bytes of the
value (a longer value overruns the union it is copied to).  The backend is not a distributed
one, so that `PersistAliveRankIds` does nothing. -/
def linkBrokenHandler (link : Nat) (s : Server) : Server :=
  let rankingKey := autoRankingStr ++ decimal link
  let got := s.backend.get rankingKey []
  let s := { s with backend := got.backend }
  if got.ret = .success then
    let rank := leValue (got.value.take 4)
    let deleted := s.backend.delete rankingKey
    let s := { s with backend := deleted.backend, aliveRankSet := s.aliveRankSet.filter (· ≠ rank) }
    if deleted.ret ≠ .success then s
    else
      let s := unwatch link (if s.aliveRankSet.isEmpty then s.cleared else s)
      if rank = uint32Max then s
      else { s with rankStateTaskQueue := s.rankStateTaskQueue ++ [rank] }
  else unwatch link (if s.aliveRankSet.isEmpty then s.cleared else s)

/-! ## Threads -/

/-- One pass of `TimerThreadTask`, where `order` lists the deadlines as the container
is iterated. -/
def timerPass (env : Env) (timestamp : Int) (order : List Int) (s : Server) : Server × List Reply :=
  let out := s.waiters.timerPass timestamp order
  ({ s with waiters := out.2 },
    (out.1.filter fun ctx => env.established ctx.link).map fun ctx =>
      ⟨ctx, .timeout, .text "<timeout>"⟩)

def rankStateTask (env : Env) (s : Server) : Server × List Reply :=
  match s.rankStateTaskQueue with
  | [] => (s, [])
  | rank :: queue =>
    ({ s with rankStateTaskQueue := queue },
      notify env .watchRankState (leBytes 4 rank)
        (s.rankStateWaiters.entries.map fun e => e.2.reqCtx))

/-! ## Runs -/

inductive Event
  | request (env : Env) (link seqNo : Nat) (body : Bytes)
  | connected (req : ConnReq) (link : Nat)
  | broken (link : Nat)
  | timer (env : Env) (timestamp : Int) (order : List Int)
  | rankState (env : Env)

def step (s : Server) : Event → Server × List Reply
  | .request env link seqNo body => receiveMessageHandler env link seqNo body s
  | .connected req link => (linkConnectedHandler req link s, [])
  | .broken link => (linkBrokenHandler link s, [])
  | .timer env timestamp order =>
    -- the container holds exactly the deadlines of `timedWaiters_`
    if order.Perm s.waiters.timedWaiters.keys then timerPass env timestamp order s else (s, [])
  | .rankState env => rankStateTask env s

def start (worldSize : Nat) (backend : Backend) : Server := { worldSize, backend }

end Server

end MemFabric.Smem.Store
