import MemFabric.Machine.Run
import MemFabric.Smem.Group.Engine
import MemFabric.Smem.Store.Number

/-!
# Collective calls of a static group

`GroupBarrier`, `GroupGatherResult` and `GroupAllGather` of `SmemNetGroupEngine` as
programs of store requests.  In all three a rank adds to a key whose name holds the
number of the call, the last rank sets a second key, and everybody waits for that one.
The first rank to arrive queues the keys of the call before the last one for removal.

A call is made by one thread, so the fields of the engine are passed along.  The group
is static: its bitmap of joined ranks is empty and no event counter is ever raised, so
`StoreGetCanInterrupt` is a `Get`.
-/

namespace MemFabric.Smem.Collective

open Machine Wire Smem.Store
open Smem.Group (smOk smError)

def smInvalidParam : Int := -2000

/-! ## Requests -/

/-- `get` waits until the key is there, `tryGet` is a `Get` with the timeout 0. -/
inductive Act
  | add (key : Bytes) (increment : Int)
  | append (key value : Bytes)
  | set (key value : Bytes)
  | get (key : Bytes)
  | tryGet (key : Bytes)
  | remove (key : Bytes)
deriving DecidableEq

def Act.key : Act → Bytes
  | .add key _ | .append key _ | .set key _ | .get key | .tryGet key | .remove key => key

def Act.isRemove : Act → Bool
  | .remove _ => true
  | _ => false

@[reducible] def Resp : Act → Type
  | .add _ _ => Option Int
  | .append _ _ => Nat
  | .set _ _ => Unit
  | .get _ => Bytes
  | .tryGet _ => Option Bytes
  | .remove _ => Unit

abbrev Program := Prog Act Resp

abbrev perform (a : Act) : Program (Resp a) := Prog.perform a

/-! ## The engine -/

inductive Channel
  | barrier
  | gather
deriving DecidableEq

def Channel.addSuffix : Channel → Bytes
  | .barrier => ascii "_BA"
  | .gather => ascii "_GA"

def Channel.waitSuffix : Channel → Bytes
  | .barrier => ascii "_BW"
  | .gather => ascii "_GW"

structure Engine where
  rank : UInt32
  groupSize : UInt32
  groupVersion : Int := 0
  allGatherGroupSn : UInt32 := 0
  barrierGroupSn : UInt32 := 0
  delayCleanKeyList : List Bytes := []

namespace Engine

def sn (e : Engine) : Channel → UInt32
  | .barrier => e.barrierGroupSn
  | .gather => e.allGatherGroupSn

/-- `++barrierGroupSn_` or `++allGatherGroupSn_`. -/
def nextSn (e : Engine) : Channel → Engine
  | .barrier => { e with barrierGroupSn := e.barrierGroupSn + 1 }
  | .gather => { e with allGatherGroupSn := e.allGatherGroupSn + 1 }

def keyStart (e : Engine) : Bytes := decimal e.groupVersion ++ ascii "_"

def addKey (e : Engine) (ch : Channel) : Bytes :=
  e.keyStart ++ decimal (e.sn ch).toNat ++ ch.addSuffix

def waitKey (e : Engine) (ch : Channel) : Bytes :=
  e.keyStart ++ decimal (e.sn ch).toNat ++ ch.waitSuffix

end Engine

/-! ## Cleaning -/

def removeInterval : UInt32 := 2

def delayCleanCount : Nat := 10

def removeFront (delayCount : Nat) : List Bytes → Program (List Bytes)
  | [] => pure []
  | key :: rest =>
    if delayCount < rest.length + 1 then do
      perform (.remove key)
      removeFront delayCount rest
    else pure (key :: rest)

/-- The keys with the numbers from `snStart` to `snEnd` are queued; `snEnd` is below the
largest `uint32_t`. -/
def groupOldKeyDelayClean (start suffix : Bytes) (snStart snEnd : UInt32) (delayCount : Nat)
    (delayCleanKeyList : List Bytes) : Program (List Bytes) :=
  removeFront delayCount (delayCleanKeyList ++
    (List.range' snStart.toNat (snEnd.toNat + 1 - snStart.toNat)).map fun sn =>
      start ++ decimal sn ++ suffix)

def cleanOldKeys (e : Engine) (ch : Channel) (first : Bool) : Program (List Bytes) :=
  if first ∧ e.sn ch > removeInterval then do
    let delSn := e.sn ch - removeInterval
    let keys ← groupOldKeyDelayClean e.keyStart ch.addSuffix delSn delSn delayCleanCount
      e.delayCleanKeyList
    groupOldKeyDelayClean e.keyStart ch.waitSuffix delSn delSn delayCleanCount keys
  else pure e.delayCleanKeyList

/-! ## Meeting -/

def groupSetStr : Bytes := ascii "ok"

def announce (e : Engine) (ch : Channel) (last : Bool) : Program Unit :=
  if last then perform (.set (e.waitKey ch) groupSetStr) else pure ()

/-- The part that all three calls have in common: clean, announce and wait. -/
def settle (e : Engine) (ch : Channel) (first last : Bool) : Program (Bool × List Bytes) := do
  let keys ← cleanOldKeys e ch first
  announce e ch last
  let getVal ← perform (.get (e.waitKey ch))
  pure (decide (getVal = groupSetStr), keys)

structure Outcome where
  ret : Int
  recvBuf : Bytes := []
  totalRet : BitVec 32 := 0
deriving DecidableEq

def groupBarrier (e : Engine) : Program (Outcome × Engine) := do
  let e := e.nextSn .barrier
  match ← perform (.add (e.addKey .barrier) 1) with
  | none => pure ({ ret := smError }, e)
  | some val => do
    let (ok, keys) ← settle e .barrier (decide (val = 1)) (decide (val = e.groupSize.toNat))
    pure ({ ret := if ok then smOk else smError }, { e with delayCleanKeyList := keys })

/-! ## Gathering -/

/-- What the gathers have in common: the input is appended to the key, and when all have
done so the whole value is read. -/
def gather (input : Bytes) (read : Bytes → Program (Option Bytes)) (finish : Bytes → Outcome)
    (e : Engine) : Program (Outcome × Engine) := do
  let e := e.nextSn .gather
  let val ← perform (.append (e.addKey .gather) input)
  let (ok, keys) ← settle e .gather (decide (val = input.length))
    (decide (val = input.length * e.groupSize.toNat))
  let e := { e with delayCleanKeyList := keys }
  if ok then do
    let output ← read (e.addKey .gather)
    pure (match output with
      | none => { ret := smError }
      | some output =>
        if output.length = input.length * e.groupSize.toNat then finish output
        else { ret := smError }, e)
  else pure ({ ret := smError }, e)

def word (output : Bytes) (i : Nat) : BitVec 32 :=
  BitVec.ofNat 32 (leValue ((output.drop (4 * i)).take 4))

def groupGatherResult (localRet : BitVec 32) (e : Engine) : Program (Outcome × Engine) :=
  gather (leBytes 4 localRet.toNat) (fun key => perform (.tryGet key))
    (fun output =>
      { ret := smOk
        totalRet :=
          (List.range e.groupSize.toNat).foldl (fun total i => total ||| word output i) 0 })
    e

def gatherInput (rank : UInt32) (sendBuf : Bytes) : Bytes := leBytes 4 rank.toNat ++ sendBuf

/-- The order of `std::pair`. -/
def pairLe (a b : Nat × Nat) : Bool := decide (a.1 < b.1 ∨ a.1 = b.1 ∧ a.2 ≤ b.2)

/-- `SortGatherRecv`: positions are `uint32_t`. -/
def sortGatherRecv (vec : Bytes) (preSize rankSize : Nat) : Bytes :=
  let unitSize := (preSize + 4) % 2 ^ 32
  let offset := (List.range rankSize).map fun i =>
    (leValue ((vec.drop (i * unitSize % 2 ^ 32)).take 4), (i * unitSize % 2 ^ 32 + 4) % 2 ^ 32)
  (offset.mergeSort pairLe).flatMap fun o => (vec.drop o.2).take preSize

def groupAllGather (sendBuf : Bytes) (recvSize : UInt32) (e : Engine) :
    Program (Outcome × Engine) :=
  if UInt32.ofNat sendBuf.length * e.groupSize = recvSize then
    gather (gatherInput e.rank sendBuf)
      (fun key => do
        let output ← perform (.get key)
        pure (some output))
      (fun output =>
        { ret := smOk, recvBuf := sortGatherRecv output sendBuf.length e.groupSize.toNat })
      e
  else pure ({ ret := smInvalidParam }, e)

/-! ## Calls -/

inductive Call
  | barrier
  | gatherResult (localRet : BitVec 32)
  | allGather (sendBuf : Bytes) (recvSize : UInt32)
deriving DecidableEq

def Call.channel : Call → Channel
  | .barrier => .barrier
  | .gatherResult _ | .allGather _ _ => .gather

def Call.program (e : Engine) : Call → Program (Outcome × Engine)
  | .barrier => groupBarrier e
  | .gatherResult localRet => groupGatherResult localRet e
  | .allGather sendBuf recvSize => groupAllGather sendBuf recvSize e

/-! ## The ranks of a static group -/

open Machine Wire Smem.Store

/-! ## The store -/

/-- `AddHandler`: a stored value that is no number, or a sum that does not fit, is an
error. -/
def storeAdd (key : Bytes) (increment : Int) (kv : Table Bytes Bytes) :
    Option Int × Table Bytes Bytes :=
  match kv.lookup key with
  | none => (some increment, kv.insert key (decimal increment))
  | some old =>
    match string2Int old with
    | none => (none, kv)
    | some stored =>
      if stored = 0 ∧ old ≠ ascii "0" then (none, kv)
      else if 0 < increment ∧ 2 ^ 63 - 1 - increment < stored ∨
          increment < 0 ∧ stored < -2 ^ 63 - increment then (none, kv)
      else (some (stored + increment), kv.insert key (decimal (stored + increment)))

def serve (kv : Table Bytes Bytes) : (a : Act) → Option (Resp a × Table Bytes Bytes)
  | .add key increment => some (storeAdd key increment kv)
  | .append key value =>
    let newValue := (kv.lookup key).getD [] ++ value
    some (newValue.length, kv.insert key newValue)
  | .set key value => some ((), kv.insert key value)
  | .get key => (kv.lookup key).map fun value => (value, kv)
  | .tryGet key => some (kv.lookup key, kv)
  | .remove key => some ((), kv.erase key)

/-! ## Members -/

structure Member where
  engine : Engine
  running : Option (Call × Program (Outcome × Engine)) := none

structure System where
  kv : Table Bytes Bytes := ∅
  members : Nat → Member

def System.start (n : UInt32) (rank : Nat → UInt32) : System :=
  { members := fun i => { engine := { rank := rank i, groupSize := n } } }

def System.setMember (s : System) (i : Nat) (m : Member) : System :=
  { s with members := fun j => if j = i then m else s.members j }

/-! ## Steps -/

inductive Input
  | call (i : Nat) (c : Call)
  | exec (i : Nat)

inductive Event
  | called (i : Nat) (c : Call)
  | accessed (i : Nat) (a : Act)
  | returned (i : Nat) (c : Call) (o : Outcome)
deriving DecidableEq

def step (s : System) : Input → System × List Event
  | .call i c =>
    match (s.members i).running with
    | some _ => (s, [])
    | none =>
      let e := (s.members i).engine
      (s.setMember i ⟨e, some (c, c.program e)⟩, [.called i c])
  | .exec i =>
    match (s.members i).running with
    | none => (s, [])
    | some (c, .ret out) => (s.setMember i ⟨out.2, none⟩, [.returned i c out.1])
    | some (c, .act a k) =>
      match serve s.kv a with
      | none => (s, [])
      | some (r, kv) =>
        ({ s with kv }.setMember i ⟨(s.members i).engine, some (c, k r)⟩, [.accessed i a])

/-! ## What has happened -/

def calls (ch : Channel) (i : Nat) (log : List Event) : List Call :=
  log.filterMap fun
    | .called j c => if j = i ∧ c.channel = ch then some c else none
    | _ => none

def results (ch : Channel) (i : Nat) (log : List Event) : List Outcome :=
  log.filterMap fun
    | .returned j c o => if j = i ∧ c.channel = ch then some o else none
    | _ => none

def RemovedUnused (log : List Event) : Prop :=
  ∀ before after i key, log = before ++ .accessed i (.remove key) :: after →
    ∀ j a, .accessed j a ∈ after → a.key = key → a.isRemove = true

end MemFabric.Smem.Collective
