import Mathlib.Algebra.Group.Nat.Defs
import Mathlib.Data.Finset.Card
import MemFabric.Machine.Prog

/-!
# The threads of a group engine

`SmemNetGroupEngine` of `smem_net_group_engine.cpp` for a dynamic group, as programs of
atomic actions on the engine's own fields and on the store.  The fields are shared by
the caller of `GroupJoin`, `GroupUpdate` and `GroupLeave`, by the two listener threads
and by the thread that reconnects; a sleep is not an action, and neither are the store
operations on other keys than the event key.  The value under that key is `SmemGroupInfo` of
`smem_net_group_engine.h`, with the members as a bitmap and, apart from it, as a count.
-/

namespace MemFabric.Smem.Group

open Finset

def maxRankCount : Nat := 1024

inductive GroupEventType
  | join
  | leave
  | recover
  | linkDown
  | update
  | null
  | stop
deriving DecidableEq

abbrev Bitmap := Vector (BitVec 64) 16

structure SmemGroupInfo where
  version : UInt32 := 0
  groupSize : UInt32 := 0
  curEvent : GroupEventType := .join
  targetRank : Nat := 0
  submitRank : Nat := 0
  joinedRanksBitmap : Bitmap := .replicate 16 0
deriving DecidableEq

namespace SmemGroupInfo

variable (info : SmemGroupInfo) (rankId : Nat)

/-- The size is changed whether or not the bit was set. -/
def clearBitmapForRank : SmemGroupInfo :=
  if h : rankId < maxRankCount then
    have hindex : rankId / 64 < 16 := by simp only [maxRankCount] at h; omega
    { info with
      joinedRanksBitmap := info.joinedRanksBitmap.set (rankId / 64)
        (info.joinedRanksBitmap[rankId / 64] &&& ~~~(1#64 <<< (rankId % 64)))
      groupSize := info.groupSize - 1 }
  else info

def testBitmapForRank : Bool :=
  if h : rankId < maxRankCount then
    have hindex : rankId / 64 < 16 := by simp only [maxRankCount] at h; omega
    info.joinedRanksBitmap[rankId / 64] &&& (1#64 <<< (rankId % 64)) != 0#64
  else false

/-- Nothing if the bit is set already. -/
def updateBitmapFromRank : Option SmemGroupInfo :=
  if h : rankId < maxRankCount then
    have hindex : rankId / 64 < 16 := by simp only [maxRankCount] at h; omega
    if (info.joinedRanksBitmap[rankId / 64] >>> (rankId % 64)) &&& 1#64 != 0#64 then none
    else
      some { info with
        joinedRanksBitmap := info.joinedRanksBitmap.set (rankId / 64)
          (info.joinedRanksBitmap[rankId / 64] ||| (1#64 <<< (rankId % 64)))
        groupSize := info.groupSize + 1 }
  else none

end SmemGroupInfo

/-! ## Members -/

def bit (bitmap : Bitmap) (rank : Nat) : Bool :=
  if h : rank < maxRankCount then
    have hindex : rank / 64 < 16 := by simp only [maxRankCount] at h; omega
    bitmap[rank / 64].getLsbD (rank % 64)
  else false

def members (bitmap : Bitmap) : Finset Nat :=
  (range maxRankCount).filter fun rank => bit bitmap rank

theorem mem_members {bitmap : Bitmap} {rank : Nat} :
    rank ∈ members bitmap ↔ bit bitmap rank = true := by
  rw [members, mem_filter, mem_range, and_iff_right_iff_imp]
  intro h
  by_contra hlt
  rw [bit, dif_neg hlt] at h
  cases h

theorem card_members_le (bitmap : Bitmap) : (members bitmap).card ≤ maxRankCount := by
  refine (card_filter_le _ _).trans ?_
  rw [card_range]

section

variable (word : BitVec 64) {i : Nat}

theorem test_word (h : i < 64) : (word &&& (1#64 <<< i) != 0#64) = word.getLsbD i := by
  have hne : BitVec.twoPow 64 i ≠ 0#64 := by
    intro hzero
    have := congrArg (fun w => w.getLsbD i) hzero
    simp [h] at this
  rw [← BitVec.twoPow_eq, BitVec.and_twoPow]
  cases word.getLsbD i <;> simp [hne]

theorem shifted_word : ((word >>> i) &&& 1#64 != 0#64) = word.getLsbD i := by
  have := test_word (word >>> i) (i := 0) (by omega)
  simpa using this

theorem clear_word {j : Nat} (hj : j < 64) :
    (word &&& ~~~(1#64 <<< i)).getLsbD j = (word.getLsbD j && decide (j ≠ i)) := by
  rw [← BitVec.twoPow_eq]
  by_cases h : i = j
  · simp [hj]
  · have : j ≠ i := fun h' => h h'.symm
    simp [hj, this]

theorem set_word {j : Nat} (hj : j < 64) :
    (word ||| (1#64 <<< i)).getLsbD j = (word.getLsbD j || decide (j = i)) := by
  rw [← BitVec.twoPow_eq]
  by_cases h : i = j
  · simp [h, hj]
  · have : j ≠ i := fun h' => h h'.symm
    simp [h, this]

end

theorem bit_set {bitmap : Bitmap} {rank k : Nat} {word : BitVec 64} (hk : k < 16)
    (hrank : rank < maxRankCount) :
    bit (bitmap.set k word hk) rank =
      if rank / 64 = k then word.getLsbD (rank % 64) else bit bitmap rank := by
  simp only [bit, dif_pos hrank]
  rw [Vector.getElem_set]
  split_ifs with h h' h'
  · rfl
  · exact absurd h.symm h'
  · exact absurd h'.symm h
  · rfl

namespace SmemGroupInfo

variable {info info' : SmemGroupInfo} {rankId : Nat}

theorem testBitmapForRank_eq :
    info.testBitmapForRank rankId = bit info.joinedRanksBitmap rankId := by
  unfold testBitmapForRank bit
  split_ifs with h
  · exact test_word _ (Nat.mod_lt _ (by decide))
  · rfl

/-- The bit is cleared, and the size goes down by one in any case. -/
theorem members_clear (info : SmemGroupInfo) (h : rankId < maxRankCount) :
    members (info.clearBitmapForRank rankId).joinedRanksBitmap =
        (members info.joinedRanksBitmap).erase rankId ∧
      (info.clearBitmapForRank rankId).groupSize = info.groupSize - 1 := by
  rw [clearBitmapForRank, dif_pos h]
  refine ⟨?_, rfl⟩
  ext rank
  rw [mem_erase, mem_members, mem_members]
  by_cases hrank : rank < maxRankCount
  · rw [bit_set _ hrank]
    split_ifs with hword
    · rw [clear_word _ (Nat.mod_lt _ (by decide))]
      have hne : rank % 64 ≠ rankId % 64 ↔ rank ≠ rankId := by omega
      simp only [bit, dif_pos hrank, hword, Bool.and_eq_true, decide_eq_true_eq, hne]
      exact and_comm
    · have hne : rank ≠ rankId := fun h => hword (by rw [h])
      simp [hne]
  · simp [bit, hrank]

theorem clearBitmapForRank_of_le (h : ¬ rankId < maxRankCount) :
    info.clearBitmapForRank rankId = info := by
  rw [clearBitmapForRank, dif_neg h]

theorem members_update (h : info.updateBitmapFromRank rankId = some info') :
    rankId ∉ members info.joinedRanksBitmap ∧
      members info'.joinedRanksBitmap = insert rankId (members info.joinedRanksBitmap) ∧
      info'.groupSize = info.groupSize + 1 := by
  have hlt : rankId < maxRankCount := by
    by_contra hlt
    rw [updateBitmapFromRank, dif_neg hlt] at h
    cases h
  rw [updateBitmapFromRank] at h
  dsimp only at h
  split_ifs at h with hbit
  obtain rfl := Option.some.inj h
  rw [shifted_word] at hbit
  refine ⟨?_, ?_, rfl⟩
  · rw [mem_members, bit, dif_pos hlt]
    exact hbit
  · ext rank
    rw [mem_insert, mem_members, mem_members]
    by_cases hrank : rank < maxRankCount
    · rw [bit_set _ hrank]
      split_ifs with hword
      · rw [set_word _ (Nat.mod_lt _ (by decide))]
        have heq : rank % 64 = rankId % 64 ↔ rank = rankId := by omega
        simp only [bit, dif_pos hrank, hword, Bool.or_eq_true, decide_eq_true_eq, heq]
        exact or_comm
      · have hne : rank ≠ rankId := fun h => hword (by rw [h])
        simp [hne]
    · have hne : rank ≠ rankId := fun h => hrank (h ▸ hlt)
      simp [bit, hrank, hne]

end SmemGroupInfo

end MemFabric.Smem.Group

namespace MemFabric.Smem.Group

open Machine

/-! ## Result codes -/

def smOk : Int := 0
def smError : Int := -1
def smNotStarted : Int := -2003
def smTimeout : Int := -2004
def smInnerBusy : Int := -2013

/-- The reply to `Cas`: the value was replaced, another one is stored, or the link broke
and nothing is known. -/
inductive CasReply
  | ok
  | restore (exists_ : SmemGroupInfo)
  | ioError
deriving DecidableEq

/-! ## Actions -/

inductive Counter
  | leave
  | stop
  | linkDown
deriving DecidableEq

/-- `localOpSignal_` with `localOpRet_`, and `linkOpSignal_` with `linkOpRet_`. -/
inductive Signal
  | localOp
  | linkOp
deriving DecidableEq

inductive LocalAct
  | joined
  | setJoined (joined : Bool)
  | groupInfo
  | infoAndTime
  | clock
  | tryUpdateInfo (info : SmemGroupInfo)
  | lastSubmitVersion
  | setLastSubmitVersion (version : UInt32)
  | setLastUpdateTime (time : Nat)
  | connectStatus
  | setConnectStatus (status : Bool)
  | load (counter : Counter)
  | sub (counter : Counter) (n : UInt32)
  | opRet (signal : Signal)
  | setOpRet (signal : Signal) (ret : Int)
  | signal (signal : Signal)
  | timedwait (signal : Signal)
  | callback
  | attempts
  | unspecified
  | eventWatched
  | resetEvent
  | unwatchEvent
  | waitEvent
  | popEvent
  | clearEvents
  | wakeListener
  | linkWatched
  | resetLink
  | unwatchLink
  | waitLink
  | clearLinks

/-- Actions of a thread: `Watch` of the event key and of broken links, `QueryAlive` and
`Cas` of the event key go to the server. -/
inductive Act
  | own (a : LocalAct)
  | watchEvent
  | watchLinkDown
  | queryAlive (rank : Nat)
  | cas (expect : Option SmemGroupInfo) (value : SmemGroupInfo)

@[reducible] def LocalResp : LocalAct → Type
  | .joined => Bool
  | .groupInfo => SmemGroupInfo
  | .infoAndTime => SmemGroupInfo × Nat
  | .clock => Nat
  | .tryUpdateInfo _ => Bool
  | .lastSubmitVersion => UInt32
  | .connectStatus => Bool
  | .load _ => UInt32
  | .opRet _ => Int
  | .timedwait _ => Int
  | .callback => Int
  | .attempts => Nat
  | .unspecified => Bool
  | .eventWatched => Bool
  | .waitEvent => Int × Int × List SmemGroupInfo
  | .linkWatched => Bool
  | .waitLink => Int × Int × List Nat
  | _ => Unit

@[reducible] def Resp : Act → Type
  | .own a => LocalResp a
  | .watchEvent => Bool
  | .watchLinkDown => Bool
  | .queryAlive _ => Option Bool
  | .cas _ _ => CasReply

abbrev Program := Prog Act Resp

abbrev perform (a : Act) : Program (Resp a) := Prog.perform a

abbrev own (a : LocalAct) : Program (LocalResp a) := Prog.perform (Act.own a)

structure SmemGroupOption where
  rank : Nat
  joinCb : Bool := true
  updateCb : Bool := true
  leaveCb : Bool := true
  linkDownCb : Bool := true

/-! ## Events -/

variable (option : SmemGroupOption)

/-- The local copy is the second part of the result: it is what `Cas` expects. -/
def generateInfo (event : GroupEventType) (target : Nat) (base : SmemGroupInfo) : SmemGroupInfo :=
  { base with
    version := base.version + 1
    curEvent := event
    submitRank := option.rank
    targetRank := target }

def hasLeaveOrLinkDown : Program Bool := do
  if (← own (.load .leave)) > 0 then pure true
  else
    let linkDown ← own (.load .linkDown)
    pure (decide (linkDown > 0))

/-- `SMEM_EVNET_KEEP_TIME`, in microseconds. -/
def eventKeepTime : Nat := 3000000

def ownOldEvent (oldInfo : SmemGroupInfo) : Program Bool := do
  if oldInfo.submitRank = option.rank then
    let submitted ← own .lastSubmitVersion
    pure (decide (submitted ≠ oldInfo.version))
  else pure false

/-- Whether the event may be stopped: it is an old one of this rank, or it has not
changed for a while and its submitter is gone. -/
def mayClean (now last : Nat) (oldInfo : SmemGroupInfo) : Program Bool := do
  if ← ownOldEvent option oldInfo then pure true
  else if now > min (2 ^ 64 - 1) (last + eventKeepTime) then
    let alive ← perform (.queryAlive oldInfo.submitRank)
    pure (decide (alive = some false))
  else pure false

/-- The info that stops an event: a `JOIN` is undone. -/
def stopInfo (oldInfo base : SmemGroupInfo) : SmemGroupInfo :=
  let info := generateInfo option .stop oldInfo.targetRank base
  if oldInfo.curEvent = .join then info.clearBitmapForRank oldInfo.targetRank else info

def tryCleanOldEvent : Program Unit := do
  let now ← own .clock
  let (oldInfo, last) ← own .infoAndTime
  if oldInfo.version % 2 = 1 then
    if ← mayClean option now last oldInfo then
      let base ← own .groupInfo
      if base.version + 1 = oldInfo.version + 1 then
        let _ ← perform (.cas (some base) (stopInfo option oldInfo base))

def submit (base info : SmemGroupInfo) : Program CasReply := do
  match ← perform (.cas (some base) info) with
  | .ok => do
    own (.setLastSubmitVersion info.version)
    pure .ok
  | ret => pure ret

def opResult (signal : Signal) (ret : Int) : Program Int :=
  if ret = smOk then own (.opRet signal) else pure ret

/-- The end of `DoLinkDownOnce` and of `GroupLeave`: wait for the listener, then close the
event, whether or not it failed. -/
def closeRemoval (signal : Signal) (target : Nat) : Program (Int × CasReply) := do
  let ret ← own (.timedwait signal)
  let ret ← opResult signal ret
  let base ← own .groupInfo
  let ret2 ← submit base (generateInfo option .null target base)
  pure (ret, ret2)

def doLinkDownOnce (rankId : Nat) : Program Int := do
  let tested ← own .groupInfo
  if !tested.testBitmapForRank rankId then pure smOk
  else
    let base ← own .groupInfo
    let info := (generateInfo option .linkDown rankId base).clearBitmapForRank rankId
    if info.version % 2 = 1 then
      match ← perform (.cas (some base) info) with
      | .ok => do
        own (.setOpRet .linkOp smOk)
        own (.setLastSubmitVersion info.version)
        let _ ← closeRemoval option .linkOp rankId
        pure smOk
      | .restore _ => pure smInnerBusy
      | .ioError => pure smError
    else
      tryCleanOldEvent option
      pure smInnerBusy

/-! ## Operations -/

inductive Submit
  | submitted
  | failed
  | exhausted
deriving DecidableEq

/-- `Cas` of an event, if its version is odd; otherwise another event is open and may be
an old one. -/
def trySubmit (base info : SmemGroupInfo) : Program Bool := do
  if info.version % 2 = 1 then
    let ret ← submit base info
    pure (decide (ret = .ok))
  else
    tryCleanOldEvent option
    pure false

def joinLoop : Nat → Program Submit
  | 0 => pure .exhausted
  | n + 1 => do
    if !(← own .connectStatus) then pure .failed
    else if ← hasLeaveOrLinkDown then joinLoop n
    else
      let base ← own .groupInfo
      match (generateInfo option .join option.rank base).updateBitmapFromRank option.rank with
      | none =>
        let _ ← doLinkDownOnce option option.rank
        joinLoop n
      | some info => if ← trySubmit option base info then pure .submitted else joinLoop n

/-- The info that closes a `JOIN` or `UPDATE`; `undo` is what happens to the group when the
event failed. -/
def closeInfo (undo : SmemGroupInfo → SmemGroupInfo) (ret : Int) (base : SmemGroupInfo) :
    SmemGroupInfo :=
  let info := generateInfo option .null option.rank base
  if ret = smOk then info else undo { info with curEvent := .stop }

/-- The end of `GroupJoin` and `GroupUpdate`: wait for the listener, then close the event. -/
def closeEvent (undo : SmemGroupInfo → SmemGroupInfo) : Program (Int × CasReply) := do
  let ret ← own (.timedwait .localOp)
  let base ← own .groupInfo
  let ret ← opResult .localOp ret
  let ret2 ← submit base (closeInfo option undo ret base)
  pure (ret, ret2)

/-- The result of `GroupJoin` and `GroupUpdate`. -/
def joinResult (ret : Int) (ret2 : CasReply) : Int :=
  if ret = smOk ∧ ret2 = .ok then smOk
  else if ret2 = .ok ∧ ret = smInnerBusy then smInnerBusy
  else smError

def groupJoin : Program Int := do
  if ← own .joined then pure smOk
  else
    own (.setOpRet .localOp smOk)
    match ← joinLoop option 30 with
    | .failed => pure smError
    | .exhausted => pure smInnerBusy
    | .submitted => do
      let (ret, ret2) ← closeEvent option fun info => info.clearBitmapForRank option.rank
      if ret = smOk ∧ ret2 = .ok then
        own (.setJoined true)
        pure smOk
      else pure (joinResult ret ret2)

def updateLoop : Nat → Program Submit
  | 0 => pure .exhausted
  | n + 1 => do
    if ← hasLeaveOrLinkDown then updateLoop n
    else
      let base ← own .groupInfo
      if ← trySubmit option base (generateInfo option .update option.rank base) then pure .submitted
      else updateLoop n

def groupUpdate : Program Int := do
  if !(← own .joined) then pure smNotStarted
  else
    own (.setOpRet .localOp smOk)
    match ← updateLoop option 30 with
    | .submitted => do
      let (ret, ret2) ← closeEvent option id
      pure (joinResult ret ret2)
    | _ => pure smInnerBusy

def leaveLoop : Nat → Program Submit
  | 0 => pure .exhausted
  | n + 1 => do
    let base ← own .groupInfo
    let info := (generateInfo option .leave option.rank base).clearBitmapForRank option.rank
    if ← trySubmit option base info then pure .submitted else leaveLoop n

def groupLeave : Program Int := do
  if !(← own .joined) then pure smNotStarted
  else
    own (.setOpRet .localOp smOk)
    match ← leaveLoop option 100000 with
    | .submitted => do
      let (ret, ret2) ← closeRemoval option .localOp option.rank
      own (.setJoined false)
      pure (if ret = smOk ∧ ret2 = .ok then smOk else smError)
    | _ => pure smError

/-! ## Listener threads -/

/-- The callback of JOIN and UPDATE: skipped if the event has been stopped, put off if some
rank is going. -/
def memberCallback : Program (Option Int) := do
  if (← own (.load .stop)) > 0 then pure none
  else if ← hasLeaveOrLinkDown then pure (some smInnerBusy)
  else
    let ret ← own .callback
    let stopped ← own (.load .stop)
    pure (some (if stopped > 0 then smOk else ret))

def removalCallback : Program (Option Int) := do
  let ret ← own .callback
  pure (some ret)

def eventCallback (info : SmemGroupInfo) : Program (Option Int) := do
  match info.curEvent with
  | .join =>
    let joined ← own .joined
    if (joined ∨ info.targetRank = option.rank) ∧ option.joinCb then memberCallback
    else pure (some smOk)
  | .update =>
    let joined ← own .joined
    if joined ∧ option.updateCb then memberCallback else pure (some smOk)
  | .recover | .linkDown =>
    if info.targetRank ≠ option.rank ∧ option.linkDownCb then removalCallback
    else pure (some smOk)
  | .leave =>
    if info.targetRank ≠ option.rank ∧ option.leaveCb then removalCallback
    else pure (some smOk)
  | .null | .stop => pure none

/-- The thread that waits for the event is woken up, unless the event has been stopped. -/
def signalResult (info : SmemGroupInfo) (ret : Int) : Program Unit := do
  let stopped ← own (.load .stop)
  if stopped = 0 then
    let signal := if info.curEvent ≠ .linkDown then Signal.localOp else Signal.linkOp
    own (.setOpRet signal ret)
    own (.signal signal)

def joinLeaveEventProcess : Program Unit := do
  let info ← own .groupInfo
  match ← eventCallback option info with
  | none => pure ()
  | some ret => if info.submitRank = option.rank then signalResult info ret

/-- The counter that the callback of the watch has increased for the event. -/
def uncount (info : SmemGroupInfo) : Program Unit := do
  if info.curEvent = .leave ∨ info.curEvent = .linkDown then own (.sub .leave 1)
  else if info.curEvent = .stop then own (.sub .stop 1)

def takeOver (info : SmemGroupInfo) : Program Unit := do
  if ← own (.tryUpdateInfo info) then joinLeaveEventProcess option

/-- The loop over the events.  The result of the callback is not looked at: the
condition for keeping an event reads the result of the wait. -/
def processEvents : List SmemGroupInfo → Program Unit
  | [] => pure ()
  | info :: rest => do
    takeOver option info
    uncount info
    own .popEvent
    processEvents rest

def uncountLeave (info : SmemGroupInfo) : Program Unit := do
  if info.curEvent = .leave ∨ info.curEvent = .linkDown then own (.sub .leave 1)

def dropEvents : List SmemGroupInfo → Program Unit
  | [] => own .clearEvents
  | info :: rest => do
    uncountLeave info
    dropEvents rest

def ensureEventWatch : Program Bool := do
  if ← own .eventWatched then pure true
  else
    own .resetEvent
    perform .watchEvent

def groupListenEvent : Program Unit := do
  if ← ensureEventWatch then
    let (ret, cRet, events) ← own .waitEvent
    if ret = smOk then
      if cRet ≠ smOk then
        own .unwatchEvent
        dropEvents events
      else processEvents option events

def linkDownLoop (rankId : Nat) : Nat → Program Unit
  | 0 => pure ()
  | n + 1 => do
    let ret ← doLinkDownOnce option rankId
    if ret = smInnerBusy then linkDownLoop rankId n

/-- The loop has no bound of its own. -/
def rankLinkDownEventProcess (rankId : Nat) : Program Unit := do
  let n ← own .attempts
  linkDownLoop option rankId n

def processLinks : List Nat → Program Unit
  | [] => pure ()
  | rankId :: rest => do
    rankLinkDownEventProcess option rankId
    processLinks rest

def ensureLinkWatch : Program Bool := do
  if ← own .linkWatched then pure true
  else
    own .resetLink
    perform .watchLinkDown

def handleLinks (cRet : Int) (ranks : List Nat) : Program Unit := do
  if cRet ≠ smOk then own .unwatchLink
  else
    processLinks option ranks
    if ranks ≠ [] then own .wakeListener

def groupListenLinkState : Program Unit := do
  if ← ensureLinkWatch then
    let (ret, cRet, ranks) ← own .waitLink
    if ret = smOk then
      handleLinks option cRet ranks
      own (.sub .linkDown (UInt32.ofNat ranks.length))
      own .clearLinks

/-- After an I/O error the source reads an empty string as a group info. -/
def storedOdd (info : SmemGroupInfo) : Program Bool := do
  match ← perform (.cas none info) with
  | .ok => pure (decide (info.version % 2 = 1))
  | .restore stored => pure (decide (stored.version % 2 = 1))
  | .ioError => own .unspecified

def cleanIf (odd : Bool) : Program Unit := do
  if odd then tryCleanOldEvent option

/-- `LinkReconnectHandler` of a rank that has joined, and the end of the reconnection. -/
def linkReconnectHandler : Program Unit := do
  let info ← own .groupInfo
  own (.setLastUpdateTime 0)
  own (.setLastSubmitVersion 0)
  let odd ← storedOdd info
  cleanIf option odd
  own (.setConnectStatus true)

end MemFabric.Smem.Group
