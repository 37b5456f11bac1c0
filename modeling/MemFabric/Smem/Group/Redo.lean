import MemFabric.Machine.Run
import MemFabric.Smem.Group.Engine

/-!
# Events that are to be processed again

The loop of `GroupListenEvent` with both of its result variables and the flag `redoLast`.
Whether an event may go is decided by the result of the wait, which is `SM_OK` there.  So the
flag is never set, and `processEvents` is what the loop amounts to.
-/

namespace MemFabric.Smem.Group

open Machine List

/-- What one pass of the inner loop finds: the fields that other threads write, where they are
read, and the result of the callback if there is one. -/
structure Pass where
  joined : Bool := true
  stopCount : UInt32 := 0
  leaveCount : UInt32 := 0
  linkDownCount : UInt32 := 0
  callback : Int := smOk
  stopCountAfter : UInt32 := 0
  /-- `currentLeaveCount_` after the processing. -/
  pending : UInt32 := 0

namespace Pass

variable (option : SmemGroupOption) (info : SmemGroupInfo) (p : Pass)

def memberCallback : Int :=
  if p.stopCount > 0 then smOk
  else if p.leaveCount = 0 ∧ p.linkDownCount = 0 then
    if p.stopCountAfter > 0 then smOk else p.callback
  else smInnerBusy

/-- The result of `JoinLeaveEventProcess`. -/
def joinLeaveEventProcess : Int :=
  match info.curEvent with
  | .join =>
    if (p.joined ∨ info.targetRank = option.rank) ∧ option.joinCb then p.memberCallback else smOk
  | .update => if p.joined ∧ option.updateCb then p.memberCallback else smOk
  | .recover | .linkDown =>
    if info.targetRank ≠ option.rank ∧ option.linkDownCb then p.callback else smOk
  | .leave => if info.targetRank ≠ option.rank ∧ option.leaveCb then p.callback else smOk
  | .null | .stop => smOk

/-- The event has been stopped, or no rank is going and the callback succeeds. -/
def MemberOk : Prop :=
  p.stopCount > 0 ∨ p.leaveCount = 0 ∧ p.linkDownCount = 0 ∧
    (p.stopCountAfter > 0 ∨ p.callback = smOk)

/-- The callback of the event, if there is one, can be called and succeeds. -/
def Succeeds : Prop :=
  match info.curEvent with
  | .join => (p.joined ∨ info.targetRank = option.rank) ∧ option.joinCb → p.MemberOk
  | .update => p.joined ∧ option.updateCb → p.MemberOk
  | .recover | .linkDown => info.targetRank ≠ option.rank ∧ option.linkDownCb → p.callback = smOk
  | .leave => info.targetRank ≠ option.rank ∧ option.leaveCb → p.callback = smOk
  | .null | .stop => True

theorem memberCallback_eq_ok_iff : p.memberCallback = smOk ↔ p.MemberOk := by
  have hbusy : smInnerBusy ≠ smOk := by decide
  unfold memberCallback MemberOk
  split_ifs <;> simp_all

theorem joinLeaveEventProcess_eq_ok_iff :
    p.joinLeaveEventProcess option info = smOk ↔ p.Succeeds option info := by
  have hite : ∀ {c : Prop} [Decidable c] {ret : Int} {q : Prop}, (ret = smOk ↔ q) →
      ((if c then ret else smOk) = smOk ↔ (c → q)) := by
    intro c _ ret q h
    split_ifs with hc
    · exact h.trans ⟨fun hq _ => hq, fun hq => hq hc⟩
    · exact iff_of_true rfl fun h => absurd h hc
  unfold joinLeaveEventProcess Succeeds
  split
  · exact hite p.memberCallback_eq_ok_iff
  · exact hite p.memberCallback_eq_ok_iff
  · exact hite Iff.rfl
  · exact hite Iff.rfl
  · exact hite Iff.rfl
  · exact iff_of_true rfl trivial
  · exact iff_of_true rfl trivial

end Pass

/-! ## The loop -/

/-- One round: the result of the wait and of the watch, the events that have come in, what the
passes find, and `currentLeaveCount_` where events are dropped. -/
structure Round where
  ret : Int := smOk
  cRet : Int := smOk
  values : List SmemGroupInfo := []
  pass : Nat → Pass := fun _ => {}
  pending : UInt32 := 0

structure Listener where
  /-- `groupInfo_.version` -/
  version : UInt32 := 0
  currentEvents : List SmemGroupInfo := []
  redoLast : Bool := false

/-- What happens to an event: whether it is outdated, the result of its processing, whether a
leave is pending, and whether it is taken off the queue. -/
structure Turn where
  event : SmemGroupInfo
  outdated : Bool
  ret2 : Option Int
  pending : UInt32
  removed : Bool

variable (option : SmemGroupOption)

/-- `pass i` is the pass for the event at position `i`. -/
def listenLoop (ret : Int) (version : UInt32) (redoLast : Bool) (pass : Nat → Pass) :
    List SmemGroupInfo → Listener × List Turn
  | [] => (⟨version, [], redoLast⟩, [])
  | info :: rest =>
    let newer := decide (info.version > version)
    let version := if newer then info.version else version
    let process := newer || redoLast
    let ret2 := if process then some ((pass 0).joinLeaveEventProcess option info) else none
    let canRemove := if process then decide (ret = smOk) else true
    let turn := Turn.mk info (!newer) ret2 (pass 0).pending
    if canRemove ∨ (pass 0).pending > 0 then
      let out := listenLoop ret version false (fun i => pass (i + 1)) rest
      (out.1, turn true :: out.2)
    else (⟨version, info :: rest, decide (ret = smInnerBusy)⟩, [turn false])

def listenRound (l : Listener) (r : Round) : Listener × List Turn :=
  let currentEvents := l.currentEvents ++ r.values
  if r.ret ≠ smOk then ({ l with currentEvents }, [])
  else if r.cRet ≠ smOk then
    -- the queue is cleared
    ({ l with currentEvents := [], redoLast := false },
      currentEvents.map fun info =>
        ⟨info, !decide (info.version > l.version), none, r.pending, true⟩)
  else listenLoop option r.ret l.version l.redoLast r.pass currentEvents

/-! ## Removals -/

/-- The event was outdated, or processed with success, or some rank is going. -/
def Turn.Justified (t : Turn) : Prop := t.outdated = true ∨ t.ret2 = some smOk ∨ t.pending > 0

/-- Only events that may go are removed in the round, and one that is to be processed again
stays first and is marked. -/
structure Keeps (l : Listener) (r : Round) : Prop where
  removed : ∀ t ∈ (listenRound option l r).2, t.removed = true → t.Justified
  redone : ∀ t ∈ (listenRound option l r).2, t.ret2 = some smInnerBusy → t.pending = 0 →
    t.removed = false ∧ (listenRound option l r).1.redoLast = true ∧
      (listenRound option l r).1.currentEvents.head? = some t.event

/-- Every event that is newer than those before it meets a callback that succeeds, or a leave. -/
def PassesMeet (version : UInt32) (pass : Nat → Pass) : List SmemGroupInfo → Prop
  | [] => True
  | info :: rest =>
    (info.version > version → (pass 0).Succeeds option info ∨ (pass 0).pending > 0) ∧
      PassesMeet (if info.version > version then info.version else version)
        (fun i => pass (i + 1)) rest

/-- If the watch has failed, no event of the queue is new or some rank is going; otherwise the
passes are as above. -/
def Meets (l : Listener) (r : Round) : Prop :=
  r.ret = smOk →
    if r.cRet ≠ smOk then
      ∀ info ∈ l.currentEvents ++ r.values, info.version > l.version → r.pending > 0
    else PassesMeet option l.version r.pass (l.currentEvents ++ r.values)

variable {option}

/-- The result of the wait is `SM_OK`, so that every event is removed. -/
theorem listenLoop_turns (events : List SmemGroupInfo) (version : UInt32) (pass : Nat → Pass) :
    (listenLoop option smOk version false pass events).1.redoLast = false ∧
      (∀ t ∈ (listenLoop option smOk version false pass events).2,
        t.removed = true ∧ (t.outdated = true → t.ret2 = none)) ∧
      ((∀ t ∈ (listenLoop option smOk version false pass events).2, t.Justified) ↔
        PassesMeet option version pass events) := by
  induction events generalizing version pass with
  | nil =>
    exact ⟨rfl, fun t ht => absurd ht not_mem_nil, iff_of_true (by simp [listenLoop]) trivial⟩
  | cons info rest ih =>
    unfold listenLoop PassesMeet
    dsimp only
    rw [if_pos (.inl (by simp))]
    simp only [Bool.or_false, forall_mem_cons, decide_eq_true_eq]
    obtain ⟨hredo, hturns, hiff⟩ :=
      ih (if info.version > version then info.version else version) fun i => pass (i + 1)
    refine ⟨hredo, ⟨⟨trivial, fun hold => ?_⟩, hturns⟩, and_congr ?_ hiff⟩
    · rw [if_neg (by simpa using hold)]
    · rw [← Pass.joinLeaveEventProcess_eq_ok_iff, Turn.Justified]
      by_cases hnewer : info.version > version
      · simp [hnewer]
      · simp [hnewer]

theorem redoLast_listenRound {l : Listener} (hl : l.redoLast = false) (round : Round) :
    (listenRound option l round).1.redoLast = false := by
  unfold listenRound
  dsimp only
  split_ifs with hret hcRet
  · exact hl
  · rfl
  · rw [not_not.mp hret, hl]
    exact (listenLoop_turns ..).1

theorem keeps_iff {l : Listener} (hl : l.redoLast = false) (round : Round) :
    Keeps option l round ↔ Meets option l round := by
  -- every turn is a removal, and one that is outdated is not processed
  suffices h : (∀ t ∈ (listenRound option l round).2,
      t.removed = true ∧ (t.outdated = true → t.ret2 = none)) ∧
      ((∀ t ∈ (listenRound option l round).2, t.Justified) ↔ Meets option l round) by
    rw [← h.2]
    refine ⟨fun hkeeps t ht => hkeeps.removed t ht (h.1 t ht).1, fun hall => ⟨fun t ht _ =>
      hall t ht, fun t ht hbusy hnone => ?_⟩⟩
    rcases hall t ht with hold | hok | hpending
    · cases hbusy.symm.trans ((h.1 t ht).2 hold)
    · exact absurd (Option.some_inj.mp (hok.symm.trans hbusy)) (by decide)
    · rw [hnone] at hpending
      exact absurd hpending (by decide)
  unfold listenRound Meets
  dsimp only
  by_cases hret : round.ret = smOk
  · rw [if_neg (not_not.mpr hret), forall_prop_of_true hret, hret, hl]
    split_ifs with hcRet
    · simp only [mem_map, forall_exists_index, and_imp, forall_apply_eq_imp_iff₂, Turn.Justified]
      refine ⟨fun info _ => ⟨trivial, fun _ => trivial⟩, forall₂_congr fun info _ => ?_⟩
      by_cases hnewer : info.version > l.version
      · simp [hnewer]
      · simp [hnewer]
    · exact (listenLoop_turns ..).2
  · rw [if_pos hret]
    exact ⟨fun t ht => absurd ht not_mem_nil, iff_of_true (by simp) fun h => absurd h hret⟩

/-- The flag is never set.  In every round of a run only events that may go are removed, and one
that is to be processed again stays first, if and only if every round meets callbacks that
succeed, or a leave, and no failed watch drops a new event while no rank is going. -/
theorem listen_removes (option : SmemGroupOption) (rounds : List Round) (version : UInt32) :
    (run (listenRound option) { version } rounds).1.redoLast = false ∧
      (AllAllowed (listenRound option) (Keeps option) { version } rounds ↔
        AllAllowed (listenRound option) (Meets option) { version } rounds) := by
  have hrun : ∀ l : Listener, l.redoLast = false →
      (run (listenRound option) l rounds).1.redoLast = false ∧
        (AllAllowed (listenRound option) (Keeps option) l rounds ↔
          AllAllowed (listenRound option) (Meets option) l rounds) := by
    induction rounds with
    | nil => exact fun l hl => ⟨hl, Iff.rfl⟩
    | cons round rest ih =>
      intro l hl
      obtain ⟨hredo, hiff⟩ := ih _ (redoLast_listenRound hl round)
      exact ⟨hredo, and_congr (keeps_iff hl round) hiff⟩
  exact hrun _ rfl

/-- A `JOIN` is put off while a rank leaves, whose `LEAVE` is next, and an old event comes in
before the watch fails. -/
theorem listen_removes_leave :
    let option : SmemGroupOption := { rank := 0 }
    let join : SmemGroupInfo := { version := 1, curEvent := .join, targetRank := 1 }
    let leave : SmemGroupInfo := { version := 3, curEvent := .leave, targetRank := 2 }
    let busy : Pass := { leaveCount := 1, pending := 1 }
    let rounds : List Round := [{ values := [join, leave], pass := fun i => [busy].getD i {} },
      { cRet := smError, values := [join] }]
    AllAllowed (listenRound option) (Keeps option) {} rounds ∧
      (run (listenRound option) {} rounds).2.map Turn.ret2 =
        [some smInnerBusy, some smOk, none] := by
  refine ⟨(listen_removes _ _ 0).2.mpr ⟨fun _ => ⟨fun _ => .inr (by decide), fun _ =>
    .inl fun _ => rfl, trivial⟩, fun _ info hinfo hnewer => ?_, trivial⟩, rfl⟩
  obtain rfl := mem_singleton.mp hinfo
  exact absurd hnewer (by decide)

/-- The callback of a `JOIN` is busy and no rank goes: the event is removed, and a second round
does not process it. -/
theorem busy_join_removed :
    let option : SmemGroupOption := { rank := 0 }
    let busy : Nat → Pass := fun _ => { callback := smInnerBusy }
    let join : SmemGroupInfo := { version := 1, curEvent := .join }
    run (listenRound option) {} [{ values := [join], pass := busy }, { pass := busy }] =
      ({ version := 1 }, [⟨join, false, some smInnerBusy, 0, true⟩]) := by
  rfl

end MemFabric.Smem.Group
