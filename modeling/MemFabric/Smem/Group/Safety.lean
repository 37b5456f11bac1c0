import MemFabric.Smem.Group.Engine

/-!
# What the threads do to the event key

Every `Cas` of every thread expects a copy of a group info and stores an info that is
built from that copy: the next version of it, with the members it had, one more, or one
less.  As long as the key is absent, only the first `JOIN` can be stored.
-/

namespace MemFabric.Smem.Group

open Machine Prog SmemGroupInfo

/-! ## Infos built from other infos -/

def Unchanged (base value : SmemGroupInfo) : Prop :=
  value.groupSize = base.groupSize ∧
    members value.joinedRanksBitmap = members base.joinedRanksBitmap

def Added (base value : SmemGroupInfo) : Prop :=
  value.groupSize = base.groupSize + 1 ∧ ∃ rank, rank ∉ members base.joinedRanksBitmap ∧
    members value.joinedRanksBitmap = insert rank (members base.joinedRanksBitmap)

def Removed (base value : SmemGroupInfo) : Prop :=
  value.groupSize = base.groupSize - 1 ∧
    members value.joinedRanksBitmap = (members base.joinedRanksBitmap).erase value.targetRank

def GroupEventType.opens : GroupEventType → Bool
  | .join | .leave | .linkDown | .update => true
  | _ => false

def GroupEventType.closes : GroupEventType → Bool
  | .null | .stop => true
  | _ => false

structure Built (base value : SmemGroupInfo) : Prop where
  version : value.version = base.version + 1
  event : value.curEvent.opens = true ∧ value.version % 2 = 1 ∨ value.curEvent.closes = true
  members : Unchanged base value ∨ Added base value ∨ Removed base value

/-- The first info: the first `JOIN`, on the info the engines start with. -/
def First (base value : SmemGroupInfo) : Prop :=
  base = {} ∧ value.curEvent = .join ∧ Added base value

/-- What the threads do and rely on.  The world is whether the key is present. -/
def groupSpec : Spec Act Resp Bool where
  ok
    | w, .cas (some base) value => Built base value ∧ (w = false → First base value)
    | w, .cas none _ => w = true
    | w, .own (.tryUpdateInfo _) => w = true
    | w, .own (.setJoined joined) => joined = true → w = true
    | _, _ => True
  resp
    | w, .cas _ _, reply => reply ≠ .ioError → w = true
    | w, .own .joined, joined => joined = true → w = true
    | w, .own .groupInfo, info => w = false → info = {}
    | w, .own .infoAndTime, r => w = false → r.1 = {}
    | w, .own .waitEvent, r => r.2.2 ≠ [] → w = true
    | _, _, _ => True
  ok_mono := by
    intro w w' a hle h
    have hw : w' = false → w = false := by
      rintro rfl
      exact Bool.eq_false_of_le_false hle
    split at h
    · exact ⟨h.1, fun hw' => h.2 (hw hw')⟩
    · exact hle h
    · exact hle h
    · exact fun hj => hle (h hj)
    · trivial

/-! ## Building -/

section

variable {option : SmemGroupOption} {event : GroupEventType} {target : Nat}
  {base info value : SmemGroupInfo}

@[simp] theorem version_clear (rank : Nat) :
    (info.clearBitmapForRank rank).version = info.version := by
  unfold clearBitmapForRank
  split <;> rfl

@[simp] theorem curEvent_clear (rank : Nat) :
    (info.clearBitmapForRank rank).curEvent = info.curEvent := by
  unfold clearBitmapForRank
  split <;> rfl

@[simp] theorem targetRank_clear (rank : Nat) :
    (info.clearBitmapForRank rank).targetRank = info.targetRank := by
  unfold clearBitmapForRank
  split <;> rfl

theorem unchanged_generate : Unchanged base (generateInfo option event target base) := ⟨rfl, rfl⟩

theorem removed_clear (hsize : info.groupSize = base.groupSize)
    (hbitmap : info.joinedRanksBitmap = base.joinedRanksBitmap) :
    Unchanged base (info.clearBitmapForRank info.targetRank) ∨
      Removed base (info.clearBitmapForRank info.targetRank) := by
  by_cases h : info.targetRank < maxRankCount
  · obtain ⟨hmembers, hsize'⟩ := info.members_clear h
    refine .inr ⟨by rw [hsize', hsize], ?_⟩
    rw [hmembers, hbitmap, targetRank_clear]
  · rw [clearBitmapForRank_of_le h]
    exact .inl ⟨hsize, by rw [hbitmap]⟩

section

variable (hevent : event.opens = true ∧ (base.version + 1) % 2 = 1 ∨ event.closes = true)

include hevent

theorem built_generate :
    Built base (generateInfo option event target base) :=
  ⟨rfl, hevent, .inl unchanged_generate⟩

theorem built_clear :
    Built base ((generateInfo option event target base).clearBitmapForRank target) := by
  refine ⟨version_clear _, ?_, ?_⟩
  · rw [curEvent_clear, version_clear]
    exact hevent
  · have hsame : (generateInfo option event target base).groupSize = base.groupSize := rfl
    rcases removed_clear hsame rfl with h | h
    · exact .inl h
    · exact .inr (.inr h)

end

variable {rank : Nat}

theorem curEvent_update (h : info.updateBitmapFromRank rank = some value) :
    value.curEvent = info.curEvent ∧ value.version = info.version := by
  unfold updateBitmapFromRank at h
  by_cases hlt : rank < maxRankCount
  · dsimp only at h
    split_ifs at h
    obtain rfl := Option.some.inj h
    exact ⟨rfl, rfl⟩
  · rw [dif_neg hlt] at h
    cases h

theorem added_update
    (h : (generateInfo option event target base).updateBitmapFromRank rank = some value) :
    Added base value := by
  obtain ⟨hnot, hmembers, hsize⟩ := members_update h
  exact ⟨hsize, rank, hnot, hmembers⟩

theorem built_join
    (h : (generateInfo option .join target base).updateBitmapFromRank rank = some value)
    (hodd : value.version % 2 = 1) : Built base value := by
  obtain ⟨hevent, hversion⟩ := curEvent_update h
  refine ⟨hversion, .inl ⟨?_, hodd⟩, .inr (.inl (added_update h))⟩
  rw [hevent]
  rfl

theorem testBitmapForRank_initial (rank : Nat) :
    ({} : SmemGroupInfo).testBitmapForRank rank = false := by
  rw [testBitmapForRank_eq]
  unfold bit
  split
  · simp
  · rfl

end

/-! ## Programs -/

/-- Actions on neither the group nor the events. -/
def Act.Quiet : Act → Prop
  | .cas _ _ | .own (.tryUpdateInfo _) | .own (.setJoined _) | .own (.sub _ _) | .own .waitEvent
  | .own .popEvent | .own .clearEvents => False
  | _ => True

section Quiet

variable {option : SmemGroupOption} {α : Type} {info oldInfo : SmemGroupInfo} {p q : Program α}
  {c : Prop} [Decidable c]

abbrev Quiet (p : Program α) : Prop := All Act.Quiet (fun _ => True) p

theorem Quiet.bind {β : Type} {f : α → Program β} (hp : Quiet p) (hf : ∀ x, Quiet (f x)) :
    Quiet (p >>= f) :=
  All.bind hp fun x _ => hf x

theorem quiet_bind {a : Act} {f : Resp a → Program α} (h : a.Quiet) (hf : ∀ r, Quiet (f r)) :
    Quiet (perform a >>= f) :=
  ⟨h, hf⟩

theorem quiet_perform {a : Act} (h : a.Quiet) : Quiet (perform a) := ⟨h, fun _ => trivial⟩

theorem Quiet.ite (hp : Quiet p) (hq : Quiet q) : Quiet (if c then p else q) := by
  split
  · exact hp
  · exact hq

theorem quiet_pure {x : α} : Quiet (pure x) := trivial

theorem quiet_hasLeaveOrLinkDown : Quiet hasLeaveOrLinkDown :=
  quiet_bind trivial fun _ => quiet_pure.ite (quiet_bind trivial fun _ => quiet_pure)

theorem quiet_mayClean {now last : Nat} : Quiet (mayClean option now last oldInfo) := by
  refine Quiet.bind ?_ fun own => ?_
  · exact .ite (quiet_bind trivial fun _ => quiet_pure) quiet_pure
  · exact quiet_pure.ite (.ite (quiet_bind trivial fun _ => quiet_pure) quiet_pure)

theorem quiet_opResult {signal : Signal} {ret : Int} : Quiet (opResult signal ret) :=
  .ite (quiet_perform trivial) quiet_pure

theorem quiet_removalCallback : Quiet removalCallback :=
  quiet_bind trivial fun _ => quiet_pure

theorem quiet_memberCallback : Quiet memberCallback := by
  refine quiet_bind trivial fun _ => quiet_pure.ite ?_
  refine quiet_hasLeaveOrLinkDown.bind fun _ => quiet_pure.ite ?_
  exact quiet_bind trivial fun _ => quiet_bind trivial fun _ => quiet_pure

theorem quiet_eventCallback : Quiet (eventCallback option info) := by
  unfold eventCallback
  split
  · exact quiet_bind trivial fun _ => quiet_memberCallback.ite quiet_pure
  · exact quiet_bind trivial fun _ => quiet_memberCallback.ite quiet_pure
  · exact quiet_removalCallback.ite quiet_pure
  · exact quiet_removalCallback.ite quiet_pure
  · exact quiet_removalCallback.ite quiet_pure
  · exact quiet_pure
  · exact quiet_pure

theorem quiet_joinLeaveEventProcess : Quiet (joinLeaveEventProcess option) := by
  refine quiet_bind trivial fun _ => quiet_eventCallback.bind fun ret => ?_
  cases ret with
  | none => exact quiet_pure
  | some ret =>
    refine Quiet.ite (quiet_bind trivial fun _ => .ite ?_ quiet_pure) quiet_pure
    exact quiet_bind trivial fun _ => quiet_perform trivial

theorem quiet_ensureEventWatch : Quiet ensureEventWatch :=
  quiet_bind trivial fun _ => quiet_pure.ite (quiet_bind trivial fun _ => quiet_perform trivial)

theorem quiet_ensureLinkWatch : Quiet ensureLinkWatch :=
  quiet_bind trivial fun _ => quiet_pure.ite (quiet_bind trivial fun _ => quiet_perform trivial)

end Quiet

section Programs

variable {option : SmemGroupOption} {w : Bool}

abbrev SafeFor {α : Type} (Q : α → Bool → Prop) (p : Program α) (w : Bool) : Prop :=
  Safe groupSpec Q p w

abbrev SafeProgram {α : Type} (p : Program α) (w : Bool) : Prop := SafeFor (fun _ _ => True) p w

variable {α : Type} {oldInfo base info : SmemGroupInfo} {signal : Signal}

theorem SafeProgram.bind {β : Type} {Q : β → Bool → Prop} {p : Program α} {f : α → Program β}
    (hp : SafeProgram p w) (hf : ∀ w', w ≤ w' → ∀ x, SafeFor Q (f x) w') : SafeFor Q (p >>= f) w :=
  .bind hp fun w' hw x _ => hf w' hw x

theorem safeProgram_pure {x : α} : SafeProgram (pure x : Program α) w := trivial

theorem safeProgram_perform {a : Act} (h : groupSpec.ok w a) : SafeProgram (perform a) w :=
  ⟨h, fun _ _ _ _ => trivial⟩

theorem Quiet.safe {p : Program α} (h : Quiet p) : SafeProgram p w := by
  induction p generalizing w with
  | ret x => trivial
  | act a k ih =>
    refine ⟨?_, fun w' _ r _ => ih r (h.2 r)⟩
    cases a with
    | own a => cases a <;> first | exact h.1.elim | trivial
    | cas expect value => exact h.1.elim
    | _ => trivial

theorem safe_ite_pure {c : Prop} [Decidable c] {p : Program α} {a : α} (h : SafeProgram p w) :
    SafeProgram (if c then p else pure a) w := by
  split_ifs
  · exact h
  · exact safeProgram_pure

theorem ok_cas {value : SmemGroupInfo} (hw : w = true) (h : Built base value) :
    groupSpec.ok w (.cas (some base) value) :=
  ⟨h, fun hfalse => absurd (hw.symm.trans hfalse) (by decide)⟩

theorem built_stopInfo : Built base (stopInfo option oldInfo base) := by
  unfold stopInfo
  split_ifs
  · exact built_clear (.inr rfl)
  · exact built_generate (.inr rfl)

theorem safe_tryCleanOldEvent : SafeProgram (tryCleanOldEvent option) w := by
  refine .perform_bind trivial fun w1 _ now _ => ?_
  refine .perform_bind trivial fun w2 _ r hr => ?_
  obtain ⟨oldInfo, last⟩ := r
  dsimp only
  split_ifs with hodd
  · have hw : w2 = true := by
      by_contra hw
      obtain rfl : oldInfo = {} := hr (Bool.eq_false_of_not_eq_true hw)
      exact absurd hodd (by decide)
    refine SafeProgram.bind quiet_mayClean.safe fun w3 hle clean => ?_
    cases clean with
    | false => exact safeProgram_pure
    | true =>
      refine .perform_bind trivial fun w4 hle' base _ => ?_
      exact safe_ite_pure (SafeProgram.bind
        (safeProgram_perform (ok_cas (hle' (hle hw)) built_stopInfo)) fun _ _ _ => safeProgram_pure)
  · exact safeProgram_pure

/-- A `Cas` that has succeeded tells that the key is present. -/
theorem safe_submit (h : groupSpec.ok w (.cas (some base) info)) :
    SafeFor (fun ret w => ret = .ok → w = true) (submit base info) w := by
  refine .perform_bind h fun w1 _ reply hreply => ?_
  cases reply with
  | ok =>
    refine .perform_bind trivial fun w2 hle _ _ => ?_
    exact safe_pure fun _ => hle (hreply (by simp))
  | restore stored => exact safe_pure fun h => by cases h
  | ioError => exact safe_pure fun h => by cases h

theorem safe_closeRemoval {target : Nat} (hw : w = true) :
    SafeProgram (closeRemoval option signal target) w := by
  refine .perform_bind trivial fun w1 hle1 ret _ => ?_
  refine SafeProgram.bind quiet_opResult.safe fun w2 hle2 ret => ?_
  refine .perform_bind trivial fun w3 hle3 base _ => ?_
  have hw3 : w3 = true := hle3 (hle2 (hle1 hw))
  exact .bind (safe_submit (ok_cas hw3 (built_generate (.inr rfl)))) fun _ _ _ _ =>
    safeProgram_pure

theorem safe_doLinkDownOnce {rankId : Nat} : SafeProgram (doLinkDownOnce option rankId) w := by
  refine .perform_bind trivial fun w1 _ tested htested => ?_
  cases htest : tested.testBitmapForRank rankId with
  | false => exact safeProgram_pure
  | true =>
    have hw1 : w1 = true := by
      by_contra hw
      obtain rfl : tested = {} := htested (Bool.eq_false_of_not_eq_true hw)
      rw [testBitmapForRank_initial] at htest
      cases htest
    refine .perform_bind trivial fun w2 hle2 base _ => ?_
    dsimp only
    split_ifs with hodd
    · rw [version_clear] at hodd
      refine .perform_bind (ok_cas (hle2 hw1) (built_clear (.inl ⟨rfl, hodd⟩)))
        fun w3 hle3 reply _ => ?_
      cases reply with
      | ok =>
        refine .perform_bind trivial fun w4 hle4 _ _ => ?_
        refine .perform_bind trivial fun w5 hle5 _ _ => ?_
        exact SafeProgram.bind (safe_closeRemoval (hle5 (hle4 (hle3 (hle2 hw1)))))
          fun _ _ _ => safeProgram_pure
      | restore stored => exact safeProgram_pure
      | ioError => exact safeProgram_pure
    · exact SafeProgram.bind safe_tryCleanOldEvent fun _ _ _ => safeProgram_pure

/-! ### Operations -/

theorem safe_trySubmit (h : info.version % 2 = 1 → groupSpec.ok w (.cas (some base) info)) :
    SafeFor (fun b w => b = true → w = true) (trySubmit option base info) w := by
  unfold trySubmit
  split_ifs with hodd
  · refine .bind (safe_submit (h hodd)) fun w' _ ret hret => ?_
    exact safe_pure fun hok => hret (of_decide_eq_true hok)
  · exact SafeProgram.bind safe_tryCleanOldEvent fun _ _ _ => safe_pure fun h => by cases h

abbrev Submitted (ret : Submit) (w : Bool) : Prop := ret = .submitted → w = true

theorem safe_joinLoop (n : Nat) : SafeFor Submitted (joinLoop option n) w := by
  induction n generalizing w with
  | zero => exact safe_pure fun h => by cases h
  | succ n ih =>
    refine .perform_bind trivial fun w1 _ status _ => ?_
    cases status with
    | false => exact safe_pure fun h => by cases h
    | true =>
      refine SafeProgram.bind quiet_hasLeaveOrLinkDown.safe fun w2 _ busy => ?_
      cases busy with
      | true => exact ih
      | false =>
        refine .perform_bind trivial fun w3 _ base hbase => ?_
        split
        · exact SafeProgram.bind safe_doLinkDownOnce fun _ _ _ => ih
        · rename_i info hinfo
          have hok : info.version % 2 = 1 → groupSpec.ok w3 (.cas (some base) info) :=
            fun hodd => ⟨built_join hinfo hodd, fun hw =>
              ⟨hbase hw, (curEvent_update hinfo).1, added_update hinfo⟩⟩
          refine .bind (safe_trySubmit hok) fun w4 _ done hdone => ?_
          cases done with
          | true => exact safe_pure fun _ => hdone rfl
          | false => exact ih

theorem safe_updateLoop (n : Nat) (hw : w = true) : SafeProgram (updateLoop option n) w := by
  induction n generalizing w with
  | zero => exact safeProgram_pure
  | succ n ih =>
    refine SafeProgram.bind quiet_hasLeaveOrLinkDown.safe fun w1 hle1 busy => ?_
    cases busy with
    | true => exact ih (hle1 hw)
    | false =>
      refine .perform_bind trivial fun w2 hle2 base _ => ?_
      have hw2 : w2 = true := hle2 (hle1 hw)
      refine .bind (safe_trySubmit fun hodd =>
        ok_cas hw2 (built_generate (.inl ⟨rfl, hodd⟩))) fun w3 hle3 done _ => ?_
      cases done with
      | true => exact safeProgram_pure
      | false => exact ih (hle3 hw2)

theorem safe_leaveLoop (n : Nat) (hw : w = true) : SafeProgram (leaveLoop option n) w := by
  induction n generalizing w with
  | zero => exact safeProgram_pure
  | succ n ih =>
    refine .perform_bind trivial fun w1 hle1 base _ => ?_
    have hw1 : w1 = true := hle1 hw
    refine .bind (safe_trySubmit fun hodd => ok_cas hw1 (built_clear (.inl ⟨rfl, ?_⟩)))
      fun w2 hle2 done _ => ?_
    · rwa [version_clear] at hodd
    · cases done with
      | true => exact safeProgram_pure
      | false => exact ih (hle2 hw1)

theorem safe_closeEvent {undo : SmemGroupInfo → SmemGroupInfo}
    (hundo : ∀ ret base, Built base (closeInfo option undo ret base)) (hw : w = true) :
    SafeProgram (closeEvent option undo) w := by
  refine .perform_bind trivial fun w1 hle1 ret _ => ?_
  refine .perform_bind trivial fun w2 hle2 base _ => ?_
  refine SafeProgram.bind quiet_opResult.safe fun w3 hle3 ret => ?_
  have hw3 : w3 = true := hle3 (hle2 (hle1 hw))
  exact .bind (safe_submit (ok_cas hw3 (hundo ret base))) fun _ _ _ _ => safeProgram_pure

theorem built_closeInfo_clear (ret : Int) (base : SmemGroupInfo) :
    Built base (closeInfo option (fun info => info.clearBitmapForRank option.rank) ret base) := by
  unfold closeInfo
  split_ifs
  · exact built_generate (.inr rfl)
  · exact (built_clear (.inr rfl) :
      Built base ((generateInfo option .stop option.rank base).clearBitmapForRank option.rank))

theorem built_closeInfo_id (ret : Int) (base : SmemGroupInfo) :
    Built base (closeInfo option id ret base) := by
  unfold closeInfo
  split_ifs
  · exact built_generate (.inr rfl)
  · exact (built_generate (.inr rfl) : Built base (generateInfo option .stop option.rank base))

theorem safe_groupJoin : SafeProgram (groupJoin option) w := by
  refine .perform_bind trivial fun w1 _ joined _ => ?_
  cases joined with
  | true => exact safeProgram_pure
  | false =>
    refine .perform_bind trivial fun w2 _ _ _ => ?_
    refine .bind (safe_joinLoop 30) fun w3 _ ret hret => ?_
    cases ret with
    | failed => exact safeProgram_pure
    | exhausted => exact safeProgram_pure
    | submitted =>
      refine SafeProgram.bind (safe_closeEvent built_closeInfo_clear (hret rfl))
        fun w4 hle4 out => ?_
      exact safe_ite_pure (.perform_bind (fun _ => hle4 (hret rfl)) fun _ _ _ _ => safeProgram_pure)

theorem safe_groupUpdate : SafeProgram (groupUpdate option) w := by
  refine .perform_bind trivial fun w1 _ joined hjoined => ?_
  cases joined with
  | false => exact safeProgram_pure
  | true =>
    refine .perform_bind trivial fun w2 hle2 _ _ => ?_
    have hw2 : w2 = true := hle2 (hjoined rfl)
    refine SafeProgram.bind (safe_updateLoop 30 hw2) fun w3 hle3 ret => ?_
    cases ret with
    | submitted =>
      exact SafeProgram.bind (safe_closeEvent built_closeInfo_id (hle3 hw2)) fun _ _ _ =>
        safeProgram_pure
    | failed => exact safeProgram_pure
    | exhausted => exact safeProgram_pure

theorem safe_groupLeave : SafeProgram (groupLeave option) w := by
  refine .perform_bind trivial fun w1 _ joined hjoined => ?_
  cases joined with
  | false => exact safeProgram_pure
  | true =>
    refine .perform_bind trivial fun w2 hle2 _ _ => ?_
    have hw2 : w2 = true := hle2 (hjoined rfl)
    refine SafeProgram.bind (safe_leaveLoop 100000 hw2) fun w3 hle3 ret => ?_
    cases ret with
    | submitted =>
      refine SafeProgram.bind (safe_closeRemoval (hle3 hw2)) fun w4 _ out => ?_
      exact .perform_bind (fun h => by cases h) fun _ _ _ _ => safeProgram_pure
    | failed => exact safeProgram_pure
    | exhausted => exact safeProgram_pure

/-! ### Listeners -/

theorem safe_uncount : SafeProgram (uncount info) w := by
  unfold uncount
  split_ifs
  · exact safeProgram_perform trivial
  · exact safeProgram_perform trivial
  · exact safeProgram_pure

theorem safe_takeOver (hw : w = true) : SafeProgram (takeOver option info) w := by
  refine .perform_bind hw fun w1 _ updated _ => ?_
  cases updated with
  | true => exact quiet_joinLeaveEventProcess.safe
  | false => exact safeProgram_pure

theorem safe_processEvents (events : List SmemGroupInfo) (hw : events ≠ [] → w = true) :
    SafeProgram (processEvents option events) w := by
  induction events generalizing w with
  | nil => exact safeProgram_pure
  | cons info rest ih =>
    have hw' : w = true := hw (by simp)
    refine SafeProgram.bind (safe_takeOver hw') fun w1 hle1 _ => ?_
    refine SafeProgram.bind safe_uncount fun w2 hle2 _ => ?_
    exact .perform_bind trivial fun w3 hle3 _ _ => ih fun _ => hle3 (hle2 (hle1 hw'))

theorem safe_dropEvents (events : List SmemGroupInfo) : SafeProgram (dropEvents events) w := by
  induction events generalizing w with
  | nil => exact safeProgram_perform trivial
  | cons info rest ih =>
    refine SafeProgram.bind ?_ fun _ _ _ => ih
    exact safe_ite_pure (safeProgram_perform trivial)

theorem safe_groupListenEvent : SafeProgram (groupListenEvent option) w := by
  refine SafeProgram.bind quiet_ensureEventWatch.safe fun w1 _ watched => ?_
  cases watched with
  | false => exact safeProgram_pure
  | true =>
    refine .perform_bind trivial fun w2 _ out hout => ?_
    obtain ⟨ret, cRet, events⟩ := out
    dsimp only
    split_ifs
    · exact .perform_bind trivial fun _ _ _ _ => safe_dropEvents events
    · exact safe_processEvents events hout
    · exact safeProgram_pure

theorem safe_processLinks (ranks : List Nat) : SafeProgram (processLinks option ranks) w := by
  have hloop : ∀ rankId n, ∀ w, SafeProgram (linkDownLoop option rankId n) w := by
    intro rankId n
    induction n with
    | zero => exact fun _ => safeProgram_pure
    | succ n ih =>
      intro w
      refine SafeProgram.bind safe_doLinkDownOnce fun w1 _ ret => ?_
      exact safe_ite_pure (ih w1)
  induction ranks generalizing w with
  | nil => exact safeProgram_pure
  | cons rankId rest ih =>
    refine SafeProgram.bind ?_ fun _ _ _ => ih
    exact .perform_bind trivial fun w1 _ n _ => hloop rankId n w1

theorem safe_handleLinks {cRet : Int} {ranks : List Nat} :
    SafeProgram (handleLinks option cRet ranks) w := by
  unfold handleLinks
  split_ifs with hret hranks
  · exact safeProgram_perform trivial
  · exact SafeProgram.bind (safe_processLinks ranks) fun _ _ _ => safeProgram_perform trivial
  · exact SafeProgram.bind (safe_processLinks ranks) fun _ _ _ => safeProgram_pure

theorem safe_groupListenLinkState : SafeProgram (groupListenLinkState option) w := by
  refine SafeProgram.bind quiet_ensureLinkWatch.safe fun w1 _ watched => ?_
  cases watched with
  | false => exact safeProgram_pure
  | true =>
    refine .perform_bind trivial fun w2 _ out _ => ?_
    dsimp only
    split_ifs
    · refine SafeProgram.bind safe_handleLinks fun w3 _ _ => ?_
      exact .perform_bind trivial fun _ _ _ _ => safeProgram_perform trivial
    · exact safeProgram_pure

theorem safe_linkReconnectHandler (hw : w = true) :
    SafeProgram (linkReconnectHandler option) w := by
  refine .perform_bind trivial fun w1 hle1 info _ => ?_
  refine .perform_bind trivial fun w2 hle2 _ _ => ?_
  refine .perform_bind trivial fun w3 hle3 _ _ => ?_
  have hw3 : w3 = true := hle3 (hle2 (hle1 hw))
  refine SafeProgram.bind ?_ fun w4 _ odd => ?_
  · refine .perform_bind hw3 fun w4 _ reply _ => ?_
    cases reply with
    | ok => exact safeProgram_pure
    | restore stored => exact safeProgram_pure
    | ioError => exact safeProgram_perform trivial
  · refine SafeProgram.bind ?_ fun _ _ _ => safeProgram_perform trivial
    cases odd with
    | true => exact safe_tryCleanOldEvent
    | false => exact safeProgram_pure

end Programs

end MemFabric.Smem.Group
