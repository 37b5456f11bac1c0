import Mathlib.Data.List.Chain
import MemFabric.Smem.Group.Invariant

/-!
# The order of events

The versions of the stored infos count the `Cas` calls that succeed.  An event is open
at an odd version and closed at the next one, as long as whoever closes an event finds
it open.  That is not checked: a rank whose event was stopped by another rank, while it
was away, still closes it when it is back.
-/

namespace MemFabric.Smem.Group

open Machine List

/-- Events are open at odd versions and closed at even ones. -/
def InTurn (info : SmemGroupInfo) : Prop :=
  (info.version % 2 = 1 ↔ info.curEvent.opens = true) ∧
    (info.version % 2 = 0 ↔ info.curEvent.closes = true)

instance (info : SmemGroupInfo) : Decidable (InTurn info) :=
  inferInstanceAs (Decidable ((_ ↔ _) ∧ (_ ↔ _)))

/-- A request that closes an event was built from a copy with an event in progress, if the copy is
what is stored; and the versions are not used up. -/
def ClosesOpenEvent (s : System) (i : Input) : Prop :=
  ∀ request ∈ s.request i, ∀ base ∈ request.1, s.store = some base →
    (request.2.curEvent.closes = true → base.curEvent.opens = true) ∧
      base.version.toNat < 2 ^ 32 - 1

instance (s : System) (i : Input) : Decidable (ClosesOpenEvent s i) :=
  inferInstanceAs (Decidable (∀ request ∈ s.request i, ∀ base ∈ request.1, _ → _ ∧ _))

theorem opens_eq_not_closes {event : GroupEventType} (h : event.opens = true) :
    event.closes = false := by
  cases event <;> first | rfl | cases h

theorem inTurn_of_opens {info : SmemGroupInfo} (hevent : info.curEvent.opens = true)
    (hodd : info.version % 2 = 1) : InTurn info := by
  refine ⟨iff_of_true hodd hevent, iff_of_false (fun h => ?_) (fun h => ?_)⟩
  · exact absurd (hodd.symm.trans h) (by decide)
  · rw [opens_eq_not_closes hevent] at h
    cases h

theorem inTurn_of_closes {info : SmemGroupInfo} (hevent : info.curEvent.closes = true)
    (heven : info.version % 2 = 0) : InTurn info := by
  refine ⟨iff_of_false (fun h => ?_) (fun h => ?_), iff_of_true heven hevent⟩
  · exact absurd (heven.symm.trans h) (by decide)
  · rw [opens_eq_not_closes h] at hevent
    cases hevent

theorem even_succ_of_odd {n : UInt32} (h : n % 2 = 1) : (n + 1) % 2 = 0 := by
  have hn := congrArg UInt32.toNat h
  apply UInt32.toNat_inj.mp
  change (n.toNat + 1) % 2 ^ 32 % 2 = 0
  change n.toNat % 2 = 1 at hn
  omega

theorem Built.inTurn {base value : SmemGroupInfo} (h : Built base value)
    (hclose : value.curEvent.closes = true → base.version % 2 = 1) : InTurn value := by
  rcases h.event with ⟨hopens, hodd⟩ | hcloses
  · exact inTurn_of_opens hopens hodd
  · refine inTurn_of_closes hcloses ?_
    rw [h.version]
    exact even_succ_of_odd (hclose hcloses)

section

variable {log : List SmemGroupInfo} {base value : SmemGroupInfo}

variable (h : log.map (fun info => info.version.toNat) = range' 1 log.length)

include h

theorem versions_concat (hversion : value.version.toNat = log.length + 1) :
    (log ++ [value]).map (fun info => info.version.toNat) =
      range' 1 (log ++ [value]).length := by
  rw [map_append, h, length_append, length_singleton, range'_concat,
    map_singleton, hversion]
  simp [Nat.add_comm]

theorem version_getLast (hlast : log.getLast? = some base) : base.version.toNat = log.length := by
  obtain ⟨init, rfl⟩ := getLast?_eq_some_iff.mp hlast
  rw [map_append, length_append, length_singleton, range'_concat] at h
  have hlast := append_inj_right' h rfl
  simp only [map_singleton, cons.injEq, and_true] at hlast
  rw [length_append, length_singleton]
  omega

theorem Follows.version_toNat
    (hfollows : Follows log.getLast? value) (hlt : log.length + 1 < 2 ^ 32) :
    value.version.toNat = log.length + 1 := by
  cases hbase : log.getLast? with
  | none =>
    rw [hbase] at hfollows
    rw [hfollows.1.version, getLast?_eq_none_iff.mp hbase]
    rfl
  | some base =>
    rw [hbase] at hfollows
    rw [← version_getLast h hbase] at hlt ⊢
    rw [hfollows.version]
    exact Nat.mod_eq_of_lt hlt

end

/-- The versions of the infos that are stored, in order, and their events. -/
structure Serial (log : List SmemGroupInfo) : Prop where
  versions : log.map (fun info => info.version.toNat) = range' 1 log.length
  inTurn : ∀ info ∈ log, InTurn info

theorem Serial.concat {log : List SmemGroupInfo} {value : SmemGroupInfo} (h : Serial log)
    (hversion : value.version.toNat = log.length + 1) (hturn : InTurn value) :
    Serial (log ++ [value]) := by
  refine ⟨versions_concat h.versions hversion, fun info hinfo => ?_⟩
  rcases mem_append.mp hinfo with hinfo | hinfo
  · exact h.inTurn info hinfo
  · rwa [mem_singleton.mp hinfo]

/-- In every run in which events are only closed on a copy with an event in progress, the stored
infos have the versions 1, 2, 3 and so on, and the events are in progress exactly at the odd
ones. -/
theorem events_serialised {log : List SmemGroupInfo} {s : System}
    (h : Trace step ClosesOpenEvent System.start log s) :
    s.store = log.getLast? ∧
      log.map (fun info => info.version.toNat) = range' 1 log.length ∧
      ∀ info ∈ log, InTurn info := by
  obtain ⟨hserial, hstore⟩ := Trace.stored_invariant (P := Serial) h ⟨rfl, fun _ h => by cases h⟩
    fun log s i value hlog _ hlast hallowed hout hfollows => by
      cases hbase : log.getLast? with
      | none =>
        obtain rfl := getLast?_eq_none_iff.mp hbase
        refine hlog.concat (hfollows.version_toNat hlog.versions (by decide)) ?_
        obtain ⟨hbuilt, -, hjoin, -⟩ := hfollows
        refine hbuilt.inTurn fun hcloses => ?_
        rw [hjoin] at hcloses
        cases hcloses
      | some base =>
        have hstore := hlast.trans hbase
        obtain ⟨hclose, hlt⟩ := hallowed _ (request_of_stores hstore hout) base rfl hstore
        have hturn := hlog.inTurn base (mem_of_getLast? hbase)
        rw [version_getLast hlog.versions hbase] at hlt
        refine hlog.concat (hfollows.version_toNat hlog.versions (by omega)) ?_
        rw [hbase] at hfollows
        exact hfollows.inTurn fun hcloses => hturn.1.mpr (hclose hcloses)
  exact ⟨hstore, hserial.versions, hserial.inTurn⟩

theorem events_serialised_joinThenLeave :
    (run step System.start joinThenLeave).2.map SmemGroupInfo.curEvent =
        [.join, .null, .leave, .null] ∧
      ∀ info ∈ (run step System.start joinThenLeave).2, InTurn info :=
  ⟨by decide +kernel, (events_serialised (trace_run_of_allowed (by decide +kernel))).2.2⟩

open Input in
/-- Rank 0 begins to join, and its link breaks before it is told.  More than three seconds
later rank 1 finds rank 0 gone and stops the event.  The link of rank 0 is back, its
listener takes over the stopped event, and its `GroupJoin` times out and closes the event
once more. -/
def closedTwice : List Input :=
  [listen 0] ++ runs 0 .listener 3 ++ [watch 0] ++
  [listen 1] ++ runs 1 .listener 3 ++ [watch 1] ++
  -- `JOIN`, version 1
  [call 0 .join] ++ runs 0 .user 8 ++ [breakLink 0] ++
  [deliver 1] ++ runs 1 .listener 5 ++
  -- `STOP`, version 2
  [call 1 .join] ++ runs 1 .user 11 { nowUs := 3000001 } ++
  [reconnect 0] ++ runs 0 .reconnector 1 ++
  [listen 0] ++ runs 0 .listener 4 ++ [listen 0] ++ runs 0 .listener 3 ++
  [watch 0, deliver 0] ++ runs 0 .listener 5 ++
  -- `STOP`, version 3
  runs 0 .user 3

/-- The stopped event has an odd version: everybody takes it for an open one. -/
theorem closedTwice_not_inTurn :
    ∃ log s, Trace step (fun _ _ => True) System.start log s ∧
      ∃ info ∈ log, info.version = 3 ∧ info.curEvent = .stop ∧ ¬ InTurn info :=
  ⟨_, _, trace_run (fun _ _ => trivial) _ closedTwice, by decide +kernel⟩

/-- Whatever the interleaving, no update is lost: the store holds the last info that was
stored, the first one was built from nothing, and each later one from the one before it. -/
theorem stored_infos_chained (inputs : List Input) :
    let log := (run step System.start inputs).2
    (run step System.start inputs).1.store = log.getLast? ∧
      (∀ first ∈ log.head?, Follows none first) ∧ log.IsChain Built := by
  obtain ⟨hchain, hstore⟩ := Trace.stored_invariant
    (P := fun log => (∀ first ∈ log.head?, Follows none first) ∧ log.IsChain Built)
    (trace_run (fun _ _ => trivial) _ inputs) ⟨by simp, .nil⟩
    fun log s i value hlog _ _ _ _ hfollows => by
      refine ⟨?_, hlog.2.append (.singleton value) ?_⟩
      · cases log with
        | nil => simpa using hfollows
        | cons first rest => exact hlog.1
      · intro base hbase _ hvalue
        rw [Option.mem_def.mp hbase] at hfollows
        exact Option.some_inj.mp hvalue ▸ hfollows
  exact ⟨hstore, hchain⟩

/-! ## The size of a group

It is the number of the members as long as nobody is taken out twice.  A rank that another one
has taken out does not learn of it and can leave again. -/

def Counted (info : SmemGroupInfo) : Prop :=
  info.groupSize.toNat = (members info.joinedRanksBitmap).card

instance (info : SmemGroupInfo) : Decidable (Counted info) :=
  inferInstanceAs (Decidable (_ = _))

theorem counted_initial : Counted {} := by decide +kernel

section

variable {base value : SmemGroupInfo}

theorem Counted.unchanged (h : Counted base) (hvalue : Unchanged base value) : Counted value := by
  rw [Counted, hvalue.1, hvalue.2]
  exact h

theorem Counted.added (h : Counted base) (hvalue : Added base value) : Counted value := by
  obtain ⟨hsize, rank, hnot, hmembers⟩ := hvalue
  have hle := card_members_le base.joinedRanksBitmap
  rw [Counted, hsize, hmembers, Finset.card_insert_of_notMem hnot, UInt32.toNat_add, h]
  refine Nat.mod_eq_of_lt ?_
  simp only [maxRankCount] at hle
  change _ + 1 < 2 ^ 32
  omega

/-- The count stays right if the rank that is taken out was a member. -/
theorem Counted.removed (h : Counted base) (hvalue : Removed base value)
    (hmember : base.testBitmapForRank value.targetRank = true) : Counted value := by
  obtain ⟨hsize, hmembers⟩ := hvalue
  rw [SmemGroupInfo.testBitmapForRank_eq, ← mem_members] at hmember
  have hpos : 0 < (members base.joinedRanksBitmap).card := Finset.card_pos.mpr ⟨_, hmember⟩
  have hle : (1 : UInt32) ≤ base.groupSize := by
    rw [UInt32.le_iff_toNat_le, h]
    exact hpos
  rw [Counted, hsize, hmembers, Finset.card_erase_of_mem hmember, UInt32.toNat_sub_of_le _ _ hle, h]
  rfl

end

/-- A request that takes a rank out of the group was built from a copy with that rank in it, if
the copy is what is stored. -/
def RemovesMember (s : System) (i : Input) : Prop :=
  ∀ request ∈ s.request i, ∀ base ∈ request.1, s.store = some base →
    request.2.groupSize = base.groupSize - 1 → base.testBitmapForRank request.2.targetRank = true

instance (s : System) (i : Input) : Decidable (RemovesMember s i) :=
  inferInstanceAs (Decidable (∀ request ∈ s.request i, ∀ base ∈ request.1, _ → _ → _))

/-- In every run in which a rank is only taken out on a copy with that rank in it, every info that
is ever stored has the number of its members as its size. -/
theorem groupSize_counts {log : List SmemGroupInfo} {s : System}
    (h : Trace step RemovesMember System.start log s) : ∀ info ∈ log, Counted info := by
  refine (Trace.stored_invariant (P := fun log => ∀ info ∈ log, Counted info) h
    (fun _ h => by cases h) ?_).1
  intro log s i value hlog _ hlast hallowed hout hfollows
  have hvalue : Counted value := by
    cases hbase : log.getLast? with
    | none =>
      rw [hbase] at hfollows
      exact counted_initial.added hfollows.2.2.2
    | some base =>
      rw [hbase] at hfollows
      have hcounted := hlog base (List.mem_of_getLast? hbase)
      rcases hfollows.members with hsame | hadded | hremoved
      · exact hcounted.unchanged hsame
      · exact hcounted.added hadded
      · refine hcounted.removed hremoved ?_
        have hstore := hlast.trans hbase
        exact hallowed _ (request_of_stores hstore hout) base rfl hstore hremoved.1
  intro info hinfo
  rcases List.mem_append.mp hinfo with hinfo | hinfo
  · exact hlog info hinfo
  · rwa [List.mem_singleton.mp hinfo]

theorem groupSize_counts_joinThenLeave :
    (run step System.start joinThenLeave).2.map SmemGroupInfo.groupSize = [1, 1, 0, 0] ∧
      ∀ info ∈ (run step System.start joinThenLeave).2, Counted info :=
  ⟨by decide +kernel, groupSize_counts (trace_run_of_allowed (by decide +kernel))⟩

open Input in
/-- Rank 0 joins, rank 1 watches.  The link of rank 0 breaks; rank 1 takes rank 0 out of
the group.  The link of rank 0 is back, its listener takes over the group without it, and
rank 0, which has joined as far as it knows, leaves. -/
def evictedLeaves : List Input :=
  [listen 0] ++ runs 0 .listener 3 ++ [watch 0] ++
  [listen 1] ++ runs 1 .listener 3 ++ [watch 1] ++
  [listenLinks 1] ++ runs 1 .linkListener 3 ++ [watchDown 1] ++
  -- `JOIN`, version 1, and its end, version 2
  [call 0 .join] ++ runs 0 .user 8 ++
  [deliver 0] ++ runs 0 .listener 13 ++ runs 0 .user 6 ++
  [deliver 1, deliver 1] ++ runs 1 .listener 8 ++
  -- `LINK_DOWN`, version 3, and its end, version 4
  [breakLink 0, deliverDown 1] ++ runs 1 .linkListener 7 { attempts := 1 } ++
  [deliver 1, listen 1] ++ runs 1 .listener 10 ++ runs 1 .linkListener 5 ++
  -- the listener of rank 0 first finds that its watch has failed
  [reconnect 0] ++ runs 0 .reconnector 5 ++
  [listen 0] ++ runs 0 .listener 4 ++ [listen 0] ++ runs 0 .listener 3 ++
  [watch 0, deliver 0] ++ runs 0 .listener 4 ++
  -- `LEAVE`, version 5
  [call 0 .leave] ++ runs 0 .user 4

/-- The group without members gets the size `2 ^ 32 - 1`. -/
theorem evictedLeaves_not_counted :
    ∃ log s, Trace step (fun _ _ => True) System.start log s ∧ ∃ info ∈ log, ¬ Counted info := by
  have hsize : ∃ info ∈ (run step System.start evictedLeaves).2, info.groupSize = 4294967295 := by
    decide +kernel
  obtain ⟨info, hinfo, hsize⟩ := hsize
  refine ⟨_, _, trace_run (fun _ _ => trivial) _ evictedLeaves, info, hinfo, fun hcounted => ?_⟩
  have hle := card_members_le info.joinedRanksBitmap
  rw [← hcounted, hsize] at hle
  exact absurd hle (by decide)

end MemFabric.Smem.Group
