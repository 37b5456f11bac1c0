import MemFabric.Smem.Collective.Named

/-!
# Named calls beside each other

The ranks of a static group make calls under different names in any order.  As long as no
user takes the name of the calls without a key, the keys of different names are
different.  The list of keys to be removed is shared by all names: if the keys that are due
when a call is made are of its own name, it does not touch the keys of any other.
-/

namespace MemFabric.Smem.Collective

open Machine Wire Smem.Store NamedEngine Option List Function
open Smem.Group (smOk smError)

/-! ## Calls -/

inductive NamedCall
  | whole (c : Call)
  | barrier (key : Bytes) (rankSize rankId : UInt32)
  | allGather (key : Bytes) (rankSize rankId : UInt32) (sendBuf : Bytes) (recvSize : UInt32)
deriving DecidableEq

namespace NamedCall

def scope : NamedCall → Scope
  | .whole _ => none
  | .barrier key .. | .allGather key .. => some key

def channel : NamedCall → Channel
  | .whole c => c.channel
  | .barrier .. => .barrier
  | .allGather .. => .gather

def program (e : NamedEngine) : NamedCall → Program (Outcome × NamedEngine)
  | .whole c => do
    let (out, base) ← c.program e.base
    pure (out, { e with base })
  | .barrier key rankSize rankId => groupBarrierNamed key rankSize rankId e
  | .allGather key rankSize rankId sendBuf recvSize =>
    groupAllGatherNamed key rankSize rankId sendBuf recvSize e

def accepted (groupSize : UInt32) : NamedCall → Bool
  | .whole (.allGather sendBuf recvSize) =>
    decide (UInt32.ofNat sendBuf.length * groupSize = recvSize)
  | .whole _ => true
  | .barrier key rankSize rankId =>
    decide (key.length < userGroupKeyLenMax ∧ rankSize ≤ groupSize ∧ rankId < rankSize)
  | .allGather key rankSize rankId sendBuf recvSize =>
    decide (key.length < userGroupKeyLenMax ∧ rankSize ≤ groupSize ∧ rankId < rankSize ∧
      UInt32.ofNat sendBuf.length * rankSize = recvSize)

end NamedCall

open NamedCall

/-! ## What a call does -/

section Programs

variable {e : NamedEngine}

structure After (c : NamedCall) (e e' : NamedEngine) : Prop where
  groupVersion : e'.base.groupVersion = e.base.groupVersion
  groupSize : e'.base.groupSize = e.base.groupSize
  sn : ∀ scope ch, e'.sn scope ch =
    if scope = c.scope ∧ ch = c.channel then e.sn scope ch + 1 else e.sn scope ch

def Does (c : NamedCall) (e : NamedEngine) (p : Program (Outcome × NamedEngine)) : Prop :=
  Prog.All (OwnAccess c.scope.keyStart c.channel (e.sn c.scope c.channel + 1)
    e.base.delayCleanKeyList) (fun out => After c e out.2) p

variable {c : NamedCall} {key : Bytes} {rankSize rankId : UInt32}

theorem after_whole (c : Call) (keys : List Bytes) :
    After (.whole c) e { e with base :=
      { e.base.nextSn c.channel with delayCleanKeyList := keys } } where
  groupVersion := by cases c <;> rfl
  groupSize := by cases c <;> rfl
  sn := by
    intro scope ch
    cases scope with
    | none =>
      have hsn : ({ e.base.nextSn c.channel with delayCleanKeyList := keys } : Engine).sn ch =
          (e.base.nextSn c.channel).sn ch := by cases ch <;> rfl
      simp only [sn, scope, channel, hsn, sn_nextSn, true_and]
    | some key =>
      rfl

theorem keyStart_whole (hv : e.base.groupVersion = 0) : e.base.keyStart = Scope.keyStart none := by
  rw [Engine.keyStart, hv]
  rfl

theorem does_gather (c : Call) (hch : c.channel = .gather) (hv : e.base.groupVersion = 0)
    (input : Bytes) {read : Bytes → Program (Option Bytes)}
    (hread : ∀ key P, (∀ a : Act, a.isRemove = false → a.key = key → P a) →
      Prog.All P (fun _ => True) (read key)) (finish : Bytes → Outcome) :
    Does (.whole c) e (do
      let (out, base) ← gather input read finish e.base
      pure (out, { e with base })) := by
  rw [gather_eq]
  unfold Does
  simp only [channel, hch]
  rw [keyStart_nextSn, keyStart_whole hv, sn_nextSn, if_pos rfl, delayCleanKeyList_nextSn,
    Prog.bind_assoc]
  refine (all_gatherOn _ input hread finish).bind fun out _ => ?_
  have hafter := after_whole (e := e) c out.2
  rw [hch] at hafter
  exact hafter

theorem does_barrier (hv : e.base.groupVersion = 0) :
    Does (.whole .barrier) e (do
      let (out, base) ← groupBarrier e.base
      pure (out, { e with base })) := by
  rw [groupBarrier_eq]
  dsimp only
  rw [keyStart_nextSn, keyStart_whole hv, sn_nextSn, if_pos rfl, delayCleanKeyList_nextSn,
    Prog.bind_assoc]
  exact (all_barrierOn _).bind fun out _ => after_whole .barrier out.2

theorem userSn_nextUserSn (e : NamedEngine) (key key' : Bytes) (ch ch' : Channel) :
    (e.nextUserSn key ch).userSn key' ch' =
      if key' = key ∧ ch' = ch then e.userSn key' ch' + 1 else e.userSn key' ch' := by
  cases ch <;> cases ch' <;>
    simp only [nextUserSn, userSn, Table.lookup_insert_eq, reduceCtorEq,
      and_true, and_false, if_false]
  all_goals
    split_ifs with hkey
    · rw [hkey, getD_some]
    · rfl

theorem base_nextUserSn (e : NamedEngine) (key : Bytes) (ch : Channel) :
    (e.nextUserSn key ch).base = e.base := by
  cases ch <;> rfl

theorem after_named (hscope : c.scope = some key) (keys : List Bytes) :
    After c e ((e.nextUserSn key c.channel).withKeys keys) where
  groupVersion := by simp only [withKeys, base_nextUserSn]
  groupSize := by simp only [withKeys, base_nextUserSn]
  sn := by
    intro scope ch
    cases scope with
    | none =>
      rw [if_neg (by simp [hscope])]
      simp only [withKeys, base_nextUserSn]
      cases ch <;> rfl
    | some key' =>
      have hsn : ((e.nextUserSn key c.channel).withKeys keys).userSn key' ch =
          (e.nextUserSn key c.channel).userSn key' ch := by cases ch <;> rfl
      simp only [sn, hsn, userSn_nextUserSn, hscope, some.injEq]

theorem does_barrierNamed (hok : namedArgsOk key rankSize rankId e = true) :
    Does (.barrier key rankSize rankId) e (groupBarrierNamed key rankSize rankId e) := by
  unfold groupBarrierNamed
  rw [if_pos hok]
  dsimp only
  rw [userSn_nextUserSn, if_pos ⟨rfl, rfl⟩]
  exact (all_barrierOn _).bind fun out _ => after_named rfl out.2

theorem does_allGatherNamed {sendBuf : Bytes} {recvSize : UInt32}
    (hok : namedArgsOk key rankSize rankId e = true ∧
      UInt32.ofNat sendBuf.length * rankSize = recvSize) :
    Does (.allGather key rankSize rankId sendBuf recvSize) e
      (groupAllGatherNamed key rankSize rankId sendBuf recvSize e) := by
  unfold groupAllGatherNamed
  rw [if_pos hok]
  dsimp only
  rw [userSn_nextUserSn, if_pos ⟨rfl, rfl⟩]
  exact (all_gatherOn _ _ all_get _).bind fun out _ => after_named rfl out.2

theorem program_eq (h : c.accepted e.base.groupSize = false) :
    c.program e = .ret ({ ret := smInvalidParam }, e) := by
  cases c with
  | whole c =>
    cases c with
    | barrier => cases h
    | gatherResult localRet => cases h
    | allGather sendBuf recvSize =>
      rw [accepted, decide_eq_false_iff_not] at h
      simp only [program, Call.program, groupAllGather, if_neg h]
      rfl
  | barrier key rankSize rankId =>
    rw [accepted] at h
    simp only [program, groupBarrierNamed, namedArgsOk, h]
    rfl
  | allGather key rankSize rankId sendBuf recvSize =>
    rw [accepted, decide_eq_false_iff_not] at h
    rw [program, groupAllGatherNamed, if_neg]
    · rfl
    · rintro ⟨hargs, hsize⟩
      obtain ⟨hkey, hrank, hid⟩ := of_decide_eq_true hargs
      exact h ⟨hkey, hrank, hid, hsize⟩

theorem does_program (hv : e.base.groupVersion = 0)
    (h : c.accepted e.base.groupSize = true) : Does c e (c.program e) := by
  cases c with
  | whole c =>
    cases c with
    | barrier => exact does_barrier hv
    | gatherResult localRet => exact does_gather _ rfl hv _ all_tryGet _
    | allGather sendBuf recvSize =>
      simp only [program, Call.program, groupAllGather,
        if_pos (of_decide_eq_true h)]
      exact does_gather _ rfl hv _ all_get _
  | barrier key rankSize rankId => exact does_barrierNamed h
  | allGather key rankSize rankId sendBuf recvSize =>
    obtain ⟨hkey, hrank, hid, hsize⟩ := of_decide_eq_true h
    exact does_allGatherNamed ⟨decide_eq_true ⟨hkey, hrank, hid⟩, hsize⟩

end Programs

/-! ## The ranks -/

structure NamedMember where
  engine : NamedEngine
  running : Option (NamedCall × Program (Outcome × NamedEngine)) := none

structure NamedSystem where
  kv : Table Bytes Bytes := ∅
  members : Nat → NamedMember

namespace NamedSystem

def start (n : UInt32) (rank : Nat → UInt32) : NamedSystem :=
  { members := fun i => { engine := { base := { rank := rank i, groupSize := n } } } }

def setMember (s : NamedSystem) (i : Nat) (m : NamedMember) : NamedSystem :=
  { s with members := update s.members i m }

inductive Input
  | call (i : Nat) (c : NamedCall)
  | exec (i : Nat)

inductive Event
  | called (i : Nat) (c : NamedCall)
  | accessed (i : Nat) (a : Act)
  | returned (i : Nat) (c : NamedCall) (o : Outcome)
deriving DecidableEq

def step (s : NamedSystem) : Input → NamedSystem × List Event
  | .call i c =>
    match (s.members i).running with
    | some _ => (s, [])
    | none =>
      let e := (s.members i).engine
      (s.setMember i ⟨e, some (c, c.program e)⟩, [.called i c])
  | .exec i =>
    match (s.members i).running with
    | none => (s, [])
    | some (c, .ret out) => (s.setMember i ⟨out.2, none⟩, [.returned i c out.1])
    | some (c, .act a k) =>
      match serve s.kv a with
      | none => (s, [])
      | some (r, kv) =>
        ({ s with kv }.setMember i ⟨(s.members i).engine, some (c, k r)⟩, [.accessed i a])

/-! ## Numbers of calls -/

def rounds (n : UInt32) (log : List Event) (i : Nat) (scope : Scope) (ch : Channel) : Nat :=
  log.countP fun
    | .called j c => decide (j = i ∧ c.accepted n = true ∧ c.scope = scope ∧ c.channel = ch)
    | _ => false

/-- A call accesses keys of its own name only, and those of its round unless it removes one. -/
def Fair (r : Scope → Channel → Nat) (c : NamedCall) (a : Act) : Prop :=
  ∃ slot ch m, a.key = c.scope.keyAt slot ch m ∧
    (a.isRemove = false → ch = c.channel ∧ m = r c.scope c.channel % 2 ^ 32)

/-- The keys that are due when the call is made are of its own name. -/
def CleansOwn (e : NamedEngine) (c : NamedCall) : Prop :=
  ∀ key ∈ due e.base.delayCleanKeyList, ∃ slot ch m, key = c.scope.keyAt slot ch m

structure Settled (n : UInt32) (r : Scope → Channel → Nat) (e : NamedEngine) : Prop where
  groupVersion : e.base.groupVersion = 0
  groupSize : e.base.groupSize = n
  sn : ∀ scope ch, e.sn scope ch = UInt32.ofNat (r scope ch)

def MemberOk (n : UInt32) (r : Scope → Channel → Nat) (m : NamedMember) : Prop :=
  match m.running with
  | none => Settled n r m.engine
  | some (c, p) => Prog.All (Fair r c) (fun out => Settled n r out.2) p

section

variable {n : UInt32} {r : Scope → Channel → Nat} {c : NamedCall} {e : NamedEngine}

def counted (n : UInt32) (c : NamedCall) (r : Scope → Channel → Nat) (scope : Scope)
    (ch : Channel) : Nat :=
  if c.accepted n = true ∧ scope = c.scope ∧ ch = c.channel then r scope ch + 1 else r scope ch

theorem Settled.call (h : Settled n r e) (hclean : CleansOwn e c) :
    Prog.All (Fair (counted n c r) c) (fun out => Settled n (counted n c r) out.2)
      (c.program e) := by
  cases hacc : c.accepted n with
  | false =>
    rw [program_eq (by rw [h.groupSize, hacc])]
    have hsame : counted n c r = r := by
      funext scope ch
      exact if_neg (by simp [hacc])
    rw [hsame]
    exact h
  | true =>
    have hnum : e.sn c.scope c.channel + 1 = UInt32.ofNat (counted n c r c.scope c.channel) := by
      rw [h.sn, counted, if_pos ⟨hacc, rfl, rfl⟩, UInt32.ofNat_add]
      rfl
    refine (does_program h.groupVersion (by rw [h.groupSize, hacc])).imp ?_ ?_
    · intro a ha
      unfold OwnAccess at ha
      split_ifs at ha with hremove
      · obtain ⟨slot, ch, m, hkey⟩ := hclean a.key ha
        exact ⟨slot, ch, m, hkey,
          fun hnot => absurd hremove (by rw [hnot]; exact Bool.false_ne_true)⟩
      · obtain ⟨slot, hkey⟩ := ha
        refine ⟨slot, _, _, ?_, fun _ => ⟨rfl, rfl⟩⟩
        rw [hkey, hnum]
        rfl
    · intro out hafter
      refine ⟨hafter.groupVersion.trans h.groupVersion, hafter.groupSize.trans h.groupSize,
        fun scope ch => ?_⟩
      rw [hafter.sn, counted, h.sn]
      simp only [hacc, true_and]
      split_ifs
      · rw [UInt32.ofNat_add]
        rfl
      · rfl

end

/-! ## Runs -/

section Runs

variable {n : UInt32} {log : List Event} {s : NamedSystem}

theorem rounds_append_called (i j : Nat) (c : NamedCall) :
    rounds n (log ++ [.called j c]) i =
      if j = i then counted n c (rounds n log i) else rounds n log i := by
  funext scope ch
  unfold rounds
  rw [countP_append, countP_singleton]
  by_cases hj : j = i
  · subst hj
    have hiff : (j = j ∧ c.accepted n = true ∧ c.scope = scope ∧ c.channel = ch) ↔
        c.accepted n = true ∧ scope = c.scope ∧ ch = c.channel :=
      ⟨fun h => ⟨h.2.1, h.2.2.1.symm, h.2.2.2.symm⟩, fun h => ⟨rfl, h.1, h.2.1.symm, h.2.2.symm⟩⟩
    rw [if_pos rfl, counted]
    by_cases hc : c.accepted n = true ∧ scope = c.scope ∧ ch = c.channel
    · rw [if_pos hc, if_pos (decide_eq_true (hiff.mpr hc))]
    · rw [if_neg hc, if_neg (by simpa using mt hiff.mp hc), Nat.add_zero]
  · simp [hj]

theorem rounds_append_accessed (i j : Nat) (a : Act) :
    rounds n (log ++ [.accessed j a]) i = rounds n log i := by
  funext scope ch
  simp [rounds]

theorem rounds_append_returned (i j : Nat) (c : NamedCall) (o : Outcome) :
    rounds n (log ++ [.returned j c o]) i = rounds n log i := by
  funext scope ch
  simp [rounds]

/-- No user takes the name of the group, and the keys that are due at a call are of its name. -/
def OtherName (s : NamedSystem) : Input → Prop
  | .call i c => c.scope ≠ some (decimal 0) ∧ CleansOwn (s.members i).engine c
  | .exec _ => True

/-- All members are as they should be, and the names are those of users. -/
structure Inv (n : UInt32) (log : List Event) (s : NamedSystem) : Prop where
  member : ∀ i, MemberOk n (rounds n log i) (s.members i)
  running : ∀ i c p, (s.members i).running = some (c, p) → c.scope ≠ some (decimal 0)

theorem inv_start (rank : Nat → UInt32) : Inv n [] (start n rank) where
  member := by
    intro i
    refine ⟨rfl, rfl, fun scope ch => ?_⟩
    cases scope <;> cases ch <;> rfl
  running := by simp [start]

variable {i : Nat} {c : NamedCall} {scope : Scope} {ch : Channel}

/-- One member moves on with an event that takes no number. -/
theorem Inv.setMember (h : Inv n log s) {kv : Table Bytes Bytes} {m : NamedMember} {ev : Event}
    (hrounds : ∀ j, rounds n (log ++ [ev]) j = rounds n log j)
    (hm : MemberOk n (rounds n log i) m)
    (hrunning : ∀ c p, m.running = some (c, p) → ∃ p', (s.members i).running = some (c, p')) :
    Inv n (log ++ [ev]) ({ s with kv }.setMember i m) where
  member := by
    intro j
    rw [hrounds, NamedSystem.setMember]
    dsimp only
    rw [update_apply]
    split_ifs with hj
    · rw [hj]
      exact hm
    · exact h.member j
  running := by
    intro j c p hp
    rw [NamedSystem.setMember] at hp
    dsimp only at hp
    rw [update_apply] at hp
    split_ifs at hp with hj
    · obtain ⟨p', hp'⟩ := hrunning c p hp
      exact h.running i c p' hp'
    · exact h.running j c p hp

theorem Inv.call (h : Inv n log s) (hidle : (s.members i).running = none)
    (hname : c.scope ≠ some (decimal 0)) (hclean : CleansOwn (s.members i).engine c) :
    Inv n (log ++ [.called i c])
      (s.setMember i ⟨(s.members i).engine, some (c, c.program (s.members i).engine)⟩) where
  member := by
    intro j
    have hmember := h.member j
    rw [rounds_append_called, NamedSystem.setMember]
    dsimp only
    rw [update_apply]
    by_cases hj : j = i
    · subst hj
      rw [MemberOk, hidle] at hmember
      rw [if_pos rfl, if_pos rfl]
      exact Settled.call hmember hclean
    · rw [if_neg hj, if_neg (Ne.symm hj)]
      exact hmember
  running := by
    intro j c' p hp
    rw [NamedSystem.setMember] at hp
    dsimp only at hp
    rw [update_apply] at hp
    split_ifs at hp
    · obtain ⟨rfl, -⟩ := Prod.mk.inj (some.inj hp)
      exact hname
    · exact h.running j c' p hp

theorem Inv.step (h : Inv n log s) {i : Input} (hi : OtherName s i) :
    Inv n (log ++ (step s i).2) (step s i).1 := by
  cases i with
  | call i c =>
    unfold NamedSystem.step
    dsimp only
    split
    · rw [append_nil]
      exact h
    · next hidle => exact h.call hidle hi.1 hi.2
  | exec i =>
    have hmember := h.member i
    unfold NamedSystem.step
    dsimp only
    split
    · rw [append_nil]
      exact h
    · next c out hrunning =>
      rw [MemberOk, hrunning] at hmember
      exact h.setMember (fun j => rounds_append_returned j i c out.1) hmember
        fun _ _ hp => by cases hp
    · next c a k hrunning =>
      rw [MemberOk, hrunning] at hmember
      split
      · rw [append_nil]
        exact h
      · next r kv hserve =>
        refine h.setMember (fun j => rounds_append_accessed j i a) (hmember.2 r)
          fun c' p hp => ?_
        obtain ⟨rfl, -⟩ := Prod.mk.inj (some.inj hp)
        exact ⟨_, hrunning⟩

theorem inv_of_trace {rank : Nat → UInt32} (h : Trace step OtherName (start n rank) log s) :
    Inv n log s :=
  h.invariant (inv_start rank) fun _ _ _ hs hi => hs.step hi

/-! ## Independence -/

theorem lookup_serve {kv kv' : Table Bytes Bytes} {a : Act} {r : Resp a}
    (h : serve kv a = some (r, kv')) {key : Bytes} (hne : key ≠ a.key) :
    kv'.lookup key = kv.lookup key := by
  cases a with
  | add k increment =>
    obtain rfl := congrArg Prod.snd (some.inj h)
    unfold storeAdd
    split
    · exact AList.lookup_insert_ne hne
    · split
      · rfl
      · split_ifs
        · rfl
        · rfl
        · exact AList.lookup_insert_ne hne
  | append k value =>
    obtain rfl := congrArg Prod.snd (some.inj h)
    exact AList.lookup_insert_ne hne
  | set k value =>
    obtain rfl := congrArg Prod.snd (some.inj h)
    exact AList.lookup_insert_ne hne
  | get k =>
    obtain ⟨v, -, hv⟩ := map_eq_some_iff.mp h
    obtain rfl := congrArg Prod.snd hv
    rfl
  | tryGet k =>
    obtain rfl := congrArg Prod.snd (some.inj h)
    rfl
  | remove k =>
    obtain rfl := congrArg Prod.snd (some.inj h)
    exact AList.lookup_erase_ne hne

theorem scope_eq_of_name {scope' : Scope} (h : scope ≠ some (decimal 0))
    (h' : scope' ≠ some (decimal 0)) (hname : scope.name = scope'.name) : scope = scope' := by
  cases scope with
  | none =>
    cases scope' with
    | none => rfl
    | some key => exact absurd (congrArg some hname.symm) h'
  | some key =>
    cases scope' with
    | none => exact absurd (congrArg some hname) h
    | some key' => exact congrArg some hname

/-- The calls of different scopes have nothing to do with each other: their keys are
different, a call accesses keys of its own scope only, those of its round unless it removes one,
and it leaves the keys of other scopes as they are. -/
structure Independent (n : UInt32) (log : List Event) (s : NamedSystem) : Prop where
  distinct : ∀ (scope scope' : Scope) (slot slot' : Slot) (ch ch' : Channel) (m m' : Nat),
    scope ≠ some (decimal 0) → scope' ≠ some (decimal 0) →
    scope.keyAt slot ch m = scope'.keyAt slot' ch' m' →
      scope = scope' ∧ slot = slot' ∧ ch = ch' ∧ m = m'
  own : ∀ i c a k, (s.members i).running = some (c, .act a k) → ∃ slot ch m,
    a.key = c.scope.keyAt slot ch m ∧
      (a.isRemove = false → ch = c.channel ∧ m = rounds n log i c.scope c.channel % 2 ^ 32)
  others : ∀ i c p, (s.members i).running = some (c, p) →
    ∀ (scope : Scope) (slot : Slot) (ch : Channel) (m : Nat),
      scope ≠ c.scope → scope ≠ some (decimal 0) →
      (step s (.exec i)).1.kv.lookup (scope.keyAt slot ch m) = s.kv.lookup (scope.keyAt slot ch m)

theorem Inv.own (h : Inv n log s) {a : Act} {k : Resp a → Program (Outcome × NamedEngine)}
    (hrunning : (s.members i).running = some (c, .act a k)) : Fair (rounds n log i) c a := by
  have hmember := h.member i
  rw [MemberOk, hrunning] at hmember
  exact hmember.1

theorem Inv.others (h : Inv n log s) {p : Program (Outcome × NamedEngine)}
    (hrunning : (s.members i).running = some (c, p)) {slot : Slot} {m : Nat}
    (hscope : scope ≠ c.scope) (hname : scope ≠ some (decimal 0)) :
    (NamedSystem.step s (.exec i)).1.kv.lookup (scope.keyAt slot ch m) =
      s.kv.lookup (scope.keyAt slot ch m) := by
  unfold NamedSystem.step
  dsimp only
  rw [hrunning]
  cases p with
  | ret out => rfl
  | act a k =>
    dsimp only
    cases hserve : serve s.kv a with
    | none => rfl
    | some out =>
      refine lookup_serve hserve fun hkey => hscope ?_
      obtain ⟨slot', ch', m', hkey', -⟩ := h.own hrunning
      obtain ⟨hnames, -⟩ := Scope.keyAt_inj (hkey.trans hkey')
      exact scope_eq_of_name hname (h.running i c _ hrunning) hnames

/-- If no user takes the name of the group and every call finds only keys of its own name due
for removal, then the calls of different names are independent. -/
theorem scopes_independent {rank : Nat → UInt32}
    (h : Trace step OtherName (start n rank) log s) : Independent n log s := by
  have hinv := inv_of_trace h
  refine ⟨?_, fun i c a k hrunning => hinv.own hrunning,
    fun i c p hrunning scope slot ch m hscope hname => hinv.others hrunning hscope hname⟩
  intro scope scope' slot slot' ch ch' m m' hname hname' hkey
  obtain ⟨hnames, hrest⟩ := Scope.keyAt_inj hkey
  exact ⟨scope_eq_of_name hname hname' hnames, hrest⟩

end Runs

/-! ### Two ranks, a barrier without a name and one with a name -/

def scopesSchedule (key : Bytes) : List Input :=
  [.call 0 (.whole .barrier), .exec 0, .call 1 (.barrier key 2 1), .exec 1, .exec 1, .exec 1,
    .exec 1, .exec 0, .exec 0]

theorem scopes_independent_two :
    Independent 2 (run step (start 2 fun i => UInt32.ofNat i) (scopesSchedule (ascii "a"))).2
      (run step (start 2 fun i => UInt32.ofNat i) (scopesSchedule (ascii "a"))).1 := by
  have hname : some (ascii "a") ≠ some (decimal 0) := by decide
  have hnone : ∀ {e : NamedEngine} {c : NamedCall}, due e.base.delayCleanKeyList = [] →
      CleansOwn e c := fun hdue key hkey => absurd (hdue ▸ hkey) not_mem_nil
  exact scopes_independent (trace_run_of_allowed
    ⟨⟨(fun heq => by cases heq), hnone rfl⟩, trivial, ⟨hname, hnone rfl⟩, trivial, trivial, trivial,
      trivial, trivial, trivial, trivial⟩)

/-- A barrier under the name `0` lets the barrier of the whole group return, although the
second rank has not come to it. -/
theorem named_releases_whole :
    ∃ log s, Trace step (fun _ _ => True) (start 2 fun i => UInt32.ofNat i) log s ∧
      .returned 0 (.whole .barrier) { ret := smOk } ∈ log ∧
      .called 1 (.whole .barrier) ∉ log ∧
      Scope.keyAt none .add .barrier 1 = Scope.keyAt (some (ascii "0")) .add .barrier 1 :=
  ⟨_, _, trace_run (fun _ _ => trivial) _ (scopesSchedule (ascii "0")), by decide +kernel,
    by decide +kernel, by decide⟩

end NamedSystem

end MemFabric.Smem.Collective
