import MemFabric.Smem.Collective.Keys

/-!
# Collective calls with a name

`GroupBarrier` and `GroupAllGather` with a key of the user.  They do what the calls
without a key do, with the key in the place of the version of the group and with numbers
of their own; the list of keys to be removed is shared.  A call without a key is a call
under the name `to_string(groupVersion_)`, and a user may choose that name too.
-/

namespace MemFabric.Smem.Collective

open Machine Wire Smem.Store List
open Smem.Group (smOk smError)

/-! ## Names -/

/-- The user's key, or none for the calls of the whole group. -/
abbrev Scope := Option Bytes

/-- What stands for the scope in a key; a static group has version 0. -/
def Scope.name (scope : Scope) : Bytes := scope.getD (decimal 0)

def Scope.keyStart (scope : Scope) : Bytes := scope.name ++ ascii "_"

def Scope.keyAt (scope : Scope) (slot : Slot) (ch : Channel) (m : Nat) : Bytes :=
  scope.keyStart ++ decimal m ++ slot.suffix ch

/-- A text ends with the digits of a number, which come after something else. -/
theorem append_decimal_inj {a b : Bytes} {m n : Nat} {sep : UInt8} (hsep : isDigit sep = false)
    (h : a ++ [sep] ++ decimal m = b ++ [sep] ++ decimal n) : a = b ∧ m = n := by
  have hrev := congrArg reverse h
  simp only [reverse_append] at hrev
  have hdigits : ∀ n : Nat, ∀ c ∈ (decimal n).reverse, isDigit c = true :=
    fun n c hc => isDigit_of_mem_decimal (mem_reverse.mp hc)
  have htake := congrArg (takeWhile isDigit) hrev
  rw [takeWhile_digits (hdigits m) (by simp [hsep]), takeWhile_digits (hdigits n) (by simp [hsep])]
    at htake
  obtain rfl := decimal_inj (reverse_injective htake)
  exact ⟨append_cancel_right (append_cancel_right h), rfl⟩

theorem length_suffix (slot : Slot) (ch : Channel) : (slot.suffix ch).length = 3 := by
  cases slot <;> cases ch <;> decide

/-- Keys are equal only for the same name, slot, channel and number. -/
theorem Scope.keyAt_inj {scope scope' : Scope} {slot slot' : Slot} {ch ch' : Channel} {m m' : Nat}
    (h : scope.keyAt slot ch m = scope'.keyAt slot' ch' m') :
    scope.name = scope'.name ∧ slot = slot' ∧ ch = ch' ∧ m = m' := by
  obtain ⟨hstart, hsuffix⟩ := append_inj' h (by rw [length_suffix, length_suffix])
  obtain ⟨hslot, hch⟩ := suffix_inj hsuffix
  obtain ⟨hname, hm⟩ := append_decimal_inj (by decide) hstart
  exact ⟨hname, hslot, hch, hm⟩

/-! ## Calls on a scope -/

section

variable (start : Bytes) (ch : Channel) (sn : UInt32)

def cleanOn (first : Bool) (keys : List Bytes) : Program (List Bytes) :=
  if first ∧ sn > removeInterval then do
    let delSn := sn - removeInterval
    let keys ← groupOldKeyDelayClean start ch.addSuffix delSn delSn delayCleanCount keys
    groupOldKeyDelayClean start ch.waitSuffix delSn delSn delayCleanCount keys
  else pure keys

def addKeyOn : Bytes := start ++ decimal sn.toNat ++ ch.addSuffix

def waitKeyOn : Bytes := start ++ decimal sn.toNat ++ ch.waitSuffix

def announceOn (last : Bool) : Program Unit :=
  if last then perform (.set (waitKeyOn start ch sn) groupSetStr) else pure ()

def settleOn (first last : Bool) (keys : List Bytes) : Program (Bool × List Bytes) := do
  let keys ← cleanOn start ch sn first keys
  announceOn start ch sn last
  let getVal ← perform (.get (waitKeyOn start ch sn))
  pure (decide (getVal = groupSetStr), keys)

def barrierOn (size : Nat) (keys : List Bytes) : Program (Outcome × List Bytes) := do
  match ← perform (.add (addKeyOn start .barrier sn) 1) with
  | none => pure ({ ret := smError }, keys)
  | some val => do
    let (ok, keys) ← settleOn start .barrier sn (decide (val = 1)) (decide (val = size)) keys
    pure ({ ret := if ok then smOk else smError }, keys)

def gatherOn (size : Nat) (input : Bytes) (read : Bytes → Program (Option Bytes))
    (finish : Bytes → Outcome) (keys : List Bytes) : Program (Outcome × List Bytes) := do
  let val ← perform (.append (addKeyOn start .gather sn) input)
  let (ok, keys) ← settleOn start .gather sn (decide (val = input.length))
    (decide (val = input.length * size)) keys
  if ok then do
    let output ← read (addKeyOn start .gather sn)
    pure (match output with
      | none => { ret := smError }
      | some output =>
        if output.length = input.length * size then finish output else { ret := smError }, keys)
  else pure ({ ret := smError }, keys)

end

/-! ## The calls of the source -/

def userGroupKeyLenMax : Nat := 64

structure NamedEngine where
  base : Engine
  userGroupBarrierSn : Table Bytes UInt32 := ∅
  userGroupGatherSn : Table Bytes UInt32 := ∅

namespace NamedEngine

variable (e : NamedEngine)

def userSn (key : Bytes) : Channel → UInt32
  | .barrier => (e.userGroupBarrierSn.lookup key).getD 0
  | .gather => (e.userGroupGatherSn.lookup key).getD 0

/-- `++localSn`. -/
def nextUserSn (key : Bytes) : Channel → NamedEngine
  | .barrier => { e with userGroupBarrierSn :=
      e.userGroupBarrierSn.insert key (e.userSn key .barrier + 1) }
  | .gather => { e with userGroupGatherSn :=
      e.userGroupGatherSn.insert key (e.userSn key .gather + 1) }

def sn : Scope → Channel → UInt32
  | none, ch => e.base.sn ch
  | some key, ch => e.userSn key ch

def withKeys (keys : List Bytes) : NamedEngine :=
  { e with base := { e.base with delayCleanKeyList := keys } }

end NamedEngine

def namedArgsOk (key : Bytes) (rankSize rankId : UInt32) (e : NamedEngine) : Bool :=
  decide (key.length < userGroupKeyLenMax ∧ rankSize ≤ e.base.groupSize ∧ rankId < rankSize)

def groupBarrierNamed (key : Bytes) (rankSize rankId : UInt32) (e : NamedEngine) :
    Program (Outcome × NamedEngine) :=
  if namedArgsOk key rankSize rankId e then do
    let e := e.nextUserSn key .barrier
    let (out, keys) ← barrierOn (key ++ ascii "_") (e.userSn key .barrier) rankSize.toNat
      e.base.delayCleanKeyList
    pure (out, e.withKeys keys)
  else pure ({ ret := smInvalidParam }, e)

/-- `GroupAllGather(key, rankSize, rankId, sendBuf, ...)`. -/
def groupAllGatherNamed (key : Bytes) (rankSize rankId : UInt32) (sendBuf : Bytes)
    (recvSize : UInt32) (e : NamedEngine) : Program (Outcome × NamedEngine) :=
  if namedArgsOk key rankSize rankId e ∧ UInt32.ofNat sendBuf.length * rankSize = recvSize then do
    let e := e.nextUserSn key .gather
    let (out, keys) ← gatherOn (key ++ ascii "_") (e.userSn key .gather) rankSize.toNat
      (gatherInput rankId sendBuf)
      (fun key => do
        let output ← perform (.get key)
        pure (some output))
      (fun output =>
        { ret := smOk, recvBuf := sortGatherRecv output sendBuf.length rankSize.toNat })
      e.base.delayCleanKeyList
    pure (out, e.withKeys keys)
  else pure ({ ret := smInvalidParam }, e)

/-! ### Calls without a name -/

theorem groupBarrier_eq (e : Engine) :
    groupBarrier e = (do
      let e := e.nextSn .barrier
      let (out, keys) ← barrierOn e.keyStart (e.sn .barrier) e.groupSize.toNat e.delayCleanKeyList
      pure (out, { e with delayCleanKeyList := keys })) := by
  refine congrArg (Prog.act _) (funext fun val => ?_)
  cases val with
  | none => rfl
  | some val =>
    change (settle _ _ _ _ >>= _) = ((settleOn _ _ _ _ _ _ >>= _) >>= _)
    rw [Prog.bind_assoc]
    rfl

theorem gather_eq (input : Bytes) (read : Bytes → Program (Option Bytes))
    (finish : Bytes → Outcome) (e : Engine) :
    gather input read finish e = (do
      let e := e.nextSn .gather
      let (out, keys) ← gatherOn e.keyStart (e.sn .gather) e.groupSize.toNat input read finish
        e.delayCleanKeyList
      pure (out, { e with delayCleanKeyList := keys })) := by
  refine congrArg (Prog.act _) (funext fun val => ?_)
  change (settle _ _ _ _ >>= _) = ((settleOn _ _ _ _ _ _ >>= _) >>= _)
  rw [Prog.bind_assoc]
  refine congrArg _ (funext fun out => ?_)
  obtain ⟨ok, keys⟩ := out
  cases ok with
  | false => rfl
  | true =>
    change (read _ >>= _) = ((read _ >>= _) >>= _)
    rw [Prog.bind_assoc]
    rfl

/-! ## Which keys a call uses -/

/-- The keys at the front of the list that a call removes when it queues two more. -/
def due (keys : List Bytes) : List Bytes := keys.take (keys.length + 2 - delayCleanCount)

/-- A call reads and writes its own two keys, and removes only keys that are due. -/
def OwnAccess (start : Bytes) (ch : Channel) (sn : UInt32) (keys : List Bytes) (a : Act) : Prop :=
  if a.isRemove then a.key ∈ due keys
  else ∃ slot : Slot, a.key = start ++ decimal sn.toNat ++ slot.suffix ch

section

variable {start : Bytes} {ch : Channel} {sn : UInt32} {keys : List Bytes}

theorem all_removeAll {α : Type} {P : Act → Prop} {Q : α → Prop} {l : List Bytes} {p : Program α}
    (hl : ∀ key ∈ l, P (.remove key)) (hp : Prog.All P Q p) : Prog.All P Q (removeAll l p) := by
  induction l with
  | nil => exact hp
  | cons key l ih =>
    exact ⟨hl key mem_cons_self, fun _ => ih fun k hk => hl k (mem_cons_of_mem _ hk)⟩

theorem due_of_overdue {k key : Bytes} (h : key ∈ overdue (keys ++ [k])) : key ∈ due keys := by
  have hlen : (keys ++ [k]).length - delayCleanCount ≤ keys.length := by
    rw [length_append, length_singleton, delayCleanCount]
    omega
  rw [overdue, take_append_of_le_length hlen] at h
  refine take_subset_take_left _ ?_ h
  rw [length_append, length_singleton]
  omega

theorem due_of_overdue_kept {k k' key : Bytes}
    (h : key ∈ overdue (kept (keys ++ [k]) ++ [k'])) : key ∈ due keys := by
  have hlen : (kept (keys ++ [k])).length =
      keys.length + 1 - (keys.length + 1 - delayCleanCount) := by
    rw [kept, length_drop, length_append, length_singleton]
  have hten : delayCleanCount = 10 := rfl
  obtain ⟨n, hn⟩ : ∃ n, (kept (keys ++ [k]) ++ [k']).length - delayCleanCount = n := ⟨_, rfl⟩
  have hlast : n ≤ (kept (keys ++ [k])).length := by
    rw [← hn, length_append, length_singleton]
    omega
  have hsum : keys.length + 1 - delayCleanCount + n = keys.length + 2 - delayCleanCount := by
    rw [← hn, length_append, length_singleton, hlen]
    omega
  rw [overdue, hn, take_append_of_le_length hlast, kept, take_drop, length_append,
    length_singleton, hsum, take_append_of_le_length (by omega)] at h
  exact mem_of_mem_drop h

theorem all_cleanOn {α : Type} {Q : α → Prop} (first : Bool) {f : List Bytes → Program α}
    (hf : ∀ keys', Prog.All (OwnAccess start ch sn keys) Q (f keys')) :
    Prog.All (OwnAccess start ch sn keys) Q (cleanOn start ch sn first keys >>= f) := by
  unfold cleanOn
  split_ifs
  · rw [Prog.bind_assoc, groupOldKeyDelayClean_bind, groupOldKeyDelayClean_bind]
    exact all_removeAll (fun key hkey => due_of_overdue hkey)
      (all_removeAll (fun key hkey => due_of_overdue_kept hkey) (hf _))
  · exact hf keys

theorem ownAccess_addKeyOn {a : Act} (hremove : a.isRemove = false)
    (hkey : a.key = addKeyOn start ch sn) : OwnAccess start ch sn keys a := by
  rw [OwnAccess, hremove]
  exact ⟨.add, hkey⟩

theorem ownAccess_waitKeyOn {a : Act} (hremove : a.isRemove = false)
    (hkey : a.key = waitKeyOn start ch sn) : OwnAccess start ch sn keys a := by
  rw [OwnAccess, hremove]
  exact ⟨.wait, hkey⟩

theorem all_settleOn (first last : Bool) :
    Prog.All (OwnAccess start ch sn keys) (fun _ => True)
      (settleOn start ch sn first last keys) := by
  refine all_cleanOn first fun keys' => ?_
  have hannounce : Prog.All (OwnAccess start ch sn keys) (fun _ => True)
      (announceOn start ch sn last) := by
    unfold announceOn
    split_ifs
    · exact ⟨ownAccess_waitKeyOn rfl rfl, fun _ => trivial⟩
    · trivial
  refine hannounce.bind fun _ _ => ?_
  exact ⟨ownAccess_waitKeyOn rfl rfl, fun _ => trivial⟩

theorem all_barrierOn (size : Nat) :
    Prog.All (OwnAccess start .barrier sn keys) (fun _ => True) (barrierOn start sn size keys) := by
  refine ⟨ownAccess_addKeyOn rfl rfl, fun val => ?_⟩
  cases val with
  | none => trivial
  | some val => exact (all_settleOn _ _).bind fun _ _ => trivial

theorem all_gatherOn (size : Nat) (input : Bytes) {read : Bytes → Program (Option Bytes)}
    (hread : ∀ key P, (∀ a : Act, a.isRemove = false → a.key = key → P a) →
      Prog.All P (fun _ => True) (read key)) (finish : Bytes → Outcome) :
    Prog.All (OwnAccess start .gather sn keys) (fun _ => True)
      (gatherOn start sn size input read finish keys) := by
  refine ⟨ownAccess_addKeyOn rfl rfl, fun val => (all_settleOn _ _).bind fun out _ => ?_⟩
  obtain ⟨ok, keys'⟩ := out
  cases ok with
  | false => trivial
  | true =>
    exact (hread _ _ fun a hremove hkey => ownAccess_addKeyOn hremove hkey).bind fun _ _ => trivial

section

variable (key : Bytes) (P : Act → Prop) (h : ∀ a : Act, a.isRemove = false → a.key = key → P a)

include h

theorem all_get :
    Prog.All P (fun _ => True) (do
      let output ← perform (.get key)
      pure (some output) : Program (Option Bytes)) :=
  ⟨h _ rfl rfl, fun _ => trivial⟩

theorem all_tryGet :
    Prog.All P (fun _ => True) (perform (.tryGet key)) :=
  ⟨h _ rfl rfl, fun _ => trivial⟩

end

end

end MemFabric.Smem.Collective
