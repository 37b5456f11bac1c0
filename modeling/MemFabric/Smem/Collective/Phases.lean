import MemFabric.Smem.Collective.Engine

/-!
# The phases of a call

What a member has left to do in a call, in four phases: it adds to the key of the call;
it removes old keys, announces the call if it came last, and waits; it reads the
value; it returns.
-/

namespace MemFabric.Smem.Collective

open Machine Wire Smem.Store List
open Smem.Group (smOk smError)

/-! ## Cleaning -/

def removeAll {α : Type} : List Bytes → Program α → Program α
  | [], p => p
  | key :: l, p => .act (.remove key) fun _ => removeAll l p

theorem removeAll_append {α : Type} (l l' : List Bytes) (p : Program α) :
    removeAll (l ++ l') p = removeAll l (removeAll l' p) := by
  induction l with
  | nil => rfl
  | cons key l ih => simp only [cons_append, removeAll, ih]

def overdue (l : List Bytes) : List Bytes := l.take (l.length - delayCleanCount)

def kept (l : List Bytes) : List Bytes := l.drop (l.length - delayCleanCount)

theorem overdue_append_kept (l : List Bytes) : overdue l ++ kept l = l :=
  take_append_drop _ l

theorem removeFront_bind {α : Type} (l : List Bytes) (f : List Bytes → Program α) :
    removeFront delayCleanCount l >>= f = removeAll (overdue l) (f (kept l)) := by
  induction l with
  | nil => rfl
  | cons key rest ih =>
    rw [removeFront]
    by_cases h : delayCleanCount < rest.length + 1
    · have hlen : (key :: rest).length - delayCleanCount =
          rest.length - delayCleanCount + 1 := by
        rw [length_cons]
        omega
      rw [if_pos h, overdue, kept, hlen, take_succ_cons, drop_succ_cons, removeAll,
        ← overdue, ← kept, ← ih]
      rfl
    · have hlen : (key :: rest).length - delayCleanCount = 0 := by
        rw [length_cons]
        omega
      rw [if_neg h, overdue, kept, hlen]
      rfl

def oldAddKey (e : Engine) (ch : Channel) : Bytes :=
  e.keyStart ++ decimal (e.sn ch - removeInterval).toNat ++ ch.addSuffix

def oldWaitKey (e : Engine) (ch : Channel) : Bytes :=
  e.keyStart ++ decimal (e.sn ch - removeInterval).toNat ++ ch.waitSuffix

def cleaned (e : Engine) (ch : Channel) (first : Bool) : List Bytes × List Bytes :=
  if first ∧ e.sn ch > removeInterval then
    let l := e.delayCleanKeyList ++ [oldAddKey e ch]
    (overdue l ++ overdue (kept l ++ [oldWaitKey e ch]), kept (kept l ++ [oldWaitKey e ch]))
  else ([], e.delayCleanKeyList)

theorem groupOldKeyDelayClean_bind {α : Type} (start suffix : Bytes) (sn : UInt32)
    (l : List Bytes) (f : List Bytes → Program α) :
    groupOldKeyDelayClean start suffix sn sn delayCleanCount l >>= f =
      removeAll (overdue (l ++ [start ++ decimal sn.toNat ++ suffix]))
        (f (kept (l ++ [start ++ decimal sn.toNat ++ suffix]))) := by
  have hrange : range' sn.toNat (sn.toNat + 1 - sn.toNat) = [sn.toNat] := by
    rw [Nat.add_sub_cancel_left]
    rfl
  rw [groupOldKeyDelayClean, hrange, removeFront_bind]
  rfl

theorem cleanOldKeys_bind {α : Type} (e : Engine) (ch : Channel) (first : Bool)
    (f : List Bytes → Program α) :
    cleanOldKeys e ch first >>= f =
      removeAll (cleaned e ch first).1 (f (cleaned e ch first).2) := by
  unfold cleanOldKeys cleaned
  by_cases h : first ∧ e.sn ch > removeInterval
  · rw [if_pos h, if_pos h, Prog.bind_assoc, groupOldKeyDelayClean_bind,
      groupOldKeyDelayClean_bind, removeAll_append]
    rfl
  · rw [if_neg h, if_neg h]
    rfl

/-- Nothing is removed or kept that was not in the list or is one of the two old keys, and
these only on the first arrival. -/
theorem mem_cleaned {e : Engine} {ch : Channel} {first : Bool} {key : Bytes}
    (h : key ∈ (cleaned e ch first).1 ∨ key ∈ (cleaned e ch first).2) :
    key ∈ e.delayCleanKeyList ∨
      e.sn ch > removeInterval ∧ (key = oldAddKey e ch ∨ key = oldWaitKey e ch) := by
  unfold cleaned at h
  split_ifs at h with hc
  · set l := e.delayCleanKeyList ++ [oldAddKey e ch] with hl
    have hmem : ∀ {l' : List Bytes}, key ∈ overdue l' ∨ key ∈ kept l' → key ∈ l' := by
      intro l' h'
      rw [← overdue_append_kept l']
      exact mem_append.mpr h'
    have hfrom : key ∈ l ∨ key = oldWaitKey e ch := by
      rcases h with h | h
      · rcases mem_append.mp h with h | h
        · exact .inl (hmem (.inl h))
        · rcases mem_append.mp (hmem (.inl h)) with h | h
          · exact .inl (hmem (.inr h))
          · exact .inr (mem_singleton.mp h)
      · rcases mem_append.mp (hmem (.inr h)) with h | h
        · exact .inl (hmem (.inr h))
        · exact .inr (mem_singleton.mp h)
    rcases hfrom with h | h
    · rcases mem_append.mp h with h | h
      · exact .inl h
      · exact .inr ⟨hc.2, .inl (mem_singleton.mp h)⟩
    · exact .inr ⟨hc.2, .inr h⟩
  · rcases h with h | h
    · cases h
    · exact .inl h

/-! ## Programs of the phases -/

def announcing {α : Type} (e : Engine) (ch : Channel) (last : Bool) (p : Program α) : Program α :=
  if last then .act (.set (e.waitKey ch) groupSetStr) fun _ => p else p

theorem settle_bind {α : Type} (e : Engine) (ch : Channel) (first last : Bool)
    (f : Bool × List Bytes → Program α) :
    settle e ch first last >>= f =
      removeAll (cleaned e ch first).1 (announcing e ch last
        (.act (.get (e.waitKey ch)) fun v =>
          f (decide (v = groupSetStr), (cleaned e ch first).2))) := by
  rw [settle, Prog.bind_assoc, cleanOldKeys_bind]
  cases last <;> rfl

def Call.input (rank : UInt32) : Call → Bytes
  | .barrier => []
  | .gatherResult localRet => leBytes 4 localRet.toNat
  | .allGather sendBuf _ => gatherInput rank sendBuf

def Call.outcome (n : Nat) (output : Bytes) : Call → Outcome
  | .barrier => { ret := smOk }
  | .gatherResult _ =>
    { ret := smOk, totalRet := (range n).foldl (fun total i => total ||| word output i) 0 }
  | .allGather sendBuf _ => { ret := smOk, recvBuf := sortGatherRecv output sendBuf.length n }

def Call.read (key : Bytes) : Call → Program (Option Bytes)
  | .barrier => pure none
  | .gatherResult _ => perform (.tryGet key)
  | .allGather _ _ => do
    let output ← perform (.get key)
    pure (some output)

inductive Phase
  | entering
  | settling (removed : List Bytes) (last : Bool) (keys : List Bytes)
  | reading (keys : List Bytes)
  | leaving (o : Outcome) (keys : List Bytes)

def Engine.after (e : Engine) (ch : Channel) (keys : List Bytes) : Engine :=
  { e.nextSn ch with delayCleanKeyList := keys }

def Call.reading (e : Engine) (c : Call) (keys : List Bytes) : Program (Outcome × Engine) :=
  match c with
  | .barrier => .ret ({ ret := smOk }, e.after .barrier keys)
  | c => do
    let output ← c.read ((e.nextSn .gather).addKey .gather)
    pure (match output with
      | none => { ret := smError }
      | some output =>
        if output.length = (c.input e.rank).length * e.groupSize.toNat then
          c.outcome e.groupSize.toNat output
        else { ret := smError }, e.after .gather keys)

def Phase.program (e : Engine) (c : Call) : Phase → Program (Outcome × Engine)
  | .entering => c.program e
  | .settling removed last keys =>
    removeAll removed (announcing (e.nextSn c.channel) c.channel last
      (.act (.get ((e.nextSn c.channel).waitKey c.channel)) fun v =>
        if v = groupSetStr then c.reading e keys
        else .ret ({ ret := smError }, e.after c.channel keys)))
  | .reading keys => c.reading e keys
  | .leaving o keys => .ret (o, e.after c.channel keys)

end MemFabric.Smem.Collective
