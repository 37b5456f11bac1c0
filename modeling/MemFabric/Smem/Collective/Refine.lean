import MemFabric.Machine.Rendezvous
import MemFabric.Smem.Collective.Keys

/-!
# Calls as meetings

The members of a group go through the meetings of `Machine.Rendezvous`: the calls on a
channel are its meetings, a request that adds to a key is an arrival, and the keys of an
old meeting may be removed.  `Rel` ties a state and what has happened so far to the
meetings; every step of the system is a step of the meetings or leaves them as they are.
-/

namespace MemFabric.Smem.Collective

open Machine Wire List
open Smem.Group (smOk smError)

/-! ## What has happened -/

section

variable {ch : Channel} {i j k : Nat} {log l : List Event} {rank : Nat → UInt32}

theorem calls_append : calls ch i (log ++ l) = calls ch i log ++ calls ch i l :=
  filterMap_append

theorem results_append : results ch i (log ++ l) = results ch i log ++ results ch i l :=
  filterMap_append

theorem calls_called (c : Call) :
    calls ch i [.called j c] = if j = i ∧ c.channel = ch then [c] else [] := by
  by_cases h : j = i ∧ c.channel = ch <;> simp [calls, h]

theorem results_returned (c : Call) (o : Outcome) :
    results ch i [.returned j c o] = if j = i ∧ c.channel = ch then [o] else [] := by
  by_cases h : j = i ∧ c.channel = ch <;> simp [results, h]

theorem calls_accessed (a : Act) : calls ch i (log ++ [.accessed j a]) = calls ch i log := by
  rw [calls_append]
  exact append_nil _

theorem calls_returned (c : Call) (o : Outcome) :
    calls ch i (log ++ [.returned j c o]) = calls ch i log := by
  rw [calls_append]
  exact append_nil _

theorem results_accessed (a : Act) : results ch i (log ++ [.accessed j a]) = results ch i log := by
  rw [results_append]
  exact append_nil _

theorem results_called (c : Call) : results ch i (log ++ [.called j c]) = results ch i log := by
  rw [results_append]
  exact append_nil _

/-- What member `i` adds in its call number `k` on the channel, counted from 0. -/
def inputAt (rank : Nat → UInt32) (ch : Channel) (k : Nat) (log : List Event) (i : Nat) : Bytes :=
  ((calls ch i log)[k]?).elim [] (Call.input (rank i))

theorem inputAt_accessed (a : Act) :
    inputAt rank ch k (log ++ [.accessed j a]) = inputAt rank ch k log := by
  funext i
  rw [inputAt, inputAt, calls_accessed]

theorem inputAt_returned (c : Call) (o : Outcome) :
    inputAt rank ch k (log ++ [.returned j c o]) = inputAt rank ch k log := by
  funext i
  rw [inputAt, inputAt, calls_returned]

theorem inputAt_append (h : k < (calls ch i log).length) :
    inputAt rank ch k (log ++ l) i = inputAt rank ch k log i := by
  rw [inputAt, inputAt, calls_append, getElem?_append_left h]

theorem RemovedUnused.concat {e : Event} (h : RemovedUnused log)
    (he : ∀ i key j a, .accessed i (.remove key) ∈ log → e = .accessed j a → a.key = key →
      a.isRemove = true) : RemovedUnused (log ++ [e]) := by
  intro before after i key heq j a hmem hkey
  rcases eq_nil_or_concat after with rfl | ⟨rest, e', rfl⟩
  · cases hmem
  · rw [concat_eq_append] at heq hmem
    rw [← cons_append, ← append_assoc] at heq
    obtain ⟨hlog, hlast⟩ := append_inj' heq rfl
    obtain rfl := singleton_inj.mp hlast
    rcases mem_append.mp hmem with hmem | hmem
    · exact h before rest i key hlog j a hmem hkey
    · exact he i key j a (by rw [hlog]; simp) (mem_singleton.mp hmem).symm hkey

end

/-! ## The relation -/

def Phase.abs : Phase → Rendezvous.Phase
  | .entering => .entering
  | .settling _ last _ => .settling last
  | .reading _ | .leaving _ _ => .passed

def Phase.keys : Phase → List Bytes
  | .entering => []
  | .settling removed _ keys => removed ++ keys
  | .reading keys | .leaving _ keys => keys

def Old (a : Rendezvous.State Channel) (key : Bytes) : Prop :=
  ∃ slot ch m, key = keyAt slot ch m ∧ (ch, m) ∈ a.old

structure MemberRel (n r : UInt32) (a : Rendezvous.State Channel) (i : Nat) (m : Member)
    (st : Option (Call × Phase)) : Prop where
  rank : m.engine.rank = r
  groupSize : m.engine.groupSize = n
  groupVersion : m.engine.groupVersion = 0
  done : ∀ ch, (m.engine.sn ch).toNat = a.done ch i
  running : m.running = st.map fun p => (p.1, p.2.program m.engine p.1)
  status : a.status i = st.map fun p => (p.1.channel, p.2.abs)
  bound : ∀ c ph, st = some (c, ph) → a.done c.channel i + 1 < 2 ^ 32
  queued : ∀ key ∈ m.engine.delayCleanKeyList, Old a key
  keys : ∀ c ph, st = some (c, ph) → ∀ key ∈ ph.keys, Old a key

/-- The call number `k` has been made by all, and this is its outcome for some order of
the members. -/
def Gathered (n : UInt32) (rank : Nat → UInt32) (ch : Channel) (k : Nat) (log : List Event)
    (c : Call) (o : Outcome) : Prop :=
  (∀ q, q < n.toNat → k < (calls ch q log).length) ∧
    ∃ l : List Nat, l.Perm (range n.toNat) ∧
      o = c.outcome n.toNat (l.map (inputAt rank ch k log)).flatten

structure History (n : UInt32) (rank : Nat → UInt32) (plan : Channel → Nat → Shape)
    (a : Rendezvous.State Channel) (log : List Event) (st : Nat → Option (Call × Phase)) :
    Prop where
  calls_length : ∀ ch i, (calls ch i log).length = a.entered ch i
  current : ∀ i c ph, st i = some (c, ph) → (calls c.channel i log)[a.done c.channel i]? = some c
  planned : ∀ ch i k c, (calls ch i log)[k]? = some c →
    c.channel = ch ∧ c.shape = plan ch k ∧ c.Fits n.toNat
  results_length : ∀ ch i, (results ch i log).length = a.done ch i
  outcome : ∀ ch i k o, (results ch i log)[k]? = some o →
    ∃ c, (calls ch i log)[k]? = some c ∧ Gathered n rank ch k log c o
  leaving : ∀ i c o keys, st i = some (c, .leaving o keys) →
    Gathered n rank c.channel (a.done c.channel i) log c o

/-- The keys of the meetings that are not old. -/
structure Board (rank : Nat → UInt32) (a : Rendezvous.State Channel) (log : List Event)
    (kv : Table Bytes Bytes) : Prop where
  add : ∀ ch m, (ch, m + 1) ∉ a.old → kv.lookup (keyAt .add ch (m + 1)) =
    stored ch ((a.arrivals ch (m + 1)).map (inputAt rank ch m log))
  wait : ∀ ch m, (ch, m + 1) ∉ a.old → kv.lookup (keyAt .wait ch (m + 1)) =
    if a.announced ch (m + 1) then some groupSetStr else none

structure Rel (n : UInt32) (rank : Nat → UInt32) (plan : Channel → Nat → Shape)
    (log : List Event) (s : System) (a : Rendezvous.State Channel)
    (st : Nat → Option (Call × Phase)) : Prop where
  inv : Rendezvous.Inv n.toNat a
  member : ∀ i, MemberRel n (rank i) a i (s.members i) (st i)
  history : History n rank plan a log st
  board : Board rank a log s.kv
  removed : ∀ i key, .accessed i (.remove key) ∈ log → Old a key
  unused : RemovedUnused log

def setSt (st : Nat → Option (Call × Phase)) (i : Nat) (x : Option (Call × Phase)) :
    Nat → Option (Call × Phase) := fun j => if j = i then x else st j

theorem rel_start {n : UInt32} (hn : 0 < n.toNat) (rank : Nat → UInt32)
    (plan : Channel → Nat → Shape) :
    Rel n rank plan [] (System.start n rank) {} fun _ => none where
  inv := Rendezvous.inv_start hn
  member i :=
    { rank := rfl
      groupSize := rfl
      groupVersion := rfl
      done := fun ch => by cases ch <;> rfl
      running := rfl
      status := rfl
      bound := fun _ _ h => by cases h
      queued := fun _ h => by cases h
      keys := fun _ _ h => by cases h }
  history :=
    { calls_length := fun _ _ => rfl
      current := fun _ _ _ h => by cases h
      planned := fun _ _ _ _ h => by cases h
      results_length := fun _ _ => rfl
      outcome := fun _ _ _ _ h => by cases h
      leaving := fun _ _ _ _ h => by cases h }
  board := ⟨fun _ _ _ => rfl, fun _ _ _ => rfl⟩
  removed _ _ h := by cases h
  unused before after i key h := by
    rw [eq_comm, append_eq_nil_iff] at h
    cases h.2

end MemFabric.Smem.Collective
