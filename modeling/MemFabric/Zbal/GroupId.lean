import Mathlib.Algebra.GroupWithZero.Nat
import Mathlib.Data.Finset.Erase
import Mathlib.Data.Finset.Insert
import MemFabric.Machine.Run

/-!
# Ids of communicator groups

The objects `AutoReleaseGroupId` of all ranks, and the ids that the bootstrap has handed out.
-/

namespace MemFabric.Zbal.GroupId

open Machine Function

def uint16Max : Nat := 65535

/-- The objects are numbered. -/
structure World where
  rankId : Nat → Nat
  uniqueGroupId : Nat → Nat := fun _ => uint16Max
  /-- The ids that have been acquired and not released. -/
  taken : Finset Nat := ∅

namespace World

variable (w : World)

/-- The second half of `Acquire`: `gathered` is the group id in the first of the gathered
infos, if the exchange succeeds. -/
def exchange (gathered : Option Nat) (i : Nat) : World :=
  match gathered with
  | none => w
  | some id => { w with uniqueGroupId := update w.uniqueGroupId i (id % 2 ^ 16) }

/-- `acquired` is the id from the bootstrap, if it gives one. -/
def acquire (acquired gathered : Option Nat) (i : Nat) : World :=
  if w.rankId i = 0 then
    match acquired with
    | none => w
    | some id => { w with taken := insert id w.taken }.exchange gathered i
  else w.exchange gathered i

def release (i : Nat) : World :=
  { w with
    taken := w.taken.erase (w.uniqueGroupId i)
    uniqueGroupId := update w.uniqueGroupId i uint16Max }

def destroy (i : Nat) : World := if w.uniqueGroupId i = uint16Max then w else w.release i

def moveIdAndGatheredInfo (i other : Nat) : World :=
  { w with
    taken := if w.uniqueGroupId i ≠ uint16Max then w.taken.erase (w.uniqueGroupId i) else w.taken
    uniqueGroupId := update (update w.uniqueGroupId i (w.uniqueGroupId other)) other uint16Max }

end World

inductive Event
  | acquire (acquired gathered : Option Nat) (i : Nat)
  | release (i : Nat)
  | destroy (i : Nat)
  | move (i other : Nat)

def step (w : World) : Event → World × List Unit
  | .acquire acquired gathered i => (w.acquire acquired gathered i, [])
  | .release i => (w.release i, [])
  | .destroy i => (w.destroy i, [])
  | .move i other => (w.moveIdAndGatheredInfo i other, [])

/-- The bootstrap hands out ids that are not taken, an object acquires an id only if it has none,
and the exchange gives rank 0 its own id.  If the groups have one rank, then it succeeds for no
other rank. -/
def Allowed (alone : Prop) (w : World) : Event → Prop
  | .acquire acquired gathered i =>
    w.uniqueGroupId i = uint16Max ∧
      if w.rankId i = 0 then
        (∀ id ∈ acquired, id < uint16Max ∧ id ∉ w.taken) ∧ gathered = acquired
      else alone → gathered = none
  | _ => True

/-- The ids that are taken are held.  If the groups have one rank, then each has one holder, and
the ids that are held are taken. -/
structure Owned (alone : Prop) (w : World) : Prop where
  held : ∀ id ∈ w.taken, id ≠ uint16Max ∧ ∃ i, w.uniqueGroupId i = id
  taken : alone → ∀ i, w.uniqueGroupId i ≠ uint16Max → w.uniqueGroupId i ∈ w.taken
  unique : alone → ∀ i j, w.uniqueGroupId i = w.uniqueGroupId j → w.uniqueGroupId i ≠ uint16Max →
    i = j

namespace Owned

variable {alone : Prop} {w : World} (h : Owned alone w)

include h

theorem acquired {i id : Nat} (hi : w.uniqueGroupId i = uint16Max) (hid : id < uint16Max)
    (hnew : id ∉ w.taken) :
    Owned alone
      { w with taken := insert id w.taken, uniqueGroupId := update w.uniqueGroupId i id } := by
  refine ⟨fun x hx => ?_, fun ha j hne => ?_, fun ha j k heq hne => ?_⟩
  · rw [exists_update_iff _ fun _ y => y = x]
    have := h.held x
    grind
  · have := h.taken ha j
    grind [update_apply]
  · have := h.unique ha j k
    have := h.taken ha
    grind [update_apply]

/-- The object had no id, so none is lost. -/
theorem gathered {i : Nat} (hi : w.uniqueGroupId i = uint16Max) (ha : ¬alone) (id : Nat) :
    Owned alone { w with uniqueGroupId := update w.uniqueGroupId i id } := by
  refine ⟨fun x hx => ?_, fun h => absurd h ha, fun h => absurd h ha⟩
  obtain ⟨hne, j, rfl⟩ := h.held x hx
  refine ⟨hne, j, update_of_ne (fun hj => hne ?_) _ _⟩
  rw [hj, hi]

theorem release (i : Nat) : Owned alone (w.release i) := by
  refine ⟨fun x hx => ?_, fun ha j hne => ?_, fun ha j k heq hne => ?_⟩
  · rw [World.release, exists_update_iff _ fun _ y => y = x]
    have := h.held x
    simp only [World.release] at hx
    grind
  · have := h.taken ha j
    have := h.unique ha i j
    simp only [World.release, update_apply] at hne ⊢
    grind
  · have := h.unique ha j k
    simp only [World.release, update_apply] at heq hne
    grind

/-- The object that is moved over has given its id back, and the two then change places. -/
theorem move (i other : Nat) : Owned alone (w.moveIdAndGatheredInfo i other) := by
  refine ⟨fun x hx => ?_, fun ha j hne => ?_, fun ha j k heq hne => ?_⟩
  · rw [World.moveIdAndGatheredInfo, exists_update_iff _ fun _ y => y = x,
      exists_update_iff _ fun j y => j ≠ other ∧ y = x]
    have := h.held x
    simp only [World.moveIdAndGatheredInfo] at hx
    grind
  · have := h.taken ha
    have := h.unique ha i
    simp only [World.moveIdAndGatheredInfo, update_apply] at hne ⊢
    grind
  · have := h.unique ha j k
    have := h.unique ha other
    simp only [World.moveIdAndGatheredInfo, update_apply] at heq hne
    grind

theorem step {e : Event} (he : Allowed alone w e) : Owned alone (GroupId.step w e).1 := by
  cases e with
  | acquire acquired gathered i =>
    obtain ⟨hi, he⟩ := he
    simp only [GroupId.step, World.acquire]
    split_ifs at he ⊢
    · obtain ⟨hnew, rfl⟩ := he
      cases gathered with
      | none => exact h
      | some id =>
        obtain ⟨hlt, hnot⟩ := hnew id rfl
        have hsmall : id % 2 ^ 16 = id := Nat.mod_eq_of_lt (hlt.trans (by decide))
        simp only [World.exchange, hsmall]
        exact h.acquired hi hlt hnot
    · cases gathered with
      | none => exact h
      | some id => exact h.gathered hi (fun ha => nomatch he ha) _
  | release i => exact h.release i
  | destroy i =>
    simp only [GroupId.step, World.destroy]
    split_ifs
    · exact h
    · exact h.release i
  | move i other => exact h.move i other

end Owned

/-- The ids that are taken are each held by an object, and the id of an object is given back when
this one is released, destroyed or moved over.  In groups of one rank no other object has it. -/
theorem group_ids_owned {alone : Prop} {rankId : Nat → Nat} {w : World}
    (h : Reachable step (Allowed alone) { rankId } w) :
    (∀ id ∈ w.taken, ∃ i, w.uniqueGroupId i = id) ∧
      ∀ i, w.uniqueGroupId i ≠ uint16Max →
        (∀ e, (e = .release i ∨ e = .destroy i ∨ ∃ other, e = .move i other) →
          w.uniqueGroupId i ∉ (step w e).1.taken) ∧
        (alone → w.uniqueGroupId i ∈ w.taken ∧
          ∀ j, w.uniqueGroupId j = w.uniqueGroupId i → j = i) := by
  have hw : Owned alone w := by
    refine h.invariant ?_ fun w e hw he => hw.step he
    exact ⟨fun id hid => absurd hid (Finset.notMem_empty id), fun _ i hne => absurd rfl hne,
      fun _ i j _ hne => absurd rfl hne⟩
  refine ⟨fun id hid => (hw.held id hid).2, fun i hi => ⟨?_, fun ha => ⟨hw.taken ha i hi, ?_⟩⟩⟩
  · have hgone : w.uniqueGroupId i ∉ w.taken.erase (w.uniqueGroupId i) := Finset.notMem_erase _ _
    rintro e (rfl | rfl | ⟨other, rfl⟩)
    · exact hgone
    · rw [step, World.destroy, if_neg hi]
      exact hgone
    · rw [step, World.moveIdAndGatheredInfo]
      dsimp only
      rw [if_pos hi]
      exact hgone
  · exact fun j hj => (hw.unique ha i j hj.symm hi).symm

/-- The only rank of a group acquires id 3, and its object is destroyed. -/
theorem group_ids_owned_one :
    let w := (run step { rankId := fun _ => 0 } [.acquire (some 3) (some 3) 0]).1
    3 ∈ w.taken ∧ 3 ∉ (step w (.destroy 0)).1.taken := by
  have hallowed : AllAllowed step (Allowed True) { rankId := fun _ => 0 }
      [.acquire (some 3) (some 3) 0] := ⟨⟨rfl, by decide, rfl⟩, trivial⟩
  have hheld := (group_ids_owned (trace_run_of_allowed hallowed).reachable).2 0 (by decide)
  exact ⟨(hheld.2 trivial).1, hheld.1 _ (.inr (.inl rfl))⟩

/-- Rank 0 acquires id 3 and its exchange fails: no object holds the id, and it stays taken.
In a group of two ranks both objects hold id 4. -/
theorem group_id_lost :
    (let w := (run step { rankId := id } [.acquire (some 3) none 0, .destroy 0]).1
      ∀ i, w.uniqueGroupId i = uint16Max ∧ 3 ∈ w.taken) ∧
    let w := (run step { rankId := id }
      [.acquire (some 4) (some 4) 0, .acquire none (some 4) 1]).1
    w.uniqueGroupId 0 = 4 ∧ w.uniqueGroupId 1 = 4 :=
  ⟨fun _ => ⟨rfl, by decide⟩, rfl, rfl⟩

end MemFabric.Zbal.GroupId
