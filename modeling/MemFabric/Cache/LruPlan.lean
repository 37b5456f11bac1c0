import Mathlib.Data.List.Nodup
import Mathlib.Data.List.Perm.Basic

/-!
# One least-recently-used replacement step

The policy behind a batched LRU cache.  The slots stand in use order, oldest
first; a batch of requests hits some of them and leaves a list of misses.  The
misses take the oldest slots that were not hit, one each and in order, and the
new use order is: slots left alone, slots just reassigned, slots hit.

Slots and misses are arbitrary types; nothing here knows how hits are found.
-/

namespace MemFabric.Cache

open List Option

/-- One batch against the slots in use order. -/
structure LruPlan (S P : Type*) where
  /-- Slots, least recently used first. -/
  order : List S
  /-- The slots this batch hits. -/
  hit : S → Bool
  /-- The requests of this batch that hit nothing, in order. -/
  misses : List P

namespace LruPlan

variable {S P : Type*} (p : LruPlan S P)

def hits : List S := p.order.filter p.hit

def evictable : List S := p.order.filter fun s => !p.hit s

def assigned : List (P × S) := p.misses.zip p.evictable

def assignCount : Nat := min p.misses.length p.evictable.length

def newOrder : List S :=
  p.evictable.drop p.assignCount ++ p.evictable.take p.assignCount ++ p.hits

def slotOf [DecidableEq P] (m : P) : Option S :=
  (p.assigned.find? fun a => a.1 = m).map Prod.snd

def missOf [DecidableEq S] (s : S) : Option P :=
  (p.assigned.find? fun a => a.2 = s).map Prod.fst

@[simp] theorem length_assigned : p.assigned.length = p.assignCount := by
  simp [assigned, assignCount]

theorem hits_append_evictable_perm : (p.evictable ++ p.hits).Perm p.order := by
  refine perm_append_comm.trans ?_
  exact filter_append_perm p.hit p.order

theorem length_evictable_add_hits : p.evictable.length + p.hits.length = p.order.length := by
  have h := p.hits_append_evictable_perm.length_eq
  simpa using h

/-- No slot is lost or duplicated by a step. -/
theorem newOrder_perm : p.newOrder.Perm p.order := by
  refine Perm.trans ?_ p.hits_append_evictable_perm
  refine Perm.append_right _ ?_
  refine perm_append_comm.trans ?_
  rw [take_append_drop]

theorem assignCount_le_evictable : p.assignCount ≤ p.evictable.length := Nat.min_le_right _ _

/-! The entries of the new order, part by part. -/

variable {i : Nat} {s : S}

theorem getElem?_newOrder_of_lt (h : i + p.assignCount < p.evictable.length) :
    p.newOrder[i]? = p.evictable[p.assignCount + i]? := by
  rw [newOrder, append_assoc, getElem?_append_left (by rw [length_drop]; omega),
    getElem?_drop]

theorem getElem?_newOrder_assigned (h0 : p.evictable.length ≤ i + p.assignCount)
    (h1 : i < p.evictable.length) :
    p.newOrder[i]? = (p.evictable.take p.assignCount)[i + p.assignCount - p.evictable.length]? := by
  have hle := p.assignCount_le_evictable
  rw [newOrder, append_assoc, getElem?_append_right (by rw [length_drop]; omega),
    length_drop, getElem?_append_left (by rw [length_take]; omega)]
  congr 1
  omega

theorem getElem?_newOrder_hits (h : p.evictable.length ≤ i) :
    p.newOrder[i]? = p.hits[i - p.evictable.length]? := by
  have hlen : (p.evictable.drop p.assignCount ++ p.evictable.take p.assignCount).length =
      p.evictable.length := by
    rw [length_append, length_drop, length_take]
    omega
  rw [newOrder, getElem?_append_right (by omega), hlen]

theorem nodup_evictable (h : p.order.Nodup) : p.evictable.Nodup := h.filter _

theorem mem_evictable : s ∈ p.evictable ↔ s ∈ p.order ∧ p.hit s = false := by
  simp [evictable]

theorem mem_hits : s ∈ p.hits ↔ s ∈ p.order ∧ p.hit s = true := by
  simp [hits]

theorem getElem?_assigned {m : P} :
    p.assigned[i]? = some (m, s) ↔ p.misses[i]? = some m ∧ p.evictable[i]? = some s := by
  simp [assigned, getElem?_zip_eq_some]

theorem assigned_at (h : i < p.assignCount) :
    ∃ m s, p.misses[i]? = some m ∧ p.evictable[i]? = some s := by
  unfold assignCount at h
  exact ⟨p.misses[i], p.evictable[i], getElem?_eq_getElem (by omega),
    getElem?_eq_getElem (by omega)⟩

private theorem find?_eq_of_inj {α : Type*} {l : List α} {q : α → Bool} {a : α}
    (ha : a ∈ l) (hq : q a = true) (huniq : ∀ b ∈ l, q b = true → b = a) :
    l.find? q = some a := by
  induction l with
  | nil => cases ha
  | cons b l ih =>
    by_cases hb : q b = true
    · rw [find?_cons_of_pos hb, huniq b (by simp) hb]
    · rw [find?_cons_of_neg hb]
      rcases mem_cons.mp ha with rfl | hal
      · exact absurd hq hb
      · exact ih hal fun c hc => huniq c (by simp [hc])

private theorem index_unique {α : Type*} {l : List α} (hnd : l.Nodup) {i j : Nat} {a : α}
    (hi : l[i]? = some a) (hj : l[j]? = some a) : i = j :=
  (List.getElem?_inj (List.getElem?_eq_some_iff.mp hi).1 hnd).mp (hi.trans hj.symm)

theorem mem_assigned {m : P} (h : (m, s) ∈ p.assigned) :
    ∃ i, i < p.assignCount ∧ p.misses[i]? = some m ∧ p.evictable[i]? = some s := by
  obtain ⟨i, hi⟩ := mem_iff_getElem?.mp h
  refine ⟨i, ?_, p.getElem?_assigned.mp hi⟩
  rw [← length_assigned]
  exact (List.getElem?_eq_some_iff.mp hi).1

variable {m : P}

section

variable [DecidableEq P]

theorem slotOf_of_getElem? (hnd : p.misses.Nodup) (hm : p.misses[i]? = some m)
    (hs : p.evictable[i]? = some s) : p.slotOf m = some s := by
  have hfind : p.assigned.find? (fun a => a.1 = m) = some (m, s) := by
    refine find?_eq_of_inj (mem_of_getElem? (p.getElem?_assigned.mpr ⟨hm, hs⟩)) (by simp) ?_
    rintro ⟨m', s'⟩ hb hq
    obtain rfl : m' = m := by simpa using hq
    obtain ⟨j, -, hm', hs'⟩ := p.mem_assigned hb
    obtain rfl := index_unique hnd hm' hm
    rw [some.inj (hs'.symm.trans hs)]
  simp [slotOf, hfind]

theorem slotOf_eq_none (h : ∀ i, i < p.assignCount → p.misses[i]? ≠ some m) :
    p.slotOf m = none := by
  simp only [slotOf, map_eq_none_iff, find?_eq_none]
  rintro ⟨m', s'⟩ hb hq
  obtain rfl : m' = m := by simpa using hq
  obtain ⟨i, hlt, hm', -⟩ := p.mem_assigned hb
  exact h i hlt hm'

theorem slotOf_eq_some (h : p.slotOf m = some s) :
    ∃ i, i < p.assignCount ∧ p.misses[i]? = some m ∧ p.evictable[i]? = some s := by
  simp only [slotOf, map_eq_some_iff] at h
  obtain ⟨⟨m', s'⟩, hfind, rfl⟩ := h
  obtain rfl : m' = m := by simpa using find?_some hfind
  exact p.mem_assigned (mem_of_find?_eq_some hfind)

end

section

variable [DecidableEq S]

theorem missOf_of_getElem? (hnd : p.evictable.Nodup) (hm : p.misses[i]? = some m)
    (hs : p.evictable[i]? = some s) : p.missOf s = some m := by
  have hfind : p.assigned.find? (fun a => a.2 = s) = some (m, s) := by
    refine find?_eq_of_inj (mem_of_getElem? (p.getElem?_assigned.mpr ⟨hm, hs⟩)) (by simp) ?_
    rintro ⟨m', s'⟩ hb hq
    obtain rfl : s' = s := by simpa using hq
    obtain ⟨j, -, hm', hs'⟩ := p.mem_assigned hb
    obtain rfl := index_unique hnd hs' hs
    rw [some.inj (hm'.symm.trans hm)]
  simp [missOf, hfind]

theorem missOf_eq_none (h : ∀ i, i < p.assignCount → p.evictable[i]? ≠ some s) :
    p.missOf s = none := by
  simp only [missOf, map_eq_none_iff, find?_eq_none]
  rintro ⟨m', s'⟩ hb hq
  obtain rfl : s' = s := by simpa using hq
  obtain ⟨i, hlt, -, hs'⟩ := p.mem_assigned hb
  exact h i hlt hs'

theorem missOf_eq_some (h : p.missOf s = some m) :
    ∃ i, i < p.assignCount ∧ p.misses[i]? = some m ∧ p.evictable[i]? = some s := by
  simp only [missOf, map_eq_some_iff] at h
  obtain ⟨⟨m', s'⟩, hfind, rfl⟩ := h
  obtain rfl : s' = s := by simpa using find?_some hfind
  exact p.mem_assigned (mem_of_find?_eq_some hfind)

end

end LruPlan

end MemFabric.Cache
