import Mathlib.Data.List.AList

/-!
# Tables

A finite map as an association list without duplicate keys.  The order of the
entries stands for the order in which a hash map is iterated.
-/

namespace MemFabric.Machine

open AList List

abbrev Table (α β : Type) [DecidableEq α] := AList fun _ : α => β

namespace Table

variable {α β : Type} [DecidableEq α]

theorem lookup_insert_eq (t : Table α β) (a a' : α) (b : β) :
    (t.insert a b).lookup a' = if a' = a then some b else t.lookup a' := by
  split_ifs with h
  · subst h
    exact lookup_insert t
  · exact lookup_insert_ne h

theorem lookup_erase_eq (t : Table α β) (a a' : α) :
    (t.erase a).lookup a' = if a' = a then none else t.lookup a' := by
  split_ifs with h
  · subst h
    exact lookup_erase a' t
  · exact lookup_erase_ne h

/-- Add an entry unless the key has one already. -/
def emplace (t : Table α β) (a : α) (b : β) : Table α β :=
  if a ∈ t then t else t.insert a b

theorem lookup_emplace_eq (t : Table α β) (a a' : α) (b : β) :
    (emplace t a b).lookup a' =
      if a' = a then some ((t.lookup a).getD b) else t.lookup a' := by
  unfold emplace
  by_cases hmem : a ∈ t
  · obtain ⟨v, hv⟩ := Option.isSome_iff_exists.mp (lookup_isSome.mpr hmem)
    split_ifs with h
    · subst h
      rw [hv, Option.getD_some]
    · rfl
  · rw [if_neg hmem, lookup_insert_eq, lookup_eq_none.mpr hmem, Option.getD_none]

/-- The entry of a key that is looked up with a default. -/
def get (t : Table α (List β)) (a : α) : List β := (t.lookup a).getD []

theorem mem_entries {t : Table α β} {a : α} {b : β} : ⟨a, b⟩ ∈ t.entries ↔ t.lookup a = some b :=
  (mem_lookup_iff).symm.trans Iff.rfl

theorem eq_empty {t : Table α β} (h : ∀ a, t.lookup a = none) : t = ∅ := by
  have hkeys : t.keys = [] := eq_nil_iff_forall_not_mem.mpr fun a ha =>
    lookup_eq_none.mp (h a) (mem_keys.mpr ha)
  apply ext
  exact map_eq_nil_iff.mp hkeys

theorem lookup_foldl_insert {l : List (α × β)} (h : (l.map Prod.fst).Nodup) (t : Table α β)
    (a : α) :
    (l.foldl (fun t e => t.insert e.1 e.2) t).lookup a =
      ((l.find? fun e => e.1 = a).map Prod.snd).or (t.lookup a) := by
  induction l generalizing t with
  | nil => simp
  | cons e l ih =>
    obtain ⟨hnot, hl⟩ := nodup_cons.mp h
    rw [foldl_cons, ih hl, lookup_insert_eq]
    by_cases he : e.1 = a
    · subst he
      have hfind : l.find? (fun e' => e'.1 = e.1) = none := by
        rw [find?_eq_none]
        intro e' he' heq
        exact hnot (mem_map.mpr ⟨e', he', by simpa using heq⟩)
      simp [hfind]
    · have hne : ¬ a = e.1 := fun h => he h.symm
      rw [if_neg hne, find?_cons_of_neg (by simpa using he)]

theorem mem_foldl_insert {l : List (α × β)} {t : Table α β} {a : α}
    (h : a ∈ l.foldl (fun t e => t.insert e.1 e.2) t) : a ∈ l.map Prod.fst ∨ a ∈ t := by
  induction l generalizing t with
  | nil => exact .inr h
  | cons e l ih =>
    rcases ih h with hl | ht
    · exact .inl (mem_cons_of_mem _ hl)
    · rcases (mem_insert t).mp ht with rfl | ht
      · exact .inl mem_cons_self
      · exact .inr ht

/-- A key is erased from the tables of some keys. -/
theorem lookup_foldl_erase {γ : Type} [DecidableEq β] (keys : List α) (t : Table α (Table β γ))
    (b : β) (a : α) (b' : β) :
    (((keys.foldl (fun t a => t.insert a (((t.lookup a).getD ∅).erase b)) t).lookup a).getD
      ∅).lookup b' = if a ∈ keys ∧ b' = b then none else ((t.lookup a).getD ∅).lookup b' := by
  induction keys generalizing t with
  | nil => simp
  | cons k keys ih =>
    rw [foldl_cons, ih, lookup_insert_eq]
    by_cases ha : a = k
    · subst ha
      by_cases hb : b' = b
      · subst hb
        simp
      · simp [hb]
    · simp [ha]

end Table

end MemFabric.Machine
