import Mathlib.Data.List.Sort

/-!
# Ordered containers

A set that is kept in the order of a key, each key once: `std::set` with its comparator,
and `std::map` if the key is the first component of the element.
-/

namespace MemFabric.Machine

open List

structure Ordered {α κ : Type} [LinearOrder κ] (key : α → κ) where
  toList : List α
  sorted : toList.Pairwise fun a b => key a < key b

namespace Ordered

variable {α κ : Type} [LinearOrder κ] {key : α → κ}

instance : Membership α (Ordered key) := ⟨fun t a => a ∈ t.toList⟩

instance : EmptyCollection (Ordered key) := ⟨⟨[], .nil⟩⟩

variable {t : Ordered key} {a b : α} {k : κ} {p : α → Bool}

theorem mem_def : a ∈ t ↔ a ∈ t.toList := Iff.rfl

@[simp] theorem notMem_empty (a : α) : a ∉ (∅ : Ordered key) := not_mem_nil

theorem nodup (t : Ordered key) : t.toList.Nodup :=
  t.sorted.imp fun hlt heq => absurd (congrArg key heq) hlt.ne

theorem ext {t' : Ordered key} (h : ∀ a, a ∈ t ↔ a ∈ t') : t = t' := by
  have hperm : t.toList.Perm t'.toList := (perm_ext_iff_of_nodup t.nodup t'.nodup).mpr h
  obtain ⟨l, hl⟩ := t
  obtain ⟨l', hl'⟩ := t'
  have heq : l = l' := hperm.eq_of_pairwise (fun _ _ _ _ h h' => absurd h' h.not_gt) hl hl'
  subst heq
  rfl

theorem nodup_keys (t : Ordered key) : (t.toList.map key).Nodup :=
  pairwise_map.mpr (t.sorted.imp fun h => h.ne)

theorem eq_of_key (ha : a ∈ t) (hb : b ∈ t) (h : key a = key b) : a = b := by
  exact inj_on_of_nodup_map t.nodup_keys ha hb h

/-! ## Searching -/

def find (t : Ordered key) (k : κ) : Option α := t.toList.find? fun a => decide (key a = k)

theorem find_eq_some : t.find k = some a ↔ a ∈ t ∧ key a = k := by
  constructor
  · intro h
    have hk := find?_some h
    exact ⟨mem_of_find?_eq_some h, of_decide_eq_true hk⟩
  · rintro ⟨ha, rfl⟩
    cases hfind : t.find (key a) with
    | none => exact absurd (decide_eq_true rfl) (find?_eq_none.mp hfind a ha)
    | some b =>
      have hb := find?_some hfind
      rw [eq_of_key (mem_of_find?_eq_some hfind) ha (of_decide_eq_true hb)]

theorem find_eq_none : t.find k = none ↔ ∀ a ∈ t, key a ≠ k := by
  rw [find, find?_eq_none]
  simp only [decide_eq_true_eq]
  exact Iff.rfl

/-- The first element whose key is not below `k`. -/
def lowerBound (t : Ordered key) (k : κ) : Option α := t.toList.find? fun a => decide (k ≤ key a)

theorem of_find?_eq_some (h : t.toList.find? p = some a) :
    a ∈ t ∧ p a = true ∧ ∀ b ∈ t, p b = true → key a ≤ key b := by
  obtain ⟨ha, front, rest, hlist, hfront⟩ := find?_eq_some_iff_append.mp h
  refine ⟨mem_of_find?_eq_some h, ha, fun b hb hpb => ?_⟩
  have hsorted := t.sorted
  rw [hlist] at hsorted
  rw [mem_def, hlist, mem_append, mem_cons] at hb
  rcases hb with hb | rfl | hb
  · exact absurd hpb (by simpa using hfront b hb)
  · exact le_rfl
  · exact ((pairwise_cons.mp (pairwise_append.mp hsorted).2.1).1 b hb).le

theorem of_lowerBound_eq_some (h : t.lowerBound k = some a) :
    a ∈ t ∧ k ≤ key a ∧ ∀ b ∈ t, k ≤ key b → key a ≤ key b := by
  obtain ⟨ha, hle, hfirst⟩ := of_find?_eq_some h
  exact ⟨ha, of_decide_eq_true hle, fun b hb hkb => hfirst b hb (decide_eq_true hkb)⟩

theorem lowerBound_eq_none : t.lowerBound k = none ↔ ∀ a ∈ t, key a < k := by
  rw [lowerBound, find?_eq_none]
  simp only [decide_eq_true_eq, not_le]
  exact Iff.rfl

theorem of_getLast?_filter_eq_some (h : (t.toList.filter p).getLast? = some a) :
    a ∈ t ∧ p a = true ∧ ∀ b ∈ t, p b = true → key b ≤ key a := by
  obtain ⟨front, hlist⟩ := getLast?_eq_some_iff.mp h
  have ha := mem_filter.mp (mem_of_getLast? h)
  refine ⟨ha.1, ha.2, fun b hb hpb => ?_⟩
  have hmem : b ∈ t.toList.filter p := mem_filter.mpr ⟨hb, hpb⟩
  have hsorted := t.sorted.filter p
  rw [hlist] at hmem hsorted
  rcases mem_append.mp hmem with hb | hb
  · exact ((pairwise_append.mp hsorted).2.2 b hb a (mem_singleton_self a)).le
  · rw [mem_singleton.mp hb]

def before (t : Ordered key) (k : κ) : Option α :=
  (t.toList.filter fun a => decide (key a < k)).getLast?

theorem of_before_eq_some (h : t.before k = some a) :
    a ∈ t ∧ key a < k ∧ ∀ b ∈ t, key b < k → key b ≤ key a := by
  obtain ⟨ha, hlt, hlast⟩ := of_getLast?_filter_eq_some h
  exact ⟨ha, of_decide_eq_true hlt, fun b hb hkb => hlast b hb (decide_eq_true hkb)⟩

theorem before_eq_none : t.before k = none ↔ ∀ a ∈ t, k ≤ key a := by
  rw [before, getLast?_eq_none_iff, filter_eq_nil_iff]
  simp only [decide_eq_true_eq, not_lt]
  exact Iff.rfl

/-- The first element whose key is above `k`. -/
def upperBound (t : Ordered key) (k : κ) : Option α := t.toList.find? fun a => decide (k < key a)

theorem of_upperBound_eq_some (h : t.upperBound k = some a) :
    a ∈ t ∧ k < key a ∧ ∀ b ∈ t, k < key b → key a ≤ key b := by
  obtain ⟨ha, hlt, hfirst⟩ := of_find?_eq_some h
  exact ⟨ha, of_decide_eq_true hlt, fun b hb hkb => hfirst b hb (decide_eq_true hkb)⟩

theorem upperBound_eq_none : t.upperBound k = none ↔ ∀ a ∈ t, key a ≤ k := by
  rw [upperBound, find?_eq_none]
  simp only [decide_eq_true_eq, not_lt]
  exact Iff.rfl

def upTo (t : Ordered key) (k : κ) : Option α :=
  (t.toList.filter fun a => decide (key a ≤ k)).getLast?

theorem of_upTo_eq_some (h : t.upTo k = some a) :
    a ∈ t ∧ key a ≤ k ∧ ∀ b ∈ t, key b ≤ k → key b ≤ key a := by
  obtain ⟨ha, hle, hlast⟩ := of_getLast?_filter_eq_some h
  exact ⟨ha, of_decide_eq_true hle, fun b hb hkb => hlast b hb (decide_eq_true hkb)⟩

theorem upTo_eq_none : t.upTo k = none ↔ ∀ a ∈ t, k < key a := by
  rw [upTo, getLast?_eq_none_iff, filter_eq_nil_iff]
  simp only [decide_eq_true_eq, not_le]
  exact Iff.rfl

/-! ## Changing -/

def erase (t : Ordered key) (k : κ) : Ordered key :=
  ⟨t.toList.filter fun a => decide (key a ≠ k), t.sorted.filter _⟩

@[simp] theorem mem_erase : a ∈ t.erase k ↔ a ∈ t ∧ key a ≠ k := by
  rw [mem_def, erase, mem_filter, decide_eq_true_eq]
  exact Iff.rfl

theorem pairwise_insert (t : Ordered key) (a : α) :
    (t.toList.filter (fun b => decide (key b < key a)) ++
      a :: t.toList.filter fun b => decide (key a < key b)).Pairwise fun a b => key a < key b := by
  refine pairwise_append.mpr ⟨t.sorted.filter _, ?_, ?_⟩
  · refine pairwise_cons.mpr ⟨fun b hb => ?_, t.sorted.filter _⟩
    exact of_decide_eq_true (mem_filter.mp hb).2
  · intro b hb c hc
    have hba : key b < key a := of_decide_eq_true (mem_filter.mp hb).2
    rcases mem_cons.mp hc with rfl | hc
    · exact hba
    · exact hba.trans (of_decide_eq_true (mem_filter.mp hc).2)

def emplace (t : Ordered key) (a : α) : Ordered key :=
  if (t.find (key a)).isSome then t else ⟨_, t.pairwise_insert a⟩

theorem mem_emplace (h : ∀ c ∈ t, key c ≠ key a) : b ∈ t.emplace a ↔ b = a ∨ b ∈ t := by
  have hfind : (t.find (key a)).isSome = false := by rw [find_eq_none.mpr h]; rfl
  rw [emplace, hfind, if_neg Bool.false_ne_true, mem_def, mem_def, mem_append, mem_cons,
    mem_filter, mem_filter, decide_eq_true_eq, decide_eq_true_eq]
  constructor
  · rintro (⟨hb, -⟩ | rfl | ⟨hb, -⟩)
    · exact .inr hb
    · exact .inl rfl
    · exact .inr hb
  · rintro (rfl | hb)
    · exact .inr (.inl rfl)
    · rcases (h b hb).lt_or_gt with hlt | hlt
      · exact .inl ⟨hb, hlt⟩
      · exact .inr (.inr ⟨hb, hlt⟩)

theorem perm_emplace (h : ∀ c ∈ t, key c ≠ key a) : (t.emplace a).toList.Perm (a :: t.toList) := by
  have hnot : a ∉ t.toList := fun ha => h a ha rfl
  refine (perm_ext_iff_of_nodup (t.emplace a).nodup
    (nodup_cons.mpr ⟨hnot, t.nodup⟩)).mpr fun b => ?_
  rw [← mem_def, mem_emplace h, mem_cons, mem_def]

theorem perm_erase (ha : a ∈ t) : t.toList.Perm (a :: (t.erase (key a)).toList) := by
  have hnot : a ∉ (t.erase (key a)).toList := fun h => (mem_erase.mp h).2 rfl
  refine (perm_ext_iff_of_nodup t.nodup
    (nodup_cons.mpr ⟨hnot, (t.erase (key a)).nodup⟩)).mpr fun b => ?_
  rw [mem_cons, ← mem_def, ← mem_def, mem_erase]
  constructor
  · intro hb
    by_cases hkey : key b = key a
    · exact .inl (eq_of_key hb ha hkey)
    · exact .inr ⟨hb, hkey⟩
  · rintro (rfl | ⟨hb, -⟩)
    · exact ha
    · exact hb

theorem eq_or_mem_of_mem_emplace (h : b ∈ t.emplace a) : b = a ∨ b ∈ t := by
  by_cases hex : ∃ c ∈ t, key c = key a
  · obtain ⟨c, hc, hkey⟩ := hex
    have hfind : t.find (key a) = some c := find_eq_some.mpr ⟨hc, hkey⟩
    rw [emplace, hfind] at h
    exact .inr h
  · exact (mem_emplace fun c hc hkey => hex ⟨c, hc, hkey⟩).mp h

theorem mem_emplace_id {t : Ordered (id : κ → κ)} {a b : κ} : b ∈ t.emplace a ↔ b ∈ t ∨ b = a := by
  by_cases hnew : ∀ c ∈ t, id c ≠ id a
  · exact (mem_emplace hnew).trans or_comm
  · have ha : a ∈ t := by
      push Not at hnew
      obtain ⟨c, hc, heq⟩ := hnew
      obtain rfl : c = a := heq
      exact hc
    rw [emplace, find_eq_some.mpr ⟨ha, rfl⟩]
    exact (or_iff_left_of_imp fun heq => heq ▸ ha).symm

def assign (t : Ordered key) (a : α) : Ordered key := (t.erase (key a)).emplace a

@[simp] theorem mem_assign : b ∈ t.assign a ↔ b = a ∨ b ∈ t ∧ key b ≠ key a := by
  rw [assign, mem_emplace fun c hc => (mem_erase.mp hc).2, mem_erase]

theorem find_assign : (t.assign a).find k = if key a = k then some a else t.find k := by
  split_ifs with hk
  · exact find_eq_some.mpr ⟨mem_assign.mpr (.inl rfl), hk⟩
  · refine Option.ext fun b => ?_
    simp only [find_eq_some, mem_assign]
    constructor
    · rintro ⟨rfl | ⟨hb, -⟩, hkey⟩
      · exact absurd hkey hk
      · exact ⟨hb, hkey⟩
    · rintro ⟨hb, rfl⟩
      exact ⟨.inr ⟨hb, fun hkey => hk hkey.symm⟩, rfl⟩

end Ordered

/-! ## Containers that several parties use -/

variable {α κ : Type} [LinearOrder κ] {key : α → κ}

/-- The container has the elements of `base` and the party's own, at keys of their own. -/
structure Overlay (base : Ordered key) (own : α → Prop) (t : Ordered key) : Prop where
  mem_iff : ∀ a, a ∈ t ↔ a ∈ base ∨ own a
  fresh : ∀ a ∈ base, ∀ b, own b → key a ≠ key b

namespace Overlay

variable {base t t' : Ordered key} {own own' : α → Prop} {a b : α} {k : κ}

theorem refl (base : Ordered key) : Overlay base (fun _ => False) base where
  mem_iff a := by simp
  fresh _ _ _ hb := hb.elim

variable (h : Overlay base own t)

include h

theorem own_mem (ha : own a) : a ∈ t := (h.mem_iff a).mpr (.inr ha)

theorem eq_of_own (ha : own a) (hb : b ∈ t) (hkey : key b = key a) : b = a :=
  Ordered.eq_of_key hb (h.own_mem ha) hkey

theorem congr (heq : ∀ a, own' a ↔ own a) : Overlay base own' t where
  mem_iff a := by rw [h.mem_iff, heq]
  fresh a ha b hb := h.fresh a ha b ((heq b).mp hb)

theorem assign (hnew : ∀ c ∈ t, key c ≠ key a) :
    Overlay base (fun b => b = a ∨ own b) (t.assign a) where
  mem_iff b := by
    rw [Ordered.mem_assign]
    constructor
    · rintro (rfl | ⟨hb, -⟩)
      · exact .inr (.inl rfl)
      · exact ((h.mem_iff b).mp hb).imp id .inr
    · rintro (hb | rfl | hb)
      · exact .inr ⟨(h.mem_iff b).mpr (.inl hb), hnew b ((h.mem_iff b).mpr (.inl hb))⟩
      · exact .inl rfl
      · exact .inr ⟨h.own_mem hb, hnew b (h.own_mem hb)⟩
  fresh c hc b hb := by
    rcases hb with rfl | hb
    · exact hnew c ((h.mem_iff c).mpr (.inl hc))
    · exact h.fresh c hc b hb

theorem erase (ha : own a) : Overlay base (fun b => own b ∧ b ≠ a) (t.erase (key a)) where
  mem_iff b := by
    rw [Ordered.mem_erase, h.mem_iff]
    constructor
    · rintro ⟨hb | hb, hkey⟩
      · exact .inl hb
      · exact .inr ⟨hb, fun heq => hkey (congrArg key heq)⟩
    · rintro (hb | ⟨hb, hne⟩)
      · exact ⟨.inl hb, h.fresh b hb a ha⟩
      · exact ⟨.inr hb, fun hkey => hne (h.eq_of_own ha (h.own_mem hb) hkey)⟩
  fresh c hc b hb := h.fresh c hc b hb.1

end Overlay

theorem Ordered.erase_eq_self {t : Ordered key} {k : κ} (h : ∀ a ∈ t, key a ≠ k) : t.erase k = t :=
  Ordered.ext fun a => by
    rw [Ordered.mem_erase]
    exact ⟨And.left, fun ha => ⟨ha, h a ha⟩⟩

end MemFabric.Machine
