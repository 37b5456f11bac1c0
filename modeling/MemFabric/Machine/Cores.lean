import Mathlib.Algebra.Order.BigOperators.Group.Finset

/-!
# Cores that run straight-line programs

Every core runs its own list of instructions, from the first to the last, on a memory that
all of them share.  A core waits at an instruction until the memory is ready for it, and
then takes the effect of the instruction in one step.  The steps of the cores interleave in
any way.
-/

namespace MemFabric.Machine.Cores

open List Function Finset

open scoped List

structure System (ι I M : Type) where
  prog : ι → List I
  ready : ι → I → M → Bool
  effect : ι → I → M → M

/-- `done t` instructions lie behind core `t`. -/
structure State (ι M : Type) where
  mem : M
  done : ι → Nat

variable {ι I M : Type}

def start (m : M) : State ι M := ⟨m, fun _ => 0⟩

namespace System

variable (S : System ι I M)

def next (s : State ι M) (t : ι) : Option I := (S.prog t)[s.done t]?

def executed (s : State ι M) (t : ι) : List I := (S.prog t).take (s.done t)

def ahead (s : State ι M) (t : ι) : List I := (S.prog t).drop (s.done t)

theorem executed_append_ahead (s : State ι M) (t : ι) :
    S.executed s t ++ S.ahead s t = S.prog t := take_append_drop _ _

theorem next_eq_head? (s : State ι M) (t : ι) : S.next s t = (S.ahead s t).head? := by
  rw [next, ahead, head?_drop]

theorem ahead_of_next {s : State ι M} {t : ι} {i : I} (h : S.next s t = some i) :
    S.ahead s t = i :: (S.ahead s t).tail := by
  rw [next_eq_head?] at h
  exact eq_cons_of_mem_head? h

variable {t : ι} {i : I}

theorem mem_prog_of_mem_executed {s : State ι M} (h : i ∈ S.executed s t) :
    i ∈ S.prog t := mem_of_mem_take h

theorem mem_prog_of_next {s : State ι M} (h : S.next s t = some i) :
    i ∈ S.prog t := mem_of_getElem? h

variable [DecidableEq ι]

def perform (s : State ι M) (t : ι) (i : I) : State ι M :=
  ⟨S.effect t i s.mem, update s.done t (s.done t + 1)⟩

@[simp] theorem perform_mem (s : State ι M) (t : ι) (i : I) :
    (S.perform s t i).mem = S.effect t i s.mem := rfl

theorem executed_perform {s : State ι M} (h : S.next s t = some i) (u : ι) :
    S.executed (S.perform s t i) u =
      if u = t then S.executed s t ++ [i] else S.executed s u := by
  by_cases hu : u = t
  · subst hu
    simp only [executed, perform, update_self]
    rw [take_add_one, show (S.prog u)[s.done u]? = some i from h]
    rfl
  · simp only [if_neg hu, executed, perform, update_of_ne hu]

theorem ahead_perform {s : State ι M} (u : ι) :
    S.ahead (S.perform s t i) u = if u = t then (S.ahead s t).tail else S.ahead s u := by
  by_cases hu : u = t
  · subst hu
    simp [ahead, perform]
  · simp [ahead, perform, hu]

theorem mem_ahead_iff {s : State ι M} (h : S.next s t = some i) {u : ι} {j : I} :
    j ∈ S.ahead s u ↔ j ∈ S.ahead (S.perform s t i) u ∨ u = t ∧ j = i := by
  rw [ahead_perform]
  split
  next hu =>
    rw [hu, S.ahead_of_next h]
    simp [or_comm]
  next hu => simp [hu]

inductive Step (p : ι → I → Prop) (s : State ι M) : State ι M → Prop
  | perform (t : ι) (i : I) (hp : p t i) (hi : S.next s t = some i)
      (hr : S.ready t i s.mem = true) : Step p s (S.perform s t i)

def Reaches (p : ι → I → Prop) : State ι M → State ι M → Prop :=
  Relation.ReflTransGen (S.Step p)

def Reachable (m : M) (s : State ι M) : Prop := S.Reaches (fun _ _ => True) (start m) s

variable {S} {m : M} {s s' : State ι M} {p : ι → I → Prop}

theorem Reaches.invariant {P : State ι M → Prop} (h : S.Reaches p s s') (h0 : P s)
    (hstep : ∀ s t i, P s → S.next s t = some i → S.ready t i s.mem = true →
      P (S.perform s t i)) : P s' := by
  induction h with
  | refl => exact h0
  | tail _ hs ih =>
    obtain ⟨t, i, -, hi, hr⟩ := hs
    exact hstep _ t i ih hi hr

theorem Reachable.perform (h : S.Reachable m s) (hi : S.next s t = some i)
    (hr : S.ready t i s.mem = true) : S.Reachable m (S.perform s t i) :=
  h.tail ⟨t, i, trivial, hi, hr⟩

/-! ## Schedules -/

def RunsThrough (S : System ι I M) (t : ι) : List I → M → Prop
  | [], _ => True
  | i :: l, m => S.ready t i m = true ∧ S.RunsThrough t l (S.effect t i m)

def effects (S : System ι I M) (t : ι) : List I → M → M
  | [], m => m
  | i :: l, m => S.effects t l (S.effect t i m)

omit [DecidableEq ι] in
theorem effects_append (t : ι) (l l' : List I) (m : M) :
    S.effects t (l ++ l') m = S.effects t l' (S.effects t l m) := by
  induction l generalizing m with
  | nil => rfl
  | cons i l ih => exact ih _

omit [DecidableEq ι] in
theorem runsThrough_append {l l' : List I} (h : S.RunsThrough t l m)
    (h' : S.RunsThrough t l' (S.effects t l m)) : S.RunsThrough t (l ++ l') m := by
  induction l generalizing m with
  | nil => exact h'
  | cons i l ih => exact ⟨h.1, ih h.2 h'⟩

theorem Reachable.runsThrough (h : S.Reachable m s) {l rest : List I} (hl : S.ahead s t = l ++ rest)
    (hr : S.RunsThrough t l s.mem) :
    ∃ s', S.Reachable m s' ∧ s'.mem = S.effects t l s.mem ∧
      ∀ u, S.ahead s' u = if u = t then rest else S.ahead s u := by
  induction l generalizing s with
  | nil =>
    refine ⟨s, h, rfl, fun u => ?_⟩
    split
    next hu => rw [hu, hl, nil_append]
    next => rfl
  | cons i l ih =>
    have hi : S.next s t = some i := by rw [next_eq_head?, hl, cons_append, head?_cons]
    have hl' : S.ahead (S.perform s t i) t = l ++ rest := by
      rw [ahead_perform, if_pos rfl, hl, cons_append, tail_cons]
    obtain ⟨s', hs', hmem, hahead⟩ := ih (h.perform hi hr.1) hl' hr.2
    refine ⟨s', hs', hmem, fun u => ?_⟩
    rw [hahead u, ahead_perform]
    split <;> rfl

/-- Some cores run through a part of their programs, one core after the other. -/
theorem Reachable.sweep (h : S.Reachable m s) (T : Finset ι) (l rest : ι → List I)
    (P : Finset ι → M → Prop) (hP : P ∅ s.mem) (hl : ∀ t ∈ T, S.ahead s t = l t ++ rest t)
    (hstep : ∀ A t m, t ∈ T → t ∉ A → P A m →
      S.RunsThrough t (l t) m ∧ P (insert t A) (S.effects t (l t) m)) :
    ∃ s', S.Reachable m s' ∧ P T s'.mem ∧
      ∀ t, S.ahead s' t = if t ∈ T then rest t else S.ahead s t := by
  induction T using Finset.induction_on with
  | empty => exact ⟨s, h, hP, fun t => by simp⟩
  | insert t T ht ih =>
    obtain ⟨s1, h₁, hP1, hahead1⟩ := ih (fun u hu => hl u (mem_insert_of_mem hu))
      (fun A u m hu => hstep A u m (mem_insert_of_mem hu))
    obtain ⟨hruns, hP2⟩ := hstep T t s1.mem (mem_insert_self t T) ht hP1
    have hl1 : S.ahead s1 t = l t ++ rest t := by
      rw [hahead1, if_neg ht]
      exact hl t (mem_insert_self t T)
    obtain ⟨s2, h₂, hmem2, hahead2⟩ := h₁.runsThrough hl1 hruns
    refine ⟨s2, h₂, hmem2 ▸ hP2, fun u => ?_⟩
    rw [hahead2]
    by_cases hu : u = t
    · subst hu
      simp
    · simp [hu, hahead1 u]

/-- The cores take steps in the given order; a core that has to wait is passed over. -/
def follow (S : System ι I M) : List ι → State ι M → State ι M
  | [], s => s
  | t :: l, s =>
    match S.next s t with
    | none => S.follow l s
    | some i => if S.ready t i s.mem then S.follow l (S.perform s t i) else S.follow l s

theorem reaches_follow (l : List ι) (s : State ι M) :
    S.Reaches (fun _ _ => True) s (S.follow l s) := by
  induction l generalizing s with
  | nil => exact .refl
  | cons t l ih =>
    rw [follow]
    split
    next => exact ih s
    next i hi =>
      split
      next hr => exact .head ⟨t, i, trivial, hi, hr⟩ (ih _)
      next => exact ih s

/-! ## Progress -/

def remaining [Fintype ι] (S : System ι I M) (s : State ι M) : Nat :=
  ∑ t, ((S.prog t).length - s.done t)

theorem remaining_perform_lt [Fintype ι] (h : S.next s t = some i) :
    S.remaining (S.perform s t i) < S.remaining s := by
  have hlt : s.done t < (S.prog t).length := by
    obtain ⟨hlt, -⟩ := List.getElem?_eq_some_iff.mp h
    exact hlt
  refine sum_lt_sum (fun u _ => ?_) ⟨t, mem_univ t, ?_⟩
  · by_cases hu : u = t
    · subst hu
      simp only [System.perform, update_self]
      omega
    · simp only [System.perform, update_of_ne hu, le_refl]
  · simp only [System.perform, update_self]
    omega

/-- If, as long as the goal is not reached, some core can take an allowed step, then the
goal can be reached. -/
theorem exists_reaches [Fintype ι] {P G : State ι M → Prop}
    (hstep : ∀ s t i, P s → p t i → S.next s t = some i → S.ready t i s.mem = true →
      P (S.perform s t i))
    (hgo : ∀ s, P s → ¬ G s → ∃ t i, p t i ∧ S.next s t = some i ∧ S.ready t i s.mem = true)
    (h : P s) : ∃ s', S.Reaches p s s' ∧ P s' ∧ G s' := by
  induction hn : S.remaining s using Nat.strong_induction_on generalizing s with
  | _ n ih =>
    subst hn
    by_cases hg : G s
    · exact ⟨s, .refl, h, hg⟩
    · obtain ⟨t, i, hp, hi, hr⟩ := hgo s h hg
      obtain ⟨s', hs', hP', hG'⟩ :=
        ih _ (remaining_perform_lt hi) (hstep s t i h hp hi hr) rfl
      exact ⟨s', .head ⟨t, i, hp, hi, hr⟩ hs', hP', hG'⟩

end System

/-! ## Program order -/

section

variable {a b : I} {l : List I}

/-- What stands before a done instruction has been done. -/
theorem mem_take_of_sublist (hl : l.Nodup) (h : [a, b] <+ l) {n : Nat} (hb : b ∈ l.take n) :
    a ∈ l.take n := by
  induction l generalizing n with
  | nil => cases h
  | cons x l ih =>
    cases n with
    | zero => cases hb
    | succ n =>
      cases h with
      | cons _ h =>
        have hbl : b ∈ l := h.subset (by simp)
        have hne : b ≠ x := fun hx => (nodup_cons.mp hl).1 (hx ▸ hbl)
        exact mem_cons_of_mem x
          (ih (nodup_cons.mp hl).2 h ((mem_cons.mp hb).resolve_left hne))
      | cons_cons _ h => exact mem_cons_self

theorem pair_sublist {i j : Nat} (hij : i < j) (hi : l[i]? = some a) (hj : l[j]? = some b) :
    [a, b] <+ l := by
  induction l generalizing i j with
  | nil => cases hi
  | cons x l ih =>
    obtain ⟨j, rfl⟩ : ∃ j', j = j' + 1 := ⟨j - 1, by omega⟩
    rw [getElem?_cons_succ] at hj
    cases i with
    | zero =>
      cases hi
      exact (singleton_sublist.mpr (mem_of_getElem? hj)).cons_cons _
    | succ i => exact (ih (by omega) hi hj).cons x

/-- Of two different instructions one stands before the other. -/
theorem sublist_or_sublist (ha : a ∈ l) (hb : b ∈ l) : a = b ∨ [a, b] <+ l ∨ [b, a] <+ l := by
  induction l with
  | nil => cases ha
  | cons x l ih =>
    rcases mem_cons.mp ha with hax | hal
    · rcases mem_cons.mp hb with hbx | hbl
      · exact .inl (hax.trans hbx.symm)
      · exact .inr (.inl (hax ▸ (singleton_sublist.mpr hbl).cons_cons _))
    · rcases mem_cons.mp hb with hbx | hbl
      · exact .inr (.inr (hbx ▸ (singleton_sublist.mpr hal).cons_cons _))
      · exact (ih hal hbl).imp_right (Or.imp (.cons x) (.cons x))

/-- A rest of a program that begins with an instruction of its second part. -/
theorem suffix_of_head {i : I} {u v : List I} (h : i :: l <:+ u ++ v) (hi : i ∉ u) :
    i :: l <:+ v := by
  rcases suffix_or_suffix_of_suffix h (suffix_append u v) with hv | ⟨x, hx⟩
  · exact hv
  · obtain ⟨y, hy⟩ := h
    rw [← hx, ← append_assoc, append_cancel_right_eq] at hy
    cases x with
    | nil => exact ⟨[], hx.symm⟩
    | cons j x =>
      cases hx
      exact absurd (hy ▸ by simp) hi

/-- Every rest of the program that contains `x` contains `y`. -/
def Precedes (x y : I) (l : List I) : Prop := ∀ l', l' <:+ l → x ∈ l' → y ∈ l'

namespace Precedes

variable {x y : I} {m : List I}

theorem of_notMem (h : x ∉ l) : Precedes x y l := fun _ hl hx => absurd (hl.subset hx) h

theorem append (h : Precedes x y l) (h' : Precedes x y m) : Precedes x y (l ++ m) := by
  intro l' hl' hx
  rcases suffix_or_suffix_of_suffix hl' (suffix_append l m) with hm | ⟨u, rfl⟩
  · exact h' l' hm hx
  · rcases mem_append.mp hx with hx | hx
    · obtain ⟨p, hp⟩ := hl'
      rw [← append_assoc, append_cancel_right_eq] at hp
      exact mem_append_left m (h u ⟨p, hp⟩ hx)
    · exact mem_append_right u (h' m suffix_rfl hx)

theorem flatMap {κ : Type} {f : κ → List I} (xs : List κ) (h : ∀ e, Precedes x y (f e)) :
    Precedes x y (xs.flatMap f) := by
  induction xs with
  | nil => exact of_notMem not_mem_nil
  | cons e xs ih => exact (h e).append ih

end Precedes

end

/-! ## Programs that repeat a body

The number of times that an instruction of the body has been done says how far the core
has come. -/

section Repeat

variable [DecidableEq I] {a b : I}

/-- Every instruction that stands before another one has been done as often as that one, or
once more. -/
theorem count_take_repeat {body : List I} (hb : body.Nodup) (h : [a, b] <+ body) (k n : Nat) :
    ((replicate k body).flatten.take n).count b ≤
        ((replicate k body).flatten.take n).count a ∧
      ((replicate k body).flatten.take n).count a ≤
        ((replicate k body).flatten.take n).count b + 1 := by
  have ha1 : body.count a = 1 := count_eq_one_of_mem hb (h.subset (by simp))
  have hb1 : body.count b = 1 := count_eq_one_of_mem hb (h.subset (by simp))
  induction k generalizing n with
  | zero => simp
  | succ k ih =>
    rw [replicate_succ, flatten_cons, take_append, count_append,
      count_append]
    by_cases hn : n ≤ body.length
    · simp only [Nat.sub_eq_zero_of_le hn, take_zero, count_nil]
      have hla : (body.take n).count a ≤ 1 := ha1 ▸ (body.take_sublist n).count_le a
      by_cases hmem : b ∈ body.take n
      · have hca := count_pos_iff.mpr (mem_take_of_sublist hb h hmem)
        have hlb : (body.take n).count b ≤ 1 := hb1 ▸ (body.take_sublist n).count_le b
        omega
      · rw [count_eq_zero_of_not_mem hmem]
        omega
    · rw [take_of_length_le (by omega)]
      have := ih (n - body.length)
      omega

variable (S : System ι I M)

/-- How often the core has done the instruction. -/
def System.count (s : State ι M) (t : ι) (i : I) : Nat := (S.executed s t).count i

/-- Every core goes `k` times through its body. -/
structure System.Repeats (k : Nat) (body : ι → List I) : Prop where
  prog : ∀ t, S.prog t = (replicate k (body t)).flatten
  nodup : ∀ t, (body t).Nodup

namespace System.Repeats

variable {S} {k : Nat} {body : ι → List I} {s : State ι M} {t : ι} {i : I}

theorem count_le_count (R : S.Repeats k body) (h : [a, b] <+ body t) (s : State ι M) :
    S.count s t b ≤ S.count s t a := by
  rw [count, count, executed, R.prog]
  exact (count_take_repeat (R.nodup t) h k _).1

theorem count_le_succ (R : S.Repeats k body) (h : [a, b] <+ body t) (s : State ι M) :
    S.count s t a ≤ S.count s t b + 1 := by
  rw [count, count, executed, R.prog]
  exact (count_take_repeat (R.nodup t) h k _).2

omit [DecidableEq I] in
theorem mem_body_of_next (R : S.Repeats k body) (h : S.next s t = some i) : i ∈ body t := by
  have hmem := S.mem_prog_of_next h
  rw [R.prog] at hmem
  obtain ⟨l, hl, hi⟩ := mem_flatten.mp hmem
  exact eq_of_mem_replicate hl ▸ hi

theorem count_prog (R : S.Repeats k body) (h : i ∈ body t) : (S.prog t).count i = k := by
  simp [R.prog, count_flatten, count_eq_one_of_mem (R.nodup t) h]

end System.Repeats

variable {S} [DecidableEq ι] {s : State ι M} {t : ι} {i : I}

theorem System.count_perform (h : S.next s t = some i) (u : ι) (j : I) :
    S.count (S.perform s t i) u j = S.count s u j + if u = t ∧ j = i then 1 else 0 := by
  rw [count, S.executed_perform h]
  by_cases hu : u = t
  · subst hu
    by_cases hj : j = i
    · subst hj
      simp [count]
    · simp [count, hj, Ne.symm hj]
  · simp [count, hu]

namespace System.Repeats

variable {k : Nat} {body : ι → List I}

/-- What stands behind the instruction that a core is at is still to be done in this round. -/
theorem count_eq_of_next (R : S.Repeats k body) (hn : S.next s t = some a)
    (h : [a, b] <+ body t) : S.count s t b = S.count s t a := by
  have hne : b ≠ a := by
    rintro rfl
    have := (R.nodup t).sublist h
    simp at this
  have h1 := R.count_le_count h s
  have h2 := R.count_le_succ h (S.perform s t a)
  rw [S.count_perform hn, S.count_perform hn] at h2
  simp only [true_and, if_true, hne, if_false] at h2
  omega

/-- What stands before it has been done in this round. -/
theorem count_eq_succ_of_next (R : S.Repeats k body) (hn : S.next s t = some b)
    (h : [a, b] <+ body t) : S.count s t a = S.count s t b + 1 := by
  have hne : a ≠ b := by
    rintro rfl
    have := (R.nodup t).sublist h
    simp at this
  have h1 := R.count_le_succ h s
  have h2 := R.count_le_count h (S.perform s t b)
  rw [S.count_perform hn, S.count_perform hn] at h2
  simp only [true_and, if_true, hne, if_false] at h2
  omega

/-- A core that has completed `m` rounds, but has not yet come to an instruction of the next
one, is at that instruction or before it. -/
theorem exists_next (R : S.Repeats k body) {m : Nat} (hm : ∀ j ∈ body t, m ≤ S.count s t j)
    (hmk : m < k) (ha : a ∈ body t) (hcount : S.count s t a = m) :
    ∃ j, S.next s t = some j ∧ (j = a ∨ [j, a] <+ body t) ∧ S.count s t j = m := by
  cases hn : S.next s t with
  | none =>
    have hle : (S.prog t).length ≤ s.done t := getElem?_eq_none_iff.mp hn
    rw [count, executed, take_of_length_le hle, R.count_prog ha] at hcount
    omega
  | some j =>
    have hj := R.mem_body_of_next hn
    refine ⟨j, rfl, ?_⟩
    rcases sublist_or_sublist hj ha with rfl | hja | haj
    · exact ⟨.inl rfl, hcount⟩
    · exact ⟨.inr hja, (R.count_eq_of_next hn hja).symm.trans hcount⟩
    · have h1 := R.count_eq_succ_of_next hn haj
      have h2 := hm j hj
      omega

end System.Repeats

end Repeat

end MemFabric.Machine.Cores
