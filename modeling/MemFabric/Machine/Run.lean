import Mathlib.Data.List.Basic

/-!
# Machines with inputs and outputs

A machine takes a state and an input to a state and a list of outputs.  What
the environment chooses (interleavings, clocks, failures) is part of the input,
so that a run is determined by the inputs it takes.
-/

namespace MemFabric.Machine

open List

variable {σ ι ω : Type}

def run (step : σ → ι → σ × List ω) : σ → List ι → σ × List ω
  | s, [] => (s, [])
  | s, i :: l => ((run step (step s i).1 l).1, (step s i).2 ++ (run step (step s i).1 l).2)

/-- Some inputs, each of them allowed in the state it arrives in, lead from `start`
to the state `s` with the outputs `log`. -/
inductive Trace (step : σ → ι → σ × List ω) (allowed : σ → ι → Prop) (start : σ) :
    List ω → σ → Prop
  | nil : Trace step allowed start [] start
  | snoc {log : List ω} {s : σ} (i : ι) : Trace step allowed start log s → allowed s i →
      Trace step allowed start (log ++ (step s i).2) (step s i).1

def Reachable (step : σ → ι → σ × List ω) (allowed : σ → ι → Prop) (start s : σ) : Prop :=
  ∃ log, Trace step allowed start log s

variable {step : σ → ι → σ × List ω} {allowed : σ → ι → Prop} {start s : σ}

/-- A property that the start has and every allowed step keeps. -/
theorem Reachable.invariant {P : σ → Prop} (h : Reachable step allowed start s) (h0 : P start)
    (hstep : ∀ s i, P s → allowed s i → P (step s i).1) : P s := by
  obtain ⟨log, h⟩ := h
  induction h with
  | nil => exact h0
  | snoc i _ hi ih => exact hstep _ i ih hi

/-- The same for a property of the state and of what has been put out so far. -/
theorem Trace.invariant {P : List ω → σ → Prop} {log : List ω}
    (h : Trace step allowed start log s) (h0 : P [] start)
    (hstep : ∀ log s i, P log s → allowed s i → P (log ++ (step s i).2) (step s i).1) :
    P log s := by
  induction h with
  | nil => exact h0
  | snoc i _ hi ih => exact hstep _ _ i ih hi

theorem Trace.mono {allowed' : σ → ι → Prop} {log : List ω}
    (h : Trace step allowed start log s) (hle : ∀ s i, allowed s i → allowed' s i) :
    Trace step allowed' start log s := by
  induction h with
  | nil => exact .nil
  | snoc i _ hi ih => exact .snoc i ih (hle _ i hi)

theorem Trace.trans {log log' : List ω} {s' : σ} (h : Trace step allowed start log s)
    (h' : Trace step allowed s log' s') : Trace step allowed start (log ++ log') s' := by
  induction h' with
  | nil => simpa using h
  | snoc i _ hi ih =>
    rw [← append_assoc]
    exact .snoc i ih hi

theorem Trace.reachable {log : List ω} (h : Trace step allowed start log s) :
    Reachable step allowed start s :=
  ⟨log, h⟩

theorem Reachable.next (h : Reachable step allowed start s) (i : ι) (hi : allowed s i) :
    Reachable step allowed start (step s i).1 := by
  obtain ⟨log, h⟩ := h
  exact ⟨_, .snoc i h hi⟩

/-- Every input of the list is allowed in the state it arrives in. -/
def AllAllowed (step : σ → ι → σ × List ω) (allowed : σ → ι → Prop) : σ → List ι → Prop
  | _, [] => True
  | s, i :: l => allowed s i ∧ AllAllowed step allowed (step s i).1 l

instance [∀ s i, Decidable (allowed s i)] :
    (s : σ) → (l : List ι) → Decidable (AllAllowed step allowed s l)
  | _, [] => inferInstanceAs (Decidable True)
  | s, i :: l =>
    have := instDecidableAllAllowed (step s i).1 l
    inferInstanceAs (Decidable (allowed s i ∧ AllAllowed step allowed (step s i).1 l))

theorem allAllowed_of_forall (hall : ∀ s i, allowed s i) (s : σ) (l : List ι) :
    AllAllowed step allowed s l := by
  induction l generalizing s with
  | nil => trivial
  | cons i l ih => exact ⟨hall s i, ih _⟩

theorem Trace.append_run {log : List ω} (h : Trace step allowed start log s) (l : List ι)
    (hl : AllAllowed step allowed s l) :
    Trace step allowed start (log ++ (run step s l).2) (run step s l).1 := by
  induction l generalizing log s with
  | nil => simpa [run] using h
  | cons i l ih =>
    have hrest := ih (.snoc i h hl.1) hl.2
    rwa [append_assoc] at hrest

theorem run_append (s : σ) (l l' : List ι) :
    run step s (l ++ l') = ((run step (run step s l).1 l').1,
      (run step s l).2 ++ (run step (run step s l).1 l').2) := by
  induction l generalizing s with
  | nil => simp [run]
  | cons i l ih =>
    rw [cons_append, run, ih]
    simp [run]

theorem AllAllowed.append {s : σ} {l l' : List ι} (h : AllAllowed step allowed s l)
    (h' : AllAllowed step allowed (run step s l).1 l') : AllAllowed step allowed s (l ++ l') := by
  induction l generalizing s with
  | nil => exact h'
  | cons i l ih => exact ⟨h.1, ih h.2 h'⟩

theorem trace_run_of_allowed {l : List ι} (hl : AllAllowed step allowed start l) :
    Trace step allowed start (run step start l).2 (run step start l).1 :=
  Trace.append_run .nil l hl

theorem trace_run (hall : ∀ s i, allowed s i) (start : σ) (l : List ι) :
    Trace step allowed start (run step start l).2 (run step start l).1 :=
  trace_run_of_allowed (allAllowed_of_forall hall start l)

/-! ## Giving back -/

variable {κ : Type} {P : σ → Prop} {live : σ → List κ} {release : κ → ι} {out : κ → ω}

/-- What is live is given back one after the other, in any order. -/
theorem run_release (hnodup : ∀ s, P s → (live s).Nodup)
    (hstep : ∀ s a, P s → a ∈ live s → P (step s (release a)).1 ∧
      (step s (release a)).2 = [out a] ∧
      ∀ b, b ∈ live (step s (release a)).1 ↔ b ∈ live s ∧ b ≠ a)
    {order : List κ} (hperm : order.Perm (live s)) (h : P s) :
    P (run step s (order.map release)).1 ∧ live (run step s (order.map release)).1 = [] ∧
      (run step s (order.map release)).2 = order.map out := by
  -- the rest of the order is always a permutation of what is still live
  induction order generalizing s with
  | nil => exact ⟨h, hperm.nil_eq.symm, rfl⟩
  | cons a order ih =>
    obtain ⟨hP, hout, hlive⟩ := hstep s a h (hperm.mem_iff.mp mem_cons_self)
    have hcons : (a :: order).Nodup := hperm.nodup_iff.mpr (hnodup s h)
    have hrest : order.Perm (live (step s (release a)).1) := by
      refine (perm_ext_iff_of_nodup hcons.of_cons (hnodup _ hP)).mpr fun b => ?_
      rw [hlive, ← hperm.mem_iff, mem_cons]
      constructor
      · intro hb
        exact ⟨.inr hb, fun heq => (nodup_cons.mp hcons).1 (heq ▸ hb)⟩
      · rintro ⟨rfl | hb, hne⟩
        · exact absurd rfl hne
        · exact hb
    obtain ⟨hP', hempty, hlog⟩ := ih hrest hP
    refine ⟨hP', hempty, ?_⟩
    rw [map_cons, run, hout, hlog, map_cons, singleton_append]

end MemFabric.Machine
