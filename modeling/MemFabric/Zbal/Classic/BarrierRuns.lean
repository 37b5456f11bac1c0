import Mathlib.Data.Finset.Max
import Mathlib.Data.Fintype.Prod
import MemFabric.Zbal.Classic.Barrier

/-!
# Runs of the barrier

A flag goes from the core of one rank that serves the other to the core of the other rank
that serves the first one.  Neither of the two can be ahead of the other by more than one
flag: the next flag is only set after a stat has come back, and a stat only after the flag
has been taken back.
-/

namespace MemFabric.Zbal.Barrier

open Machine.Cores System
open scoped List

variable {groupSize aivNum calls : Nat}
  {s : State (Fin groupSize × Fin aivNum) (Memory groupSize aivNum)}

/-! ## One slot -/

structure Slot (sets polls resets value : Nat) : Prop where
  resets_le : resets ≤ sets
  sets_le : sets ≤ resets + 1
  polls_le : polls ≤ sets
  value_eq : value = if sets = resets + 1 then magic else 0

namespace Slot

variable {sets polls resets value : Nat}

variable (h : Slot sets polls resets value)

include h

theorem set (hsets : sets = resets) : Slot (sets + 1) polls resets magic where
  resets_le := by omega
  sets_le := by omega
  polls_le := h.polls_le.trans (Nat.le_succ sets)
  value_eq := (if_pos (by omega)).symm

theorem sets_eq_of_value (hvalue : value = magic) :
    sets = resets + 1 := by
  by_contra hne
  rw [h.value_eq, if_neg hne] at hvalue
  cases hvalue

theorem poll (hvalue : value = magic) (hpolls : polls = resets) :
    Slot sets (polls + 1) resets value where
  resets_le := h.resets_le
  sets_le := h.sets_le
  polls_le := by
    have := h.sets_eq_of_value hvalue
    omega
  value_eq := h.value_eq

theorem reset (hpolls : polls = resets + 1) : Slot sets polls (resets + 1) 0 where
  resets_le := hpolls ▸ h.polls_le
  sets_le := h.sets_le.trans (Nat.le_succ _)
  polls_le := h.polls_le
  value_eq := by
    have := h.sets_le
    rw [if_neg (by omega)]

end Slot

/-! ## The invariant -/

/-- `c` and `c'` are the cores of the ranks `r` and `p` that serve each other. -/
structure Inv (calls : Nat)
    (s : State (Fin groupSize × Fin aivNum) (Memory groupSize aivNum)) : Prop where
  arrived : ∀ t, s.mem.arrived t =
    (system groupSize aivNum calls).count s t (.arrive .entering) +
      (system groupSize aivNum calls).count s t (.arrive .leaving)
  awaited : ∀ r c c' site, (system groupSize aivNum calls).count s (r, c) (.await site) ≤
    (system groupSize aivNum calls).count s (r, c') (.arrive site)
  slots : ∀ (r p : Fin groupSize) (c c' : Fin aivNum) (area : Area),
    p.val ∈ ranksOf groupSize aivNum c → r.val ∈ ranksOf groupSize aivNum c' →
    Slot ((system groupSize aivNum calls).count s (p, c') (.set area r))
      ((system groupSize aivNum calls).count s (r, c) (.poll area p))
      ((system groupSize aivNum calls).count s (r, c) (.reset area p))
      (s.mem.param r (slot area p))

theorem inv_start : Inv calls (start ({} : Memory groupSize aivNum)) where
  arrived _ := rfl
  awaited _ _ _ _ := Nat.le_refl 0
  slots _ _ _ _ _ _ _ := ⟨Nat.le_refl 0, Nat.zero_le 1, Nat.le_refl 0, rfl⟩

variable {p k : Nat} {a b i : Instr} {area : Area} {t : Fin groupSize × Fin aivNum}

theorem pair_serving {c i j : Nat} (h : p ∈ ranksOf groupSize aivNum c) (hij : i < j)
    (hi : (servingOrder p)[i]? = some a) (hj : (servingOrder p)[j]? = some b) :
    [a, b] <+ barrierAll groupSize aivNum c :=
  (pair_sublist hij hi hj).trans (servingOrder_sublist h)

theorem pair_poll_reset {c : Nat} (h : p ∈ ranksOf groupSize aivNum c) (area : Area) :
    [Instr.poll area p, .reset area p] <+ barrierAll groupSize aivNum c := by
  cases area
  · exact pair_serving h (by decide : 3 < 4) rfl rfl
  · exact pair_serving h (by decide : 6 < 7) rfl rfl

theorem pair_sync {i j : Nat} (c : Nat) (hij : i < j) (hi : syncOrder[i]? = some a)
    (hj : syncOrder[j]? = some b) : [a, b] <+ barrierAll groupSize aivNum c :=
  (pair_sublist hij hi hj).trans (syncOrder_sublist c)

/-- Before a flag or a stat is set, the last one has been taken back. -/
theorem Inv.sets_eq_resets (h : Inv calls s) {r p : Fin groupSize} {c c' : Fin aivNum}
    (hc : p.val ∈ ranksOf groupSize aivNum c) (hc' : r.val ∈ ranksOf groupSize aivNum c')
    (hn : (system _ _ calls).next s (p, c') = some (.set area r)) :
    (system _ _ calls).count s (p, c') (.set area r) =
      (system _ _ calls).count s (r, c) (.reset area p) := by
  have R := repeats groupSize aivNum calls
  have hle := (h.slots r p c c' area hc hc').resets_le
  cases area with
  | flag =>
    -- the stat of the last barrier has come back, and was set after the flag was reset
    have hpolls := R.count_eq_of_next hn (pair_serving hc' (by decide : 2 < 6) rfl rfl)
    have hstat := (h.slots p r c' c .stat hc' hc).polls_le
    have horder := R.count_le_count (t := (r, c)) (pair_serving hc (by decide : 4 < 5) rfl rfl) s
    omega
  | stat =>
    -- the flag of this barrier has come, and was set after the stat of the last one was reset
    have hpolls := R.count_eq_succ_of_next hn (pair_serving hc' (by decide : 3 < 5) rfl rfl)
    have hflag := (h.slots p r c' c .flag hc' hc).polls_le
    have horder := R.count_le_succ (t := (r, c)) (pair_serving hc (by decide : 2 < 7) rfl rfl) s
    omega

theorem mem_ranksOf_of_next (hn : (system _ _ calls).next s t = some i)
    (hi : i ∈ setFlagOrStat .flag p ++ waitFlagOrStat .flag p ++ setFlagOrStat .stat p ++
      waitFlagOrStat .stat p) : p ∈ ranksOf groupSize aivNum t.2 := by
  have hmem := (repeats groupSize aivNum calls).mem_body_of_next hn
  simp only [setFlagOrStat, waitFlagOrStat, List.mem_append, List.mem_cons, List.not_mem_nil,
    or_false] at hi
  rcases hi with ((rfl | rfl | rfl) | rfl) | rfl | rfl <;>
    simpa [barrierAll, syncAll, setFlagOrStat, waitFlagOrStat] using hmem

theorem Inv.arrived_step (h : Inv calls s) (hn : (system _ _ calls).next s t = some i)
    (u : Fin groupSize × Fin aivNum) :
    ((system _ _ calls).perform s t i).mem.arrived u =
      (system _ _ calls).count ((system _ _ calls).perform s t i) u
          (.arrive .entering) +
        (system _ _ calls).count ((system _ _ calls).perform s t i) u
          (.arrive .leaving) := by
  have hu := h.arrived u
  rw [count_perform hn, count_perform hn]
  cases i with
  | arrive site =>
    change Function.update s.mem.arrived t (s.mem.arrived t + 1) u = _
    by_cases hut : u = t
    · subst hut
      cases site <;> simp <;> omega
    · simp [hut, hu]
  | await _ => simpa [effect] using hu
  | set _ _ => simpa [effect, Memory.store] using hu
  | poll _ _ => simpa [effect] using hu
  | reset _ _ => simpa [effect, Memory.store] using hu

theorem Inv.awaited_step (h : Inv calls s) (hn : (system _ _ calls).next s t = some i)
    (hr : ready t i s.mem = true) (r : Fin groupSize) (c c' : Fin aivNum) (site : Site) :
    (system _ _ calls).count ((system _ _ calls).perform s t i) (r, c)
        (.await site) ≤
      (system _ _ calls).count ((system _ _ calls).perform s t i) (r, c')
        (.arrive site) := by
  have R := repeats groupSize aivNum calls
  have hle := h.awaited r c c' site
  rw [count_perform hn, count_perform hn]
  by_cases hit : (r, c) = t ∧ .await site = i
  · obtain ⟨rfl, rfl⟩ := hit
    have hready : s.mem.arrived (r, c) ≤ s.mem.arrived (r, c') := by
      simp only [ready, decide_eq_true_eq] at hr
      exact hr c'
    rw [h.arrived, h.arrived] at hready
    -- of the two counts of arrivals the first is equal to the second or one more
    have hle' := R.count_le_count (t := (r, c')) (pair_sync c' (by decide : 0 < 2) rfl rfl) s
    have hsucc := R.count_le_succ (t := (r, c')) (pair_sync c' (by decide : 0 < 2) rfl rfl) s
    simp only [and_self, if_true]
    cases site with
    | entering =>
      have h1 := R.count_eq_succ_of_next hn (pair_sync c (by decide : 0 < 1) rfl rfl)
      have h2 := R.count_eq_of_next hn (pair_sync c (by decide : 1 < 2) rfl rfl)
      omega
    | leaving =>
      have h1 := R.count_eq_succ_of_next hn (pair_sync c (by decide : 0 < 3) rfl rfl)
      have h2 := R.count_eq_succ_of_next hn (pair_sync c (by decide : 2 < 3) rfl rfl)
      omega
  · rw [if_neg hit]
    omega

section

variable (hg : groupSize ≤ 512) (h : Inv calls s) (hn : (system _ _ calls).next s t = some i)
  (hr : ready t i s.mem = true)

include hg h hn hr

theorem Inv.slots_step (r p : Fin groupSize) (c c' : Fin aivNum) (area : Area)
    (hc : p.val ∈ ranksOf groupSize aivNum c) (hc' : r.val ∈ ranksOf groupSize aivNum c') :
    Slot
      ((system _ _ calls).count ((system _ _ calls).perform s t i)
        (p, c') (.set area r))
      ((system _ _ calls).count ((system _ _ calls).perform s t i)
        (r, c) (.poll area p))
      ((system _ _ calls).count ((system _ _ calls).perform s t i)
        (r, c) (.reset area p))
      (((system _ _ calls).perform s t i).mem.param r (slot area p)) := by
  have R := repeats groupSize aivNum calls
  have hslot := h.slots r p c c' area hc hc'
  rw [count_perform hn, count_perform hn, count_perform hn]
  cases i with
  | arrive _ => simpa [effect] using hslot
  | await _ => simpa [effect] using hslot
  | set area' q =>
    have hq := mem_ranksOf_of_next (p := q) hn (by cases area' <;> simp [setFlagOrStat])
    by_cases hit : (p, c') = t ∧ Instr.set area r = Instr.set area' q
    · obtain ⟨rfl, heq⟩ := hit
      cases heq
      simpa [effect, Memory.store] using hslot.set (h.sets_eq_resets hc hc' hn)
    · -- a write to the slot would come from the core that serves `r` at `p`
      have hother : ¬ (r.val = q ∧ slot area p = slot area' t.1) := by
        rintro ⟨rfl, heq⟩
        obtain ⟨rfl, hpt⟩ := slot_inj (by omega) (by omega) heq
        exact hit ⟨Prod.ext (Fin.ext hpt) (serving_unique (hg.trans (by decide)) hc' hq), rfl⟩
      rw [if_neg hit]
      simpa [effect, Memory.store, hother] using hslot
  | poll area' q =>
    by_cases hit : (r, c) = t ∧ Instr.poll area p = Instr.poll area' q
    · obtain ⟨rfl, heq⟩ := hit
      cases heq
      have hvalue : s.mem.param r (slot area p) = magic := by simpa [ready] using hr
      have hpolls := R.count_eq_of_next hn (pair_poll_reset hc area)
      simpa [effect] using hslot.poll hvalue hpolls.symm
    · rw [if_neg hit]
      simpa [effect] using hslot
  | reset area' q =>
    have hq := mem_ranksOf_of_next (p := q) hn (by cases area' <;> simp [waitFlagOrStat])
    by_cases hit : (r, c) = t ∧ Instr.reset area p = Instr.reset area' q
    · obtain ⟨rfl, heq⟩ := hit
      cases heq
      have hpolls := R.count_eq_succ_of_next hn (pair_poll_reset hc area)
      simpa [effect, Memory.store] using hslot.reset hpolls
    · -- a reset of the slot would come from the core that serves `p` at `r`
      have hother : ¬ (r.val = t.1 ∧ slot area p = slot area' q) := by
        rintro ⟨hrt, heq⟩
        have hq512 := lt_of_mem_ranksOf (hg.trans (by decide)) hq
        obtain ⟨rfl, rfl⟩ := slot_inj (by omega) (by omega) heq
        exact hit ⟨Prod.ext (Fin.ext hrt) (serving_unique (hg.trans (by decide)) hc hq), rfl⟩
      rw [if_neg hit]
      simpa [effect, Memory.store, hother] using hslot

theorem Inv.step : Inv calls ((system _ _ calls).perform s t i) :=
  ⟨h.arrived_step hn, h.awaited_step hn hr, h.slots_step hg hn hr⟩

end

theorem inv_of_reachable (hg : groupSize ≤ 512)
    (h : (system groupSize aivNum calls).Reachable {} s) : Inv calls s :=
  h.invariant inv_start fun _ _ _ hs hn hr => hs.step hg hn hr

/-! ## What the barrier is for -/

theorem Inv.left_le_entered (hg : groupSize ≤ 512) (h : Inv calls s)
    (t u : Fin groupSize × Fin aivNum) : left s calls t ≤ entered s calls u := by
  have R := repeats groupSize aivNum calls
  obtain ⟨r, c0⟩ := t
  obtain ⟨p, c1⟩ := u
  obtain ⟨c, hc⟩ := exists_serving (hg.trans (by decide)) c0.pos p
  obtain ⟨c', hc'⟩ := exists_serving (hg.trans (by decide)) c0.pos r
  calc left s calls (r, c0)
      ≤ (system _ _ calls).count s (r, c) (.arrive .leaving) :=
        h.awaited r c0 c .leaving
    _ ≤ (system _ _ calls).count s (r, c) (.poll .flag p) :=
        R.count_le_count (pair_serving hc (by decide : 3 < 8) rfl rfl) s
    _ ≤ (system _ _ calls).count s (p, c') (.set .flag r) :=
        (h.slots r p c c' .flag hc hc').polls_le
    _ ≤ (system _ _ calls).count s (p, c') (.await .entering) :=
        R.count_le_count (pair_serving hc' (by decide : 1 < 2) rfl rfl) s
    _ ≤ entered s calls (p, c1) := h.awaited p c' c1 .entering

theorem Inv.set_le_poll (h : Inv calls s) {r p : Fin groupSize} {c : Fin aivNum}
    (hn : (system _ _ calls).next s (r, c) = some (.reset area p)) (c' : Fin aivNum) :
    (system _ _ calls).count s (p, c') (.set area r) ≤
      (system _ _ calls).count s (r, c) (.poll area p) := by
  have R := repeats groupSize aivNum calls
  have hc := mem_ranksOf_of_next (p := p) hn (by cases area <;> simp [waitFlagOrStat])
  by_cases hc' : r.val ∈ ranksOf groupSize aivNum c'
  · have hsets := (h.slots r p c c' area hc hc').sets_le
    have hpolls := R.count_eq_succ_of_next hn (pair_poll_reset hc area)
    omega
  · -- a core that does not serve the rank never sets its flag
    have hnot : .set area r ∉ (system _ _ calls).executed s (p, c') := by
      intro hmem
      have hprog := mem_prog_of_mem_executed _ hmem
      simp only [system] at hprog
      cases area <;> simp_all [barrierAll, syncAll, setFlagOrStat, waitFlagOrStat]
    rw [count, List.count_eq_zero_of_not_mem hnot]
    exact Nat.zero_le _

/-! ## Progress

All cores have left `m` barriers, and no core can take a step of the next one.  Then no core
waits for a flag, since the flag would be missing because another core has not set it; hence
none waits for a stat, and none waits to leave. -/

structure Stuck (calls m : Nat)
    (s : State (Fin groupSize × Fin aivNum) (Memory groupSize aivNum)) : Prop where
  inv : Inv calls s
  lt : m < calls
  behind : ∀ t, m ≤ left s calls t
  blocked : ∀ t i, (system groupSize aivNum calls).next s t = some i →
    (system groupSize aivNum calls).count s t i = m → ready t i s.mem = false

namespace Stuck

variable {m : Nat} {t : Fin groupSize × Fin aivNum}

def At (calls m : Nat) (s : State (Fin groupSize × Fin aivNum) (Memory groupSize aivNum))
    (t : Fin groupSize × Fin aivNum) (i : Instr) : Prop :=
  (system groupSize aivNum calls).next s t = some i ∧
    (system groupSize aivNum calls).count s t i = m

theorem count_ge (h : Stuck calls m s) {i : Instr} (hi : i ∈ barrierAll groupSize aivNum t.2) :
    m ≤ (system _ _ calls).count s t i := by
  have hlast : .await .leaving ∈ barrierAll groupSize aivNum t.2 :=
    (syncOrder_sublist t.2).subset (by simp [syncOrder])
  have hleft := h.behind t
  rcases sublist_or_sublist hi hlast with rfl | hbefore | hafter
  · exact hleft
  · exact hleft.trans ((repeats groupSize aivNum calls).count_le_count hbefore s)
  · rw [eq_of_seven_le_phase (phase_le_phase hafter)]
    exact hleft

/-- A core that has still to do an instruction waits in its phase or in an earlier one. -/
theorem waits (h : Stuck calls m s) {a : Instr} (ha : a ∈ barrierAll groupSize aivNum t.2)
    (hcount : (system _ _ calls).count s t a = m) :
    (1 ≤ phase a ∧ At calls m s t (.await .entering)) ∨
      (3 ≤ phase a ∧ ∃ p, At calls m s t (.poll .flag p)) ∨
      (5 ≤ phase a ∧ ∃ p, At calls m s t (.poll .stat p)) ∨
      (7 ≤ phase a ∧ At calls m s t (.await .leaving)) := by
  obtain ⟨j, hn, hja, hj⟩ :=
    (repeats groupSize aivNum calls).exists_next (fun _ => h.count_ge) h.lt ha hcount
  have hphase : phase j ≤ phase a := by
    rcases hja with rfl | hja
    · exact Nat.le_refl _
    · exact phase_le_phase hja
  have hblocked := h.blocked t j hn hj
  cases j with
  | arrive _ => cases hblocked
  | await site =>
    cases site with
    | entering => exact .inl ⟨hphase, hn, hj⟩
    | leaving => exact .inr (.inr (.inr ⟨hphase, hn, hj⟩))
  | set _ _ => cases hblocked
  | poll area p =>
    cases area with
    | flag => exact .inr (.inl ⟨hphase, p, hn, hj⟩)
    | stat => exact .inr (.inr (.inl ⟨hphase, p, hn, hj⟩))
  | reset _ _ => cases hblocked

theorem not_await_entering (h : Stuck calls m s) (t : Fin groupSize × Fin aivNum) :
    ¬ At calls m s t (.await .entering) := by
  rintro ⟨hn, hcount⟩
  have R := repeats groupSize aivNum calls
  have hblocked := h.blocked t _ hn hcount
  simp only [ready, decide_eq_false_iff_not, not_forall] at hblocked
  obtain ⟨c, hlt⟩ := hblocked
  rw [h.inv.arrived, h.inv.arrived] at hlt
  -- the core has arrived, and another one has not
  have h1 := R.count_eq_succ_of_next hn (pair_sync t.2 (by decide : 0 < 1) rfl rfl)
  have h2 := R.count_eq_of_next hn (pair_sync t.2 (by decide : 1 < 2) rfl rfl)
  have harrive : .arrive .entering ∈ barrierAll groupSize aivNum c :=
    (syncOrder_sublist c).subset (by simp [syncOrder])
  have h3 := h.count_ge (t := (t.1, c)) harrive
  have h4 := h.count_ge (t := (t.1, c))
    ((syncOrder_sublist c).subset (show .arrive .leaving ∈ syncOrder by simp [syncOrder]))
  obtain ⟨hlt, -⟩ | ⟨hlt, -⟩ | ⟨hlt, -⟩ | ⟨hlt, -⟩ :=
    h.waits (t := (t.1, c)) harrive (by omega)
  all_goals simp [phase] at hlt

variable (hg : groupSize ≤ 512)

include hg

/-- The core that should have set a flag or a stat waits itself. -/
theorem waits_of_poll (h : Stuck calls m s) {r : Fin groupSize}
    {c : Fin aivNum} {area : Area} {p : Nat} (hat : At calls m s (r, c) (.poll area p)) :
    ∃ u : Fin groupSize × Fin aivNum, ∃ q, Instr.set area q ∈ barrierAll groupSize aivNum u.2 ∧
      (system _ _ calls).count s u (.set area q) = m := by
  obtain ⟨hn, hcount⟩ := hat
  have R := repeats groupSize aivNum calls
  have hc : p ∈ ranksOf groupSize aivNum c :=
    mem_ranksOf_of_next hn (by cases area <;> simp [waitFlagOrStat])
  obtain ⟨c', hc'⟩ := exists_serving (hg.trans (by decide)) c.pos r
  have hset : .set area r ∈ barrierAll groupSize aivNum c' :=
    (servingOrder_sublist hc').subset (by cases area <;> simp [servingOrder])
  have hslot := h.inv.slots r ⟨p, lt_of_mem_ranksOf (hg.trans (by decide)) hc⟩ c c' area hc hc'
  refine ⟨(⟨p, lt_of_mem_ranksOf (hg.trans (by decide)) hc⟩, c'), r, hset, ?_⟩
  have hresets := R.count_eq_of_next hn (pair_poll_reset hc area)
  have hvalue : s.mem.param r (slot area p) ≠ magic := by
    have hblocked := h.blocked _ _ hn hcount
    simpa [ready] using hblocked
  have hne : ¬ _ = _ + 1 := fun heq => hvalue (hslot.value_eq.trans (if_pos heq))
  have h1 := hslot.resets_le
  have h2 := hslot.sets_le
  simp only at hne h1 h2 hresets
  omega

section

variable (h : Stuck calls m s) (t : Fin groupSize × Fin aivNum)

include h

theorem not_poll_flag (p : Nat) : ¬ At calls m s t (.poll .flag p) := by
  intro hat
  obtain ⟨u, q, hset, hcount⟩ := h.waits_of_poll hg hat
  obtain ⟨-, hu⟩ | ⟨hlt, -⟩ | ⟨hlt, -⟩ | ⟨hlt, -⟩ := h.waits hset hcount
  · exact h.not_await_entering u hu
  all_goals simp [phase] at hlt

theorem not_poll_stat (p : Nat) : ¬ At calls m s t (.poll .stat p) := by
  intro hat
  obtain ⟨u, q, hset, hcount⟩ := h.waits_of_poll hg hat
  obtain ⟨-, hu⟩ | ⟨-, p', hu⟩ | ⟨hlt, -⟩ | ⟨hlt, -⟩ := h.waits hset hcount
  · exact h.not_await_entering u hu
  · exact h.not_poll_flag hg u p' hu
  all_goals simp [phase] at hlt

theorem not_await_leaving : ¬ At calls m s t (.await .leaving) := by
  rintro ⟨hn, hcount⟩
  have R := repeats groupSize aivNum calls
  have hblocked := h.blocked t _ hn hcount
  simp only [ready, decide_eq_false_iff_not, not_forall] at hblocked
  obtain ⟨c, hlt⟩ := hblocked
  rw [h.inv.arrived, h.inv.arrived] at hlt
  -- the core has arrived for the second time, and another one has not
  have h1 := R.count_eq_succ_of_next hn (pair_sync t.2 (by decide : 0 < 3) rfl rfl)
  have h2 := R.count_eq_succ_of_next hn (pair_sync t.2 (by decide : 2 < 3) rfl rfl)
  have h3 := R.count_le_count (t := (t.1, c)) (pair_sync c (by decide : 0 < 2) rfl rfl) s
  have harrive : .arrive .leaving ∈ barrierAll groupSize aivNum c :=
    (syncOrder_sublist c).subset (by simp [syncOrder])
  have h4 := h.count_ge (t := (t.1, c)) harrive
  obtain ⟨-, hu⟩ | ⟨-, p, hu⟩ | ⟨-, p, hu⟩ | ⟨hlt, -⟩ :=
    h.waits (t := (t.1, c)) harrive (by omega)
  · exact h.not_await_entering _ hu
  · exact h.not_poll_flag hg _ p hu
  · exact h.not_poll_stat hg _ p hu
  · simp [phase] at hlt

/-- Hence all cores have left the next barrier as well. -/
theorem lt_left : m < left s calls t := by
  refine lt_of_le_of_ne (h.behind t) fun heq => ?_
  have hlast : .await .leaving ∈ barrierAll groupSize aivNum t.2 :=
    (syncOrder_sublist t.2).subset (by simp [syncOrder])
  obtain ⟨-, hu⟩ | ⟨-, p, hu⟩ | ⟨-, p, hu⟩ | ⟨-, hu⟩ := h.waits hlast heq.symm
  · exact h.not_await_entering _ hu
  · exact h.not_poll_flag hg _ p hu
  · exact h.not_poll_stat hg _ p hu
  · exact h.not_await_leaving hg _ hu

end

end Stuck

section

variable (hg : groupSize ≤ 512) (h : Inv calls s) (hk : k ≤ calls)
  (hentered : ∀ t, k ≤ entered s calls t)

include hg h hk hentered

/-- Of the cores that have not left a barrier that all have entered, one can take a step. -/
theorem Inv.exists_ready (hleft : ¬ ∀ t, k ≤ left s calls t) :
    ∃ t i, i ≠ .arrive .entering ∧ (system _ _ calls).next s t = some i ∧
      ready t i s.mem = true := by
  rw [not_forall] at hleft
  obtain ⟨t0, ht0⟩ := hleft
  -- `m` barriers lie behind all cores, and only `m` behind `t`
  obtain ⟨t, -, ht⟩ := Finset.exists_min_image Finset.univ (left s calls) ⟨t0, Finset.mem_univ t0⟩
  have hlt : left s calls t < k := (ht t0 (Finset.mem_univ t0)).trans_lt (not_le.mp ht0)
  by_contra hnone
  have hstuck : Stuck calls (left s calls t) s := by
    refine ⟨h, hlt.trans_le hk, fun u => ht u (Finset.mem_univ u), fun u i hn hcount => ?_⟩
    rw [← Bool.not_eq_true]
    refine fun hr => hnone ⟨u, i, ?_, hn, hr⟩
    rintro rfl
    have : k ≤ left s calls t := hcount ▸ hentered u
    omega
  exact (hstuck.lt_left hg t).ne rfl

theorem Inv.completes :
    ∃ s', (system groupSize aivNum calls).Reaches (fun _ i => i ≠ .arrive .entering) s s' ∧
      ∀ t, k ≤ left s' calls t := by
  obtain ⟨s', hs', -, hleft⟩ := exists_reaches
    (P := fun s => Inv calls s ∧ ∀ t, k ≤ entered s calls t)
    (fun s t i hP _ hn hr => ⟨hP.1.step hg hn hr, fun u => (hP.2 u).trans (by
      rw [entered, entered, count_perform hn]
      exact Nat.le_add_right _ _)⟩)
    (fun s hP hG => hP.1.exists_ready hg hk hP.2 hG) ⟨h, hentered⟩
  exact ⟨s', hs', hleft⟩

end

/-- `BarrierAll` is correct in groups of at most 512 ranks. -/
theorem barrierAll_correct (groupSize aivNum calls : Nat) (hg : groupSize ≤ 512) :
    Correct groupSize aivNum calls where
  separates _ hs := (inv_of_reachable hg hs).left_le_entered hg
  keeps _ hs _ _ _ c' _ hn := (inv_of_reachable hg hs).set_le_poll hn c'
  completes _ hs _ hk hentered := (inv_of_reachable hg hs).completes hg hk hentered

theorem barrierAll_correct_three : Correct 3 2 4 := barrierAll_correct 3 2 4 (by decide)

end MemFabric.Zbal.Barrier
