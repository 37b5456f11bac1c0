import MemFabric.Zbal.Classic.BarrierRuns

/-!
# A barrier of more than 512 ranks

The flag of rank 512 and the stat of rank 0 are noted in the same word.  When both of them
have been set, the first wait takes both back, and the second one never ends.
-/

namespace MemFabric.Zbal.Barrier

open Machine.Cores List System
open scoped List

variable {groupSize aivNum calls : Nat} {t : Fin groupSize × Fin aivNum}

/-! ## The loops of a core -/

section

variable (m : Memory groupSize aivNum) (area : Area)

theorem effects_set (ranks : List Nat) :
    (system groupSize aivNum calls).effects t (ranks.flatMap (setFlagOrStat area)) m =
      { m with
        param := fun r w => if r ∈ ranks ∧ w = slot area t.1 then magic else m.param r w } := by
  induction ranks generalizing m with
  | nil => simp [effects]
  | cons p ranks ih =>
    rw [flatMap_cons, effects_append, ih]
    simp only [setFlagOrStat, effects, system_effect, effect, Memory.store]
    congr 1
    funext r w
    by_cases hr : r = p <;> by_cases hw : w = slot area t.1 <;> simp [hr, hw]

theorem runsThrough_set (ranks : List Nat) :
    (system groupSize aivNum calls).RunsThrough t (ranks.flatMap (setFlagOrStat area)) m := by
  induction ranks generalizing m with
  | nil => trivial
  | cons p ranks ih => exact ⟨rfl, ih _⟩

theorem effects_wait (ranks : List Nat) :
    (system groupSize aivNum calls).effects t (ranks.flatMap (waitFlagOrStat area)) m =
      { m with
        param := fun r w =>
          if r = t.1 ∧ ∃ p ∈ ranks, w = slot area p then 0 else m.param r w } := by
  induction ranks generalizing m with
  | nil => simp [effects]
  | cons p ranks ih =>
    rw [flatMap_cons, effects_append, ih]
    simp only [waitFlagOrStat, effects, system_effect, effect, Memory.store, mem_cons,
      exists_eq_or_imp]
    congr 1
    funext r w
    by_cases hr : r = t.1 <;> by_cases hw : w = slot area p <;> simp [hr, hw]

theorem slot_area_inj {p q : Nat} (h : slot area p = slot area q) : p = q := by
  simp only [slot, flagSize] at h
  omega

theorem runsThrough_wait {ranks : List Nat} (hranks : ranks.Nodup)
    (h : ∀ p ∈ ranks, m.param t.1 (slot area p) = magic) :
    (system groupSize aivNum calls).RunsThrough t (ranks.flatMap (waitFlagOrStat area)) m := by
  induction ranks generalizing m with
  | nil => trivial
  | cons p ranks ih =>
    rw [nodup_cons] at hranks
    refine ⟨by simp [ready, h p], rfl, ih _ hranks.2 fun q hq => ?_⟩
    have hne : slot area q ≠ slot area p := fun heq =>
      hranks.1 (slot_area_inj area heq ▸ hq)
    simpa [effect, Memory.store, hne] using h q (mem_cons_of_mem p hq)

end

/-! ## The run -/

def loop (groupSize aivNum c : Nat) (f : Nat → List Instr) : List Instr :=
  (ranksOf groupSize aivNum c).flatMap f

def afterFlags (groupSize aivNum c : Nat) : List Instr :=
  loop groupSize aivNum c (waitFlagOrStat .flag) ++
    (loop groupSize aivNum c (setFlagOrStat .stat) ++
      (loop groupSize aivNum c (waitFlagOrStat .stat) ++ syncAll .leaving))

theorem prog_one (t : Fin groupSize × Fin aivNum) : (system groupSize aivNum 1).prog t =
    [.arrive .entering] ++ ([.await .entering] ++ loop groupSize aivNum t.2 (setFlagOrStat .flag) ++
      afterFlags groupSize aivNum t.2) := by
  simp [system, barrierAll, loop, syncAll, afterFlags]

theorem reachable_flags (groupSize aivNum : Nat) :
    ∃ s, (system groupSize aivNum 1).Reachable {} s ∧
      (∀ t, (system groupSize aivNum 1).ahead s t = afterFlags groupSize aivNum t.2) ∧
      ∀ t : Fin groupSize × Fin aivNum, ∀ r ∈ ranksOf groupSize aivNum t.2,
        s.mem.param r (slot .flag t.1) = magic := by
  obtain ⟨s1, h₁, harrived, hahead1⟩ := Reachable.sweep
    (S := system groupSize aivNum 1) (s := start {}) .refl Finset.univ
    (fun _ => [.arrive .entering]) _
    (fun A m => ∀ t, m.arrived t = if t ∈ A then 1 else 0) (fun _ => rfl) (fun t _ => prog_one t)
    (by
      intro A t m _ htA hm
      refine ⟨⟨rfl, trivial⟩, fun u => ?_⟩
      by_cases hu : u = t
      · subst hu
        simp [effects, effect, hm, htA]
      · simp [effects, effect, hu, hm])
  obtain ⟨s2, h2, ⟨-, hflags⟩, hahead2⟩ := h₁.sweep Finset.univ
    (fun t => [.await .entering] ++ loop groupSize aivNum t.2 (setFlagOrStat .flag))
    (fun t => afterFlags groupSize aivNum t.2)
    (fun A m => (∀ t, m.arrived t = 1) ∧ ∀ t ∈ A, ∀ r ∈ ranksOf groupSize aivNum t.2,
      m.param r (slot .flag t.1) = magic)
    ⟨fun t => by simp [harrived t], fun t ht => by simp at ht⟩
    (fun t ht => by rw [hahead1 t, if_pos ht])
    (by
      rintro A t m - htA ⟨harr, hset⟩
      have hready : ready t (.await .entering) m = true := by simp [ready, harr]
      refine ⟨⟨hready, runsThrough_set m .flag _⟩, ?_⟩
      rw [effects_append]
      simp only [effects, system_effect, effect, loop, effects_set]
      refine ⟨harr, fun u hu r hr => ?_⟩
      rcases Finset.mem_insert.mp hu with rfl | hu
      · simp [hr]
      · rw [hset u hu r hr]
        simp)
  exact ⟨s2, h2, fun t => by simp [hahead2 t], fun t => hflags t (Finset.mem_univ t)⟩

def afterWaits (groupSize aivNum c : Nat) : List Instr :=
  loop groupSize aivNum c (setFlagOrStat .stat) ++
    (loop groupSize aivNum c (waitFlagOrStat .stat) ++ syncAll .leaving)

/-- A core of rank 0 sets its stat at rank 1, and a core of rank 1 takes it back with the flag
of rank 512. -/
theorem reachable_lost (hg : groupSize ≤ 1024) (t0 t1 : Fin groupSize × Fin aivNum)
    (h0 : t0.1.val = 0) (h₁ : t1.1.val = 1) (hserves : 512 ∈ ranksOf groupSize aivNum t1.2) :
    ∃ s, (system groupSize aivNum 1).Reachable {} s ∧
      (∀ t, (system groupSize aivNum 1).ahead s t =
        if t = t1 then afterWaits groupSize aivNum t.2
        else if t = t0 then
          loop groupSize aivNum t.2 (waitFlagOrStat .stat) ++ syncAll .leaving
        else afterFlags groupSize aivNum t.2) ∧
      s.mem.param 1 (slot .stat 0) = 0 := by
  obtain ⟨s, hs, hahead, hflags⟩ := reachable_flags groupSize aivNum
  have hset : ∀ (t : Fin groupSize × Fin aivNum), ∀ p ∈ ranksOf groupSize aivNum t.2,
      s.mem.param t.1 (slot .flag p) = magic := by
    intro t p hp
    obtain ⟨c, hc⟩ := exists_serving hg t.2.pos t.1
    exact hflags (⟨p, lt_of_mem_ranksOf hg hp⟩, c) t.1 hc
  obtain ⟨s', hs', hmem, hahead'⟩ := hs.runsThrough
    (l := loop groupSize aivNum t0.2 (waitFlagOrStat .flag) ++
      loop groupSize aivNum t0.2 (setFlagOrStat .stat))
    (by rw [hahead, afterFlags, append_assoc])
    (runsThrough_append (runsThrough_wait _ .flag nodup_range' (hset t0))
      (runsThrough_set _ .stat _))
  have hset' : ∀ p ∈ ranksOf groupSize aivNum t1.2, s'.mem.param t1.1 (slot .flag p) = magic := by
    intro p hp
    have hp := hset t1 p hp
    rw [hmem, effects_append]
    rw [h₁] at hp ⊢
    simp [loop, effects_wait, effects_set, hp, h0]
  have hne : t1 ≠ t0 := by
    rintro rfl
    omega
  obtain ⟨s'', hs'', hmem', hahead''⟩ := hs'.runsThrough
    (l := loop groupSize aivNum t1.2 (waitFlagOrStat .flag))
    (by rw [hahead', if_neg hne, hahead, afterFlags])
    (runsThrough_wait _ .flag nodup_range' hset')
  refine ⟨s'', hs'', fun t => ?_, ?_⟩
  · rw [hahead'', hahead', hahead]
    split
    next ht => rw [ht, afterWaits]
    next =>
      split
      next ht => rw [ht]
      next => rfl
  · rw [hmem', loop, effects_wait]
    exact if_pos ⟨h₁.symm, 512, hserves, rfl⟩

/-! ## Nobody can leave any more -/

structure Lost (s : State (Fin groupSize × Fin aivNum) (Memory groupSize aivNum)) : Prop where
  param : s.mem.param 1 (slot .stat 0) = 0
  flag : ∀ t : Fin groupSize × Fin aivNum, t.1.val = 512 →
    Instr.set .flag 1 ∉ (system groupSize aivNum 1).ahead s t
  stat : ∀ t : Fin groupSize × Fin aivNum, t.1.val = 0 →
    Instr.set .stat 1 ∉ (system groupSize aivNum 1).ahead s t
  poll : ∀ t : Fin groupSize × Fin aivNum, t.1.val = 1 →
    Instr.poll .stat 0 ∉ (system groupSize aivNum 1).executed s t

theorem Lost.step {s : State (Fin groupSize × Fin aivNum) (Memory groupSize aivNum)}
    (h : Lost s) {t : Fin groupSize × Fin aivNum} {i : Instr}
    (hi : (system groupSize aivNum 1).next s t = some i) (hr : ready t i s.mem = true) :
    Lost ((system groupSize aivNum 1).perform s t i) where
  param := by
    have hmem : i ∈ (system groupSize aivNum 1).ahead s t := by
      rw [next_eq_head?] at hi
      exact mem_of_head? hi
    have hp := h.param
    cases i with
    | arrive _ => exact hp
    | await _ => exact hp
    | poll _ _ => exact hp
    | reset area p =>
      simp only [perform_mem, system_effect, effect, Memory.store]
      split
      · rfl
      · exact hp
    | set area p =>
      simp only [perform_mem, system_effect, effect, Memory.store]
      split
      next heq =>
        obtain ⟨rfl, heq⟩ := heq
        exfalso
        -- the flag of rank 512 or the stat of rank 0
        cases area with
        | flag =>
          simp only [slot, Area.addr, operateParamSize, flagSize] at heq
          exact h.flag t (by omega) hmem
        | stat =>
          simp only [slot, flagSize] at heq
          exact h.stat t (by omega) hmem
      next => exact hp
  flag u hu hmem := by
    rw [ahead_perform] at hmem
    split at hmem
    next hut => exact h.flag u hu (hut ▸ mem_of_mem_tail hmem)
    next => exact h.flag u hu hmem
  stat u hu hmem := by
    rw [ahead_perform] at hmem
    split at hmem
    next hut => exact h.stat u hu (hut ▸ mem_of_mem_tail hmem)
    next => exact h.stat u hu hmem
  poll u hu hmem := by
    rw [executed_perform _ hi] at hmem
    split at hmem
    next hut =>
      subst hut
      rcases mem_append.mp hmem with hmem | hmem
      · exact h.poll u hu hmem
      · obtain rfl := mem_singleton.mp hmem
        simp only [ready, hu, h.param] at hr
        cases hr
    next => exact h.poll u hu hmem

theorem exists_lost (hg : groupSize ≤ 1024) (h512 : 512 < groupSize) (hn : 0 < aivNum) :
    ∃ s : State (Fin groupSize × Fin aivNum) (Memory groupSize aivNum),
      (system groupSize aivNum 1).Reachable {} s ∧ Lost s ∧ ∀ t, 1 ≤ entered s 1 t := by
  obtain ⟨c0, hc0⟩ := exists_serving hg hn ⟨1, by omega⟩
  obtain ⟨c1, hc1⟩ := exists_serving hg hn ⟨512, h512⟩
  obtain ⟨s, hs, hahead, hparam⟩ := reachable_lost hg (⟨0, by omega⟩, c0) (⟨1, by omega⟩, c1)
    rfl rfl hc1
  refine ⟨s, hs, ⟨hparam, fun t ht => ?_, fun t ht => ?_, fun t ht hmem => ?_⟩, fun t => ?_⟩
  · rw [hahead t]
    split_ifs <;> simp [afterFlags, afterWaits, loop, setFlagOrStat, waitFlagOrStat, syncAll]
  · rw [hahead t, if_neg (fun h => by rw [h] at ht; cases ht)]
    split_ifs with h
    · simp [loop, waitFlagOrStat, syncAll]
    · -- another core of rank 0 does not serve rank 1
      have hother : 1 ∉ ranksOf groupSize aivNum t.2 := fun h1 =>
        h (Prod.ext (Fin.ext ht) (serving_unique hg h1 hc0))
      simpa [afterFlags, loop, setFlagOrStat, waitFlagOrStat, syncAll] using hother
  · -- what is still ahead has not been done
    have hnodup := (barrierAll_inPhases groupSize aivNum t.2).nodup
    have hprog : barrierAll groupSize aivNum t.2 = (system groupSize aivNum 1).prog t := by
      simp [system]
    rw [hprog, ← executed_append_ahead _ s t] at hnodup
    refine (nodup_append.mp hnodup).2.2 _ hmem _ ?_ rfl
    have hserves := mem_prog_of_mem_executed _ hmem
    rw [← hprog] at hserves
    rw [hahead t]
    split_ifs <;> simpa [barrierAll, afterFlags, afterWaits, loop, setFlagOrStat, waitFlagOrStat,
      syncAll] using hserves
  · have hprog : Instr.arrive .entering ∈ (system groupSize aivNum 1).prog t := by
      rw [prog_one]
      simp
    rw [← executed_append_ahead _ s t, mem_append] at hprog
    refine count_pos_iff.mpr (hprog.resolve_right ?_)
    rw [hahead t]
    split_ifs <;> simp [afterFlags, afterWaits, loop, setFlagOrStat, waitFlagOrStat, syncAll]

/-- In a group of more than 512 ranks a barrier that everybody has entered may never end. -/
theorem not_correct_of_lt (hg : groupSize ≤ 1024) (h512 : 512 < groupSize) (hn : 0 < aivNum) :
    ¬ Correct groupSize aivNum 1 := by
  intro hcorrect
  obtain ⟨s, hs, hlost, hentered⟩ := exists_lost hg h512 hn
  obtain ⟨s', hs', hleft⟩ := hcorrect.completes s hs 1 le_rfl hentered
  have hlost' : Lost s' := hs'.invariant hlost fun _ _ _ h hi hr => h.step hi hr
  obtain ⟨c, hc⟩ := exists_serving hg hn (⟨0, by omega⟩ : Fin groupSize)
  -- the core of rank 1 that waits for the stat of rank 0
  have hone : 1 < groupSize := by omega
  have hpoll := (repeats groupSize aivNum 1).count_le_count (t := (⟨1, hone⟩, c))
    (pair_serving hc (by decide : 6 < 9) rfl rfl) s'
  exact hlost'.poll (⟨1, hone⟩, c) rfl (count_pos_iff.mp ((hleft (⟨1, hone⟩, c)).trans hpoll))

theorem barrier_of_513_ranks_hangs : ¬ Correct 513 48 1 :=
  not_correct_of_lt (by decide) (by decide) (by decide)

end MemFabric.Zbal.Barrier
