import Mathlib.Data.List.Nodup
import Mathlib.Data.List.Perm.Subperm
import Mathlib.Data.List.Range
import Mathlib.Data.Set.Insert

/-!
# Meetings

Members `0 .. n - 1` meet again and again on a number of channels.  The meetings of a
channel are numbered from 1 on, and every member goes through them in this order: it
enters, arrives, and passes when the meeting is announced; the member that arrives last
announces it.

What a meeting has left behind may be cleared away when it is old.  A member that has
been through meeting `m + 1` may declare meeting `m` old: everybody has arrived at
`m + 1`, so everybody has left `m`.
-/

namespace MemFabric.Machine.Rendezvous

open List

inductive Phase
  | entering
  | settling (last : Bool)
  | passed
deriving DecidableEq

/-- `done ch i` meetings on the channel lie behind member `i`, and `status i` is the
channel and the phase of the meeting it is in. -/
structure State (χ : Type) where
  done : χ → Nat → Nat := fun _ _ => 0
  status : Nat → Option (χ × Phase) := fun _ => none
  arrivals : χ → Nat → List Nat := fun _ _ => []
  announced : χ → Nat → Bool := fun _ _ => false
  old : Set (χ × Nat) := ∅

variable {χ : Type}

namespace State

def setStatus (s : State χ) (i : Nat) (st : Option (χ × Phase)) : State χ :=
  { s with status := fun j => if j = i then st else s.status j }

def addOld (s : State χ) (l : Set (χ × Nat)) : State χ := { s with old := s.old ∪ l }

/-- The meetings that a member may declare old. -/
def behind (s : State χ) (i : Nat) : Set (χ × Nat) := { p | p.2 + 1 ≤ s.done p.1 i }

variable [DecidableEq χ]

def addArrival (s : State χ) (ch : χ) (m i : Nat) : State χ :=
  { s with
    arrivals := fun ch' m' =>
      if ch' = ch ∧ m' = m then s.arrivals ch' m' ++ [i] else s.arrivals ch' m' }

def setAnnounced (s : State χ) (ch : χ) (m : Nat) : State χ :=
  { s with announced := fun ch' m' => if ch' = ch ∧ m' = m then true else s.announced ch' m' }

def addDone (s : State χ) (ch : χ) (i : Nat) : State χ :=
  { s with done := fun ch' j => if ch' = ch ∧ j = i then s.done ch' j + 1 else s.done ch' j }

def entered (s : State χ) (ch : χ) (i : Nat) : Nat :=
  s.done ch i + if (s.status i).any (fun p => p.1 = ch) then 1 else 0

end State

/-- What a member can do.  Meetings may be declared old on arrival. -/
inductive Step [DecidableEq χ] (n : Nat) (s : State χ) : State χ → Prop
  | enter (i : Nat) (ch : χ) (hi : i < n) (h : s.status i = none) :
      Step n s (s.setStatus i (some (ch, .entering)))
  | arrive (i : Nat) (ch : χ) (l : Set (χ × Nat)) (h : s.status i = some (ch, .entering))
      (hl : l ⊆ s.behind i) :
      Step n s (((s.addArrival ch (s.done ch i + 1) i).setStatus i
        (some (ch, .settling (decide ((s.arrivals ch (s.done ch i + 1)).length + 1 = n))))).addOld
        l)
  | announce (i : Nat) (ch : χ) (h : s.status i = some (ch, .settling true)) :
      Step n s ((s.setAnnounced ch (s.done ch i + 1)).setStatus i (some (ch, .settling false)))
  | pass (i : Nat) (ch : χ) (h : s.status i = some (ch, .settling false))
      (ha : s.announced ch (s.done ch i + 1) = true) :
      Step n s (s.setStatus i (some (ch, .passed)))
  | leave (i : Nat) (ch : χ) (h : s.status i = some (ch, .passed)) :
      Step n s ((s.addDone ch i).setStatus i none)

def Arrived (s : State χ) (ch : χ) (i m : Nat) : Prop :=
  1 ≤ m ∧ (m ≤ s.done ch i ∨
    m = s.done ch i + 1 ∧ ∃ ph, s.status i = some (ch, ph) ∧ ph ≠ .entering)

structure Inv (n : Nat) (s : State χ) : Prop where
  outside : ∀ i, n ≤ i → s.status i = none ∧ ∀ ch, s.done ch i = 0
  nodup : ∀ ch m, (s.arrivals ch m).Nodup
  arrived : ∀ ch m i, i ∈ s.arrivals ch m ↔ Arrived s ch i m
  full : ∀ ch m, s.announced ch m = true → (s.arrivals ch m).length = n
  pending : ∀ ch m, (s.arrivals ch m).length = n → s.announced ch m = true ∨
    ∃ i, s.status i = some (ch, .settling true) ∧ s.done ch i + 1 = m
  last : ∀ i ch, s.status i = some (ch, .settling true) →
    (s.arrivals ch (s.done ch i + 1)).length = n
  behind : ∀ ch m i, 1 ≤ m → m ≤ s.done ch i → s.announced ch m = true
  passed : ∀ i ch, s.status i = some (ch, .passed) → s.announced ch (s.done ch i + 1) = true
  old : ∀ ch m, (ch, m) ∈ s.old → ∀ q, q < n → m ≤ s.done ch q

theorem inv_start {n : Nat} (hn : 0 < n) : Inv n ({} : State χ) where
  outside _ _ := ⟨rfl, fun _ => rfl⟩
  nodup _ _ := nodup_nil
  arrived ch m i := by
    constructor
    · intro h
      cases h
    · rintro ⟨hm, hle | ⟨-, _, h, -⟩⟩
      · change m ≤ 0 at hle
        omega
      · cases h
  full _ _ h := by cases h
  pending ch m h := by
    change 0 = n at h
    omega
  last _ _ h := by cases h
  behind _ m _ hm hle := by
    change m ≤ 0 at hle
    omega
  passed _ _ h := by cases h
  old _ _ h := by cases h

/-! ## What the invariant says -/

variable {n : Nat} {s : State χ}

variable {i m q : Nat} {ch : χ}

theorem Inv.lt_of_status (h : Inv n s) {p : χ × Phase} (hi : s.status i = some p) : i < n := by
  by_contra hle
  rw [(h.outside i (by omega)).1] at hi
  cases hi

theorem Inv.arrivals_lt (h : Inv n s) (hi : i ∈ s.arrivals ch m) : i < n := by
  obtain ⟨hm, hle | ⟨-, ph, hst, -⟩⟩ := (h.arrived ch m i).mp hi
  · by_contra hlt
    rw [(h.outside i (by omega)).2 ch] at hle
    omega
  · exact h.lt_of_status hst

theorem Inv.length_arrivals_le (h : Inv n s) (ch : χ) (m : Nat) : (s.arrivals ch m).length ≤ n := by
  have hsub : s.arrivals ch m ⊆ range n := fun i hi =>
    mem_range.mpr (h.arrivals_lt hi)
  simpa using ((h.nodup ch m).subperm hsub).length_le

theorem Inv.perm_of_full (h : Inv n s) (hlen : (s.arrivals ch m).length = n) :
    (s.arrivals ch m).Perm (range n) := by
  have hsub : s.arrivals ch m ⊆ range n := fun i hi =>
    mem_range.mpr (h.arrivals_lt hi)
  exact ((h.nodup ch m).subperm hsub).perm_of_length_le (by rw [length_range, hlen])

theorem Inv.arrived_of_full (h : Inv n s) (hlen : (s.arrivals ch m).length = n)
    (hq : q < n) : Arrived s ch q m :=
  (h.arrived ch m q).mp ((h.perm_of_full hlen).mem_iff.mpr (mem_range.mpr hq))

theorem Arrived.le_entered [DecidableEq χ] (h : Arrived s ch i m) : m ≤ s.entered ch i := by
  unfold State.entered
  obtain ⟨-, hle | ⟨rfl, ph, hst, -⟩⟩ := h
  · omega
  · simp [hst]

/-- Nobody leaves a meeting that somebody has not entered. -/
theorem Inv.done_le_entered [DecidableEq χ] (h : Inv n s) (ch : χ) (hq : q < n) :
    s.done ch i ≤ s.entered ch q := by
  by_cases hpos : 1 ≤ s.done ch i
  · exact (h.arrived_of_full (h.full ch _ (h.behind ch _ i hpos le_rfl)) hq).le_entered
  · omega

theorem Inv.notMem_old (h : Inv n s) {ph : Phase} (hst : s.status i = some (ch, ph))
    (hm : s.done ch i < m) : (ch, m) ∉ s.old := by
  intro hold
  have := h.old ch m hold i (h.lt_of_status hst)
  omega

/-- Everybody has left the meetings that a member may declare old. -/
theorem Inv.le_done_of_behind (h : Inv n s) (hm : (ch, m) ∈ s.behind i)
    (hq : q < n) : m ≤ s.done ch q := by
  have harr := h.arrived_of_full (h.full ch _ (h.behind ch (m + 1) i (by omega) hm)) hq
  obtain ⟨-, hle | ⟨heq, -⟩⟩ := harr <;> omega

/-- Once everybody has arrived and nobody is about to announce the meeting, it has been
announced. -/
theorem Inv.announced_of_settled (h : Inv n s) (harr : ∀ q, q < n → Arrived s ch q m)
    (hset : ∀ q, q < n → s.done ch q + 1 = m → s.status q ≠ some (ch, .settling true)) :
    s.announced ch m = true := by
  have hsub : range n ⊆ s.arrivals ch m := fun q hq =>
    (h.arrived ch m q).mpr (harr q (mem_range.mp hq))
  have hperm : (range n).Perm (s.arrivals ch m) :=
    (nodup_range.subperm hsub).antisymm
      ((h.nodup ch m).subperm fun i hi => mem_range.mpr (h.arrivals_lt hi))
  have hlen : (s.arrivals ch m).length = n := by
    rw [← hperm.length_eq, length_range]
  rcases h.pending ch m hlen with ha | ⟨i, hst, hi⟩
  · exact ha
  · exact absurd hst (hset i (h.lt_of_status hst) hi)

/-! ## Steps keep the invariant -/

open State

attribute [simp] setStatus addOld addArrival setAnnounced addDone

/-- A status other than the one that is set is one from before. -/
theorem status_of_setStatus {st : Option (χ × Phase)} {st' : χ × Phase} {j : Nat}
    (hj : (s.setStatus i st).status j = some st') (hne : st ≠ some st') :
    s.status j = some st' := by
  simp only [setStatus] at hj
  split_ifs at hj
  · exact absurd hj hne
  · exact hj

theorem Inv.outside_setStatus (h : Inv n s) (hi : i < n) (st : Option (χ × Phase)) {j : Nat}
    (hj : n ≤ j) : (s.setStatus i st).status j = none ∧ ∀ ch, s.done ch j = 0 := by
  simp only [setStatus]
  rw [if_neg (by omega)]
  exact h.outside j hj

theorem Inv.pending_setStatus (h : Inv n s) (hst : s.status i ≠ some (ch, .settling true))
    (st : Option (χ × Phase)) (hlen : (s.arrivals ch m).length = n) : s.announced ch m = true ∨
      ∃ j, (s.setStatus i st).status j = some (ch, .settling true) ∧ s.done ch j + 1 = m := by
  refine (h.pending ch m hlen).imp id ?_
  rintro ⟨j, hj, hm⟩
  have hne : j ≠ i := by
    rintro rfl
    exact hst hj
  exact ⟨j, by simpa [hne] using hj, hm⟩

theorem Inv.enter (h : Inv n s) (hi : i < n) (hst : s.status i = none) :
    Inv n (s.setStatus i (some (ch, .entering))) where
  outside j hj := h.outside_setStatus hi _ hj
  nodup := h.nodup
  arrived ch' m j := by
    refine (h.arrived ch' m j).trans ?_
    by_cases hj : j = i
    · subst hj
      simp [Arrived, hst]
    · simp [Arrived, hj]
  full := h.full
  pending _ _ hlen := h.pending_setStatus (by simp [hst]) _ hlen
  last j ch' hj := h.last j ch' (status_of_setStatus hj (by simp))
  behind := h.behind
  passed j ch' hj := h.passed j ch' (status_of_setStatus hj (by simp))
  old := h.old

theorem arrived_setStatus {s : State χ} {ph ph' : Phase} (hst : s.status i = some (ch, ph))
    (hph : ph ≠ .entering) (hph' : ph' ≠ .entering) (ch' : χ) (m j : Nat) :
    Arrived (s.setStatus i (some (ch, ph'))) ch' j m ↔ Arrived s ch' j m := by
  by_cases hj : j = i
  · subst hj
    simp only [Arrived, setStatus, if_true, hst, Option.some.injEq, Prod.mk.injEq]
    constructor
    · rintro ⟨hm, hle | ⟨heq, _, ⟨rfl, -⟩, -⟩⟩
      · exact ⟨hm, .inl hle⟩
      · exact ⟨hm, .inr ⟨heq, ph, ⟨rfl, rfl⟩, hph⟩⟩
    · rintro ⟨hm, hle | ⟨heq, _, ⟨rfl, -⟩, -⟩⟩
      · exact ⟨hm, .inl hle⟩
      · exact ⟨hm, .inr ⟨heq, ph', ⟨rfl, rfl⟩, hph'⟩⟩
  · simp [Arrived, hj]

theorem Inv.pass (h : Inv n s) (hst : s.status i = some (ch, .settling false))
    (ha : s.announced ch (s.done ch i + 1) = true) :
    Inv n (s.setStatus i (some (ch, .passed))) where
  outside j hj := h.outside_setStatus (h.lt_of_status hst) _ hj
  nodup := h.nodup
  arrived ch' m j := by
    rw [arrived_setStatus hst (by simp) (by simp)]
    exact h.arrived ch' m j
  full := h.full
  pending _ _ hlen := h.pending_setStatus (by simp [hst]) _ hlen
  last j ch' hj := h.last j ch' (status_of_setStatus hj (by simp))
  behind := h.behind
  passed j ch' hj := by
    by_cases hne : j = i
    · subst hne
      obtain rfl : ch = ch' := by simpa using hj
      exact ha
    · exact h.passed j ch' (by simpa [hne] using hj)
  old := h.old

variable [DecidableEq χ]

theorem Inv.announce (h : Inv n s) (hst : s.status i = some (ch, .settling true)) :
    Inv n ((s.setAnnounced ch (s.done ch i + 1)).setStatus i (some (ch, .settling false))) where
  outside j hj := h.outside_setStatus (h.lt_of_status hst) _ hj
  nodup := h.nodup
  arrived ch' m j := by
    have hst' : (s.setAnnounced ch (s.done ch i + 1)).status i = some (ch, .settling true) := hst
    rw [arrived_setStatus hst' (by simp) (by simp)]
    exact h.arrived ch' m j
  full ch' m ha := by
    simp only [setStatus, setAnnounced] at ha
    split_ifs at ha with heq
    · obtain ⟨rfl, rfl⟩ := heq
      exact h.last i ch' hst
    · exact h.full ch' m ha
  pending ch' m hlen := by
    simp only [setStatus, setAnnounced]
    by_cases heq : ch' = ch ∧ m = s.done ch i + 1
    · exact .inl (by rw [if_pos heq])
    · rw [if_neg heq]
      refine (h.pending ch' m hlen).imp id ?_
      rintro ⟨j, hj, hm⟩
      have hne : j ≠ i := by
        rintro rfl
        rw [hst] at hj
        obtain ⟨rfl, -⟩ := hj
        exact heq ⟨rfl, hm.symm⟩
      exact ⟨j, by simpa [hne] using hj, hm⟩
  last j ch' hj := h.last j ch' (status_of_setStatus hj (by simp))
  behind ch' m j hm hle := by
    simp only [setStatus, setAnnounced]
    split_ifs
    · rfl
    · exact h.behind ch' m j hm hle
  passed j ch' hj := by
    simp only [setStatus, setAnnounced]
    split_ifs
    · rfl
    · exact h.passed j ch' (status_of_setStatus hj (by simp))
  old := h.old

omit [DecidableEq χ] in
theorem not_arrived (hst : s.status i = some (ch, .entering)) :
    ¬ Arrived s ch i (s.done ch i + 1) := by
  rintro ⟨-, hle | ⟨-, ph, hst', hph⟩⟩
  · omega
  · rw [hst, Option.some.injEq, Prod.mk.injEq] at hst'
    exact hph hst'.2.symm

theorem Inv.arrive (h : Inv n s) {l : Set (χ × Nat)} (hst : s.status i = some (ch, .entering))
    (hl : l ⊆ s.behind i) :
    Inv n (((s.addArrival ch (s.done ch i + 1) i).setStatus i
      (some (ch, .settling (decide ((s.arrivals ch (s.done ch i + 1)).length + 1 = n))))).addOld
        l) where
  outside j hj := h.outside_setStatus (h.lt_of_status hst) _ hj
  nodup ch' m := by
    simp only [addOld, setStatus, addArrival]
    split_ifs with heq
    · obtain ⟨rfl, rfl⟩ := heq
      refine nodup_append.mpr ⟨h.nodup ch' _, nodup_singleton i, ?_⟩
      rintro j hj _ hi rfl
      obtain rfl := mem_singleton.mp hi
      exact not_arrived hst ((h.arrived ch' _ j).mp hj)
    · exact h.nodup ch' m
  arrived ch' m j := by
    simp only [addOld, setStatus, addArrival, Arrived]
    have hold := h.arrived ch' m j
    by_cases hj : j = i
    · subst hj
      simp only [if_true]
      split_ifs with heq
      · obtain ⟨rfl, rfl⟩ := heq
        simp
      · rw [hold, Arrived, hst]
        constructor
        · rintro ⟨hm, hle | ⟨-, ph, hph, hne⟩⟩
          · exact ⟨hm, .inl hle⟩
          · simp only [Option.some.injEq, Prod.mk.injEq] at hph
            exact absurd hph.2.symm hne
        · rintro ⟨hm, hle | ⟨rfl, ph, ⟨rfl, -⟩, -⟩⟩
          · exact ⟨hm, .inl hle⟩
          · exact absurd ⟨rfl, rfl⟩ heq
    · split_ifs
      · simpa [hj, Arrived] using hold
      · exact hold
  full ch' m ha := by
    have hfull := h.full ch' m ha
    have hi := h.arrived_of_full hfull (h.lt_of_status hst)
    simp only [addOld, setStatus, addArrival]
    split_ifs with heq
    · -- the member has not arrived yet, so the meeting was not full
      obtain ⟨rfl, rfl⟩ := heq
      exact absurd hi (not_arrived hst)
    · exact hfull
  pending ch' m hlen := by
    simp only [addOld, setStatus, addArrival] at hlen
    split_ifs at hlen with heq
    · obtain ⟨rfl, rfl⟩ := heq
      rw [length_append, length_singleton] at hlen
      exact .inr ⟨i, by simp [hlen], rfl⟩
    · exact h.pending_setStatus (by simp [hst]) _ hlen
  last j ch' hj := by
    simp only [addOld, setStatus, addArrival]
    by_cases hne : j = i
    · subst hne
      simp only [addOld, setStatus, if_true, Option.some.injEq, Prod.mk.injEq, Phase.settling.injEq,
        decide_eq_true_eq] at hj
      obtain ⟨rfl, hlen⟩ := hj
      rw [if_pos ⟨rfl, rfl⟩, length_append, length_singleton, hlen]
    · have hlast := h.last j ch' (by simpa [hne] using hj)
      split_ifs with heq
      · -- no one else is the last one of this meeting
        obtain ⟨rfl, heq⟩ := heq
        exact absurd (heq ▸ h.arrived_of_full hlast (h.lt_of_status hst)) (not_arrived hst)
      · exact hlast
  behind := h.behind
  passed j ch' hj := h.passed j ch' (status_of_setStatus hj (by simp))
  old ch' m hm q hq := by
    rcases hm with hm | hm
    · exact h.old ch' m hm q hq
    · exact h.le_done_of_behind (hl hm) hq

theorem Inv.leave (h : Inv n s) (hst : s.status i = some (ch, .passed)) :
    Inv n ((s.addDone ch i).setStatus i none) where
  outside j hj := by
    have hne : j ≠ i := by
      have := h.lt_of_status hst
      omega
    simpa [hne] using h.outside j hj
  nodup := h.nodup
  arrived ch' m j := by
    refine (h.arrived ch' m j).trans ?_
    simp only [Arrived, setStatus, addDone]
    by_cases hj : j = i
    · subst hj
      rw [hst]
      by_cases hch : ch' = ch
      · subst hch
        rw [if_pos ⟨rfl, rfl⟩, if_pos rfl]
        constructor
        · rintro ⟨hm, hle | ⟨rfl, -⟩⟩
          · exact ⟨hm, .inl (by omega)⟩
          · exact ⟨hm, .inl le_rfl⟩
        · rintro ⟨hm, hle | ⟨-, ph, hph, -⟩⟩
          · by_cases heq : m = s.done ch' j + 1
            · exact ⟨hm, .inr ⟨heq, .passed, rfl, by simp⟩⟩
            · exact ⟨hm, .inl (by omega)⟩
          · cases hph
      · have hne : ch ≠ ch' := fun h => hch h.symm
        simp [hch, hne]
    · simp [hj]
  full := h.full
  pending ch' m hlen := by
    refine (h.pending ch' m hlen).imp id ?_
    rintro ⟨j, hj, hm⟩
    have hne : j ≠ i := by
      rintro rfl
      simp [hst] at hj
    exact ⟨j, by simpa [hne] using hj, by simpa [hne] using hm⟩
  last j ch' hj := by
    by_cases hne : j = i
    · simp [hne] at hj
    · simpa [hne] using h.last j ch' (by simpa [hne] using hj)
  behind ch' m j hm hle := by
    simp only [setStatus, addDone] at hle
    split_ifs at hle with heq
    · obtain ⟨rfl, rfl⟩ := heq
      by_cases hlast : m = s.done ch' j + 1
      · rw [hlast]
        exact h.passed j ch' hst
      · exact h.behind ch' m j hm (by omega)
    · exact h.behind ch' m j hm hle
  passed j ch' hj := by
    by_cases hne : j = i
    · simp [hne] at hj
    · simpa [hne] using h.passed j ch' (by simpa [hne] using hj)
  old ch' m hm q hq := by
    have := h.old ch' m hm q hq
    simp only [setStatus, addDone]
    split_ifs <;> omega

theorem Inv.step {s' : State χ} (h : Inv n s) (hstep : Step n s s') : Inv n s' := by
  cases hstep with
  | enter i ch hi hst => exact h.enter hi hst
  | arrive i ch l hst hl => exact h.arrive hst hl
  | announce i ch hst => exact h.announce hst
  | pass i ch hst ha => exact h.pass hst ha
  | leave i ch hst => exact h.leave hst

end MemFabric.Machine.Rendezvous
