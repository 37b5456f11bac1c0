import MemFabric.Smem.Collective.Steps

/-!
# Runs of a static group

The relation to the meetings holds along every run in which all ranks make the same
calls and no counter wraps.  With it: nobody returns from a call that somebody has not
made, what is returned is put together from the inputs to that call alone, no removed key
is used again, and a call that everybody has made can be finished.
-/

namespace MemFabric.Smem.Collective

open Machine Wire List Rendezvous.State
open Smem.Group (smOk smError)

variable {n : UInt32} {rank : Nat → UInt32} {plan : Channel → Nat → Shape} {log : List Event}
  {s : System} {a a' : Rendezvous.State Channel} {st : Nat → Option (Call × Phase)}
  {i : Nat} {c : Call}

/-! ## Returning -/

theorem entered_leave {ch ch' : Channel} {ph : Rendezvous.Phase} (j : Nat)
    (hst : a.status i = some (ch, ph)) :
    ((a.addDone ch i).setStatus i none).entered ch' j = a.entered ch' j := by
  unfold entered
  by_cases hj : j = i
  · subst hj
    by_cases hch : ch' = ch
    · simp [hch, hst]
    · have hne : ch ≠ ch' := fun h => hch h.symm
      simp [hch, hst, hne]
  · simp [hj]

theorem History.leave (h : History n rank plan a log st) {ph : Phase} (hst : st i = some (c, ph))
    {x : Rendezvous.Phase} (hstatus : a.status i = some (c.channel, x)) {o : Outcome}
    (hg : Gathered n rank c.channel (a.done c.channel i) log c o) :
    History n rank plan ((a.addDone c.channel i).setStatus i none) (log ++ [.returned i c o])
      (setSt st i none) where
  calls_length ch j := by rw [calls_returned, entered_leave j hstatus, h.calls_length]
  current j c' ph' hj := by
    have hne : j ≠ i := by
      rintro rfl
      simp [setSt] at hj
    rw [calls_returned]
    simpa [hne] using h.current j c' ph' (by simpa [setSt, hne] using hj)
  planned ch j k c' hc := h.planned ch j k c' (by rwa [calls_returned] at hc)
  results_length ch j := by
    rw [results_append, length_append, h.results_length, results_returned]
    by_cases heq : i = j ∧ c.channel = ch
    · obtain ⟨rfl, rfl⟩ := heq
      simp
    · have hne : ¬ (ch = c.channel ∧ j = i) := fun h => heq ⟨h.2.symm, h.1.symm⟩
      simp [heq, hne]
  outcome ch j k o' ho := by
    rw [calls_returned]
    rw [results_append, results_returned] at ho
    by_cases hlt : k < (results ch j log).length
    · rw [List.getElem?_append_left hlt] at ho
      obtain ⟨c', hc', hg'⟩ := h.outcome ch j k o' ho
      exact ⟨c', hc', hg'.append _⟩
    · -- the new result is that of the last call
      rw [getElem?_append_right (by omega)] at ho
      by_cases heq : i = j ∧ c.channel = ch
      · obtain ⟨rfl, rfl⟩ := heq
        rw [if_pos ⟨rfl, rfl⟩, getElem?_singleton] at ho
        split_ifs at ho with hk
        obtain rfl := Option.some.inj ho
        rw [h.results_length] at hk hlt
        obtain rfl : k = a.done c.channel i := by omega
        exact ⟨c, h.current i c ph hst, hg.append _⟩
      · rw [if_neg heq] at ho
        cases ho
  leaving j c' o' keys hj := by
    have hne : j ≠ i := by
      rintro rfl
      simp [setSt] at hj
    simpa [hne] using (h.leaving j c' o' keys (by simpa [setSt, hne] using hj)).append _

theorem Rel.leave (h : Rel n rank plan log s a st) {ph : Phase} (hst : st i = some (c, ph))
    {o : Outcome} {keys : List Bytes} (habs : ph.abs = .passed) (hkeys : ph.keys = keys)
    (hprogram : ph.program (s.members i).engine c =
      .ret (o, (s.members i).engine.after c.channel keys))
    (hg : Gathered n rank c.channel (a.done c.channel i) log c o) :
    ∃ s', step s (.exec i) = (s', [.returned i c o]) ∧
      Rel n rank plan (log ++ [.returned i c o]) s' ((a.addDone c.channel i).setStatus i none)
        (setSt st i none) := by
  have hm := h.member i
  have hrun := h.running_eq hst
  rw [hprogram] at hrun
  have hstatus := h.status_eq hst
  rw [habs] at hstatus
  obtain ⟨hrank, hsize, hversion, hlist⟩ := after_eq (s.members i).engine c.channel keys
  have hmember : MemberRel n (rank i) ((a.addDone c.channel i).setStatus i none) i
      ⟨(s.members i).engine.after c.channel keys, none⟩ none :=
    { rank := hrank.trans hm.rank
      groupSize := hsize.trans hm.groupSize
      groupVersion := hversion.trans hm.groupVersion
      done := fun ch => by
        by_cases hch : ch = c.channel
        · subst hch
          simp [h.toNat_next hst]
        · simp [hch, hm.done]
      running := rfl
      status := by simp
      bound := fun _ _ heq => by cases heq
      queued := fun key hkey => by
        rw [← hkeys] at hkey
        exact hm.keys c ph hst key hkey
      keys := fun _ _ heq => by cases heq }
  refine ⟨s.setMember i ⟨(s.members i).engine.after c.channel keys, none⟩, ?_, ?_⟩
  · simp only [step, hrun]
  · exact
      { inv := h.inv.step (.leave _ _ hstatus)
        member := member_set h.member hmember (fun j hj => by simp [hj]) (fun _ h => h) s.kv
        history := h.history.leave hst hstatus hg
        board := ⟨fun ch m hmem => by
          rw [inputAt_returned]
          exact h.board.add ch m hmem, h.board.wait⟩
        removed := fun j key hmem => h.removed j key (by simpa using hmem)
        unused := h.unused.concat fun _ _ _ _ _ heq => by cases heq }

theorem Rel.leave_barrier (h : Rel n rank plan log s a st) {keys : List Bytes}
    (hst : st i = some (.barrier, .reading keys)) :
    ∃ s', step s (.exec i) = (s', [.returned i .barrier { ret := smOk }]) ∧
      Rel n rank plan (log ++ [.returned i .barrier { ret := smOk }]) s'
        ((a.addDone .barrier i).setStatus i none) (setSt st i none) :=
  h.leave hst rfl rfl rfl (h.gathered (h.inv.passed i .barrier (h.status_eq hst)) .barrier)

/-! ## Calling -/

/-- A rank of the group makes the call that is next in the plan, with sizes that fit and
a counter that does not wrap. -/
def Allowed (n : UInt32) (plan : Channel → Nat → Shape) (s : System) : Input → Prop
  | .exec _ => True
  | .call i c =>
    i < n.toNat ∧ c.Fits n.toNat ∧
      c.shape = plan c.channel ((s.members i).engine.sn c.channel).toNat ∧
      ((s.members i).engine.sn c.channel).toNat + 1 < 2 ^ 32

theorem entered_enter {ch ch' : Channel} (j : Nat) (hst : a.status i = none) :
    (a.setStatus i (some (ch, .entering))).entered ch' j =
      a.entered ch' j + if i = j ∧ ch = ch' then 1 else 0 := by
  unfold entered
  by_cases hj : j = i
  · subst hj
    simp [hst]
  · have hne : ¬ i = j := fun h => hj h.symm
    simp [hj, hne]

theorem History.enter (h : History n rank plan a log st) (hst : a.status i = none)
    (hfits : c.Fits n.toNat) (hplan : c.shape = plan c.channel (a.done c.channel i)) :
    History n rank plan (a.setStatus i (some (c.channel, .entering))) (log ++ [.called i c])
      (setSt st i (some (c, .entering))) := by
  have hlength : ∀ ch, (calls ch i log).length = a.done ch i := by
    intro ch
    rw [h.calls_length, entered, hst]
    rfl
  constructor
  case calls_length =>
    intro ch j
    rw [calls_append, length_append, h.calls_length, entered_enter j hst, calls_called]
    split_ifs <;> rfl
  case current =>
    intro j c' ph hj
    simp only [calls_append, setStatus]
    by_cases heq : j = i
    · subst heq
      obtain ⟨rfl, -⟩ : c = c' ∧ Phase.entering = ph := by simpa [setSt] using hj
      rw [getElem?_append_right (hlength _).le, hlength, Nat.sub_self, calls_called,
        if_pos ⟨rfl, rfl⟩]
      rfl
    · have hcurrent := h.current j c' ph (by simpa [setSt, heq] using hj)
      rw [List.getElem?_append_left (List.getElem?_eq_some_iff.mp hcurrent).1, hcurrent]
  case planned =>
    intro ch j k c' hc
    rw [calls_append] at hc
    by_cases hlt : k < (calls ch j log).length
    · rw [List.getElem?_append_left hlt] at hc
      exact h.planned ch j k c' hc
    · rw [getElem?_append_right (by omega), calls_called] at hc
      by_cases heq : i = j ∧ c.channel = ch
      · obtain ⟨rfl, rfl⟩ := heq
        rw [if_pos ⟨rfl, rfl⟩, getElem?_singleton] at hc
        split_ifs at hc with hk
        obtain rfl := Option.some.inj hc
        rw [hlength] at hk hlt
        obtain rfl : k = a.done c.channel i := by omega
        exact ⟨rfl, hplan, hfits⟩
      · rw [if_neg heq] at hc
        cases hc
  case results_length =>
    intro ch j
    rw [results_called, h.results_length]
    rfl
  case outcome =>
    intro ch j k o ho
    rw [results_called] at ho
    obtain ⟨c', hc', hg⟩ := h.outcome ch j k o ho
    refine ⟨c', ?_, hg.append _⟩
    rw [calls_append, List.getElem?_append_left (List.getElem?_eq_some_iff.mp hc').1, hc']
  case leaving =>
    intro j c' o keys hj
    have hne : j ≠ i := by
      rintro rfl
      simp [setSt] at hj
    exact (h.leaving j c' o keys (by simpa [setSt, hne] using hj)).append _

theorem Rel.enter (h : Rel n rank plan log s a st) (hst : st i = none)
    (hallowed : Allowed n plan s (.call i c)) :
    ∃ s', step s (.call i c) = (s', [.called i c]) ∧
      Rel n rank plan (log ++ [.called i c]) s'
        (a.setStatus i (some (c.channel, .entering))) (setSt st i (some (c, .entering))) := by
  obtain ⟨hi, hfits, hplan, hbound⟩ := hallowed
  have hm := h.member i
  have hrun : (s.members i).running = none := by
    rw [hm.running, hst]
    rfl
  have hstatus : a.status i = none := by
    rw [hm.status, hst]
    rfl
  rw [hm.done] at hplan hbound
  have hmember : MemberRel n (rank i) (a.setStatus i (some (c.channel, .entering))) i
      ⟨(s.members i).engine, some (c, c.program (s.members i).engine)⟩ (some (c, .entering)) :=
    { rank := hm.rank
      groupSize := hm.groupSize
      groupVersion := hm.groupVersion
      done := hm.done
      running := rfl
      status := by simp [Phase.abs]
      bound := fun c' ph heq => by
        obtain ⟨rfl, -⟩ : c = c' ∧ Phase.entering = ph := by simpa using heq
        exact hbound
      queued := hm.queued
      keys := fun c' ph heq key hkey => by
        obtain ⟨-, rfl⟩ : c = c' ∧ Phase.entering = ph := by simpa using heq
        cases hkey }
  refine ⟨s.setMember i ⟨(s.members i).engine, some (c, c.program (s.members i).engine)⟩, ?_, ?_⟩
  · simp only [step, hrun]
  · exact
      { inv := h.inv.step (.enter _ _ hi hstatus)
        member := member_set h.member hmember (fun j hj => by simp [hj]) (fun _ h => h) s.kv
        history := h.history.enter hstatus hfits hplan
        board := ⟨fun ch m hmem => by
          refine (h.board.add ch m hmem).trans (congrArg _ (map_congr_left fun q hq => ?_))
          exact (inputAt_append (h.lt_length_calls hq)).symm, h.board.wait⟩
        removed := fun j key hmem => h.removed j key (by simpa using hmem)
        unused := h.unused.concat fun _ _ _ _ _ heq => by cases heq }

/-! ## Runs -/

def Inv (n : UInt32) (rank : Nat → UInt32) (plan : Channel → Nat → Shape) (log : List Event)
    (s : System) : Prop :=
  ∃ a st, Rel n rank plan log s a st

theorem Inv.exec (h : Inv n rank plan log s) (i : Nat) :
    Inv n rank plan (log ++ (step s (.exec i)).2) (step s (.exec i)).1 := by
  obtain ⟨a, st, h⟩ := h
  cases hst : st i with
  | none =>
    have hrun := (h.member i).running
    rw [hst] at hrun
    simp only [step, hrun, Option.map_none, append_nil]
    exact ⟨a, st, h⟩
  | some p =>
    obtain ⟨c, ph⟩ := p
    cases ph with
    | entering =>
      obtain ⟨act, s', ph', hstep, -, hrel⟩ := h.arrive hst
      rw [hstep]
      exact ⟨_, _, hrel⟩
    | settling removed last keys =>
      cases removed with
      | cons key l =>
        obtain ⟨s', hstep, hrel⟩ := h.remove hst
        rw [hstep]
        exact ⟨_, _, hrel⟩
      | nil =>
        cases last with
        | true =>
          obtain ⟨act, s', a', hstep, -, hrel⟩ := h.announce hst
          rw [hstep]
          exact ⟨_, _, hrel⟩
        | false =>
          cases ha : a.announced c.channel (a.done c.channel i + 1) with
          | false =>
            rw [h.blocked hst ha, append_nil]
            exact ⟨a, st, h⟩
          | true =>
            obtain ⟨act, s', a', hstep, -, hrel⟩ := h.pass hst ha
            rw [hstep]
            exact ⟨_, _, hrel⟩
    | reading keys =>
      cases hch : c.channel with
      | barrier =>
        cases c with
        | barrier =>
          obtain ⟨s', hstep, hrel⟩ := h.leave_barrier hst
          rw [hstep]
          exact ⟨_, _, hrel⟩
        | gatherResult localRet => cases hch
        | allGather sendBuf recvSize => cases hch
      | gather =>
        obtain ⟨act, s', o, hstep, hrel⟩ := h.read hst hch
        rw [hstep]
        exact ⟨_, _, hrel⟩
    | leaving o keys =>
      obtain ⟨s', hstep, hrel⟩ := h.leave hst rfl rfl rfl (h.history.leaving i c o keys hst)
      rw [hstep]
      exact ⟨_, _, hrel⟩

theorem Inv.step (h : Inv n rank plan log s) {input : Input} (hallowed : Allowed n plan s input) :
    Inv n rank plan (log ++ (step s input).2) (step s input).1 := by
  cases input with
  | exec i => exact h.exec i
  | call i c =>
    obtain ⟨a, st, h⟩ := h
    cases hst : st i with
    | none =>
      obtain ⟨s', hstep, hrel⟩ := h.enter hst hallowed
      rw [hstep]
      exact ⟨_, _, hrel⟩
    | some p =>
      have hrun := (h.member i).running
      rw [hst] at hrun
      simp only [Collective.step, hrun, Option.map_some, append_nil]
      exact ⟨a, st, h⟩

theorem inv_of_trace (hn : 0 < n.toNat)
    (h : Trace step (Allowed n plan) (System.start n rank) log s) : Inv n rank plan log s :=
  h.invariant ⟨_, _, rel_start hn rank plan⟩ fun _ _ _ hinv hallowed => hinv.step hallowed

end MemFabric.Smem.Collective
