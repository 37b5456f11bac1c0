import MemFabric.Smem.Collective.Runs

/-!
# Finishing a call

From every state of a run, a call that everybody has made can be finished by all, if only
the ranks go on: first everybody is brought to the point where it waits, which needs
nobody else; then the call has been announced, and whoever waits passes.
-/

namespace MemFabric.Smem.Collective

open Machine Wire List
open Smem.Group (smOk smError)

variable {n : UInt32} {rank : Nat → UInt32} {plan : Channel → Nat → Shape} {log : List Event}
  {s : System} {a : Rendezvous.State Channel} {st : Nat → Option (Call × Phase)}
  {i : Nat} {c : Call}

def GoesOn (_ : System) (input : Input) : Prop := ∃ i, input = .exec i

variable {s' : System} {out : List Event} {good : Phase → Prop} {ph : Phase} {keys : List Bytes}
  {ch : Channel} {m : Nat}

theorem trace_exec (h : step s (.exec i) = (s', out)) : Trace step GoesOn s out s' := by
  have htrace : Trace step GoesOn s ([] ++ (step s (.exec i)).2) (step s (.exec i)).1 :=
    .snoc _ .nil ⟨i, rfl⟩
  rwa [h] at htrace

def Phase.Settled : Phase → Prop
  | .settling [] false _ | .reading _ | .leaving _ _ => True
  | _ => False

def Moves (n : UInt32) (rank : Nat → UInt32) (plan : Channel → Nat → Shape) (log : List Event)
    (s : System) (a : Rendezvous.State Channel) (st : Nat → Option (Call × Phase)) (i : Nat)
    (c : Call) (good : Phase → Prop) : Prop :=
  ∃ out s' a' ph, Trace step GoesOn s out s' ∧ a'.done = a.done ∧ good ph ∧
    Rel n rank plan (log ++ out) s' a' (setSt st i (some (c, ph)))

theorem setSt_setSt (x y : Option (Call × Phase)) : setSt (setSt st i x) i y = setSt st i y := by
  funext j
  by_cases hj : j = i <;> simp [setSt, hj]

theorem setSt_self (x : Option (Call × Phase)) : setSt st i x i = x := if_pos rfl

theorem Moves.step {a' : Rendezvous.State Channel} (hstep : step s (.exec i) = (s', out))
    (hdone : a'.done = a.done)
    (h : Moves n rank plan (log ++ out) s' a' (setSt st i (some (c, ph))) i c good) :
    Moves n rank plan log s a st i c good := by
  obtain ⟨out', s'', a'', ph', htrace, hdone', hgood, hrel⟩ := h
  rw [setSt_setSt, append_assoc] at hrel
  exact ⟨_, s'', a'', ph', (trace_exec hstep).trans htrace, hdone'.trans hdone, hgood, hrel⟩

section

variable (h : Rel n rank plan log s a st)

include h

theorem Moves.done (hst : st i = some (c, ph))
    (hgood : good ph) : Moves n rank plan log s a st i c good := by
  refine ⟨[], s, a, ph, .nil, rfl, hgood, ?_⟩
  have hsame : setSt st i (some (c, ph)) = st := by
    funext j
    by_cases hj : j = i
    · rw [hj, setSt_self, hst]
    · simp [setSt, hj]
  rw [hsame, append_nil]
  exact h

/-- The requests up to the point where the member waits are served at once. -/
theorem moves_settling {removed : List Bytes} {last : Bool}
    (hst : st i = some (c, .settling removed last keys)) :
    Moves n rank plan log s a st i c Phase.Settled := by
  induction removed generalizing log s a st with
  | nil =>
    cases last with
    | false => exact .done h hst trivial
    | true =>
      obtain ⟨act, s', a', hstep, hdone, hrel⟩ := h.announce hst
      exact .step hstep hdone (.done hrel (setSt_self _) trivial)
  | cons key l ih =>
    obtain ⟨s', hstep, hrel⟩ := h.remove hst
    exact .step hstep rfl (ih hrel (setSt_self _))

theorem moves_to_settled
    (hst : st i = some (c, ph)) : Moves n rank plan log s a st i c Phase.Settled := by
  cases ph with
  | entering =>
    obtain ⟨act, s', ph', hstep, hne, hrel⟩ := h.arrive hst
    have hrest : Moves n rank plan (log ++ [.accessed i act]) s' (afterArrival n a i c.channel)
        (setSt st i (some (c, ph'))) i c Phase.Settled := by
      cases ph' with
      | entering => exact absurd rfl hne
      | settling removed last keys => exact moves_settling hrel (setSt_self _)
      | reading keys => exact .done hrel (setSt_self _) trivial
      | leaving o keys => exact .done hrel (setSt_self _) trivial
    exact .step hstep rfl hrest
  | settling removed last keys => exact moves_settling h hst
  | reading keys => exact .done h hst trivial
  | leaving o keys => exact .done h hst trivial

end

/-! ## Everybody waits -/

def SettledAt (a : Rendezvous.State Channel) (st : Nat → Option (Call × Phase)) (ch : Channel)
    (m q : Nat) : Prop :=
  m ≤ a.done ch q ∨ a.done ch q + 1 = m ∧ ∃ c ph, st q = some (c, ph) ∧ c.channel = ch ∧ ph.Settled

section

variable (h : Rel n rank plan log s a st)

include h

theorem Rel.in_call {q : Nat} (hcalled : m ≤ (calls ch q log).length) (hlt : a.done ch q < m) :
    a.done ch q + 1 = m ∧ ∃ c ph, st q = some (c, ph) ∧ c.channel = ch := by
  rw [h.history.calls_length, Rendezvous.State.entered, (h.member q).status] at hcalled
  cases hst : st q with
  | none =>
    rw [hst] at hcalled
    simp at hcalled
    omega
  | some p =>
    obtain ⟨c, ph⟩ := p
    rw [hst] at hcalled
    by_cases hch : c.channel = ch
    · simp [hch] at hcalled
      exact ⟨by omega, c, ph, rfl, hch⟩
    · simp [hch] at hcalled
      omega

theorem exists_settled (N : Nat) (hcalled : ∀ q, q < N → m ≤ (calls ch q log).length) :
    ∃ out s' a' st', Trace step GoesOn s out s' ∧ a'.done = a.done ∧
      Rel n rank plan (log ++ out) s' a' st' ∧ ∀ q, q < N → SettledAt a' st' ch m q := by
  induction N with
  | zero => exact ⟨[], s, a, st, .nil, rfl, by rwa [append_nil], fun _ hq => by cases hq⟩
  | succ N ih =>
    obtain ⟨out, s', a', st', htrace, hdone, hrel, hsettled⟩ :=
      ih fun q hq => hcalled q (Nat.lt_succ_of_lt hq)
    by_cases hlt : a'.done ch N < m
    · have hcalled' : m ≤ (calls ch N (log ++ out)).length := by
        rw [calls_append, length_append]
        exact Nat.le_add_right_of_le (hcalled N (Nat.lt_succ_self N))
      obtain ⟨hm, c, ph, hst, hch⟩ := hrel.in_call hcalled' hlt
      obtain ⟨out', s'', a'', ph', htrace', hdone', hgood, hrel'⟩ := moves_to_settled hrel hst
      rw [append_assoc] at hrel'
      refine ⟨_, s'', a'', _, htrace.trans htrace', hdone'.trans hdone, hrel', fun q hq => ?_⟩
      by_cases hqN : q = N
      · subst hqN
        exact .inr ⟨by rw [hdone', hm], c, ph', setSt_self _, hch, hgood⟩
      · have hold := hsettled q (by omega)
        unfold SettledAt at hold ⊢
        rw [hdone']
        simpa [setSt, hqN] using hold
    · refine ⟨out, s', a', st', htrace, hdone, hrel, fun q hq => ?_⟩
      by_cases hqN : q = N
      · subst hqN
        exact .inl (by omega)
      · exact hsettled q (by omega)

theorem Rel.announced_of_settled (hm : 1 ≤ m)
    (hsettled : ∀ q, q < n.toNat → SettledAt a st ch m q) : a.announced ch m = true := by
  refine h.inv.announced_of_settled (fun q hq => ⟨hm, ?_⟩) fun q hq hdone hstatus => ?_
  · rcases hsettled q hq with hle | ⟨hdone, c, ph, hst, hch, hph⟩
    · exact .inl hle
    · refine .inr ⟨hdone.symm, ph.abs, by rw [h.status_eq hst, hch], ?_⟩
      cases ph <;> simp_all [Phase.Settled, Phase.abs]
  · rcases hsettled q hq with hle | ⟨-, c, ph, hst, hch, hph⟩
    · omega
    · rw [h.status_eq hst, Option.some.injEq, Prod.mk.injEq] at hstatus
      have habs := hstatus.2
      cases ph with
      | entering => cases habs
      | settling removed last keys =>
        obtain rfl : last = true := by simpa [Phase.abs] using habs
        cases removed <;> exact hph
      | reading keys => cases habs
      | leaving o keys => cases habs

end

/-! ## Passing -/

def Finishes (log : List Event) (s : System) (ch : Channel) (i m : Nat) : Prop :=
  ∃ out s', Trace step GoesOn s out s' ∧ m ≤ (results ch i (log ++ out)).length

theorem Finishes.step (hstep : step s (.exec i) = (s', out)) (h : Finishes (log ++ out) s' ch i m) :
    Finishes log s ch i m := by
  obtain ⟨out', s'', htrace, hlen⟩ := h
  rw [append_assoc] at hlen
  exact ⟨_, s'', (trace_exec hstep).trans htrace, hlen⟩

section

variable (h : Rel n rank plan log s a st)

include h

theorem Rel.finishes_of_done (hm : m ≤ a.done ch i) : Finishes log s ch i m := by
  refine ⟨[], s, .nil, ?_⟩
  rw [append_nil, h.history.results_length]
  exact hm

theorem Rel.finishes_leaving {o : Outcome} (hst : st i = some (c, .leaving o keys)) :
    Finishes log s c.channel i (a.done c.channel i + 1) := by
  obtain ⟨s', hstep, hrel⟩ := h.leave hst rfl rfl rfl (h.history.leaving i c o keys hst)
  exact .step hstep (hrel.finishes_of_done (by simp))

theorem Rel.finishes_reading (hst : st i = some (c, .reading keys)) :
    Finishes log s c.channel i (a.done c.channel i + 1) := by
  cases hch : c.channel with
  | barrier =>
    cases c with
    | barrier =>
      obtain ⟨s', hstep, hrel⟩ := h.leave_barrier hst
      exact .step hstep (hrel.finishes_of_done (by simp))
    | gatherResult localRet => cases hch
    | allGather sendBuf recvSize => cases hch
  | gather =>
    obtain ⟨act, s', o, hstep, hrel⟩ := h.read hst hch
    have hfinish := hrel.finishes_leaving (setSt_self _)
    rw [hch] at hfinish
    exact .step hstep hfinish

/-- A member that waits in a meeting that is announced finishes its call. -/
theorem Rel.finishes_of_announced (hst : st i = some (c, ph))
    (hph : ph.Settled) (ha : a.announced c.channel (a.done c.channel i + 1) = true) :
    Finishes log s c.channel i (a.done c.channel i + 1) := by
  cases ph with
  | entering => exact hph.elim
  | settling removed last keys =>
    match removed, last, hph with
    | [], false, _ =>
      obtain ⟨act, s', a', hstep, hdone, hrel⟩ := h.pass hst ha
      have hfinish := hrel.finishes_reading (setSt_self _)
      rw [hdone] at hfinish
      exact .step hstep hfinish
  | reading keys => exact h.finishes_reading hst
  | leaving o keys => exact h.finishes_leaving hst

end

/-- What everybody has called can be finished. -/
theorem Inv.finishes (h : Inv n rank plan log s)
    (hcalled : ∀ q, q < n.toNat → m ≤ (calls ch q log).length) (hi : i < n.toNat) :
    Finishes log s ch i m := by
  obtain ⟨a, st, h⟩ := h
  by_cases hm : 1 ≤ m
  · obtain ⟨out, s', a', st', htrace, hdone, hrel, hsettled⟩ := exists_settled h n.toNat hcalled
    have hannounced := hrel.announced_of_settled hm hsettled
    have hfinish : Finishes (log ++ out) s' ch i m := by
      rcases hsettled i hi with hle | ⟨rfl, c, ph, hst, rfl, hph⟩
      · exact hrel.finishes_of_done hle
      · exact hrel.finishes_of_announced hst hph hannounced
    obtain ⟨out', s'', htrace', hlen⟩ := hfinish
    rw [append_assoc] at hlen
    exact ⟨_, s'', htrace.trans htrace', hlen⟩
  · exact ⟨[], s, .nil, by omega⟩

end MemFabric.Smem.Collective
