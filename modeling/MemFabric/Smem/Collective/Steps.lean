import MemFabric.Smem.Collective.Refine

/-!
# Steps of the members

What each step of a member does to the meetings.  A request of a call is one of five:
the arrival, the removal of an old key, the announcement, the wait, the reading of the
value; `Rel.request` is what they have in common.
-/

namespace MemFabric.Smem.Collective

open Machine Wire List Table
open Smem.Group (smOk smError)

variable {n : UInt32} {rank : Nat → UInt32} {plan : Channel → Nat → Shape} {log : List Event}
  {s : System} {a a' : Rendezvous.State Channel} {st : Nat → Option (Call × Phase)}
  {i : Nat} {c : Call}

/-! ## Other members -/

variable {key : Bytes} {m : Member} {x : Option (Call × Phase)} {ch : Channel} {k q : Nat}
  {ph ph' : Phase} {act : Act} {kv : Table Bytes Bytes} {keys : List Bytes}

theorem Old.mono (h : Old a key) (hold : a.old ⊆ a'.old) : Old a' key := by
  obtain ⟨slot, ch, m, hkey, hm⟩ := h
  exact ⟨slot, ch, m, hkey, hold hm⟩

theorem MemberRel.mono {r : UInt32} (h : MemberRel n r a i m x)
    (hdone : ∀ ch, a'.done ch i = a.done ch i) (hstatus : a'.status i = a.status i)
    (hold : a.old ⊆ a'.old) : MemberRel n r a' i m x where
  rank := h.rank
  groupSize := h.groupSize
  groupVersion := h.groupVersion
  done ch := by rw [hdone, h.done]
  running := h.running
  status := by rw [hstatus, h.status]
  bound c ph hx := by
    rw [hdone]
    exact h.bound c ph hx
  queued key hkey := (h.queued key hkey).mono hold
  keys c ph hx key hkey := (h.keys c ph hx key hkey).mono hold

theorem member_set (h : ∀ j, MemberRel n (rank j) a j (s.members j) (st j))
    (hi : MemberRel n (rank i) a' i m x)
    (hother : ∀ j, j ≠ i → (∀ ch, a'.done ch j = a.done ch j) ∧ a'.status j = a.status j)
    (hold : a.old ⊆ a'.old) (kv : Table Bytes Bytes) (j : Nat) :
    MemberRel n (rank j) a' j (({ s with kv }.setMember i m).members j) (setSt st i x j) := by
  by_cases hj : j = i
  · subst hj
    simpa [System.setMember, setSt] using hi
  · have hother := hother j hj
    simpa [System.setMember, setSt, hj] using (h j).mono hother.1 hother.2 hold

/-! ## History -/

theorem Gathered.append {o : Outcome} (h : Gathered n rank ch k log c o)
    (l : List Event) : Gathered n rank ch k (log ++ l) c o := by
  obtain ⟨hlen, order, hperm, ho⟩ := h
  refine ⟨fun q hq => ?_, order, hperm, ?_⟩
  · rw [calls_append, length_append]
    exact Nat.lt_add_right _ (hlen q hq)
  · rw [ho]
    congr 2
    refine map_congr_left fun q hq => (inputAt_append ?_).symm
    exact hlen q (mem_range.mp (hperm.mem_iff.mp hq))

theorem History.access (h : History n rank plan a log st) (hst : st i = some (c, ph))
    (hdone : a'.done = a.done) (hentered : ∀ ch j, a'.entered ch j = a.entered ch j) (act : Act)
    (hleaving : ∀ o keys, ph' = .leaving o keys →
      Gathered n rank c.channel (a.done c.channel i) log c o) :
    History n rank plan a' (log ++ [.accessed i act]) (setSt st i (some (c, ph'))) where
  calls_length ch j := by rw [calls_accessed, hentered, h.calls_length]
  current j c' ph'' hj := by
    rw [calls_accessed, hdone]
    by_cases heq : j = i
    · subst heq
      obtain ⟨rfl, -⟩ : c = c' ∧ ph' = ph'' := by simpa [setSt] using hj
      exact h.current j c ph hst
    · exact h.current j c' ph'' (by simpa [setSt, heq] using hj)
  planned ch j k c' hc := h.planned ch j k c' (by rwa [calls_accessed] at hc)
  results_length ch j := by rw [results_accessed, hdone, h.results_length]
  outcome ch j k o ho := by
    rw [results_accessed] at ho
    obtain ⟨c', hc', hg⟩ := h.outcome ch j k o ho
    exact ⟨c', by rwa [calls_accessed], hg.append _⟩
  leaving j c' o keys hj := by
    rw [hdone]
    by_cases heq : j = i
    · subst heq
      obtain ⟨rfl, hph⟩ : c = c' ∧ ph' = .leaving o keys := by simpa [setSt] using hj
      exact (hleaving o keys hph).append _
    · exact (h.leaving j c' o keys (by simpa [setSt, heq] using hj)).append _

/-! ## Requests -/

theorem step_exec_act {k : Resp act → Program (Outcome × Engine)} {r : Resp act}
    (hrun : (s.members i).running = some (c, .act act k)) (hserve : serve s.kv act = some (r, kv)) :
    step s (.exec i) =
      ({ s with kv }.setMember i ⟨(s.members i).engine, some (c, k r)⟩, [.accessed i act]) := by
  simp only [step, hrun, hserve]

/-! ## The keys of the current call -/

theorem not_old_keyAt (slot : Slot) {m : Nat} (h : (ch, m) ∉ a.old) :
    ¬ Old a (keyAt slot ch m) := by
  rintro ⟨slot', ch', m', hkey, hold⟩
  obtain ⟨-, rfl, rfl⟩ := keyAt_inj hkey
  exact h hold

theorem keyAt_wait_ne_add (ch : Channel) (m : Nat) (ch' : Channel) (m' : Nat) :
    keyAt .wait ch m ≠ keyAt .add ch' m' := by
  intro h
  cases (keyAt_inj h).1

section

variable (h : Rel n rank plan log s a st) {ph : Phase} (hst : st i = some (c, ph))

include h hst

theorem Rel.status_eq : a.status i = some (c.channel, ph.abs) := by
  rw [(h.member i).status, hst]
  rfl

theorem Rel.running_eq : (s.members i).running = some (c, ph.program (s.members i).engine c) := by
  rw [(h.member i).running, hst]
  rfl

theorem Rel.toNat_next :
    ((s.members i).engine.sn c.channel + 1).toNat = a.done c.channel i + 1 := by
  have hdone := (h.member i).done c.channel
  rw [toNat_sn_succ (by rw [hdone]; exact (h.member i).bound c ph hst), hdone]

theorem Rel.addKey_eq : ((s.members i).engine.nextSn c.channel).addKey c.channel =
    keyAt .add c.channel (a.done c.channel i + 1) := by
  rw [addKey_nextSn (h.member i).groupVersion, h.toNat_next hst]

theorem Rel.waitKey_eq : ((s.members i).engine.nextSn c.channel).waitKey c.channel =
    keyAt .wait c.channel (a.done c.channel i + 1) := by
  rw [waitKey_nextSn (h.member i).groupVersion, h.toNat_next hst]

theorem Rel.notMem_old : (c.channel, a.done c.channel i + 1) ∉ a.old :=
  h.inv.notMem_old (h.status_eq hst) (Nat.lt_succ_self _)

theorem Rel.planned : c.shape = plan c.channel (a.done c.channel i) ∧ c.Fits n.toNat :=
  (h.history.planned _ _ _ _ (h.history.current i c ph hst)).2

theorem Rel.inputAt_eq : inputAt rank c.channel (a.done c.channel i) log i = c.input (rank i) := by
  rw [inputAt, h.history.current i c ph hst]
  rfl

/-- The request with which the member goes on to the phase `ph'`. -/
theorem Rel.request (ph' : Phase) (hinv : Rendezvous.Inv n.toNat a') (hdone : a'.done = a.done)
    (hstatus : ∀ j, a'.status j = if j = i then some (c.channel, ph'.abs) else a.status j)
    (hold : a.old ⊆ a'.old) (hkeys : ∀ key ∈ ph'.keys, Old a' key)
    (hleaving : ∀ o keys, ph' = .leaving o keys →
      Gathered n rank c.channel (a.done c.channel i) log c o)
    {act : Act} {k : Resp act → Program (Outcome × Engine)} {r : Resp act}
    {kv : Table Bytes Bytes} (hprogram : ph.program (s.members i).engine c = .act act k)
    (hserve : serve s.kv act = some (r, kv))
    (hrest : k r = ph'.program (s.members i).engine c) (hboard : Board rank a' log kv)
    (hact : act.isRemove = false → ¬ Old a act.key)
    (hremoved : ∀ key, act = .remove key → Old a' key) :
    ∃ s', step s (.exec i) = (s', [.accessed i act]) ∧
      Rel n rank plan (log ++ [.accessed i act]) s' a' (setSt st i (some (c, ph'))) := by
  have hrun := h.running_eq hst
  rw [hprogram] at hrun
  have hstep := step_exec_act hrun hserve
  rw [hrest] at hstep
  have hi := h.member i
  have hmember : MemberRel n (rank i) a' i
      ⟨(s.members i).engine, some (c, ph'.program (s.members i).engine c)⟩ (some (c, ph')) :=
    { rank := hi.rank
      groupSize := hi.groupSize
      groupVersion := hi.groupVersion
      done := fun ch => by rw [hdone, hi.done]
      running := rfl
      status := by simp [hstatus]
      bound := fun c' ph'' heq => by
        obtain ⟨rfl, -⟩ : c = c' ∧ ph' = ph'' := by simpa using heq
        rw [hdone]
        exact hi.bound c ph hst
      queued := fun key hkey => (hi.queued key hkey).mono hold
      keys := fun c' ph'' heq => by
        obtain ⟨rfl, rfl⟩ : c = c' ∧ ph' = ph'' := by simpa using heq
        exact hkeys }
  refine ⟨_, hstep, hinv, ?_, ?_, ⟨fun ch m hm => ?_, hboard.wait⟩, fun j key hmem => ?_, ?_⟩
  · exact member_set h.member hmember
      (fun j hj => ⟨fun ch => by rw [hdone], by simp [hstatus, hj]⟩) hold kv
  · refine h.history.access hst hdone (fun ch j => ?_) act hleaving
    have hi := hi.status
    unfold Rendezvous.State.entered
    rw [hstatus]
    split_ifs <;> simp_all
  · rw [inputAt_accessed]
    exact hboard.add ch m hm
  · rcases mem_append.mp hmem with hmem | hmem
    · exact (h.removed j key hmem).mono hold
    · obtain ⟨-, hact'⟩ : j = i ∧ Act.remove key = act := by simpa using hmem
      exact hremoved key hact'.symm
  · refine h.unused.concat fun j key j' act' hmem heq hkey => ?_
    obtain ⟨-, rfl⟩ : i = j' ∧ act = act' := by simpa using heq
    by_contra hne
    exact hact (by simpa using hne) (hkey ▸ h.removed j key hmem)

theorem Rel.status_same {ph' : Phase} (hph : ph'.abs = ph.abs) (j : Nat) :
    a.status j = if j = i then some (c.channel, ph'.abs) else a.status j := by
  split_ifs with hj
  · rw [hj, h.status_eq hst, hph]
  · rfl

end

section

variable (h : Rel n rank plan log s a st) (hq : q ∈ a.arrivals ch (k + 1))

include h hq

theorem Rel.lt_length_calls : k < (calls ch q log).length := by
  rw [h.history.calls_length]
  exact ((h.inv.arrived ch (k + 1) q).mp hq).le_entered

theorem Rel.length_inputAt :
    (inputAt rank ch k log q).length = (plan ch k).width := by
  have hc := getElem?_eq_getElem (h.lt_length_calls hq)
  rw [inputAt, hc, Option.elim_some, length_input, (h.history.planned _ _ _ _ hc).2.1]

end

/-! ## Arriving -/

def oldAt (a : Rendezvous.State Channel) (i : Nat) (ch : Channel) : Set (Channel × Nat) :=
  { p | p.1 = ch ∧ p.2 + 1 = a.done ch i }

def afterArrival (n : UInt32) (a : Rendezvous.State Channel) (i : Nat) (ch : Channel) :
    Rendezvous.State Channel :=
  ((a.addArrival ch (a.done ch i + 1) i).setStatus i (some (ch, .settling
    (decide ((a.arrivals ch (a.done ch i + 1)).length + 1 = n.toNat))))).addOld (oldAt a i ch)

theorem oldAt_subset (a : Rendezvous.State Channel) (i : Nat) (ch : Channel) :
    oldAt a i ch ⊆ a.behind i := by
  rintro ⟨ch', m⟩ ⟨rfl, hm⟩
  exact hm.le

section

variable (h : Rel n rank plan log s a st) (hst : st i = some (c, .entering))

include h hst

theorem Rel.board_arrive :
    Board rank (afterArrival n a i c.channel) log
      (s.kv.insert (keyAt .add c.channel (a.done c.channel i + 1))
        (encode c.channel ((a.arrivals c.channel (a.done c.channel i + 1)).map
          (inputAt rank c.channel (a.done c.channel i) log) ++ [c.input (rank i)]))) where
  add ch m hm := by
    have hold : (ch, m + 1) ∉ a.old := fun hmem => hm (.inl hmem)
    rw [lookup_insert_eq]
    by_cases heq : ch = c.channel ∧ m = a.done c.channel i
    · obtain ⟨rfl, rfl⟩ := heq
      simp [afterArrival, stored, h.inputAt_eq hst]
    · have hne : ¬ keyAt .add ch (m + 1) = keyAt .add c.channel (a.done c.channel i + 1) := by
        intro hkey
        obtain ⟨-, hch, hm⟩ := keyAt_inj hkey
        exact heq ⟨hch, Nat.succ_inj.mp hm⟩
      rw [if_neg hne, h.board.add ch m hold]
      simp [afterArrival, heq]
  wait ch m hm := by
    have hold : (ch, m + 1) ∉ a.old := fun hmem => hm (.inl hmem)
    rw [lookup_insert_eq, if_neg (keyAt_wait_ne_add ch (m + 1) _ _), h.board.wait ch m hold]
    rfl

theorem Rel.arrive :
    ∃ act s' ph', step s (.exec i) = (s', [.accessed i act]) ∧ ph'.abs ≠ .entering ∧
      Rel n rank plan (log ++ [.accessed i act]) s' (afterArrival n a i c.channel)
        (setSt st i (some (c, ph'))) := by
  have hm := h.member i
  set e := (s.members i).engine with he
  set l := (a.arrivals c.channel (a.done c.channel i + 1)).map
    (inputAt rank c.channel (a.done c.channel i) log) with hl
  have hkv : s.kv.lookup ((e.nextSn c.channel).addKey c.channel) = stored c.channel l := by
    rw [h.addKey_eq hst]
    exact h.board.add _ _ (h.notMem_old hst)
  have hwidth : ∀ x ∈ l, x.length = (c.input e.rank).length := by
    intro x hx
    obtain ⟨q, hq, rfl⟩ := mem_map.mp hx
    rw [h.length_inputAt hq, length_input, (h.planned hst).1]
  have hlen : l.length < 2 ^ 32 := by
    rw [length_map]
    exact lt_of_le_of_lt (h.inv.length_arrivals_le _ _) n.toNat_lt
  obtain ⟨act, k, r, harr⟩ := exists_arrival
    (by rw [hm.groupSize]; exact (h.planned hst).2) hkv hwidth hlen
  have hsize : e.groupSize.toNat = n.toNat := by rw [hm.groupSize]
  have hkeys : ∀ key ∈ (arrivedPhase e c.channel l).keys,
      Old (afterArrival n a i c.channel) key := by
    -- the keys come from the list of the engine or belong to the call before the last one
    intro key hkey
    rcases mem_cleaned (mem_append.mp hkey) with hmem | ⟨hsn, hkey⟩
    · have hlist : (e.nextSn c.channel).delayCleanKeyList = e.delayCleanKeyList := by
        cases c.channel <;> rfl
      rw [hlist] at hmem
      exact (hm.queued key hmem).mono Set.subset_union_left
    · have hdone := hm.done c.channel
      obtain ⟨slot, hkey, hge⟩ := oldKey_nextSn hm.groupVersion
        (by rw [hdone]; exact hm.bound c _ hst) hsn hkey
      rw [hdone] at hkey hge
      exact ⟨slot, c.channel, _, hkey, .inr ⟨rfl, Nat.sub_add_cancel (by omega)⟩⟩
  have hboard := h.board_arrive hst
  rw [← h.addKey_eq hst, ← hm.rank] at hboard
  have hact : ¬ Old a act.key := by
    rw [harr.key, h.addKey_eq hst]
    exact not_old_keyAt _ (h.notMem_old hst)
  have hstatus : ∀ j, (afterArrival n a i c.channel).status j =
      if j = i then some (c.channel, (arrivedPhase e c.channel l).abs) else a.status j := by
    simp [afterArrival, arrivedPhase, Phase.abs, hsize, hl]
  obtain ⟨s', hstep, hrel⟩ := h.request hst (arrivedPhase e c.channel l)
    (h.inv.step (.arrive _ _ _ (h.status_eq hst) (oldAt_subset a i _))) rfl hstatus
    Set.subset_union_left hkeys
    (fun _ _ heq => by simp [arrivedPhase] at heq) harr.program harr.serve harr.rest hboard
    (fun _ => hact) (fun key heq => by simpa [heq, Act.isRemove] using harr.isRemove)
  exact ⟨act, s', _, hstep, by simp [arrivedPhase, Phase.abs], hrel⟩

end

/-! ## Cleaning and announcing -/

theorem Board.erase (h : Board rank a log kv)
    (hkey : Old a key) : Board rank a log (kv.erase key) where
  add ch m hm := by
    rw [lookup_erase_eq, if_neg, h.add ch m hm]
    rintro rfl
    exact not_old_keyAt _ hm hkey
  wait ch m hm := by
    rw [lookup_erase_eq, if_neg, h.wait ch m hm]
    rintro rfl
    exact not_old_keyAt _ hm hkey

section

variable (h : Rel n rank plan log s a st)

include h

theorem Rel.remove {l : List Bytes} {last : Bool}
    (hst : st i = some (c, .settling (key :: l) last keys)) :
    ∃ s', step s (.exec i) = (s', [.accessed i (.remove key)]) ∧
      Rel n rank plan (log ++ [.accessed i (.remove key)]) s' a
        (setSt st i (some (c, .settling l last keys))) := by
  have hold := (h.member i).keys c _ hst
  have hkey : Old a key := hold key (by simp [Phase.keys])
  refine h.request hst (.settling l last keys) h.inv rfl (h.status_same hst rfl) subset_rfl
    (fun key' hmem => ?_) (fun _ _ heq => by simp at heq) rfl rfl rfl
    (h.board.erase hkey) (fun hne => by simp [Act.isRemove] at hne) (fun key' heq => ?_)
  · exact hold key' (by
      rcases mem_append.mp hmem with hmem | hmem <;> simp [Phase.keys, hmem])
  · obtain rfl : key = key' := by simpa using heq
    exact hkey

theorem Rel.board_announce (i : Nat) (ch : Channel) (x : Option (Channel × Rendezvous.Phase)) :
    Board rank ((a.setAnnounced ch (a.done ch i + 1)).setStatus i x) log
      (s.kv.insert (keyAt .wait ch (a.done ch i + 1)) groupSetStr) where
  add ch' m hm := by
    rw [lookup_insert_eq, if_neg (keyAt_wait_ne_add _ _ ch' (m + 1)).symm]
    exact h.board.add ch' m hm
  wait ch' m hm := by
    rw [lookup_insert_eq]
    by_cases heq : ch' = ch ∧ m = a.done ch i
    · obtain ⟨rfl, rfl⟩ := heq
      simp
    · have hne : ¬ keyAt .wait ch' (m + 1) = keyAt .wait ch (a.done ch i + 1) := by
        intro hkey
        obtain ⟨-, hch, hm⟩ := keyAt_inj hkey
        exact heq ⟨hch, Nat.succ_inj.mp hm⟩
      rw [if_neg hne, h.board.wait ch' m hm]
      simp [heq]

theorem Rel.announce (hst : st i = some (c, .settling [] true keys)) :
    ∃ act s' a', step s (.exec i) = (s', [.accessed i act]) ∧ a'.done = a.done ∧
      Rel n rank plan (log ++ [.accessed i act]) s' a'
        (setSt st i (some (c, .settling [] false keys))) := by
  have hboard := h.board_announce i c.channel (some (c.channel, .settling false))
  have hkey := not_old_keyAt .wait (h.notMem_old hst)
  rw [← h.waitKey_eq hst] at hboard hkey
  obtain ⟨s', hstep, hrel⟩ := h.request hst (.settling [] false keys)
    (h.inv.step (.announce _ _ (h.status_eq hst))) rfl (fun j => rfl) subset_rfl
    (fun key hkey => (h.member i).keys c _ hst key hkey) (fun _ _ heq => by simp at heq) rfl
    rfl rfl hboard (fun _ => hkey) (fun _ heq => by simp at heq)
  refine ⟨_, s', _, hstep, ?_, hrel⟩
  rfl

/-! ## Waiting -/

theorem Rel.pass (hst : st i = some (c, .settling [] false keys))
    (ha : a.announced c.channel (a.done c.channel i + 1) = true) :
    ∃ act s' a', step s (.exec i) = (s', [.accessed i act]) ∧ a'.done = a.done ∧
      Rel n rank plan (log ++ [.accessed i act]) s' a' (setSt st i (some (c, .reading keys))) := by
  have hvalue : serve s.kv (.get (((s.members i).engine.nextSn c.channel).waitKey c.channel)) =
      some (groupSetStr, s.kv) := by
    rw [h.waitKey_eq hst, serve, h.board.wait _ _ (h.notMem_old hst), if_pos ha]
    rfl
  have hkey := not_old_keyAt .wait (h.notMem_old hst)
  rw [← h.waitKey_eq hst] at hkey
  obtain ⟨s', hstep, hrel⟩ := h.request hst (.reading keys)
    (h.inv.step (.pass _ _ (h.status_eq hst) ha)) rfl (fun j => rfl) subset_rfl
    (fun key hkey => (h.member i).keys c _ hst key hkey)
    (fun _ _ heq => by simp at heq) rfl hvalue (if_pos rfl) ⟨h.board.add, h.board.wait⟩
    (fun _ => hkey) (fun _ heq => by simp at heq)
  refine ⟨_, s', _, hstep, ?_, hrel⟩
  rfl

theorem Rel.blocked (hst : st i = some (c, .settling [] false keys))
    (ha : a.announced c.channel (a.done c.channel i + 1) = false) : step s (.exec i) = (s, []) := by
  have hvalue : serve s.kv (.get (((s.members i).engine.nextSn c.channel).waitKey c.channel)) =
      none := by
    rw [h.waitKey_eq hst, serve, h.board.wait _ _ (h.notMem_old hst), ha]
    rfl
  have hrun := h.running_eq hst
  simp only [Phase.program, removeAll, announcing, Bool.false_eq_true, if_false] at hrun
  simp only [step, hrun, hvalue]

/-! ## Reading -/

/-- Once a meeting is announced its value is the inputs of all, in the order of arrival. -/
theorem Rel.gathered (ha : a.announced ch (k + 1) = true) (c : Call) :
    Gathered n rank ch k log c (c.outcome n.toNat
      ((a.arrivals ch (k + 1)).map (inputAt rank ch k log)).flatten) := by
  have hperm := h.inv.perm_of_full (h.inv.full _ _ ha)
  refine ⟨fun q hq => h.lt_length_calls (hperm.mem_iff.mpr (mem_range.mpr hq)), _, hperm, rfl⟩

theorem Rel.read (hst : st i = some (c, .reading keys)) (hch : c.channel = .gather) :
    ∃ act s' o, step s (.exec i) = (s', [.accessed i act]) ∧
      Rel n rank plan (log ++ [.accessed i act]) s' a (setSt st i (some (c, .leaving o keys))) := by
  have hm := h.member i
  set e := (s.members i).engine with he
  set k := a.done c.channel i with hk
  have ha := h.inv.passed i c.channel (h.status_eq hst)
  have hfull := h.inv.full _ _ ha
  set l := (a.arrivals c.channel (k + 1)).map (inputAt rank c.channel k log) with hl
  have hwidth : l.flatten.length = (c.input e.rank).length * e.groupSize.toNat := by
    rw [length_flatten_of_width, hl, length_map, hfull,
      hm.groupSize]
    intro x hx
    obtain ⟨q, hq, rfl⟩ := mem_map.mp hx
    rw [h.length_inputAt hq, length_input, (h.planned hst).1]
  have hne : l ≠ [] := by
    have hpos := h.inv.lt_of_status (h.status_eq hst)
    rw [← length_pos_iff, length_map, hfull]
    omega
  have hvalue : s.kv.lookup ((e.nextSn .gather).addKey .gather) = some l.flatten := by
    have hkey := h.addKey_eq hst
    have hlookup := h.board.add _ _ (h.notMem_old hst)
    rw [← hkey, ← hl, hch, stored, if_neg hne] at hlookup
    exact hlookup
  -- both kinds of gathers read the whole value
  obtain ⟨act, r, hkey, hremove, hserve, hread⟩ : ∃ act r, act.key =
      (e.nextSn .gather).addKey .gather ∧ act.isRemove = false ∧
      serve s.kv act = some (r, s.kv) ∧ ∃ f : Resp act → Program (Outcome × Engine),
        c.reading e keys = .act act f ∧
        f r = .ret (c.outcome e.groupSize.toNat l.flatten, e.after .gather keys) := by
    cases c with
    | barrier => cases hch
    | gatherResult localRet =>
      refine ⟨.tryGet ((e.nextSn .gather).addKey .gather), some l.flatten, rfl, rfl, ?_, _, rfl, ?_⟩
      · rw [serve, hvalue]
      · change Prog.ret (if _ then _ else _, _) = _
        rw [if_pos hwidth]
    | allGather sendBuf recvSize =>
      refine ⟨.get ((e.nextSn .gather).addKey .gather), l.flatten, rfl, rfl, ?_, _, rfl, ?_⟩
      · rw [serve, hvalue]
        rfl
      · change Prog.ret (if _ then _ else _, _) = _
        rw [if_pos hwidth]
  obtain ⟨f, hreading, hf⟩ := hread
  have hprogram :
      f r = (Phase.leaving (c.outcome e.groupSize.toNat l.flatten) keys).program e c := by
    rw [hf, Phase.program, hch]
  have hgathered : Gathered n rank c.channel k log c (c.outcome e.groupSize.toNat l.flatten) := by
    rw [hm.groupSize]
    exact h.gathered ha c
  have hact : ¬ Old a act.key := by
    rw [hkey, ← hch, h.addKey_eq hst]
    exact not_old_keyAt _ (h.notMem_old hst)
  obtain ⟨s', hstep, hrel⟩ := h.request hst
    (.leaving (c.outcome e.groupSize.toNat l.flatten) keys) h.inv rfl (h.status_same hst rfl)
    subset_rfl (fun key hkey => hm.keys c _ hst key hkey)
    (fun o keys' heq => by
      obtain ⟨rfl, -⟩ := Phase.leaving.inj heq
      exact hgathered) hreading hserve hprogram
    h.board (fun _ => hact) (fun key heq => by simp [heq, Act.isRemove] at hremove)
  exact ⟨act, s', _, hstep, hrel⟩

end

end MemFabric.Smem.Collective
