import MemFabric.Smem.Collective.Progress

/-!
# A counter that wraps

Two ranks repeat one call.  Rank 1 comes first at the third call and never again, so the
keys of the first call stay in its list and are never removed.  After `2 ^ 32` calls the
counters are back at 0, and the next call is made with the keys of the first one.
-/

namespace MemFabric.Smem.Collective

open Machine Wire Smem.Store
open Smem.Group (smOk smError)

def Repeats (n : Nat) (c : Call) (_ : System) : Input → Prop
  | .exec _ => True
  | .call i c' => i < n ∧ c' = c

/-- All ranks bring the same to the call. -/
abbrev Uniform (c : Call) : Prop := c = .barrier ∨ c = .gatherResult 0

variable {n : Nat} {c : Call} {s : System} {e : Engine} {i : Nat} {ch : Channel}
  {kv : Table Bytes Bytes}

/-! ## One member -/

def System.put (s : System) (kv : Table Bytes Bytes) (i : Nat) (m : Member) : System :=
  { s with kv }.setMember i m

@[simp] theorem members_put (s : System) (kv : Table Bytes Bytes) (i j : Nat) (m : Member) :
    (s.put kv i m).members j = if j = i then m else s.members j := rfl

@[simp] theorem kv_put (s : System) (kv : Table Bytes Bytes) (i : Nat) (m : Member) :
    (s.put kv i m).kv = kv := rfl

theorem put_put (s : System) (kv kv' : Table Bytes Bytes) (i : Nat) (m m' : Member) :
    (s.put kv i m).put kv' i m' = s.put kv' i m' := by
  simp only [System.put, System.setMember, System.mk.injEq, true_and]
  funext j
  split_ifs <;> rfl

def Silent (out : List Event) : Prop := ∀ ev ∈ out, ∃ i a, ev = .accessed i a

variable {out log : List Event} {j f g k : Nat} {l : List Bytes}

theorem silent_nil : Silent [] := by
  intro ev hev
  cases hev

theorem Silent.cons (h : Silent out) (i : Nat) (a : Act) : Silent (.accessed i a :: out) := by
  intro ev hev
  rcases List.mem_cons.mp hev with rfl | hev
  · exact ⟨i, a, rfl⟩
  · exact h ev hev

theorem Silent.calls (h : Silent out) (ch : Channel) (i : Nat) : calls ch i out = [] := by
  rw [Collective.calls, List.filterMap_eq_nil_iff]
  intro ev hev
  obtain ⟨j, a, rfl⟩ := h ev hev
  rfl

theorem Silent.results (h : Silent out) (ch : Channel) (i : Nat) : results ch i out = [] := by
  rw [Collective.results, List.filterMap_eq_nil_iff]
  intro ev hev
  obtain ⟨j, a, rfl⟩ := h ev hev
  rfl

theorem trace_step {s' : System} (input : Input) (hallowed : Repeats n c s input)
    (h : step s input = (s', out)) : Trace step (Repeats n c) s out s' := by
  have htrace : Trace step (Repeats n c) s ([] ++ (step s input).2) (step s input).1 :=
    .snoc _ .nil hallowed
  rwa [h] at htrace

theorem trace_act {act : Act} {k : Resp act → Program (Outcome × Engine)} {r : Resp act}
    {kv' : Table Bytes Bytes} (hserve : serve kv act = some (r, kv')) :
    Trace step (Repeats n c) (s.put kv i ⟨e, some (c, .act act k)⟩) [.accessed i act]
      (s.put kv' i ⟨e, some (c, k r)⟩) := by
  have hstep := step_exec_act (s := s.put kv i ⟨e, some (c, .act act k)⟩) (i := i) (c := c)
    (k := k) (by simp) hserve
  have hput : (s.put kv i ⟨e, some (c, .act act k)⟩).put kv' i
      ⟨((s.put kv i ⟨e, some (c, .act act k)⟩).members i).engine, some (c, k r)⟩ =
      s.put kv' i ⟨e, some (c, k r)⟩ := by
    rw [put_put]
    simp
  exact trace_step (.exec i) trivial (hstep.trans (congrArg (·, _) hput))

theorem trace_removeAll (s : System) (kv : Table Bytes Bytes) (i : Nat) (e : Engine)
    (l : List Bytes) (p : Program (Outcome × Engine)) :
    ∃ out, Silent out ∧
      Trace step (Repeats n c) (s.put kv i ⟨e, some (c, removeAll l p)⟩) out
        (s.put (l.foldl (fun kv key => kv.erase key) kv) i ⟨e, some (c, p)⟩) := by
  induction l generalizing kv with
  | nil => exact ⟨[], silent_nil, .nil⟩
  | cons key l ih =>
    obtain ⟨out, hsilent, htrace⟩ := ih (kv.erase key)
    exact ⟨_, hsilent.cons i (.remove key), (trace_act rfl).trans htrace⟩

theorem lookup_foldl_erase (l : List Bytes) (kv : Table Bytes Bytes) (key : Bytes) :
    (l.foldl (fun kv key => kv.erase key) kv).lookup key =
      if key ∈ l then none else kv.lookup key := by
  induction l generalizing kv with
  | nil => simp
  | cons k l ih =>
    rw [List.foldl_cons, ih, Table.lookup_erase_eq]
    by_cases hk : key = k <;> by_cases hl : key ∈ l <;> simp [hl]

theorem put_comm (s : System) (kv kv' kv'' : Table Bytes Bytes) {i : Nat} (hij : i ≠ j)
    (m m' : Member) : (s.put kv i m).put kv' j m' = (s.put kv'' j m').put kv' i m := by
  simp only [System.put, System.setMember, System.mk.injEq, true_and]
  funext k
  by_cases hi : k = i
  · simp [hi, hij]
  · simp [hi]

theorem trace_enter (hm : s.members i = ⟨e, none⟩) (hi : i < n) (hfits : c.Fits e.groupSize.toNat)
    (hkv : s.kv.lookup ((e.nextSn c.channel).addKey c.channel) = stored c.channel l)
    (hl : ∀ x ∈ l, x.length = (c.input e.rank).length) (hlen : l.length < 2 ^ 32) :
    ∃ act, Trace step (Repeats n c) s [.called i c, .accessed i act]
      (s.put (s.kv.insert ((e.nextSn c.channel).addKey c.channel)
        (encode c.channel (l ++ [c.input e.rank]))) i
        ⟨e, some (c, (arrivedPhase e c.channel l).program e c)⟩) := by
  obtain ⟨act, k, r, harr⟩ := exists_arrival hfits hkv hl hlen
  have hcall : step s (.call i c) = (s.put s.kv i ⟨e, some (c, .act act k)⟩, [.called i c]) := by
    rw [← harr.program]
    simp only [step, hm]
    rfl
  have hact := trace_act (n := n) (c := c) (s := s) (i := i) (e := e) (k := k) harr.serve
  rw [harr.rest] at hact
  exact ⟨act, (trace_step (.call i c) ⟨hi, rfl⟩ hcall).trans hact⟩

theorem trace_pass (s : System) (i : Nat) (e : Engine) (keys : List Bytes)
    (hv : kv.lookup ((e.nextSn c.channel).waitKey c.channel) = some groupSetStr) :
    Trace step (Repeats n c)
      (s.put kv i ⟨e, some (c, (Phase.settling [] false keys).program e c)⟩)
      [.accessed i (.get ((e.nextSn c.channel).waitKey c.channel))]
      (s.put kv i ⟨e, some (c, c.reading e keys)⟩) := by
  have hserve : serve kv (.get ((e.nextSn c.channel).waitKey c.channel)) =
      some (groupSetStr, kv) := by
    rw [serve, hv]
    rfl
  have hact := trace_act (n := n) (c := c) (s := s) (i := i) (e := e)
    (k := fun v => if v = groupSetStr then c.reading e keys
      else .ret ({ ret := smError }, e.after c.channel keys)) hserve
  exact hact

theorem trace_ret {o : Outcome} {e' : Engine} :
    Trace step (Repeats n c) (s.put kv i ⟨e, some (c, .ret (o, e'))⟩) [.returned i c o]
      (s.put kv i ⟨e', none⟩) := by
  refine trace_step (.exec i) trivial ?_
  simp only [step, members_put]
  exact congrArg (·, _) (put_put s kv kv i _ _)

theorem trace_read {x : BitVec 32} {keys : List Bytes} :
    Trace step (Repeats n (.gatherResult x))
      (s.put kv i ⟨e, some (.gatherResult x, (Call.gatherResult x).reading e keys)⟩)
      [.accessed i (.tryGet ((e.nextSn .gather).addKey .gather)),
        .returned i (.gatherResult x) (match kv.lookup ((e.nextSn .gather).addKey .gather) with
          | none => { ret := smError }
          | some output =>
            if output.length = ((Call.gatherResult x).input e.rank).length * e.groupSize.toNat then
              (Call.gatherResult x).outcome e.groupSize.toNat output
            else { ret := smError })]
      (s.put kv i ⟨e.after .gather keys, none⟩) :=
  (trace_act rfl).trans trace_ret

theorem trace_return (hc : Uniform c) (s : System)
    (kv : Table Bytes Bytes) (i : Nat) (e : Engine) (keys : List Bytes) :
    ∃ out o, Silent out ∧
      Trace step (Repeats n c) (s.put kv i ⟨e, some (c, c.reading e keys)⟩)
        (out ++ [.returned i c o]) (s.put kv i ⟨e.after c.channel keys, none⟩) := by
  rcases hc with rfl | rfl
  · exact ⟨[], _, silent_nil, trace_ret⟩
  · exact ⟨_, _, silent_nil.cons _ _, trace_read⟩

/-! ## A round of two members -/

open Event in
theorem calls_length_round (hfg : f ≠ g) (hj : j = f ∨ j = g) {out1 out2 out3 : List Event}
    {act act' : Act} {o o' : Outcome} (h₁ : Silent out1) (h2 : Silent out2) (h3 : Silent out3) :
    (calls c.channel j ([called f c, accessed f act] ++ out1 ++
      ([called g c, accessed g act'] ++ (out2 ++ [returned g c o])) ++
      (out3 ++ [returned f c o']))).length = 1 ∧
    (results c.channel j ([called f c, accessed f act] ++ out1 ++
      ([called g c, accessed g act'] ++ (out2 ++ [returned g c o])) ++
      (out3 ++ [returned f c o']))).length = 1 := by
  have hgf : g ≠ f := hfg.symm
  simp only [calls_append, results_append, h₁.calls, h2.calls, h3.calls, h₁.results, h2.results,
    h3.results]
  rcases hj with rfl | rfl <;> simp [calls, results, hfg, hgf]

/-- The second member arrives, announces the call, passes and returns. -/
theorem trace_second {x : Bytes} (hc : Uniform c)
    (hm : s.members i = ⟨e, none⟩) (hi : i < n) (hsize : e.groupSize = 2)
    (hkv : s.kv.lookup ((e.nextSn c.channel).addKey c.channel) = some (encode c.channel [x]))
    (hx : x.length = (c.input e.rank).length) :
    ∃ act out o, Silent out ∧
      Trace step (Repeats n c) s ([.called i c, .accessed i act] ++ (out ++ [.returned i c o]))
        (s.put ((s.kv.insert ((e.nextSn c.channel).addKey c.channel)
            (encode c.channel [x, c.input e.rank])).insert
          ((e.nextSn c.channel).waitKey c.channel) groupSetStr) i
          ⟨e.after c.channel e.delayCleanKeyList, none⟩) := by
  have hfits : c.Fits e.groupSize.toNat := by rcases hc with rfl | rfl <;> trivial
  obtain ⟨act, henter⟩ := trace_enter (l := [x]) hm hi hfits hkv (by simpa using hx) (by simp)
  have hphase : arrivedPhase e c.channel [x] = .settling [] true e.delayCleanKeyList := by
    simp [arrivedPhase, cleaned, hsize, delayCleanKeyList_nextSn]
  rw [hphase] at henter
  set kv1 := s.kv.insert ((e.nextSn c.channel).addKey c.channel)
    (encode c.channel [x, c.input e.rank]) with hkv1
  set kv2 := kv1.insert ((e.nextSn c.channel).waitKey c.channel) groupSetStr with hkv2
  have hset : Trace step (Repeats n c)
      (s.put kv1 i ⟨e, some (c, (Phase.settling [] true e.delayCleanKeyList).program e c)⟩)
      [.accessed i (.set ((e.nextSn c.channel).waitKey c.channel) groupSetStr)]
      (s.put kv2 i ⟨e, some (c, (Phase.settling [] false e.delayCleanKeyList).program e c)⟩) :=
    trace_act rfl
  have hpass := trace_pass (n := n) s i e e.delayCleanKeyList
    (show kv2.lookup _ = _ from AList.lookup_insert _)
  obtain ⟨out, o, hsilent, hreturn⟩ := trace_return hc s kv2 i e e.delayCleanKeyList
  have htrace := henter.trans (hset.trans (hpass.trans hreturn))
  exact ⟨act, _, o, (hsilent.cons _ _).cons _ _, htrace⟩

/-- Member `f` comes first to the call, `g` second. -/
theorem trace_round {e1 e2 : Engine} (hc : Uniform c) (hfg : f ≠ g)
    (hf : f < 2) (hg : g < 2) (hmf : s.members f = ⟨e1, none⟩) (hmg : s.members g = ⟨e2, none⟩)
    (hsize1 : e1.groupSize = 2) (hsize2 : e2.groupSize = 2)
    (hadd : (e2.nextSn c.channel).addKey c.channel = (e1.nextSn c.channel).addKey c.channel)
    (hwait : (e2.nextSn c.channel).waitKey c.channel = (e1.nextSn c.channel).waitKey c.channel)
    (hkv : s.kv.lookup ((e1.nextSn c.channel).addKey c.channel) = none)
    (hremoved : (e1.nextSn c.channel).addKey c.channel ∉
      (cleaned (e1.nextSn c.channel) c.channel true).1) :
    ∃ out kv', Trace step (Repeats 2 c) s out
        ((s.put kv' g ⟨e2.after c.channel e2.delayCleanKeyList, none⟩).put kv' f
          ⟨e1.after c.channel (cleaned (e1.nextSn c.channel) c.channel true).2, none⟩) ∧
      (∀ j, j = f ∨ j = g → (calls c.channel j out).length = 1 ∧
        (results c.channel j out).length = 1) ∧
      ∀ key, kv'.lookup key =
        if key = (e1.nextSn c.channel).waitKey c.channel then some groupSetStr
        else if key = (e1.nextSn c.channel).addKey c.channel then
          some (encode c.channel [c.input e1.rank, c.input e2.rank])
        else if key ∈ (cleaned (e1.nextSn c.channel) c.channel true).1 then none
        else s.kv.lookup key := by
  set K := (e1.nextSn c.channel).addKey c.channel with hK
  set W := (e1.nextSn c.channel).waitKey c.channel with hW
  set R := (cleaned (e1.nextSn c.channel) c.channel true) with hR
  have hfits : c.Fits e1.groupSize.toNat := by rcases hc with rfl | rfl <;> trivial
  obtain ⟨act, henter⟩ := trace_enter (l := []) hmf hf hfits hkv (by simp) (by simp)
  have hphase : arrivedPhase e1 c.channel [] = .settling R.1 false R.2 := by
    simp [arrivedPhase, hsize1, hR]
  rw [hphase] at henter
  obtain ⟨out1, hsilent1, hclean⟩ := trace_removeAll s
    (s.kv.insert K (encode c.channel [c.input e1.rank])) f e1 R.1
    ((Phase.settling [] false R.2).program e1 c)
  set kv1 := R.1.foldl (fun kv key => kv.erase key)
    (s.kv.insert K (encode c.channel [c.input e1.rank])) with hkv1
  have hlookup1 : ∀ key, kv1.lookup key = if key ∈ R.1 then none else if key = K then
      some (encode c.channel [c.input e1.rank]) else s.kv.lookup key := by
    intro key
    rw [lookup_foldl_erase, Table.lookup_insert_eq]
  set s1 := s.put kv1 f ⟨e1, some (c, (Phase.settling [] false R.2).program e1 c)⟩ with hs1
  have hmg1 : s1.members g = ⟨e2, none⟩ := by
    rw [members_put, if_neg hfg.symm, hmg]
  have hkv2 : s1.kv.lookup ((e2.nextSn c.channel).addKey c.channel) =
      some (encode c.channel [c.input e1.rank]) := by
    rw [kv_put, hadd, hlookup1, if_neg hremoved, if_pos rfl]
  obtain ⟨act', out2, o2, hsilent2, hsecond⟩ := trace_second hc hmg1 hg hsize2 hkv2
    (by rw [length_input, length_input])
  rw [hadd, hwait] at hsecond
  set kv' := (s1.kv.insert K (encode c.channel [c.input e1.rank, c.input e2.rank])).insert W
    groupSetStr with hkv'
  have hcomm : s1.put kv' g ⟨e2.after c.channel e2.delayCleanKeyList, none⟩ =
      (s.put kv' g ⟨e2.after c.channel e2.delayCleanKeyList, none⟩).put kv' f
        ⟨e1, some (c, (Phase.settling [] false R.2).program e1 c)⟩ :=
    put_comm s kv1 kv' kv' hfg _ _
  rw [hcomm] at hsecond
  have hpass := trace_pass (n := 2)
    (s.put kv' g ⟨e2.after c.channel e2.delayCleanKeyList, none⟩) f e1 R.2
    (show kv'.lookup W = _ from AList.lookup_insert _)
  obtain ⟨out3, o3, hsilent3, hreturn⟩ := trace_return hc
    (s.put kv' g ⟨e2.after c.channel e2.delayCleanKeyList, none⟩) kv' f e1 R.2
  have hlast := hpass.trans hreturn
  refine ⟨_, kv', ((henter.trans hclean).trans hsecond).trans hlast, fun j hj => ?_, fun key => ?_⟩
  · exact calls_length_round hfg hj hsilent1 hsilent2 (hsilent3.cons _ _)
  · rw [Table.lookup_insert_eq, Table.lookup_insert_eq, kv_put, hlookup1]
    by_cases hkW : key = W
    · simp [hkW]
    · by_cases hkK : key = K
      · simp [hkK]
      · simp [hkK]

/-! ## Round after round -/

/-- Both members have made `k` calls and returned from them, and the keys of the first one
are still there. -/
structure Resting (c : Call) (k : Nat) (log : List Event) (s : System) : Prop where
  idle : ∀ i, i < 2 → (s.members i).running = none
  groupSize : ∀ i, i < 2 → (s.members i).engine.groupSize = 2
  groupVersion : ∀ i, i < 2 → (s.members i).engine.groupVersion = 0
  sn : ∀ i, i < 2 → (s.members i).engine.sn c.channel = UInt32.ofNat k
  called : ∀ i, i < 2 → (calls c.channel i log).length = k
  returned : ∀ i, i < 2 → (results c.channel i log).length = k
  add : 1 ≤ k → s.kv.lookup (keyAt .add c.channel 1) =
    some (encode c.channel [c.input 0, c.input 0])
  wait : 1 ≤ k → s.kv.lookup (keyAt .wait c.channel 1) = some groupSetStr

theorem Resting.addKey (h : Resting c k log s) (hi : i < 2) :
    ((s.members i).engine.nextSn c.channel).addKey c.channel =
      keyAt .add c.channel (UInt32.ofNat k + 1).toNat := by
  rw [addKey_nextSn (h.groupVersion i hi), h.sn i hi]

theorem Resting.waitKey (h : Resting c k log s) (hi : i < 2) :
    ((s.members i).engine.nextSn c.channel).waitKey c.channel =
      keyAt .wait c.channel (UInt32.ofNat k + 1).toNat := by
  rw [waitKey_nextSn (h.groupVersion i hi), h.sn i hi]

theorem input_eq (hc : Uniform c) (r : UInt32) : c.input r = c.input 0 := by
  rcases hc with rfl | rfl <;> rfl

/-- The keys that member `f` removes and keeps when it comes first to its next call. -/
def cleanedBy (s : System) (f : Nat) (ch : Channel) : List Bytes × List Bytes :=
  cleaned ((s.members f).engine.nextSn ch) ch true

/-- One more call, to which `f` comes first; its number is `m`. -/
theorem Resting.round {m : Nat} (h : Resting c k log s) (hc : Uniform c)
    (hfg : f = 0 ∧ g = 1 ∨ f = 1 ∧ g = 0) (hm : (UInt32.ofNat k + 1).toNat = m)
    (hkv : s.kv.lookup (keyAt .add c.channel m) = none)
    (hremoved : keyAt .add c.channel m ∉ (cleanedBy s f c.channel).1) (hone : m = 1 ↔ k = 0)
    (hfirst : ∀ slot, keyAt slot c.channel 1 ∉ (cleanedBy s f c.channel).1) :
    ∃ out s', Trace step (Repeats 2 c) s out s' ∧ Resting c (k + 1) (log ++ out) s' ∧
      (s'.members f).engine.delayCleanKeyList = (cleanedBy s f c.channel).2 ∧
      (s'.members g).engine.delayCleanKeyList = (s.members g).engine.delayCleanKeyList ∧
      ∀ slot m', m' ≠ m → s'.kv.lookup (keyAt slot c.channel m') =
        if keyAt slot c.channel m' ∈ (cleanedBy s f c.channel).1 then none
        else s.kv.lookup (keyAt slot c.channel m') := by
  have hne : f ≠ g := by omega
  have hf : f < 2 := by omega
  have hg : g < 2 := by omega
  have hmember : ∀ i, i < 2 → s.members i = ⟨(s.members i).engine, none⟩ := fun i hi => by
    rw [← h.idle i hi]
  obtain ⟨out, kv', htrace, hcounts, hlookup⟩ := trace_round hc hne hf hg (hmember f hf)
    (hmember g hg) (h.groupSize f hf) (h.groupSize g hg) ((h.addKey hg).trans (h.addKey hf).symm)
    ((h.waitKey hg).trans (h.waitKey hf).symm) (by rwa [h.addKey hf, hm])
    (by rwa [h.addKey hf, hm])
  have hcleaned : cleaned ((s.members f).engine.nextSn c.channel) c.channel true =
      cleanedBy s f c.channel := rfl
  rw [h.addKey hf, h.waitKey hf, hm, input_eq hc, input_eq hc (s.members g).engine.rank,
    hcleaned] at hlookup
  set s' := (s.put kv' g ⟨(s.members g).engine.after c.channel
    (s.members g).engine.delayCleanKeyList, none⟩).put kv' f
      ⟨(s.members f).engine.after c.channel (cleanedBy s f c.channel).2, none⟩ with hs'
  -- both members have gone through the call
  have hafter : ∀ i, i < 2 → ∃ keys, s'.members i =
      ⟨(s.members i).engine.after c.channel keys, none⟩ := by
    intro i hi
    rcases (by omega : i = f ∨ i = g) with rfl | rfl
    · exact ⟨_, by rw [members_put, if_pos rfl]⟩
    · exact ⟨_, by rw [members_put, if_neg hne.symm, members_put, if_pos rfl]⟩
  have hcounts' : ∀ i, i < 2 → (calls c.channel i out).length = 1 ∧
      (results c.channel i out).length = 1 := fun i hi => hcounts i (by omega)
  have hother : ∀ slot slot' m', m' ≠ m → keyAt slot c.channel m' ≠ keyAt slot' c.channel m :=
    fun _ _ _ hm' heq => hm' (keyAt_inj heq).2.2
  have hkv' : ∀ slot, s'.kv.lookup (keyAt slot c.channel 1) =
      if m = 1 then some (match slot with
        | .add => encode c.channel [c.input 0, c.input 0]
        | .wait => groupSetStr)
      else s.kv.lookup (keyAt slot c.channel 1) := by
    intro slot
    change kv'.lookup _ = _
    rw [hlookup]
    by_cases h1 : m = 1
    · subst h1
      cases slot with
      | add => rw [if_neg (keyAt_wait_ne_add _ _ _ _).symm, if_pos rfl, if_pos rfl]
      | wait => rw [if_pos rfl, if_pos rfl]
    · have h1' := Ne.symm h1
      rw [if_neg (hother _ _ _ h1'), if_neg (hother _ _ _ h1'), if_neg (hfirst slot), if_neg h1]
  refine ⟨out, s', htrace, ?_, ?_, ?_, fun slot m' hm' => ?_⟩
  · constructor
    case idle =>
      intro i hi
      obtain ⟨keys, hi'⟩ := hafter i hi
      rw [hi']
    case groupSize =>
      intro i hi
      obtain ⟨keys, hi'⟩ := hafter i hi
      rw [hi']
      exact (after_eq _ _ _).2.1.trans (h.groupSize i hi)
    case groupVersion =>
      intro i hi
      obtain ⟨keys, hi'⟩ := hafter i hi
      rw [hi']
      exact (after_eq _ _ _).2.2.1.trans (h.groupVersion i hi)
    case sn =>
      intro i hi
      obtain ⟨keys, hi'⟩ := hafter i hi
      rw [hi', sn_after, if_pos rfl, h.sn i hi, UInt32.ofNat_add]
      rfl
    case called =>
      intro i hi
      rw [calls_append, List.length_append, h.called i hi, (hcounts' i hi).1]
    case returned =>
      intro i hi
      rw [results_append, List.length_append, h.returned i hi, (hcounts' i hi).2]
    case add =>
      intro _
      rw [hkv']
      by_cases h1 : m = 1
      · rw [if_pos h1]
      · rw [if_neg h1]
        exact h.add (by omega)
    case wait =>
      intro _
      rw [hkv']
      by_cases h1 : m = 1
      · rw [if_pos h1]
      · rw [if_neg h1]
        exact h.wait (by omega)
  · rw [members_put, if_pos rfl]
    exact (after_eq _ _ _).2.2.2
  · rw [members_put, if_neg hne.symm, members_put, if_pos rfl]
    exact (after_eq _ _ _).2.2.2
  · change kv'.lookup _ = _
    rw [hlookup, if_neg (hother _ _ _ hm'), if_neg (hother _ _ _ hm')]

/-- The keys of the calls to come are free, and those of the first call are not in the list
of member 0. -/
structure Growing (c : Call) (k : Nat) (l : List Bytes) (log : List Event) (s : System) : Prop
    extends Resting c k log s where
  fresh : ∀ slot m, m = 0 ∨ k < m → s.kv.lookup (keyAt slot c.channel m) = none
  queue₀ : ∀ key ∈ (s.members 0).engine.delayCleanKeyList,
    ∃ slot m, key = keyAt slot c.channel m ∧ 2 ≤ m ∧ m ≤ k
  queue₁ : (s.members 1).engine.delayCleanKeyList = l

theorem growing_start (c : Call) (rank : Nat → UInt32) :
    Growing c 0 [] [] (System.start 2 rank) where
  idle _ _ := rfl
  groupSize _ _ := rfl
  groupVersion _ _ := rfl
  sn _ _ := by cases c.channel <;> rfl
  called _ _ := rfl
  returned _ _ := rfl
  add h := by cases h
  wait h := by cases h
  fresh _ _ _ := rfl
  queue₀ _ h := by cases h
  queue₁ := rfl

theorem toNat_ofNat_succ (hk : k + 1 < 2 ^ 32) :
    (UInt32.ofNat k).toNat = k ∧ (UInt32.ofNat k + 1).toNat = k + 1 := by
  have hof : (UInt32.ofNat k).toNat = k := by
    exact Nat.mod_eq_of_lt (by omega)
  rw [UInt32.toNat_add, hof]
  exact ⟨rfl, Nat.mod_eq_of_lt hk⟩

theorem Growing.next (h : Growing c k l log s) (hc : Uniform c)
    (hk : k + 1 < 2 ^ 32) (hk2 : k ≠ 2) :
    ∃ out s', Trace step (Repeats 2 c) s out s' ∧ Growing c (k + 1) l (log ++ out) s' := by
  obtain ⟨hof, hm⟩ := toNat_ofNat_succ hk
  have hqueue : ∀ key, key ∈ (cleanedBy s 0 c.channel).1 ∨ key ∈ (cleanedBy s 0 c.channel).2 →
      ∃ slot m, key = keyAt slot c.channel m ∧ 2 ≤ m ∧ m ≤ k := by
    intro key hkey
    rcases mem_cleaned hkey with hmem | ⟨hsn, hold⟩
    · rw [delayCleanKeyList_nextSn] at hmem
      exact h.queue₀ key hmem
    · have hsn0 : ((s.members 0).engine.sn c.channel).toNat = k := by
        rw [h.sn 0 (by omega), hof]
      obtain ⟨slot, hkey, hle⟩ := oldKey_nextSn (h.groupVersion 0 (by omega))
        (by rw [hsn0]; exact hk) hsn hold
      rw [hsn0] at hkey hle
      exact ⟨slot, k - 1, hkey, by omega, by omega⟩
  have hnot : ∀ slot m, m < 2 ∨ k < m → keyAt slot c.channel m ∉ (cleanedBy s 0 c.channel).1 := by
    intro slot m hm hmem
    obtain ⟨slot', m', hkey, hle⟩ := hqueue _ (.inl hmem)
    obtain ⟨-, -, rfl⟩ := keyAt_inj hkey
    omega
  obtain ⟨out, s', htrace, hrest, hlist0, hlist1, hlookup⟩ := h.toResting.round hc
    (.inl ⟨rfl, rfl⟩) hm (h.fresh .add _ (.inr (Nat.lt_succ_self k)))
    (hnot .add _ (.inr (Nat.lt_succ_self k))) (by omega) fun slot => hnot slot 1 (.inl (by omega))
  refine ⟨out, s', htrace, ?_⟩
  exact
    { toResting := hrest
      fresh := fun slot m' hm' => by
        rw [hlookup slot m' (by omega), if_neg (hnot slot m' (by omega))]
        exact h.fresh slot m' (by omega)
      queue₀ := fun key hkey => by
        rw [hlist0] at hkey
        obtain ⟨slot, m', hkey, hle, hge⟩ := hqueue key (.inr hkey)
        exact ⟨slot, m', hkey, hle, by omega⟩
      queue₁ := hlist1.trans h.queue₁ }

/-- Member 1 comes first to the third call, and queues the keys of the first one. -/
theorem Growing.third (h : Growing c 2 [] log s) (hc : Uniform c) :
    ∃ out s', Trace step (Repeats 2 c) s out s' ∧
      Growing c 3 [keyAt .add c.channel 1, keyAt .wait c.channel 1] (log ++ out) s' := by
  have hcleaned : cleanedBy s 1 c.channel =
      ([], [keyAt .add c.channel 1, keyAt .wait c.channel 1]) := by
    have hsn : ((s.members 1).engine.nextSn c.channel).sn c.channel = 3 := by
      rw [sn_nextSn, if_pos rfl, h.sn 1 (by omega)]
      rfl
    have hstart : ((s.members 1).engine.nextSn c.channel).keyStart = decimal 0 ++ ascii "_" := by
      rw [keyStart_nextSn, Engine.keyStart, h.groupVersion 1 (by omega)]
    have hadd : oldAddKey ((s.members 1).engine.nextSn c.channel) c.channel =
        keyAt .add c.channel 1 := by
      rw [oldAddKey, hsn, hstart]
      rfl
    have hwait : oldWaitKey ((s.members 1).engine.nextSn c.channel) c.channel =
        keyAt .wait c.channel 1 := by
      rw [oldWaitKey, hsn, hstart]
      rfl
    rw [cleanedBy, cleaned, if_pos ⟨rfl, by rw [hsn]; decide⟩, delayCleanKeyList_nextSn, h.queue₁,
      hadd, hwait]
    rfl
  obtain ⟨out, s', htrace, hrest, hlist1, hlist0, hlookup⟩ := h.toResting.round hc
    (.inr ⟨rfl, rfl⟩) (m := 3) rfl (h.fresh .add _ (.inr (by omega))) (by rw [hcleaned]; simp)
    (by omega) fun slot => by rw [hcleaned]; simp
  refine ⟨out, s', htrace, ?_⟩
  exact
    { toResting := hrest
      fresh := fun slot m' hm' => by
        rw [hlookup slot m' (by omega), hcleaned]
        exact h.fresh slot m' (by omega)
      queue₀ := fun key hkey => by
        rw [hlist0] at hkey
        obtain ⟨slot, m', hkey, hle, hge⟩ := h.queue₀ key hkey
        exact ⟨slot, m', hkey, hle, by omega⟩
      queue₁ := by rw [hlist1, hcleaned] }

theorem exists_growing (hc : Uniform c) (rank : Nat → UInt32) (k : Nat) (hk : 3 + k < 2 ^ 32) :
    ∃ log s, Trace step (Repeats 2 c) (System.start 2 rank) log s ∧
      Growing c (3 + k) [keyAt .add c.channel 1, keyAt .wait c.channel 1] log s := by
  induction k with
  | zero =>
    obtain ⟨out1, s1, htrace1, h₁⟩ := (growing_start c rank).next hc (by omega) (by omega)
    obtain ⟨out2, s2, htrace2, h2⟩ := h₁.next hc (by omega) (by omega)
    obtain ⟨out3, s3, htrace3, h3⟩ := h2.third hc
    exact ⟨_, s3, (htrace1.trans htrace2).trans htrace3, h3⟩
  | succ k ih =>
    obtain ⟨log, s, htrace, h⟩ := ih (by omega)
    obtain ⟨out, s', htrace', h'⟩ := h.next hc (by omega) (by omega)
    exact ⟨_, s', htrace.trans htrace', h'⟩

/-- After `2 ^ 32` calls the counters are back at 0. -/
theorem exists_wrapped (hc : Uniform c) (rank : Nat → UInt32) :
    ∃ log s, Trace step (Repeats 2 c) (System.start 2 rank) log s ∧ Resting c (2 ^ 32) log s := by
  obtain ⟨log, s, htrace, h⟩ := exists_growing hc rank (2 ^ 32 - 4) (by omega)
  have hcleaned : (cleanedBy s 0 c.channel).1 = [] := by
    have hsn : ((s.members 0).engine.nextSn c.channel).sn c.channel = 0 := by
      rw [sn_nextSn, if_pos rfl, h.sn 0 (by omega)]
      rfl
    rw [cleanedBy, cleaned, if_neg (by rw [hsn]; decide)]
  obtain ⟨out, s', htrace', hrest, -⟩ := h.toResting.round hc (.inl ⟨rfl, rfl⟩) (m := 0) rfl
    (h.fresh .add _ (.inl rfl)) (by rw [hcleaned]; simp) (by omega)
    fun slot => by rw [hcleaned]; simp
  exact ⟨_, s', htrace.trans htrace', hrest⟩

/-- One more call of member 0: it finds the keys of the first call and passes alone. -/
theorem Resting.passes_alone (h : Resting c (2 ^ 32) log s) (hc : Uniform c) :
    ∃ out kv' e keys, Trace step (Repeats 2 c) s (.called 0 c :: out)
        (s.put kv' 0 ⟨e, some (c, c.reading e keys)⟩) ∧ Silent out ∧ e.groupSize = 2 ∧
      kv'.lookup ((e.nextSn c.channel).addKey c.channel) =
        some (encode c.channel [c.input 0, c.input 0, c.input 0]) := by
  set e := (s.members 0).engine with he
  have hadd : (e.nextSn c.channel).addKey c.channel = keyAt .add c.channel 1 :=
    h.addKey (by omega)
  have hwait : (e.nextSn c.channel).waitKey c.channel = keyAt .wait c.channel 1 :=
    h.waitKey (by omega)
  have hsize := h.groupSize 0 (by omega)
  have hmember : s.members 0 = ⟨e, none⟩ := by rw [← h.idle 0 (by omega)]
  have hfits : c.Fits e.groupSize.toNat := by rcases hc with rfl | rfl <;> trivial
  obtain ⟨act, henter⟩ := trace_enter (n := 2) (l := [c.input 0, c.input 0]) hmember (by omega)
    hfits (by rw [hadd]; exact h.add (by omega)) (by simp [length_input]) (by simp)
  have hphase : arrivedPhase e c.channel [c.input 0, c.input 0] =
      .settling [] false e.delayCleanKeyList := by
    simp [arrivedPhase, cleaned, hsize, he, delayCleanKeyList_nextSn]
  rw [hphase, input_eq hc e.rank] at henter
  set kv' := s.kv.insert ((e.nextSn c.channel).addKey c.channel)
    (encode c.channel ([c.input 0, c.input 0] ++ [c.input 0])) with hkv'
  have hpass := trace_pass (n := 2) s 0 e e.delayCleanKeyList (show kv'.lookup _ = _ by
    rw [Table.lookup_insert_eq, hadd, hwait, if_neg (keyAt_wait_ne_add _ _ _ _)]
    exact h.wait (by omega))
  exact ⟨_, kv', e, _, henter.trans hpass, (silent_nil.cons _ _).cons _ _, hsize,
    AList.lookup_insert _⟩

end MemFabric.Smem.Collective
