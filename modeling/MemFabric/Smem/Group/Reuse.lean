import MemFabric.Smem.Group.Exclusion

/-!
# Numbers are used again

After an error the loops go on with the value of the attempt before, unless they have
read another content.  `AllocNumber` then marks the number of the failed attempt too,
if the key is still absent; `ReleaseNumber` finds its bit cleared already and reports
success without having cleared it in the store.  Such numbers are never free again.
Where no error of these two kinds happens, every marked number is held by an engine or is
being released.
-/

namespace MemFabric.Smem.Group.Numbers

open Function Machine Wire Option List

/-- No error of `AllocNumber` before the key is there, and none of `ReleaseNumber` with
nothing read in `now`. -/
def Harmless (s : Numbers) : Input → Prop
  | .cas thread true =>
    match s.calls thread with
    | some (_, .alloc ..) => s.cell ≠ none
    | some (_, .release _ _ _ now) => now ≠ []
    | none => True
  | _ => True

def Call.Reads : Call → Prop
  | .alloc .. => True
  | .release val expect _ now =>
    (expect ≠ [] → testBit expect val = true) ∧ (now ≠ [] → testBit now val = true)

/-- What an allocation is about to store has the bit of its number alone. -/
def Call.Single : Call → Prop
  | .alloc _ value _ num => ∀ n, testBit value n = decide (num = n)
  | .release .. => True

structure Tight (s : Numbers) : Prop where
  owned : ∀ n, s.marked n = true → ∃ o, s.owns o n
  single : s.cell = none → ∀ t e c, s.calls t = some (e, c) → c.Single
  reads : ∀ t e c, s.calls t = some (e, c) → c.Reads

def Free (s : Numbers) (n : Nat) : Prop :=
  n < allocNumSize ∧ ∃ b, s.cell = some b ∧ testBit b n = false

theorem tight_start : Tight {} where
  owned := by simp [marked]
  single := by simp
  reads := by simp

section Steps

variable {s : Numbers} {thread engine : Nat}

variable {call : Option Call} {o : Owner} {n t e num val : Nat} {c : Call}
  {expect value now value' : Bytes}

theorem Tight.goOn (h : Tight s) (ended : Output)
    (howns : ∀ n, s.owns (.thread thread) n → call.bind Call.releases = some n)
    (hsingle : s.cell = none → ∀ c, call = some c → c.Single)
    (hreads : ∀ c, call = some c → c.Reads) : Tight (s.goOn thread engine call ended).1 := by
  refine ⟨?_, ?_, ?_⟩
  · intro n hn
    rw [marked, goOn_eq] at hn
    obtain ⟨o, ho⟩ := h.owned n hn
    refine ⟨o, owns_goOn.mpr ?_⟩
    by_cases hthread : o = .thread thread
    · subst hthread
      exact .inl ⟨rfl, howns n ho⟩
    · exact .inr ⟨hthread, ho⟩
  · intro hcell t e c hc
    rw [goOn_eq] at hcell
    rcases calls_goOn hc with hc | hc
    · exact hsingle hcell c hc
    · exact h.single hcell t e c hc
  · intro t e c hc
    rcases calls_goOn hc with hc | hc
    · exact hreads c hc
    · exact h.reads t e c hc

theorem allocLoop_reads (h : allocLoop expect value now = some c) : c.Reads := by
  unfold allocLoop at h
  obtain ⟨i, -, rfl⟩ := map_eq_some_iff.mp h
  trivial

theorem not_owns_of_alloc (hcall : s.calls thread = some (engine, .alloc expect value now num)) :
    ¬ s.owns (.thread thread) n := by
  rw [owns, releasing, hcall]
  intro h
  cases h

theorem allocLoop_single (h : allocLoop [] zeros [] = some c) : c.Single := by
  unfold allocLoop at h
  obtain ⟨i, hi, rfl⟩ := map_eq_some_iff.mp h
  have hlt : i < allocNumSize := mem_range.mp (mem_of_find?_eq_some hi)
  intro n
  rw [refresh_nil, testBit_toggle (by rw [length_zeros]; exact div_lt_bufLen hlt), testBit_zeros,
    Bool.false_xor]

theorem Tight.goOn_alloc (h : Tight s) {now' : Bytes}
    (hcall : s.calls thread = some (engine, .alloc expect value now num)) (hcell : s.cell ≠ none)
    (ended : Output) : Tight (s.goOn thread engine (allocLoop expect value' now') ended).1 :=
  h.goOn ended (fun _ ho => absurd ho (not_owns_of_alloc hcall))
    (fun hnone => absurd hnone hcell) fun _ hc => allocLoop_reads hc

theorem Tight.goOn_release (h : Tight s) {read : Bytes}
    (hcall : s.calls thread = some (engine, .release val expect value now)) (hcell : s.cell ≠ none)
    (hne : read ≠ []) (hread : testBit read val = true) (ended : Output) :
    Tight (s.goOn thread engine (releaseLoop val expect value read) ended).1 ∧
      (s.goOn thread engine (releaseLoop val expect value read) ended).2 = [] := by
  have hloop : releaseLoop val expect value read =
      some (.release val read (toggle read val) expect) := by
    unfold releaseLoop
    dsimp only
    rw [refresh_of_ne hne, if_pos hread]
  rw [hloop]
  refine ⟨h.goOn ended ?_ (fun hnone => absurd hnone hcell) ?_, rfl⟩
  · intro n ho
    rw [owns, releasing, hcall] at ho
    exact ho
  · intro c hc
    rw [← some.inj hc]
    exact ⟨fun _ => hread, (h.reads _ _ _ hcall).1⟩

theorem Tight.reads_ended (h : Tight s)
    (hc : update s.calls thread none t = some (e, c)) : c.Reads := by
  rcases calls_update hc with hc | hc
  · cases hc
  · exact h.reads t e c hc

theorem Tight.allocated (h : Tight s) (hinv : Inv s)
    (hcall : s.calls thread = some (engine, .alloc expect value now num))
    (hmatch : mismatch s.cell expect = none) : Tight (s.allotted thread engine num value) := by
  refine ⟨fun n hn => ?_, (fun hnone => by cases hnone), fun t e c hc => h.reads_ended hc⟩
  change testBit value n = true at hn
  by_cases hnum : num = n
  · subst hnum
    refine ⟨.engine engine, ?_⟩
    simp [owns, allotted]
  · -- the bit was set before
    have hold : s.marked n = true := by
      obtain ⟨-, -, hlt, -, hexpect⟩ := hinv.ok _ _ _ hcall
      cases hcell : s.cell with
      | none =>
        rw [h.single hcell _ _ _ hcall n] at hn
        exact absurd (of_decide_eq_true hn) hnum
      | some b =>
        rw [hinv.swapped hcell hmatch hlt fun hne => (hexpect hne).2.2] at hn
        exact marked_iff.mpr ⟨b, hcell, by simpa [hnum] using hn⟩
    obtain ⟨o, ho⟩ := h.owned n hold
    refine ⟨o, owns_allotted.mpr (.inr ⟨?_, ho⟩)⟩
    rintro rfl
    exact not_owns_of_alloc hcall ho

theorem Inv.testBit_released (hinv : Inv s)
    (hcall : s.calls thread = some (engine, .release val expect value now))
    (hmatch : mismatch s.cell expect = none) (n : Nat) :
    testBit value n = (s.marked n && decide (val ≠ n)) := by
  obtain ⟨-, -, hexpect⟩ := hinv.ok _ _ _ hcall
  obtain ⟨hval, hmarked⟩ := hinv.marked _ _ (Inv.owns_releasing hcall)
  obtain ⟨b, hb, hset⟩ := marked_iff.mp hmarked
  have hold : s.marked n = testBit b n := by
    rw [Numbers.marked, hb, any_some]
  rw [hinv.swapped hb hmatch hval fun hne => (hexpect hne).2, hold]
  by_cases hn : val = n
  · subst hn
    simp [hset]
  · simp [hn]

section

variable (h : Tight s) (hinv : Inv s)

include h hinv

theorem Tight.released (hcall : s.calls thread = some (engine, .release val expect value now))
    (hmatch : mismatch s.cell expect = none) :
    Tight { s with cell := some value, calls := update s.calls thread none } := by
  refine ⟨fun n hn => ?_, (fun hnone => by cases hnone), fun t e c hc => h.reads_ended hc⟩
  change testBit value n = true at hn
  rw [hinv.testBit_released hcall hmatch, Bool.and_eq_true, decide_eq_true_eq] at hn
  obtain ⟨o, ho⟩ := h.owned n hn.1
  refine ⟨o, owns_swapped.mpr ⟨?_, ho⟩⟩
  rintro rfl
  rw [owns, releasing, hcall] at ho
  exact hn.2 (some.inj ho)

theorem Tight.beginRelease (hidle : s.calls thread = none) (hmem : val ∈ s.allocedSet engine) :
    Tight (s.beginRelease thread engine val).1 ∧ (s.beginRelease thread engine val).2 = [] := by
  obtain ⟨hval, hmarked⟩ := hinv.marked (.engine engine) val hmem
  obtain ⟨b, hb, -⟩ := marked_iff.mp hmarked
  have howned : ∀ n, s.marked n = true → ∃ o, (s.beginRelease thread engine val).1.owns o n := by
    intro n hn
    obtain ⟨o, ho⟩ := h.owned n hn
    by_cases hval' : n = val
    · exact ⟨.thread thread, (owns_beginRelease hval).mpr (.inl ⟨rfl, hval'⟩)⟩
    · refine ⟨o, (owns_beginRelease hval).mpr (.inr ⟨?_, fun hn => absurd hn hval', ho⟩)⟩
      rintro rfl
      rw [owns, releasing, hidle] at ho
      cases ho
  rw [beginRelease_eq thread engine hval] at howned ⊢
  refine ⟨⟨howned, ?_, ?_⟩, rfl⟩
  · intro hnone
    rw [hb] at hnone
    cases hnone
  · intro t e c hc
    rcases calls_update hc with hc | hc
    · rw [some.injEq, Prod.mk.injEq] at hc
      rw [← hc.2]
      exact ⟨fun hne => absurd rfl hne, fun hne => absurd rfl hne⟩
    · exact h.reads t e c hc

/-- After a harmless step every mark has an owner, and a number whose release has ended is
free. -/
theorem Tight.cas {fails : Bool} (hi : s.Harmless (.cas thread fails)) :
    Tight (s.cas thread fails).1 ∧
      ∀ e n, .released e n ∈ (s.cas thread fails).2 → (s.cas thread fails).1.Free n := by
  unfold Numbers.cas
  split
  · exact ⟨h, by simp⟩
  · next engine expect value now num hcall =>
    split_ifs with hfails
    · subst hfails
      rw [Harmless, hcall] at hi
      exact ⟨h.goOn_alloc hcall hi _, fun e n ho => by cases mem_goOn ho⟩
    · split
      · next old hold =>
        have hcell : s.cell ≠ none := by simp [(mismatch_eq_some hold).1]
        exact ⟨h.goOn_alloc hcall hcell _, fun e n ho => by cases mem_goOn ho⟩
      · next hmatch =>
        exact ⟨h.allocated hinv hcall hmatch, fun e n ho => by cases mem_singleton.mp ho⟩
  · next engine val expect value now hcall =>
    obtain ⟨hval, hmarked⟩ := hinv.marked _ _ (Inv.owns_releasing hcall)
    obtain ⟨b, hb, hset⟩ := marked_iff.mp hmarked
    have hcell : s.cell ≠ none := by simp [hb]
    split_ifs with hfails
    · subst hfails
      rw [Harmless, hcall] at hi
      have hread := (h.reads _ _ _ hcall).2 hi
      obtain ⟨htight, hout⟩ := h.goOn_release hcall hcell hi hread (.released engine val)
      exact ⟨htight, by simp [hout]⟩
    · split
      · next old hold =>
        obtain rfl := some.inj (hb.symm.trans (mismatch_eq_some hold).1)
        obtain ⟨htight, hout⟩ :=
          h.goOn_release hcall hcell (hinv.ne_nil hb) hset (.released engine val)
        exact ⟨htight, by simp [hout]⟩
      · next hmatch =>
        refine ⟨h.released hinv hcall hmatch, fun e n ho => ?_⟩
        obtain ⟨-, rfl⟩ := Output.released.inj (mem_singleton.mp ho)
        refine ⟨hval, value, rfl, ?_⟩
        rw [hinv.testBit_released hcall hmatch]
        simp

theorem Tight.step {i : Input} (hi : s.Harmless i) :
    Tight (step s i).1 ∧
      ∀ e n, .released e n ∈ (Numbers.step s i).2 → (Numbers.step s i).1.Free n := by
  cases i with
  | allocNumber thread engine =>
    unfold Numbers.step
    dsimp only
    split_ifs with hidle
    · refine ⟨h.goOn _ (fun n ho => ?_) (fun _ c hc => allocLoop_single hc)
        fun c hc => allocLoop_reads hc, fun e n ho => by cases mem_goOn ho⟩
      rw [owns, releasing, hidle] at ho
      cases ho
    · exact ⟨h, by simp⟩
  | releaseNumber thread engine val =>
    unfold Numbers.step
    dsimp only
    split_ifs with hidle
    · split
      · split_ifs with hmem
        · obtain ⟨htight, hout⟩ := h.beginRelease hinv hidle hmem
          exact ⟨htight, by simp [hout]⟩
        · exact ⟨h, by simp⟩
      · exact ⟨h, by simp⟩
    · exact ⟨h, by simp⟩
  | cas thread fails => exact h.cas hinv hi

end

end Steps

variable {s : Numbers} {thread : Nat}

theorem tight_of_reachable (h : Reachable step Harmless {} s) : Inv s ∧ Tight s :=
  h.invariant (P := fun s => Inv s ∧ Tight s) ⟨inv_start, tight_start⟩
    fun _ i hs hi => ⟨hs.1.step i, (hs.2.step hs.1 hi).1⟩

/-! ## Allocating a free number -/

section

variable {s : Numbers} {thread : Nat}

variable {i engine num : Nat} {expect value now b : Bytes}

theorem allocLoop_eq (expect value now : Bytes) (hi : i < allocNumSize)
    (hlow : ∀ j < i, testBit (refresh now value) j = true)
    (hfree : testBit (refresh now value) i = false) :
    allocLoop expect value now = some (.alloc now (toggle (refresh now value) i) expect i) := by
  have hfind : ((range allocNumSize).find? fun i => !testBit (refresh now value) i) =
      some i := by
    rw [find?_range_eq_some]
    exact ⟨by simp [hfree], mem_range.mpr hi, fun j hj => by simp [hlow j hj]⟩
  unfold allocLoop
  dsimp only
  rw [hfind, map_some]

theorem allocLoop_first : allocLoop [] zeros [] = some (.alloc [] (toggle zeros 0) [] 0) := by
  have hloop := allocLoop_eq [] zeros [] (Nat.zero_lt_succ _)
    (fun j hj => absurd hj (Nat.not_lt_zero j)) (by rw [refresh_nil, testBit_zeros])
  rwa [refresh_nil] at hloop

section

variable (hcall : s.calls thread = some (engine, .alloc expect value now num))

include hcall

theorem cas_reads {old : Bytes} (hold : mismatch s.cell expect = some old) :
    s.cas thread false = s.goOn thread engine (allocLoop expect value old) (.noNumber engine) := by
  unfold cas
  rw [hcall]
  dsimp only
  rw [hold, if_neg (by simp)]

theorem cas_allocates (hmatch : mismatch s.cell expect = none) :
    s.cas thread false = (s.allotted thread engine num value, [.allocated engine num]) := by
  unfold cas allotted
  rw [hcall]
  dsimp only
  rw [hmatch, if_neg (by simp)]

end

section

variable (h : Inv s) (hidle : s.calls thread = none) (engine : Nat) (hb : s.cell = some b)

include h hidle hb

/-- One call that no other call gets in the way of takes the first free number. -/
theorem alloc_once
    (hi : i < allocNumSize) (hlow : ∀ j < i, testBit b j = true) (hfree : testBit b i = false) :
    ∃ l s', AllAllowed step Harmless s l ∧ run step s l = (s', [.allocated engine i]) ∧
      Inv s' ∧ s'.calls thread = none ∧ s'.cell = some (toggle b i) := by
  have hne := h.ne_nil hb
  have hloop : allocLoop [] (toggle zeros 0) b = some (.alloc b (toggle b i) [] i) := by
    have hloop := allocLoop_eq [] (toggle zeros 0) b hi (by rwa [refresh_of_ne hne])
      (by rwa [refresh_of_ne hne])
    rwa [refresh_of_ne hne] at hloop
  -- the first attempt expects nothing and reads the content, the second one succeeds
  let s1 : Numbers := { s with
    calls := update s.calls thread (some (engine, .alloc [] (toggle zeros 0) [] 0)) }
  let s2 : Numbers := { s1 with
    calls := update s1.calls thread (some (engine, .alloc b (toggle b i) [] i)) }
  have h1 : step s (.allocNumber thread engine) = (s1, []) := by
    rw [step, if_pos hidle, allocLoop_first]
    rfl
  have h2 : step s1 (.cas thread false) = (s2, []) := by
    have hold : mismatch s1.cell [] = some b := by
      rw [hb, mismatch, filter_some, if_pos (by simpa using hne)]
    rw [step, cas_reads (update_self ..) hold, hloop]
    rfl
  have hmatch : mismatch s2.cell b = none := by
    rw [hb, mismatch, filter_some, if_neg (by simp)]
  have h3 : step s2 (.cas thread false) = _ := cas_allocates (update_self ..) hmatch
  have hinv1 := h.step (.allocNumber thread engine)
  rw [h1] at hinv1
  have hinv2 := hinv1.step (.cas thread false)
  rw [h2] at hinv2
  refine ⟨[.allocNumber thread engine, .cas thread false, .cas thread false],
    (step s2 (.cas thread false)).1, ⟨trivial, trivial, trivial, trivial⟩, ?_,
    hinv2.step _, ?_, ?_⟩
  · simp only [run, h1, h2, h3]
    rfl
  · rw [h3]
    exact update_self ..
  · rw [h3]
    rfl

/-- Any free number can be had, by allocating often enough. -/
theorem alloc_again {n : Nat} (hn : n < allocNumSize) (hfree : testBit b n = false) (k : Nat)
    (hlow : ∀ j, j + k < n → testBit b j = true) :
    ∃ l, AllAllowed step Harmless s l ∧ .allocated engine n ∈ (run step s l).2 := by
  -- the numbers below `n - k` are taken
  induction k generalizing s b with
  | zero =>
    obtain ⟨l, s', hl, hrun, -⟩ := alloc_once h hidle engine hb hn hlow hfree
    exact ⟨l, hl, by simp [hrun]⟩
  | succ k ih =>
    by_cases hk : n ≤ k
    · exact ih h hidle hb hfree fun j hj => absurd hj (by omega)
    obtain ⟨i, rfl⟩ : ∃ i, n = i + (k + 1) := ⟨n - (k + 1), by omega⟩
    by_cases hi : testBit b i = true
    · refine ih h hidle hb hfree fun j hj => ?_
      rcases Nat.lt_or_ge j i with hlt | hge
      · exact hlow j (by omega)
      · obtain rfl : j = i := by omega
        exact hi
    · rw [Bool.not_eq_true] at hi
      obtain ⟨l, s', hl, hrun, hinv', hidle', hb'⟩ := alloc_once h hidle engine hb
        (by omega) (fun j hj => hlow j (by omega)) hi
      have hbit : ∀ j, testBit (toggle b i) j = (testBit b j ^^ decide (i = j)) :=
        testBit_toggle (by rw [h.size b hb]; exact div_lt_bufLen (by omega))
      obtain ⟨l', hl', hmem⟩ := ih hinv' hidle' hb' (by rw [hbit, hfree]; simp) fun j hj => by
        rw [hbit]
        rcases Nat.lt_or_ge j i with hlt | hge
        · simp [hlow j (by omega), Nat.ne_of_gt hlt]
        · obtain rfl : j = i := by omega
          simp [hi]
      refine ⟨l ++ l', hl.append (by rwa [hrun]), ?_⟩
      rw [run_append, hrun]
      exact mem_append_right _ hmem

end

end

/-- Without harmful errors nothing leaks: when no call is under way, every marked number is
held by an engine, and a number that has been released can be allocated again. -/
theorem numbers_reused {s : Numbers} (h : Reachable step Harmless {} s) :
    ((∀ t, s.calls t = none) → ∀ n, s.marked n = true → ∃ e, n ∈ s.allocedSet e) ∧
      ∀ i, s.Harmless i → ∀ e n, .released e n ∈ (step s i).2 →
        (step s i).1.marked n = false ∧
        ∀ thread engine, (step s i).1.calls thread = none →
          ∃ l, AllAllowed step Harmless (step s i).1 l ∧
            .allocated engine n ∈ (run step (step s i).1 l).2 := by
  obtain ⟨hinv, htight⟩ := tight_of_reachable h
  constructor
  · intro hidle n hn
    obtain ⟨o, ho⟩ := htight.owned n hn
    cases o with
    | engine e => exact ⟨e, ho⟩
    | thread t =>
      rw [owns, releasing, hidle t] at ho
      cases ho
  · intro i hi e n ho
    obtain ⟨hlt, b, hb, hfree⟩ := (htight.step hinv hi).2 e n ho
    refine ⟨by simp [marked, hb, hfree], fun thread engine hidle => ?_⟩
    exact alloc_again (hinv.step i) hidle engine hb hlt hfree n fun j hj => absurd hj (by omega)

/-! ### One number, given back with and without an error -/

theorem update_idle {calls : Nat → Option (Nat × Call)} (h : calls thread = none)
    (c : Option (Nat × Call)) :
    update (update calls thread c) thread none = calls := by
  rw [update_idem, ← h, update_eq_self]

theorem alloc_first (thread engine : Nat) :
    run step {} [.allocNumber thread engine, .cas thread false] =
      ({ cell := some (toggle zeros 0)
         allocedSet := update (fun _ => ∅) engine {0} }, [.allocated engine 0]) := by
  let s1 : Numbers :=
    { calls := update (fun _ => none) thread
        (some (engine, .alloc [] (toggle zeros 0) [] 0)) }
  have hbegin : step {} (.allocNumber thread engine) = (s1, []) := by
    rw [step, allocLoop_first]
    rfl
  have hcall : s1.calls thread = some (engine, .alloc [] (toggle zeros 0) [] 0) := by simp [s1]
  have hcas : step s1 (.cas thread false) = _ := cas_allocates hcall rfl
  simp only [run, hbegin, hcas, s1, allotted]
  simp

/-- An error of the first `Cas` of `ReleaseNumber`: the engine has given the number up, and
the store is as before. -/
theorem release_fails {engine val : Nat} (h : Inv s) (hidle : s.calls thread = none)
    (hmem : val ∈ s.allocedSet engine) :
    run step s [.releaseNumber thread engine val, .cas thread true] =
      ({ s with allocedSet :=
          update s.allocedSet engine ((s.allocedSet engine).erase val) },
        [.released engine val]) := by
  have hval := (h.marked (.engine engine) val hmem).1
  have hbegin : step s (.releaseNumber thread engine val) = s.beginRelease thread engine val := by
    change (if s.calls thread = none then _ else _) = _
    rw [if_pos hidle]
    exact if_pos hmem
  have hcleared : releaseLoop val [] (toggle (toggle zeros val) val) [] = none := by
    have hlen : val / 8 < zeros.length := by
      rw [length_zeros]
      exact div_lt_bufLen hval
    unfold releaseLoop
    dsimp only
    rw [refresh_nil, testBit_toggle (by rwa [length_toggle]), testBit_toggle hlen, testBit_zeros]
    simp
  simp only [run, hbegin, beginRelease_eq thread engine hval]
  simp only [step, cas, update_self, hcleared, goOn, update_idle hidle]
  rfl

def oneNumber : Numbers :=
  { cell := some (toggle zeros 0), allocedSet := update (fun _ => ∅) 0 {0} }

theorem reachable_oneNumber : Reachable step Harmless {} oneNumber := by
  have hall : AllAllowed step Harmless {} [.allocNumber 0 0, .cas 0 false] :=
    ⟨trivial, trivial, trivial⟩
  have htrace := trace_run_of_allowed hall
  rw [alloc_first] at htrace
  exact htrace.reachable

theorem numbers_reused_once : ∃ e, 0 ∈ oneNumber.allocedSet e :=
  (numbers_reused reachable_oneNumber).1 (fun _ => rfl) 0 (by decide)

/-- An error lets `ReleaseNumber` report success without having freed the number. -/
theorem release_leaks :
    ∃ s, Reachable step (fun _ _ => True) {} s ∧ (∀ t, s.calls t = none) ∧ s.marked 0 = true ∧
      ∀ e, 0 ∉ s.allocedSet e := by
  obtain ⟨log, htrace⟩ := reachable_oneNumber
  have hrun : run step oneNumber [.releaseNumber 0 0 (0 : Nat), .cas 0 true] = _ :=
    release_fails (inv_of_reachable reachable_oneNumber) rfl (by decide)
  have hleak := (htrace.mono fun _ _ _ => trivial).append_run
    [.releaseNumber 0 0 (0 : Nat), .cas 0 true] (allAllowed_of_forall (fun _ _ => trivial) _ _)
  refine ⟨_, hleak.reachable, ?_⟩
  rw [hrun]
  refine ⟨fun _ => rfl, by decide, fun e => ?_⟩
  by_cases he : e = 0
  · simp [he]
  · simp [he, oneNumber]

end MemFabric.Smem.Group.Numbers
