import Mathlib.Data.Finset.Erase
import Mathlib.Data.Finset.Insert
import Mathlib.Data.Nat.Bitwise
import MemFabric.Machine.Run
import MemFabric.Wire.Bytes

/-!
# Numbers shared by a group

`AllocNumber` and `ReleaseNumber` of `smem_net_group_engine.cpp`.  The numbers in use are
the bits of a value in the store, which is changed by compare and swap in a loop.  The
three buffers of the loop change places, so that an attempt after an error may go on
with what the attempt before it has left.
-/

namespace MemFabric.Smem.Group

open Machine Wire Function Option

namespace Numbers

/-! ## Bits -/

def allocNumSize : Nat := 1024

def allocNumBufLen : Nat := (allocNumSize + 7) / 8

def testBit (value : Bytes) (i : Nat) : Bool := (value.getD (i / 8) 0).toNat.testBit (i % 8)

/-- `value[i / UINT_BIT] ^= 1U << (i % UINT_BIT)`. -/
def toggle (value : Bytes) (i : Nat) : Bytes :=
  value.modify (i / 8) fun byte => byte ^^^ UInt8.ofNat (2 ^ (i % 8))

theorem length_toggle (value : Bytes) (i : Nat) : (toggle value i).length = value.length :=
  List.length_modify ..

theorem testBit_toggle {value : Bytes} {i : Nat} (hi : i / 8 < value.length) (j : Nat) :
    testBit (toggle value i) j = (testBit value j ^^ decide (i = j)) := by
  have hpow : (UInt8.ofNat (2 ^ (i % 8))).toNat = 2 ^ (i % 8) := by
    have : 2 ^ (i % 8) < 2 ^ 8 := Nat.pow_lt_pow_right (by omega) (by omega)
    exact Nat.mod_eq_of_lt this
  unfold testBit toggle
  rw [List.getD_eq_getElem?_getD, List.getD_eq_getElem?_getD, List.getElem?_modify]
  by_cases hbyte : i / 8 = j / 8
  · rw [← hbyte, List.getElem?_eq_getElem hi]
    simp only [↓reduceIte, map_eq_map, map_some, getD_some,
      UInt8.toNat_xor, Nat.testBit_xor, hpow, Nat.testBit_two_pow]
    congr 1
    exact decide_eq_decide.mpr (by omega)
  · have hne : i ≠ j := fun h => hbyte (h ▸ rfl)
    simp [hbyte, hne]

def zeros : Bytes := List.replicate allocNumBufLen 0

theorem testBit_zeros (j : Nat) : testBit zeros j = false := by
  unfold testBit zeros
  rw [List.getD_eq_getElem?_getD, List.getElem?_replicate]
  split_ifs <;> simp

/-! ## The two loops -/

inductive Call
  | alloc (expect value now : Bytes) (num : Nat)
  | release (val : Nat) (expect value now : Bytes)

/-- The value starts from what is expected, or is the one of the last attempt. -/
def refresh (expect value : Bytes) : Bytes := if expect ≠ [] then expect else value

/-- The loop body of `AllocNumber` up to `Cas`. -/
def allocLoop (expect value now : Bytes) : Option Call :=
  let (expect, now) := (now, expect)
  let value := refresh expect value
  ((List.range allocNumSize).find? fun i => !testBit value i).map fun i =>
    .alloc expect (toggle value i) now i

/-- The loop body of `ReleaseNumber` up to `Cas`; nothing if the bit is not set. -/
def releaseLoop (val : Nat) (expect value now : Bytes) : Option Call :=
  let (expect, now) := (now, expect)
  let value := refresh expect value
  if testBit value val then some (.release val expect (toggle value val) now) else none

/-- The content that `Cas` reports because it differs from `expect`.  An absent key
matches everything. -/
def mismatch (cell : Option Bytes) (expect : Bytes) : Option Bytes := cell.filter (· ≠ expect)

inductive Output
  | allocated (engine num : Nat)
  | noNumber (engine : Nat)
  | notExists (engine : Nat) (val : Int)
  | released (engine val : Nat)
deriving DecidableEq

end Numbers

open Numbers

/-- The value in the store, the numbers of each engine, and the calls under way: the
engine and the state of the call for each thread. -/
structure Numbers where
  cell : Option Bytes := none
  allocedSet : Nat → Finset Nat := fun _ => ∅
  calls : Nat → Option (Nat × Call) := fun _ => none

namespace Numbers

inductive Input
  | allocNumber (thread engine : Nat)
  | releaseNumber (thread engine : Nat) (val : Int)
  | cas (thread : Nat) (fails : Bool)

def goOn (thread engine : Nat) (call : Option Call) (ended : Output) (s : Numbers) :
    Numbers × List Output :=
  match call with
  | none => ({ s with calls := update s.calls thread none }, [ended])
  | some c => ({ s with calls := update s.calls thread (some (engine, c)) }, [])

/-- The result of `Cas` for a call: an error, another content, or success. -/
def cas (thread : Nat) (fails : Bool) (s : Numbers) : Numbers × List Output :=
  match s.calls thread with
  | none => (s, [])
  | some (engine, .alloc expect value now num) =>
    if fails then s.goOn thread engine (allocLoop expect value now) (.noNumber engine)
    else
      match mismatch s.cell expect with
      | some old => s.goOn thread engine (allocLoop expect value old) (.noNumber engine)
      | none =>
        ({ s with
            cell := some value
            allocedSet := update s.allocedSet engine (insert num (s.allocedSet engine))
            calls := update s.calls thread none }, [.allocated engine num])
  | some (engine, .release val expect value now) =>
    if fails then s.goOn thread engine (releaseLoop val expect value now) (.released engine val)
    else
      match mismatch s.cell expect with
      | some old => s.goOn thread engine (releaseLoop val expect value old) (.released engine val)
      | none =>
        ({ s with cell := some value, calls := update s.calls thread none },
          [.released engine val])

/-- `ReleaseNumber` up to its first `Cas`. -/
def beginRelease (thread engine val : Nat) (s : Numbers) : Numbers × List Output :=
  let s := { s with
    allocedSet := update s.allocedSet engine ((s.allocedSet engine).erase val) }
  s.goOn thread engine (releaseLoop val [] (toggle zeros val) []) (.released engine val)

def step (s : Numbers) : Input → Numbers × List Output
  | .allocNumber thread engine =>
    if s.calls thread = none then
      s.goOn thread engine (allocLoop [] zeros []) (.noNumber engine)
    else (s, [])
  | .releaseNumber thread engine val =>
    if s.calls thread = none then
      match val with
      | .ofNat n =>
        if n ∈ s.allocedSet engine then s.beginRelease thread engine n
        else (s, [.notExists engine n])
      | .negSucc _ => (s, [.notExists engine val])
    else (s, [])
  | .cas thread fails => s.cas thread fails

/-! ## Owners -/

/-- A number belongs to an engine or, while it is released, to the thread that does it. -/
inductive Owner
  | engine (engine : Nat)
  | thread (thread : Nat)

def Call.releases : Call → Option Nat
  | .alloc .. => none
  | .release val .. => some val

def releasing (s : Numbers) (thread : Nat) : Option Nat :=
  (s.calls thread).bind fun c => c.2.releases

def owns (s : Numbers) : Owner → Nat → Prop
  | .engine engine, n => n ∈ s.allocedSet engine
  | .thread thread, n => s.releasing thread = some n

def marked (s : Numbers) (n : Nat) : Bool := s.cell.any fun value => testBit value n

def Sized (b : Bytes) : Prop := b ≠ [] → b.length = allocNumBufLen

/-- What is swapped differs from what is expected in the bit of the call. -/
def Call.Ok : Call → Prop
  | .alloc expect value now num =>
    value.length = allocNumBufLen ∧ Sized now ∧ num < allocNumSize ∧ testBit value num = true ∧
      (expect ≠ [] → expect.length = allocNumBufLen ∧ testBit expect num = false ∧
        value = toggle expect num)
  | .release val expect value now =>
    value.length = allocNumBufLen ∧ Sized now ∧
      (expect ≠ [] → expect.length = allocNumBufLen ∧ value = toggle expect val)

theorem div_lt_bufLen {i : Nat} (h : i < allocNumSize) : i / 8 < allocNumBufLen := by
  simp only [allocNumBufLen] at h ⊢
  omega

variable {value now expect : Bytes} {c : Call}

theorem length_refresh (hv : value.length = allocNumBufLen)
    (hn : Sized now) : (refresh now value).length = allocNumBufLen := by
  unfold refresh
  split_ifs with h
  · exact hn h
  · exact hv

theorem refresh_of_ne (h : now ≠ []) (value : Bytes) : refresh now value = now :=
  if_pos h

theorem refresh_nil (value : Bytes) : refresh [] value = value := if_neg (by simp)

section

variable (hv : value.length = allocNumBufLen) (he : Sized expect) (hn : Sized now)

include hv he hn

theorem allocLoop_ok (h : allocLoop expect value now = some c) : c.Ok ∧ c.releases = none := by
  unfold allocLoop at h
  obtain ⟨i, hi, rfl⟩ := map_eq_some_iff.mp h
  have hlt : i < allocNumSize := List.mem_range.mp (List.mem_of_find?_eq_some hi)
  have hfree : testBit (refresh now value) i = false := by
    have := List.find?_some hi
    rwa [Bool.not_eq_true'] at this
  have hlen := length_refresh hv hn
  refine ⟨⟨(length_toggle _ i).trans hlen, he, hlt, ?_, fun hne => ⟨hn hne, ?_, ?_⟩⟩, rfl⟩
  · rw [testBit_toggle (by rw [hlen]; exact div_lt_bufLen hlt), hfree]
    simp
  · rwa [refresh_of_ne hne] at hfree
  · rw [refresh_of_ne hne]

theorem releaseLoop_ok {val : Nat}
    (h : releaseLoop val expect value now = some c) : c.Ok ∧ c.releases = some val := by
  unfold releaseLoop at h
  dsimp only at h
  split_ifs at h
  obtain rfl := Option.some.inj h
  refine ⟨⟨(length_toggle _ val).trans (length_refresh hv hn), he, fun hne => ⟨hn hne, ?_⟩⟩, rfl⟩
  rw [refresh_of_ne hne]

end

/-- Every number that is owned is marked, and has one owner. -/
structure Inv (s : Numbers) : Prop where
  size : ∀ b, s.cell = some b → b.length = allocNumBufLen
  ok : ∀ t e c, s.calls t = some (e, c) → c.Ok
  marked : ∀ o n, s.owns o n → n < allocNumSize ∧ s.marked n = true
  unique : ∀ o o' n, s.owns o n → s.owns o' n → o = o'

theorem inv_start : Inv {} where
  size := by simp
  ok := by simp
  marked := by
    rintro (e | t) n h
    · exact absurd h (Finset.notMem_empty n)
    · cases h
  unique := by
    rintro (e | t) o' n h
    · exact absurd h (Finset.notMem_empty n)
    · cases h

section Steps

variable {s : Numbers} {thread engine : Nat}

variable {b expect value now : Bytes} {call : Option Call} {o : Owner} {n num val : Nat}

theorem Inv.sized_cell (h : Inv s) (hb : s.cell = some b) : Sized b :=
  fun _ => h.size b hb

theorem calls_update {r : Option (Nat × Call)} {t e : Nat}
    (h : update s.calls thread r t = some (e, c)) : r = some (e, c) ∨ s.calls t = some (e, c) := by
  rw [update_apply] at h
  split_ifs at h
  · exact .inl h
  · exact .inr h

theorem owns_thread_update {cell : Option Bytes} {set : Nat → Finset Nat}
    {r : Option (Nat × Call)} {t : Nat} :
    (⟨cell, set, update s.calls thread r⟩ : Numbers).owns (.thread t) n ↔
      (t = thread ∧ r.bind (·.2.releases) = some n) ∨ (t ≠ thread ∧ s.owns (.thread t) n) := by
  by_cases ht : t = thread
  · subst ht
    simp [owns, releasing]
  · simp [owns, releasing, ht]

section

variable {ended : Output}

theorem goOn_eq : (s.goOn thread engine call ended).1 =
    { s with calls := update s.calls thread (call.map (engine, ·)) } := by
  cases call <;> rfl

theorem owns_goOn : (s.goOn thread engine call ended).1.owns o n ↔
    (o = .thread thread ∧ call.bind Call.releases = some n) ∨
      (o ≠ .thread thread ∧ s.owns o n) := by
  rw [goOn_eq]
  cases o with
  | engine e => simp [owns]
  | thread t =>
    rw [owns_thread_update, bind_map]
    simp

theorem calls_goOn {t e : Nat} (h : (s.goOn thread engine call ended).1.calls t = some (e, c)) :
    call = some c ∨ s.calls t = some (e, c) := by
  rw [goOn_eq] at h
  rcases calls_update h with h | h
  · obtain ⟨c', rfl, heq⟩ := map_eq_some_iff.mp h
    exact .inl (congrArg some (Prod.mk.inj heq).2)
  · exact .inr h

end

theorem Inv.goOn (h : Inv s) (ended : Output) (hok : ∀ c, call = some c → c.Ok)
    (howns : ∀ n, call.bind Call.releases = some n → s.owns (.thread thread) n) :
    Inv (s.goOn thread engine call ended).1 := by
  have hsub : ∀ o n, (s.goOn thread engine call ended).1.owns o n → s.owns o n := by
    intro o n ho
    rcases owns_goOn.mp ho with ⟨rfl, hcall⟩ | ⟨-, ho⟩
    · exact howns n hcall
    · exact ho
  refine ⟨?_, fun t e c hc => ?_, fun o n ho => ?_, fun o o' n ho ho' =>
    h.unique o o' n (hsub o n ho) (hsub o' n ho')⟩
  · rw [goOn_eq]
    exact h.size
  · rcases calls_goOn hc with hc | hc
    · exact hok c hc
    · exact h.ok t e c hc
  · rw [Numbers.marked, goOn_eq]
    exact h.marked o n (hsub o n ho)

/-- The expected content of a swap that succeeds, where the key is present. -/
theorem eq_of_mismatch_eq_none (hb : s.cell = some b)
    (h : mismatch s.cell expect = none) : expect = b := by
  rw [hb, mismatch, filter_some] at h
  by_contra hne
  rw [if_pos (by simpa using Ne.symm hne)] at h
  cases h

theorem mismatch_eq_some {old : Bytes} (h : mismatch s.cell expect = some old) :
    s.cell = some old ∧ old ≠ expect := by
  obtain ⟨hcell, hne⟩ := filter_eq_some_iff.mp h
  exact ⟨hcell, by simpa using hne⟩

theorem Inv.ne_nil (h : Inv s) (hb : s.cell = some b) : b ≠ [] := by
  rintro rfl
  exact absurd (h.size [] hb) (by decide)

theorem marked_iff : s.marked n = true ↔ ∃ b, s.cell = some b ∧ testBit b n = true := by
  simp [marked, any_eq_true]

/-- A swap that succeeds on a present key changes the bit of the call alone. -/
theorem Inv.swapped (h : Inv s) {k : Nat} (hb : s.cell = some b)
    (hmatch : mismatch s.cell expect = none) (hk : k < allocNumSize)
    (hvalue : expect ≠ [] → value = toggle expect k) (n : Nat) :
    testBit value n = (testBit b n ^^ decide (k = n)) := by
  obtain rfl := eq_of_mismatch_eq_none hb hmatch
  rw [hvalue (h.ne_nil hb)]
  exact testBit_toggle (by rw [h.size _ hb]; exact div_lt_bufLen hk) n

theorem Inv.marked_swapped (h : Inv s) {k : Nat} (hmatch : mismatch s.cell expect = none)
    (hk : k < allocNumSize) (hvalue : expect ≠ [] → value = toggle expect k) (hne : n ≠ k)
    (hn : s.marked n = true) : testBit value n = true := by
  obtain ⟨b, hb, hset⟩ := marked_iff.mp hn
  rw [h.swapped hb hmatch hk hvalue, hset]
  simp [hne.symm]

/-- One number goes to an owner, and nothing changes for the others. -/
theorem Inv.pass (h : Inv s) {s' : Numbers} (o₀ : Owner) {k : Nat}
    (hsize : ∀ b, s'.cell = some b → b.length = allocNumBufLen)
    (hok : ∀ t e c, s'.calls t = some (e, c) → c.Ok)
    (howns : ∀ o n, s'.owns o n → (o = o₀ ∧ n = k ∧ n < allocNumSize ∧ s'.marked n = true) ∨
      (n ≠ k ∧ s.owns o n))
    (hmarked : ∀ n, n ≠ k → s.marked n = true → s'.marked n = true) : Inv s' := by
  refine ⟨hsize, hok, fun o n ho => ?_, fun o o' n ho ho' => ?_⟩
  · rcases howns o n ho with ⟨-, -, hn⟩ | ⟨hne, ho⟩
    · exact hn
    · obtain ⟨hlt, hn⟩ := h.marked o n ho
      exact ⟨hlt, hmarked n hne hn⟩
  · rcases howns o n ho with ⟨rfl, rfl, -⟩ | ⟨hne, ho⟩
    · rcases howns o' n ho' with ⟨rfl, -⟩ | ⟨hne, -⟩
      · rfl
      · exact absurd rfl hne
    · rcases howns o' n ho' with ⟨-, hn, -⟩ | ⟨-, ho'⟩
      · exact absurd hn hne
      · exact h.unique o o' n ho ho'

theorem Inv.free (h : Inv s) (hcall : s.calls thread = some (engine, .alloc expect value now num))
    (hmatch : mismatch s.cell expect = none) (o : Owner) : ¬ s.owns o num := by
  intro ho
  obtain ⟨b, hb, hset⟩ := marked_iff.mp (h.marked o num ho).2
  obtain ⟨-, -, -, -, hexpect⟩ := h.ok _ _ _ hcall
  obtain rfl := eq_of_mismatch_eq_none hb hmatch
  rw [(hexpect (h.ne_nil hb)).2.1] at hset
  cases hset

/-- The state after a `Cas` that has allocated a number. -/
def allotted (s : Numbers) (thread engine num : Nat) (value : Bytes) : Numbers :=
  { s with
    cell := some value
    allocedSet := update s.allocedSet engine (insert num (s.allocedSet engine))
    calls := update s.calls thread none }

theorem owns_allotted : (s.allotted thread engine num value).owns o n ↔
    (o = .engine engine ∧ n = num) ∨ (o ≠ .thread thread ∧ s.owns o n) := by
  cases o with
  | engine e =>
    by_cases he : e = engine
    · subst he
      simp [owns, allotted]
    · simp [owns, allotted, he]
  | thread t =>
    rw [allotted, owns_thread_update]
    simp

theorem owns_swapped : ({ s with
      cell := some value
      calls := update s.calls thread none } : Numbers).owns o n ↔
    o ≠ .thread thread ∧ s.owns o n := by
  cases o with
  | engine e => simp [owns]
  | thread t =>
    rw [owns_thread_update]
    simp

theorem Inv.ok_ended (h : Inv s) {t e : Nat} (hc : update s.calls thread none t = some (e, c)) :
    c.Ok := by
  rcases calls_update hc with hc | hc
  · cases hc
  · exact h.ok t e c hc

theorem Inv.allocated (h : Inv s)
    (hcall : s.calls thread = some (engine, .alloc expect value now num))
    (hmatch : mismatch s.cell expect = none) : Inv (s.allotted thread engine num value) := by
  obtain ⟨hlen, -, hnum, hbit, hexpect⟩ := h.ok _ _ _ hcall
  refine h.pass (.engine engine) (fun b hb => Option.some.inj hb ▸ hlen)
    (fun t e c hc => h.ok_ended hc) ?_
    fun n => h.marked_swapped hmatch hnum fun hne => (hexpect hne).2.2
  intro o n ho
  rcases owns_allotted.mp ho with ⟨rfl, rfl⟩ | ⟨-, hold⟩
  · exact .inl ⟨rfl, rfl, hnum, hbit⟩
  · refine .inr ⟨?_, hold⟩
    rintro rfl
    exact h.free hcall hmatch o hold

theorem Inv.owns_releasing (hcall : s.calls thread = some (engine, .release val expect value now)) :
    s.owns (.thread thread) val := by
  rw [owns, releasing, hcall]
  rfl

theorem Inv.released (h : Inv s)
    (hcall : s.calls thread = some (engine, .release val expect value now))
    (hmatch : mismatch s.cell expect = none) :
    Inv { s with cell := some value, calls := update s.calls thread none } := by
  obtain ⟨hlen, -, hexpect⟩ := h.ok _ _ _ hcall
  have hown := Inv.owns_releasing hcall
  refine h.pass (.thread thread) (fun b hb => Option.some.inj hb ▸ hlen)
    (fun t e c hc => h.ok_ended hc) ?_
    fun n => h.marked_swapped hmatch (h.marked _ _ hown).1 fun hne => (hexpect hne).2
  intro o n ho
  obtain ⟨hne, ho⟩ := owns_swapped.mp ho
  refine .inr ⟨?_, ho⟩
  rintro rfl
  exact hne (h.unique o _ _ ho hown)

theorem length_zeros : zeros.length = allocNumBufLen := List.length_replicate ..

theorem releaseLoop_begin (hval : val < allocNumSize) :
    releaseLoop val [] (toggle zeros val) [] =
      some (.release val [] (toggle (toggle zeros val) val) []) := by
  have hbit : testBit (toggle zeros val) val = true := by
    rw [testBit_toggle (by rw [length_zeros]; exact div_lt_bufLen hval), testBit_zeros]
    simp
  unfold releaseLoop
  dsimp only
  rw [refresh_nil, if_pos hbit]

theorem beginRelease_eq (thread engine : Nat) (hval : val < allocNumSize) :
    s.beginRelease thread engine val =
      ({ s with
          allocedSet := update s.allocedSet engine ((s.allocedSet engine).erase val)
          calls := update s.calls thread
            (some (engine, .release val [] (toggle (toggle zeros val) val) [])) }, []) := by
  unfold beginRelease
  rw [releaseLoop_begin hval, goOn]

/-- The number passes from the engine to the thread. -/
theorem owns_beginRelease (hval : val < allocNumSize) :
    (s.beginRelease thread engine val).1.owns o n ↔ (o = .thread thread ∧ n = val) ∨
      (o ≠ .thread thread ∧ (n = val → o ≠ .engine engine) ∧ s.owns o n) := by
  rw [beginRelease_eq thread engine hval]
  cases o with
  | engine e =>
    by_cases he : e = engine
    · subst he
      simp [owns]
    · simp [owns, he]
  | thread t =>
    rw [owns_thread_update]
    simp [Call.releases, eq_comm]

theorem Inv.beginRelease (h : Inv s) (hmem : val ∈ s.allocedSet engine) :
    Inv (s.beginRelease thread engine val).1 := by
  obtain ⟨hval, hmarked⟩ := h.marked (.engine engine) val hmem
  have heq := beginRelease_eq (s := s) thread engine hval
  have hmark : ∀ n, (s.beginRelease thread engine val).1.marked n = s.marked n := by
    rw [heq]
    exact fun _ => rfl
  refine h.pass (.thread thread) (k := val) (by rw [heq]; exact h.size) ?_ ?_ fun n _ hn =>
    (hmark n).trans hn
  · rw [heq]
    intro t e c hc
    rcases calls_update hc with hc | hc
    · rw [Option.some.injEq, Prod.mk.injEq] at hc
      rw [← hc.2]
      refine ⟨?_, fun hne => absurd rfl hne, fun hne => absurd rfl hne⟩
      rw [length_toggle, length_toggle, length_zeros]
    · exact h.ok t e c hc
  · intro o n ho
    rcases (owns_beginRelease hval).mp ho with ⟨rfl, rfl⟩ | ⟨-, hne, hold⟩
    · exact .inl ⟨rfl, rfl, hval, (hmark n).trans hmarked⟩
    · refine .inr ⟨fun hn => hne hn ?_, hold⟩
      exact h.unique o _ n hold (hn ▸ hmem)

theorem Inv.goOn_alloc (h : Inv s) (ended : Output) (hv : value.length = allocNumBufLen)
    (he : Sized expect) (hn : Sized now) :
    Inv (s.goOn thread engine (allocLoop expect value now) ended).1 := by
  refine h.goOn ended (fun c hc => (allocLoop_ok hv he hn hc).1) fun n hn' => ?_
  obtain ⟨c, hc, hreleases⟩ := bind_eq_some_iff.mp hn'
  rw [(allocLoop_ok hv he hn hc).2] at hreleases
  cases hreleases

theorem Inv.goOn_release (h : Inv s) (ended : Output) (hown : s.owns (.thread thread) val)
    (hv : value.length = allocNumBufLen) (he : Sized expect) (hn : Sized now) :
    Inv (s.goOn thread engine (releaseLoop val expect value now) ended).1 := by
  refine h.goOn ended (fun c hc => (releaseLoop_ok hv he hn hc).1) fun n hn' => ?_
  obtain ⟨c, hc, hreleases⟩ := bind_eq_some_iff.mp hn'
  rw [(releaseLoop_ok hv he hn hc).2] at hreleases
  exact Option.some.inj hreleases ▸ hown

theorem Inv.cas (h : Inv s) (fails : Bool) : Inv (s.cas thread fails).1 := by
  unfold Numbers.cas
  split
  · exact h
  · next engine expect value now num hcall =>
    obtain ⟨hv, hn, -, -, hexpect⟩ := h.ok _ _ _ hcall
    have he : Sized expect := fun hne => (hexpect hne).1
    split_ifs
    · exact h.goOn_alloc _ hv he hn
    · split
      · next old hold => exact h.goOn_alloc _ hv he (h.sized_cell (mismatch_eq_some hold).1)
      · next hmatch => exact h.allocated hcall hmatch
  · next engine val expect value now hcall =>
    obtain ⟨hv, hn, hexpect⟩ := h.ok _ _ _ hcall
    have he : Sized expect := fun hne => (hexpect hne).1
    have hown := Inv.owns_releasing hcall
    split_ifs
    · exact h.goOn_release _ hown hv he hn
    · split
      · next old hold => exact h.goOn_release _ hown hv he (h.sized_cell (mismatch_eq_some hold).1)
      · next hmatch => exact h.released hcall hmatch

theorem Inv.step (h : Inv s) (i : Input) : Inv (step s i).1 := by
  cases i with
  | allocNumber thread engine =>
    unfold Numbers.step
    dsimp only
    split_ifs
    · exact h.goOn_alloc _ length_zeros (fun hne => absurd rfl hne) fun hne => absurd rfl hne
    · exact h
  | releaseNumber thread engine val =>
    unfold Numbers.step
    dsimp only
    split_ifs with hidle
    · split
      · split_ifs with hmem
        · exact h.beginRelease hmem
        · exact h
      · exact h
    · exact h
  | cas thread fails => exact h.cas fails

end Steps

theorem inv_of_reachable {allowed : Numbers → Input → Prop} {s : Numbers}
    (h : Reachable step allowed {} s) : Inv s :=
  h.invariant inv_start fun _ i hs _ => hs.step i

end Numbers

end MemFabric.Smem.Group
