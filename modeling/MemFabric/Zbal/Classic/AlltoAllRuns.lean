import Mathlib.Algebra.BigOperators.Group.Finset.Piecewise
import MemFabric.Zbal.Classic.AlltoAllCount
import MemFabric.Zbal.Classic.AlltoAllVCount

/-!
# Runs of the all-to-all kernels

The cores of a rank count in its exchange space how many of them have copied from each rank,
and the count is compared with the number that core 0 has stored.  Every core clears both when
it begins.  If all cores of the rank have done so before core 0 stores its numbers, no number is
lost, and a state is only sent to a rank when all its shares have been copied.
-/

namespace MemFabric.Zbal.Exchange

open Machine.Cores Launch List

def Op.system (op : Op) (k : Launch) :
    System (Fin k.groupSize × Fin k.aivNum) Instr (Memory k.groupSize k.aivNum) where
  prog t := op.process k t.1 t.2
  ready := ready
  effect := effect

/-- The arguments of `alltoAllProcess`, by rank. -/
structure AlltoAllOp where
  aivNum : Nat → Nat
  flagAddr : Nat
  statAddr : Nat
  sendAddr : Nat
  baseAddr : Nat
  readyAddr : Nat
  told : Nat → Nat → List Instr
  statBase : Nat → Nat → Nat
  srcs : Nat → Nat → List Nat

def Op.alltoAll? (k : Launch) : Op → Option AlltoAllOp
  | .alltoAll elements input stack => some {
      aivNum := fun _ => k.alltoAllNum elements
      flagAddr := k.smallArea
      statAddr := 2 * k.smallArea
      sendAddr := 3 * k.smallArea
      baseAddr := 4 * k.smallArea
      readyAddr := 5 * k.smallArea
      told := fun rank => k.exchangeAddrFlag k.smallArea (input rank) rank
      statBase := fun rank => k.alltoAllStatBase elements (stack rank)
      srcs := fun _ => k.alltoAllCopy elements }
  | .alltoAllV args => some {
      aivNum := fun rank => (k.alltoAllVKernel (args rank)).aivNum
      flagAddr := 3 * k.area
      statAddr := 4 * k.area
      sendAddr := 5 * k.area
      baseAddr := 6 * k.area
      readyAddr := 7 * k.area
      told := fun rank => k.alltoAllVTell (args rank) rank
      statBase := fun rank => (k.alltoAllVKernel (args rank)).initLocalStat (args rank).stack
      srcs := fun rank => (k.alltoAllVKernel (args rank)).alltoAllvCopy (args rank).elements }
  | _ => none

/-- Every rank receives as many elements as it has room for. -/
def Op.CountsAddUp (k : Launch) : Op → Prop
  | .alltoAllV args => ∀ rank < k.groupSize,
      (k.alltoAllVKernel (args rank)).received k.groupSize = (args rank).outputElement
  | _ => True

namespace AlltoAllOp

variable (a : AlltoAllOp) (k : Launch)

/-- The cores of a rank that copy from another one. -/
def copying (rank src : Nat) : Finset Nat :=
  {c ∈ Finset.range (a.aivNum rank) | src ∈ a.srcs rank c}

def baseStore (rank m : Nat) : Instr :=
  setMetaValue rank a.baseAddr m (a.statBase rank m % 2 ^ 32)

def readyStore (rank : Nat) : Instr := setMetaValue rank a.readyAddr 0 k.waitSymbol

def waitReady (rank : Nat) : Instr := .wait (slot a.readyAddr 0) k.waitSymbol rank

/-- A core has copied from the rank. -/
def increment (src : Nat) : Instr := .add (slot a.sendAddr src)

def waitLocal (dst : Nat) : Instr := .waitLocal (slot a.sendAddr dst) (slot a.baseAddr dst)

def state (rank dst : Nat) : Instr := setMetaValue dst a.statAddr rank k.waitSymbol

/-- What a core does after `InitLocalStat`. -/
def counting (rank aivIndex : Nat) : List Instr :=
  k.copies a.flagAddr a.sendAddr (a.srcs rank aivIndex) ++
    (k.writeRangeStat a.statAddr a.sendAddr a.baseAddr rank
      (k.commonRanks (a.aivNum rank) aivIndex) ++
      (k.waitRangeStat a.statAddr (k.commonRanks (a.aivNum rank) aivIndex) ++ barrierAll 0))

/-- What a core does after `Prepare`. -/
def rest (rank aivIndex : Nat) : List Instr :=
  if aivIndex < a.aivNum rank then
    (k.commonRanks (a.aivNum rank) aivIndex).flatMap (a.told rank) ++
      k.initLocalStat a.baseAddr a.readyAddr (a.statBase rank) rank aivIndex ++
      a.counting k rank aivIndex
  else barrierAll 0

variable {a k}

theorem process_eq {op : Op} (h : op.alltoAll? k = some a) (rank aivIndex : Nat) :
    op.process k rank aivIndex =
      k.prepare a.sendAddr a.baseAddr rank ++ a.rest k rank aivIndex := by
  have hop : op.process k rank aivIndex = k.alltoAllProcess (a.aivNum rank) a.flagAddr a.statAddr
      a.sendAddr a.baseAddr a.readyAddr (a.told rank) (a.statBase rank) (a.srcs rank aivIndex)
      rank aivIndex := by
    cases op <;> cases h <;> rfl
  rw [hop, alltoAllProcess, rest]
  split <;> simp [counting]

/-- The areas follow one another. -/
structure Fits (a : AlltoAllOp) (k : Launch) : Prop where
  pos : ∀ rank, 0 < a.aivNum rank
  told : ∀ rank dst, ∀ i ∈ a.told rank dst,
    ∃ d addr n value, i = .store d (slot addr rank) n value ∧ addr + k.area ≤ a.sendAddr
  flag : a.flagAddr + k.area ≤ a.statAddr
  stat : a.statAddr + k.area ≤ a.sendAddr
  send : a.sendAddr + k.area ≤ a.baseAddr
  base : a.baseAddr + k.area ≤ a.readyAddr
  srcs : ∀ rank < k.groupSize, ∀ c < a.aivNum rank, ∀ src ∈ a.srcs rank c, src < k.groupSize
  nodup : ∀ rank c, (a.srcs rank c).Nodup
  expects : ∀ rank < k.groupSize, ∀ src < k.groupSize,
    (a.copying rank src).card ≤ a.statBase rank src % 2 ^ 32

theorem Fits.of_alltoAll? {op : Op} (h : op.alltoAll? k = some a) (hg : k.groupSize < 8192)
    (hcores : 0 < k.aivNum) (hlimit : k.aivNum < 2 ^ 16) (hcounts : op.CountsAddUp k) :
    a.Fits k := by
  have harea := smallArea_eq hg
  cases op with
  | alltoAll elements input stack =>
    cases h
    refine ⟨fun _ => alltoAllNum_pos hcores, fun rank dst i hi => ?_, ?_, ?_, ?_, ?_,
      fun rank hrank c hc src => lt_of_mem_alltoAllCopy (Nat.zero_lt_of_lt hrank) hc,
      fun _ _ => nodup_range', fun rank _ src => card_alltoAllCopying_le hcores hlimit _⟩
    · simp only [exchangeAddrFlag, mem_cons, not_mem_nil, or_false] at hi
      rcases hi with rfl | rfl <;> exact ⟨_, _, _, _, rfl, by dsimp only; omega⟩
    all_goals
      dsimp only
      omega
  | alltoAllV args =>
    cases h
    refine ⟨fun _ => AlltoAllVKernel.aivNum_pos hcores, fun rank dst i hi => ?_, ?_, ?_, ?_, ?_,
      fun rank hrank c hc src => AlltoAllVKernel.lt_of_mem_alltoAllvCopy (hcounts rank hrank) hc,
      fun _ _ => Nodup.filter _ nodup_range', fun rank hrank src =>
        AlltoAllVKernel.card_copying_le hcores hlimit (hcounts rank hrank) _ fun _ => _⟩
    · simp only [alltoAllVTell, mem_cons, not_mem_nil, or_false] at hi
      rcases hi with rfl | rfl | rfl | rfl <;> exact ⟨_, _, _, _, rfl, by dsimp only; omega⟩
    all_goals
      dsimp only
      omega
  | _ => cases h

variable {r : Fin k.groupSize} {c : Nat} {i : Instr} {l : List Instr}

/-! ## What the instructions are -/

/-- The instruction changes no word from the bound on. -/
def Spares (bound : Nat) : Instr → Prop
  | .store _ w _ _ => w < bound
  | .clear _ => False
  | .add _ => False
  | _ => True

theorem slot_lt_sendAddr {addr : Nat} (h : addr + k.area ≤ a.sendAddr) :
    slot addr r < a.sendAddr := (slot_lt r.isLt h (q := 0)).trans_eq (by simp [slot])

section Fits

variable (ha : a.Fits k)

include ha

theorem slot_send_lt {src : Nat} (hsrc : src < k.groupSize) (m : Nat) :
    slot a.sendAddr src < slot a.baseAddr m := slot_lt hsrc ha.send

theorem slot_base_lt {m : Nat} (hm : m < k.groupSize) :
    slot a.baseAddr m < slot a.readyAddr 0 := slot_lt hm ha.base

theorem sendAddr_le_base (m : Nat) : a.sendAddr ≤ slot a.baseAddr m := by
  have := ha.send
  simp only [slot]
  omega

theorem sendAddr_lt_ready (hg : 0 < k.groupSize) : a.sendAddr < slot a.readyAddr 0 :=
  (sendAddr_le_base ha 0).trans_lt (slot_base_lt ha hg)

theorem spares_told {dst : Nat} (hi : i ∈ a.told r dst) : Spares a.sendAddr i := by
  obtain ⟨d, addr, n, value, rfl, hle⟩ := ha.told r dst i hi
  exact slot_lt_sendAddr hle

theorem counting_cases (hc : c < a.aivNum r) (hi : i ∈ a.counting k r c) :
    (∃ src < k.groupSize, i = a.increment src) ∨ i ≠ a.waitReady k r ∧ Spares a.sendAddr i := by
  have hwait : ∀ {addr src}, addr + k.area ≤ a.sendAddr →
      waitMetaValue addr src k.waitSymbol ≠ a.waitReady k r := by
    intro addr src hle heq
    obtain ⟨hslot, -, rfl⟩ := Instr.wait.inj heq
    exact ((slot_lt_sendAddr hle).trans (sendAddr_lt_ready ha r.pos)).ne hslot
  have hflag := ha.flag
  have hstat := ha.stat
  simp only [counting, copies, writeRangeStat, waitRangeStat,
    waitFlags, barrierAll, mem_append, mem_flatMap, mem_map, mem_cons,
    not_mem_nil, or_false] at hi
  rcases hi with ⟨src, hsrc, rfl | rfl⟩ | ⟨dst, -, rfl | rfl⟩ | ⟨src, -, rfl⟩ | rfl | rfl
  · exact .inr ⟨hwait (by omega), trivial⟩
  · exact .inl ⟨src, ha.srcs r r.isLt c hc src hsrc, rfl⟩
  · exact .inr ⟨Instr.noConfusion, trivial⟩
  · exact .inr ⟨Instr.noConfusion, slot_lt_sendAddr hstat⟩
  · exact .inr ⟨hwait hstat, trivial⟩
  · exact .inr ⟨Instr.noConfusion, trivial⟩
  · exact .inr ⟨Instr.noConfusion, trivial⟩

/-- After the counters have been cleared only core 0 and the cores that count change them. -/
theorem rest_cases (hi : i ∈ a.rest k r c) :
    Spares a.sendAddr i ∨ (c = 0 ∧ ∃ m < k.groupSize, i = a.baseStore r m) ∨
      (c = 0 ∧ i = a.readyStore k r) ∨ ∃ src < k.groupSize, i = a.increment src := by
  rw [rest] at hi
  split at hi
  next hc =>
    simp only [initLocalStat, mem_append, mem_singleton] at hi
    rcases hi with (hi | hi | rfl) | hi
    · obtain ⟨dst, -, hi⟩ := mem_flatMap.mp hi
      exact .inl (spares_told ha hi)
    · split at hi
      next hz =>
        simp only [mem_append, mem_map, mem_range, mem_singleton] at hi
        rcases hi with ⟨m, hm, rfl⟩ | rfl
        · exact .inr (.inl ⟨hz, m, hm, rfl⟩)
        · exact .inr (.inr (.inl ⟨hz, rfl⟩))
      next => cases hi
    · exact .inl trivial
    · rcases counting_cases ha hc hi with hsrc | ⟨-, hspares⟩
      · exact .inr (.inr (.inr hsrc))
      · exact .inl hspares
  next =>
    simp only [barrierAll, mem_cons, not_mem_nil, or_false] at hi
    rcases hi with rfl | rfl
    · exact .inl trivial
    · exact .inl trivial

/-! ## The order of the instructions -/

/-- Core 0 says that the expected numbers are there after it has stored them. -/
theorem baseStore_notMem (hl : a.readyStore k r :: l <:+ a.rest k r 0) {m : Nat}
    (hm : m < k.groupSize) : a.baseStore r m ∉ a.readyStore k r :: l := by
  have hbase := slot_base_lt ha hm
  have hsend := sendAddr_le_base ha m
  rw [rest, if_pos (ha.pos r), initLocalStat, if_pos rfl, append_assoc,
    append_assoc, append_assoc, ← append_assoc] at hl
  have hV := suffix_of_head hl fun hmem => by
    rcases mem_append.mp hmem with hmem | hmem
    · obtain ⟨dst, -, hmem⟩ := mem_flatMap.mp hmem
      have hlt : slot a.readyAddr 0 < a.sendAddr := spares_told ha hmem
      omega
    · obtain ⟨m', hm', heq⟩ := mem_map.mp hmem
      exact (slot_base_lt ha (mem_range.mp hm')).ne (Instr.store.inj heq).2.1
  intro hmem
  rcases mem_cons.mp (hV.subset hmem) with heq | hmem
  · exact hbase.ne (Instr.store.inj heq).2.1
  · rcases mem_cons.mp hmem with heq | hmem
    · cases heq
    · rcases counting_cases ha (ha.pos r) hmem with ⟨src, -, heq⟩ | ⟨-, hspares⟩
      · cases heq
      · have hlt : slot a.baseAddr m < a.sendAddr := hspares
        omega

theorem waitLocal_notMem (dst : Nat) :
    a.waitLocal dst ∉ (k.commonRanks (a.aivNum r) c).flatMap (a.told r) ++
      k.initLocalStat a.baseAddr a.readyAddr (a.statBase r) r c := by
  intro hmem
  simp only [initLocalStat, mem_append, mem_flatMap] at hmem
  rcases hmem with ⟨d, -, hmem⟩ | hmem | hmem
  · obtain ⟨_, _, _, _, heq, -⟩ := ha.told r d _ hmem
    cases heq
  · split at hmem
    · simp [waitLocal, setMetaValue] at hmem
    · cases hmem
  · simp [waitLocal] at hmem

/-- A core compares the numbers after it has waited for the expected ones. -/
theorem waitReady_notMem {dst : Nat} (h : a.waitLocal dst :: l <:+ a.rest k r c) :
    a.waitReady k r ∉ a.waitLocal dst :: l := by
  rw [rest] at h
  split at h
  next hc =>
    have hcounting := suffix_of_head h (waitLocal_notMem ha dst)
    intro hmem
    rcases counting_cases ha hc (hcounting.subset hmem) with ⟨src, -, heq⟩ | ⟨hne, -⟩
    · cases heq
    · exact hne rfl
  next =>
    have := h.subset mem_cons_self
    simp [barrierAll, waitLocal] at this

theorem precedes_rest (dst : Nat) :
    Precedes (a.waitLocal dst) (a.state k r dst) (a.rest k r c) := by
  have hpair : ∀ e, Precedes (a.waitLocal dst) (a.state k r dst)
      [a.waitLocal e, a.state k r e] := by
    intro e l' hl' hx
    rcases suffix_cons_iff.mp hl' with rfl | hl'
    · have heq : dst = e := by
        rcases mem_cons.mp hx with heq | hx
        · exact slot_inj (Instr.waitLocal.inj heq).1
        · simp [waitLocal, state, setMetaValue] at hx
      simp [heq]
    · have := hl'.subset hx
      simp [waitLocal, state, setMetaValue] at this
  rw [rest]
  split
  · refine .append (.of_notMem (waitLocal_notMem ha dst)) (.append (.of_notMem ?_)
      (.append (.flatMap _ hpair) (.of_notMem ?_)))
    · simp [copies, waitLocal, waitMetaValue]
    · simp [waitRangeStat, waitFlags, waitLocal, waitMetaValue, barrierAll]
  · exact .of_notMem (by simp [waitLocal, barrierAll])

/-! ## What a step does -/

section Run

variable {op : Op} (hop : op.alltoAll? k = some a) {t : Fin k.groupSize × Fin k.aivNum}
  {s : k.Config}

include hop

omit ha hop in
theorem word_of_spares {w : Nat} (h : Spares a.sendAddr i) (hw : a.sendAddr ≤ w) :
    (effect t i s.mem).word r w = s.mem.word r w := by
  cases i with
  | store _ v _ _ =>
    have hlt : v < a.sendAddr := h
    exact if_neg (by omega)
  | clear _ => cases h
  | add _ => cases h
  | _ => rfl

omit ha hop in
theorem word_store {d v n x w : Nat} (h : ¬ (r.val = d ∧ w = v)) :
    (effect t (.store d v n x) s.mem).word r w = s.mem.word r w := if_neg h

/-- The cores of other ranks leave the counters alone. -/
theorem word_of_ne (hi : (op.system k).next s t = some i) (ht : t.1 ≠ r) {w : Nat}
    (hw : a.sendAddr ≤ w) : (effect t i s.mem).word r w = s.mem.word r w := by
  have hne : ¬ r.val = t.1.val := fun h => ht (Fin.ext h.symm)
  have hmem := (op.system k).mem_prog_of_next hi
  rw [show (op.system k).prog t = _ from process_eq hop t.1 t.2, mem_append] at hmem
  rcases hmem with hmem | hmem
  · simp only [prepare, mem_flatMap, mem_cons, not_mem_nil, or_false] at hmem
    rcases hmem with ⟨_, -, rfl | rfl⟩ <;> exact word_store fun h => hne h.1
  · rcases rest_cases ha hmem with h | ⟨-, m, -, rfl⟩ | ⟨-, rfl⟩ | ⟨src, -, rfl⟩
    · exact word_of_spares h hw
    · exact word_store fun h => hne h.1
    · exact word_store fun h => hne h.1
    · exact if_neg fun h => hne h.1

/-- Who can change a word of the counters. -/
theorem word_step (hi : (op.system k).next s t = some i) (hown : t.1 = r → i ∈ a.rest k r t.2)
    {w : Nat} (hw : a.sendAddr ≤ w) : (effect t i s.mem).word r w = s.mem.word r w ∨
      t.1 = r ∧ ((t.2.val = 0 ∧ ∃ m < k.groupSize, i = a.baseStore r m ∧ w = slot a.baseAddr m) ∨
        (t.2.val = 0 ∧ i = a.readyStore k r ∧ w = slot a.readyAddr 0) ∨
        ∃ src < k.groupSize, i = a.increment src ∧ w = slot a.sendAddr src) := by
  by_cases ht : t.1 = r
  · rcases rest_cases ha (hown ht) with h | ⟨hc, m, hm, rfl⟩ | ⟨hc, rfl⟩ | ⟨src, hsrc, rfl⟩
    · exact .inl (word_of_spares h hw)
    · by_cases hv : w = slot a.baseAddr m
      · exact .inr ⟨ht, .inl ⟨hc, m, hm, rfl, hv⟩⟩
      · exact .inl (word_store fun h => hv h.2)
    · by_cases hv : w = slot a.readyAddr 0
      · exact .inr ⟨ht, .inr (.inl ⟨hc, rfl, hv⟩)⟩
      · exact .inl (word_store fun h => hv h.2)
    · by_cases hv : w = slot a.sendAddr src
      · exact .inr ⟨ht, .inr (.inr ⟨src, hsrc, rfl, hv⟩)⟩
      · exact .inl (if_neg fun h => hv h.2)
  · exact .inl (word_of_ne ha hop hi ht hw)

section

variable (hi : (op.system k).next s t = some i) (hown : t.1 = r → i ∈ a.rest k r t.2)

include hi hown

theorem send_step {src : Nat} (hsrc : src < k.groupSize) :
    (effect t i s.mem).word r (slot a.sendAddr src) = s.mem.word r (slot a.sendAddr src) +
      if t.1 = r ∧ i = a.increment src then 1 else 0 := by
  have hsend := slot_send_lt ha hsrc
  have hbase := slot_base_lt ha r.pos
  split
  next h =>
    obtain ⟨rfl, rfl⟩ := h
    exact if_pos ⟨rfl, rfl⟩
  next hne =>
    rcases word_step ha hop hi hown (Nat.le_add_right a.sendAddr (src * flagSize)) with
      h | ⟨ht, ⟨-, m, -, -, h⟩ | ⟨-, -, h⟩ | ⟨src', -, rfl, h⟩⟩
    · exact h
    · exact absurd h (hsend m).ne
    · exact absurd h ((hsend 0).trans hbase).ne
    · exact absurd ⟨ht, slot_inj h ▸ rfl⟩ hne

theorem base_step {m : Nat} (hm : m < k.groupSize) :
    (effect t i s.mem).word r (slot a.baseAddr m) = s.mem.word r (slot a.baseAddr m) ∨
      i = a.baseStore r m := by
  rcases word_step ha hop hi hown (sendAddr_le_base ha m) with
    h | ⟨-, ⟨-, m', -, rfl, h⟩ | ⟨-, -, h⟩ | ⟨src, hsrc, -, h⟩⟩
  · exact .inl h
  · exact .inr (slot_inj h ▸ rfl)
  · exact absurd h (slot_base_lt ha hm).ne
  · exact absurd h (slot_send_lt ha hsrc m).ne'

theorem ready_step :
    (effect t i s.mem).word r (slot a.readyAddr 0) = s.mem.word r (slot a.readyAddr 0) ∨
      t.1 = r ∧ t.2.val = 0 ∧ i = a.readyStore k r := by
  rcases word_step ha hop hi hown (sendAddr_lt_ready ha r.pos).le with
    h | ⟨ht, ⟨-, m, hm, -, h⟩ | ⟨hz, rfl, -⟩ | ⟨src, hsrc, -, h⟩⟩
  · exact .inl h
  · exact absurd h (slot_base_lt ha hm).ne'
  · exact .inr ⟨ht, hz, rfl⟩
  · exact absurd h ((slot_send_lt ha hsrc 0).trans (slot_base_lt ha r.pos)).ne'

end

/-! ## The invariant -/

/-- The increments for a rank that are still to come. -/
def pending (op : Op) (a : AlltoAllOp) (k : Launch) (r : Fin k.groupSize) (s : k.Config)
    (src : Nat) : Nat :=
  ∑ c, ((op.system k).ahead s (r, c)).count (a.increment src)

omit hop ha in
theorem pending_perform (hi : (op.system k).next s t = some i) (src : Nat) :
    pending op a k r ((op.system k).perform s t i) src +
      (if t.1 = r ∧ i = a.increment src then 1 else 0) = pending op a k r s src := by
  have hone : (if t.1 = r ∧ i = a.increment src then 1 else 0) =
      ∑ c, if c = t.2 ∧ t.1 = r ∧ i = a.increment src then 1 else 0 := by
    simp only [ite_and, Finset.sum_ite_eq', Finset.mem_univ, if_true]
  rw [hone, pending, ← Finset.sum_add_distrib]
  refine Finset.sum_congr rfl fun c _ => ?_
  rw [System.ahead_perform]
  by_cases hc : (r, c) = t
  · subst hc
    rw [if_pos rfl, (op.system k).ahead_of_next hi, tail_cons, count_cons]
    simp only [beq_iff_eq, true_and]
  · rw [if_neg hc, if_neg fun h => hc (Prod.ext h.2.1.symm h.1), Nat.add_zero]

omit hop in
theorem count_rest (c src : Nat) : (a.rest k r c).count (a.increment src) =
    if c < a.aivNum r then (a.srcs r c).count src else 0 := by
  have hcopies : ∀ srcs : List Nat, (k.copies a.flagAddr a.sendAddr srcs).count
      (a.increment src) = srcs.count src := by
    intro srcs
    induction srcs with
    | nil => rfl
    | cons p srcs ih =>
      have heq : (Instr.add (slot a.sendAddr p) == a.increment src) = (p == src) := by
        rw [Bool.eq_iff_iff, beq_iff_eq, beq_iff_eq]
        exact ⟨fun h => slot_inj (Instr.add.inj h), fun h => h ▸ rfl⟩
      rw [copies, flatMap_cons, count_append, count_cons, count_cons, heq, ← copies, ih,
        count_cons]
      simp [increment, waitMetaValue, Nat.add_comm]
  rw [rest]
  split
  · rw [counting, ← append_assoc, count_append, count_append, hcopies, count_eq_zero.mpr,
      Nat.zero_add]
    · refine Nat.add_eq_left.mpr (count_eq_zero.mpr ?_)
      simp [increment, writeRangeStat, waitRangeStat, waitFlags, waitMetaValue, setMetaValue,
        barrierAll]
    · intro hmem
      simp only [initLocalStat, mem_append, mem_flatMap, mem_singleton] at hmem
      rcases hmem with ⟨dst, -, hmem⟩ | hmem | hmem
      · obtain ⟨_, _, _, _, heq, -⟩ := ha.told r dst _ hmem
        cases heq
      · split at hmem <;> simp [increment, setMetaValue] at hmem
      · cases hmem
  · simp [increment, barrierAll]

/-! ## Prepare -/

/-- As long as no core of the rank has left `Prepare`. -/
structure Early (op : Op) (a : AlltoAllOp) (k : Launch) (r : Fin k.groupSize) (z : Fin k.aivNum)
    (s : k.Config) : Prop where
  sent : ∀ src < k.groupSize, setMetaValue r a.sendAddr src 0 ∈ (op.system k).ahead s (r, z) ∨
    s.mem.word r (slot a.sendAddr src) = 0
  ready : s.mem.word r (slot a.readyAddr 0) ≠ k.waitSymbol

omit ha hop in
theorem length_prepare (rank : Nat) :
    (k.prepare a.sendAddr a.baseAddr rank).length = 2 * k.groupSize := by
  simp [prepare, length_flatMap, Nat.mul_comm]

omit ha in
theorem ahead_of_eq {c : Fin k.aivNum} (h : s.done (r, c) = 2 * k.groupSize) :
    (op.system k).ahead s (r, c) = a.rest k r c := by
  rw [System.ahead, show (op.system k).prog (r, c) = _ from process_eq hop r c, h]
  exact drop_left' (length_prepare _)

/-- Core 0 expects all increments. -/
theorem pending_le (h : ∀ c, s.done (r, c) = 2 * k.groupSize) {src : Nat}
    (hsrc : src < k.groupSize) : pending op a k r s src ≤ a.statBase r src % 2 ^ 32 := by
  refine le_trans ?_ (ha.expects r r.isLt src hsrc)
  have hcount : ∀ c : Fin k.aivNum, ((op.system k).ahead s (r, c)).count (a.increment src) =
      if c.val ∈ a.copying r src then 1 else 0 := by
    intro c
    rw [ahead_of_eq hop (h c), count_rest ha, (ha.nodup r c).count]
    simp only [copying, Finset.mem_filter, Finset.mem_range, ite_and]
  rw [pending, Finset.sum_congr rfl fun c _ => hcount c, ← Finset.card_filter]
  exact Finset.card_le_card_of_injOn Fin.val (fun c hc => (Finset.mem_filter.mp hc).2)
    Fin.val_injective.injOn

/-- A core that is in `Prepare` clears a counter. -/
theorem early_word (hi : (op.system k).next s t = some i)
    (hown : t.1 = r → i ∈ k.prepare a.sendAddr a.baseAddr r) {w : Nat}
    (hw : a.sendAddr ≤ w) : (effect t i s.mem).word r w = s.mem.word r w ∨
      (effect t i s.mem).word r w = 0 ∧ w ≠ slot a.readyAddr 0 := by
  by_cases ht : t.1 = r
  · obtain ⟨v, hv, rfl⟩ : ∃ v < slot a.readyAddr 0, i = .store r v ubPadCount 0 := by
      obtain ⟨m, hm, hmem⟩ := mem_flatMap.mp (hown ht)
      have hbase := slot_base_lt ha (mem_range.mp hm)
      simp only [mem_cons, not_mem_nil, or_false] at hmem
      rcases hmem with rfl | rfl
      · exact ⟨_, (slot_send_lt ha (mem_range.mp hm) m).trans hbase, rfl⟩
      · exact ⟨_, hbase, rfl⟩
    by_cases hwv : w = v
    · exact .inr ⟨if_pos ⟨rfl, hwv⟩, (hwv.trans_lt hv).ne⟩
    · exact .inl (word_store fun h => hwv h.2)
  · exact .inl (word_of_ne ha hop hi ht hw)

theorem Early.step {z : Fin k.aivNum} (hs : Early op a k r z s)
    (hi : (op.system k).next s t = some i) (hlt : t.1 = r → s.done t < 2 * k.groupSize) :
    Early op a k r z ((op.system k).perform s t i) := by
  have hown : t.1 = r → i ∈ k.prepare a.sendAddr a.baseAddr r := by
    rintro rfl
    have hget : (k.prepare a.sendAddr a.baseAddr t.1 ++ a.rest k t.1 t.2)[s.done t]? = some i :=
      process_eq hop t.1 t.2 ▸ hi
    rw [getElem?_append_left ((hlt rfl).trans_eq (length_prepare _).symm)] at hget
    exact mem_of_getElem? hget
  refine ⟨fun src hsrc => ?_, fun h => ?_⟩
  · rcases hs.sent src hsrc with h | h
    · refine (((op.system k).mem_ahead_iff hi).mp h).imp_right ?_
      rintro ⟨-, rfl⟩
      exact if_pos ⟨rfl, rfl⟩
    · rcases early_word ha hop hi hown (Nat.le_add_right a.sendAddr (src * flagSize)) with
        h' | ⟨h', -⟩
      · exact .inr (h'.trans h)
      · exact .inr h'
  · rcases early_word ha hop hi hown (sendAddr_lt_ready ha r.pos).le with h' | ⟨-, hne⟩
    · exact hs.ready (h'.symm.trans h)
    · exact hne rfl

theorem Early.of_reachable {m : Memory k.groupSize k.aivNum} (hs : (op.system k).Reachable m s)
    (hready : m.word r (slot a.readyAddr 0) ≠ k.waitSymbol) (z : Fin k.aivNum)
    (hdone : ∀ c, s.done (r, c) ≤ 2 * k.groupSize) : Early op a k r z s := by
  revert hdone
  refine hs.invariant (P := fun s => (∀ c, s.done (r, c) ≤ 2 * k.groupSize) → _)
    (fun _ => ⟨fun src hsrc => .inl ?_, hready⟩) fun s t i h hi _ hdone => ?_
  · change _ ∈ (op.system k).prog (r, z)
    rw [show (op.system k).prog (r, z) = _ from process_eq hop r z]
    exact mem_append_left _ (mem_flatMap.mpr ⟨src, mem_range.mpr hsrc, mem_cons_self⟩)
  · have hperform : ∀ c, s.done (r, c) + (if (r, c) = t then 1 else 0) ≤ 2 * k.groupSize := by
      intro c
      have hle := hdone c
      simp only [System.perform, Function.update_apply] at hle
      split at hle
      next heq =>
        rw [heq]
        simpa using hle
      next hne => simpa [hne] using hle
    refine (h fun c => (Nat.le_add_right _ _).trans (hperform c)).step ha hop hi ?_
    rintro rfl
    have hle := hperform t.2
    rw [if_pos rfl] at hle
    exact hle

/-- Nothing is lost.  Core `z` is core 0. -/
structure Inv (op : Op) (a : AlltoAllOp) (k : Launch) (r : Fin k.groupSize) (z : Fin k.aivNum)
    (total : Nat → Nat)
    (s : k.Config) : Prop where
  suffix : ∀ c, (op.system k).ahead s (r, c) <:+ a.rest k r c
  sent : ∀ src < k.groupSize, s.mem.word r (slot a.sendAddr src) + pending op a k r s src =
    total src
  base : ∀ m < k.groupSize, a.baseStore r m ∈ (op.system k).ahead s (r, z) ∨
    s.mem.word r (slot a.baseAddr m) = a.statBase r m % 2 ^ 32
  ready : s.mem.word r (slot a.readyAddr 0) = k.waitSymbol →
    ∀ m < k.groupSize, s.mem.word r (slot a.baseAddr m) = a.statBase r m % 2 ^ 32
  waited : ∀ c : Fin k.aivNum, c.val < a.aivNum r →
    a.waitReady k r ∈ (op.system k).ahead s (r, c) ∨
      ∀ m < k.groupSize, s.mem.word r (slot a.baseAddr m) = a.statBase r m % 2 ^ 32
  counted : ∀ c : Fin k.aivNum, c.val < a.aivNum r → ∀ dst < k.groupSize,
    a.waitLocal dst ∈ a.rest k r c →
      a.waitLocal dst ∈ (op.system k).ahead s (r, c) ∨ pending op a k r s dst = 0

theorem Inv.step {z : Fin k.aivNum} (hz : z.val = 0) {total : Nat → Nat}
    (htotal : ∀ src < k.groupSize, total src ≤ a.statBase r src % 2 ^ 32)
    (hs : Inv op a k r z total s) (hi : (op.system k).next s t = some i)
    (hr : (op.system k).ready t i s.mem = true) :
    Inv op a k r z total ((op.system k).perform s t i) := by
  have hown : t.1 = r → i ∈ a.rest k r t.2 := by
    rintro rfl
    exact (hs.suffix t.2).subset ((op.system k).ahead_of_next hi ▸ mem_cons_self)
  have hpending := pending_perform (a := a) (r := r) hi
  have hword : ∀ m < k.groupSize, s.mem.word r (slot a.baseAddr m) = a.statBase r m % 2 ^ 32 ∨
      i = a.baseStore r m →
      (effect t i s.mem).word r (slot a.baseAddr m) = a.statBase r m % 2 ^ 32 := by
    intro m hm h
    by_cases hi' : i = a.baseStore r m
    · rw [hi']
      exact if_pos ⟨rfl, rfl⟩
    · rw [(base_step ha hop hi hown hm).resolve_right hi']
      exact h.resolve_right hi'
  refine ⟨fun c => ?_, fun src hsrc => ?_, fun m hm => ?_, fun h m hm => ?_, fun c hc => ?_,
    fun c hc dst hdst hmem => ?_⟩
  · rw [System.ahead_perform]
    split
    next h =>
      rw [← h]
      exact (tail_suffix _).trans (hs.suffix c)
    next => exact hs.suffix c
  · have hsent := hs.sent src hsrc
    have hpending := hpending src
    have hstep := send_step ha hop hi hown hsrc
    change (effect t i s.mem).word _ _ + _ = _
    omega
  · rcases hs.base m hm with h | h
    · exact (((op.system k).mem_ahead_iff hi).mp h).imp_right fun h => hword m hm (.inr h.2.symm)
    · exact .inr (hword m hm (.inl h))
  · refine hword m hm (.inl ?_)
    rcases ready_step ha hop hi hown with hold | ⟨rfl, hz', rfl⟩
    · exact hs.ready (hold ▸ h) m hm
    · obtain rfl : t.2 = z := Fin.ext (hz'.trans hz.symm)
      refine (hs.base m hm).resolve_left ?_
      have hahead := hs.suffix t.2
      rw [hz', (op.system k).ahead_of_next hi] at hahead
      rw [(op.system k).ahead_of_next hi]
      exact baseStore_notMem ha hahead hm
  · rcases hs.waited c hc with h | h
    · refine (((op.system k).mem_ahead_iff hi).mp h).imp_right ?_
      rintro ⟨rfl, rfl⟩ m hm
      exact hword m hm (.inl (hs.ready (beq_iff_eq.mp hr) m hm))
    · exact .inr fun m hm => hword m hm (.inl (h m hm))
  · have hle := hpending dst
    rcases hs.counted c hc dst hdst hmem with h | h
    · refine (((op.system k).mem_ahead_iff hi).mp h).imp_right ?_
      rintro ⟨rfl, rfl⟩
      have hwaited := (hs.waited c hc).resolve_left fun h => by
        have hahead := hs.suffix c
        rw [(op.system k).ahead_of_next hi] at hahead h
        exact waitReady_notMem ha hahead h
      have heq : s.mem.word r (slot a.sendAddr dst) = s.mem.word r (slot a.baseAddr dst) :=
        beq_iff_eq.mp hr
      have hsent := hs.sent dst hdst
      have htotal := htotal dst hdst
      rw [heq, hwaited dst hdst] at hsent
      omega
    · exact .inr (by omega)

theorem Early.inv {z : Fin k.aivNum} (hz : z.val = 0) (hs : Early op a k r z s)
    (hdone : ∀ c, s.done (r, c) = 2 * k.groupSize) : Inv op a k r z (pending op a k r s) s := by
  have hahead : ∀ c, (op.system k).ahead s (r, c) = a.rest k r c := fun c =>
    ahead_of_eq hop (hdone c)
  have hsent : ∀ src < k.groupSize, s.mem.word r (slot a.sendAddr src) = 0 := by
    intro src hsrc
    refine (hs.sent src hsrc).resolve_left fun hmem => ?_
    have hlt := slot_send_lt ha hsrc
    rw [hahead] at hmem
    rcases rest_cases ha hmem with h | ⟨-, p, -, h⟩ | ⟨-, h⟩ | ⟨_, -, h⟩
    · have hlt : slot a.sendAddr src < a.sendAddr := h
      exact absurd hlt (not_lt.mpr (Nat.le_add_right _ _))
    · exact (hlt p).ne (Instr.store.inj h).2.1
    · exact ((hlt 0).trans (slot_base_lt ha r.pos)).ne (Instr.store.inj h).2.1
    · cases h
  refine ⟨fun c => ?_, fun src hsrc => ?_, fun p hp => .inl ?_, fun h => ?_, fun c hc => .inl ?_,
    fun c _ dst _ hmem => .inl ?_⟩
  · rw [hahead]
  · rw [hsent src hsrc, Nat.zero_add]
  · rw [hahead, hz, rest, if_pos (ha.pos r), initLocalStat, if_pos rfl]
    simp only [mem_append, mem_map, mem_range]
    exact .inl (.inr (.inl (.inl ⟨p, hp, rfl⟩)))
  · exact absurd h hs.ready
  · rw [hahead, rest, if_pos hc, initLocalStat]
    simp [waitReady]
  · rwa [hahead]

end Run

end Fits

/-- From a state on that is reached with all cores of the rank at the end of `Prepare`, no
increment is lost and no expected number is overwritten, and a core sends its state to a rank only
when all cores that copy from it have done so. -/
theorem alltoAll_counters_kept {k : Launch} {op : Op} {a : AlltoAllOp}
    (hop : op.alltoAll? k = some a) (hg : k.groupSize < 8192) (hcores : 0 < k.aivNum)
    (hlimit : k.aivNum < 2 ^ 16) (hcounts : op.CountsAddUp k) (r : Fin k.groupSize)
    {m : Memory k.groupSize k.aivNum}
    {s0 s : k.Config}
    (hready : m.word r (slot a.readyAddr 0) ≠ k.waitSymbol)
    (hs0 : (op.system k).Reachable m s0) (hprepared : ∀ c, s0.done (r, c) = 2 * k.groupSize)
    (hs : (op.system k).Reaches (fun _ _ => True) s0 s) :
    (∀ src < k.groupSize, s.mem.word r (slot a.sendAddr src) + pending op a k r s src =
      pending op a k r s0 src) ∧
    (∀ p < k.groupSize, a.baseStore r p ∈ (op.system k).ahead s (r, ⟨0, hcores⟩) ∨
      s.mem.word r (slot a.baseAddr p) = a.statBase r p % 2 ^ 32) ∧
    ∀ c : Fin k.aivNum, c.val < a.aivNum r → ∀ dst < k.groupSize,
      dst ∈ k.commonRanks (a.aivNum r) c →
      a.state k r dst ∉ (op.system k).ahead s (r, c) → pending op a k r s dst = 0 := by
  have ha := Fits.of_alltoAll? hop hg hcores hlimit hcounts
  have hearly := Early.of_reachable ha hop hs0 hready ⟨0, hcores⟩ fun c => (hprepared c).le
  have hinv : Inv op a k r ⟨0, hcores⟩ (pending op a k r s0) s :=
    hs.invariant (hearly.inv ha hop rfl hprepared) fun _ _ _ hs hi hr =>
      hs.step ha hop rfl (fun src hsrc => pending_le ha hop hprepared hsrc) hi hr
  refine ⟨hinv.sent, hinv.base, fun c hc dst hdst hcommon hstate => ?_⟩
  have hmem : a.waitLocal dst ∈ a.rest k r c := by
    rw [rest, if_pos hc, counting, writeRangeStat]
    simp only [mem_append, mem_flatMap]
    exact .inr (.inr (.inl ⟨dst, hcommon, mem_cons_self⟩))
  refine (hinv.counted c hc dst hdst hmem).resolve_left fun h => hstate ?_
  exact precedes_rest ha dst _ (hinv.suffix c) h

/-- Two ranks and three cores, of which two copy from rank 1. -/
theorem alltoAll_counters_kept_two :
    let k : Launch := ⟨2, 3, 7⟩
    let op := Op.alltoAll 3 (fun _ => 0) (fun _ _ => 0)
    ∃ a s0 s, op.alltoAll? k = some a ∧ (op.system k).Reachable ⟨fun _ _ => 0, fun _ _ => 0⟩ s0 ∧
      (op.system k).Reaches (fun _ _ => True) s0 s ∧ pending op a k 0 s0 1 = 2 ∧
      a.state k 0 1 ∈ (op.system k).executed s (0, 1) ∧ pending op a k 0 s 1 = 0 := by
  intro k op
  have hs0 := System.reaches_follow (S := op.system k)
    (replicate 4 (1, 0) ++ replicate 4 (0, 0) ++ replicate 4 (0, 1) ++ replicate 4 (0, 2))
    (start ⟨fun _ _ => 0, fun _ _ => 0⟩)
  have hs := System.reaches_follow (S := op.system k)
    (replicate 2 (1, 0) ++ replicate 5 (0, 0) ++ replicate 7 (0, 1) ++ replicate 3 (0, 2) ++
      replicate 2 (0, 1)) ((op.system k).follow
        (replicate 4 (1, 0) ++ replicate 4 (0, 0) ++ replicate 4 (0, 1) ++ replicate 4 (0, 2))
        (start ⟨fun _ _ => 0, fun _ _ => 0⟩))
  refine ⟨_, _, _, rfl, hs0, hs, by decide +kernel, by decide +kernel, ?_⟩
  exact (alltoAll_counters_kept rfl (by decide) (by decide) (by decide)
    (show op.CountsAddUp k from trivial) 0 (by decide) hs0 (by decide +kernel) hs).2.2
    1 (by decide) 1 (by decide) (by decide) (by decide +kernel)

/-- The third core begins when the second one has counted rank 1: both counters are zero again,
and the second core sends the state, although the third one has not copied its share. -/
theorem alltoAll_late_core_clears_counters :
    let k : Launch := ⟨2, 3, 7⟩
    let op := Op.alltoAll 3 (fun _ => 0) (fun _ _ => 0)
    ∃ a s, op.alltoAll? k = some a ∧ (op.system k).Reachable ⟨fun _ _ => 0, fun _ _ => 0⟩ s ∧
      a.state k 0 1 ∈ (op.system k).executed s (0, 1) ∧
      a.increment 1 ∈ (op.system k).ahead s (0, 2) := by
  intro k op
  have hs := System.reaches_follow (S := op.system k)
    (replicate 6 (1, 0) ++ replicate 4 (0, 1) ++ replicate 9 (0, 0) ++
      replicate 7 (0, 1) ++ replicate 4 (0, 2) ++ replicate 2 (0, 1))
    (start ⟨fun _ _ => 0, fun _ _ => 0⟩)
  exact ⟨_, _, rfl, hs, by decide +kernel, by decide +kernel⟩

end AlltoAllOp

end MemFabric.Zbal.Exchange
