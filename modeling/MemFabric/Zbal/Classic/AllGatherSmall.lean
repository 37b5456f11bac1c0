import MemFabric.Zbal.Classic.Exchange

/-!
# The end of the small all-gather

`AllGatherSmallKernel`: a core of a rank that has copied from the input of another rank sends
it a state, and a rank ends when it has the states of all ranks.  With one core for each rank
nobody reads an input any more when its rank ends.
-/

namespace MemFabric.Zbal.Exchange

open Machine.Cores List

/-- What a core does with the exchange spaces, and the copy from the input of a rank. -/
inductive CopyInstr
  | exchange (i : Instr)
  | copy (src : Nat)
deriving DecidableEq

namespace Launch

variable (k : Launch)

open CopyInstr in
/-- `AllGatherSmallKernel::Process`, with the copies. -/
def allGatherSmallProcess (input : Nat → Nat) (rank aivIndex : Nat) : List CopyInstr :=
  ((k.exchangeRanks aivIndex).flatMap
      (k.exchangeAddrFlag k.smallArea (input rank) rank)).map exchange ++
    if k.aivNum < k.groupSize then
      let remainder := k.groupSize % k.aivNum
      let ranksPerCore :=
        if aivIndex < remainder then k.groupSize / k.aivNum + 1 else k.groupSize / k.aivNum
      let startRank :=
        if remainder ≤ aivIndex then aivIndex * ranksPerCore + remainder
        else aivIndex * ranksPerCore
      (ranks startRank (startRank + ranksPerCore)).flatMap fun offset =>
        [exchange (waitMetaValue k.smallArea offset k.waitSymbol), copy offset] ++
          ((k.writeStatTo rank offset).map exchange ++
            [exchange (waitMetaValue (2 * k.smallArea) offset k.waitSymbol)])
    else
      let offset := k.innerOffset aivIndex
      [exchange (waitMetaValue k.smallArea offset k.waitSymbol), copy offset] ++
        ((k.writeStat rank aivIndex).map exchange ++
          (exchange (waitMetaValue (2 * k.smallArea) offset k.waitSymbol) ::
            (syncAll 0).map exchange))

def exchange? : CopyInstr → Option Instr
  | .exchange i => some i
  | .copy _ => none

/-- Apart from the copies this is what the kernel does with the exchange spaces. -/
theorem filterMap_allGatherSmallProcess (input : Nat → Nat) (rank aivIndex : Nat) :
    (k.allGatherSmallProcess input rank aivIndex).filterMap exchange? =
      k.allGatherSmall input rank aivIndex := by
  have hi : ∀ i, exchange? (.exchange i) = some i := fun _ => rfl
  have hcopy : ∀ src, exchange? (.copy src) = none := fun _ => rfl
  rw [allGatherSmallProcess, allGatherSmall, filterMap_append]
  split
  · rw [innerProcessLargeGroupSize, filterMap_flatMap]
    simp [hi, hcopy]
  · simp [innerProcess, hi, hcopy]

def allGatherSmallSystem (input : Nat → Nat) :
    System (Fin k.groupSize × Fin k.aivNum) CopyInstr (Memory k.groupSize k.aivNum) where
  prog t := k.allGatherSmallProcess input t.1 t.2
  ready t
    | .exchange i, m => ready t i m
    | .copy _, _ => true
  effect t
    | .exchange i, m => effect t i m
    | .copy _, m => m

def stat (rank dst : Nat) : CopyInstr :=
  .exchange (setMetaValue dst (2 * k.smallArea) rank k.waitSymbol)

def Ended (input : Nat → Nat) (s : k.Config) (r : Fin k.groupSize) : Prop :=
  ∀ c, (k.allGatherSmallSystem input).ahead s (r, c) = []

/-! ## One core for each rank -/

variable {k} {input : Nat → Nat}

section

variable (h : k.aivNum = k.groupSize) {s : k.Config}

include h

/-- A core serves the rank of its own index. -/
theorem prog_eq (t : Fin k.groupSize × Fin k.aivNum) : (k.allGatherSmallSystem input).prog t =
    [.exchange (setMetaValue t.2 0 t.1 (input t.1)),
      .exchange (setMetaValue t.2 k.smallArea t.1 k.waitSymbol),
      .exchange (waitMetaValue k.smallArea t.2 k.waitSymbol), .copy t.2, k.stat t.1 t.2,
      .exchange (waitMetaValue (2 * k.smallArea) t.2 k.waitSymbol),
      .exchange (.arrive (.syncAll 0)), .exchange (.await (.syncAll 0))] := by
  have hc := t.2.isLt
  have hg : 0 < k.groupSize := by omega
  have hranks : k.exchangeRanks t.2 = [t.2.val] := by
    rw [exchangeRanks, if_neg (by omega), if_pos (by omega)]
  have hoffset : k.innerOffset t.2 = t.2 := by
    simp [innerOffset, h, hg]
  have hstat : k.writeStat t.1 t.2 =
      [setMetaValue t.2 (2 * k.smallArea) t.1 k.waitSymbol] := by
    simp [writeStat, h, hg, Nat.mod_one]
  change k.allGatherSmallProcess input t.1 t.2 = _
  rw [allGatherSmallProcess, if_neg (by omega), hranks, hoffset, hstat]
  rfl

/-- A state that has come was sent by the fifth instruction of a core, and so was one that has
been waited for. -/
structure SmallInv (h : k.aivNum = k.groupSize) (s : k.Config) : Prop where
  stored : ∀ r p : Fin k.groupSize, s.mem.word r (slot (2 * k.smallArea) p) = k.waitSymbol →
    4 < s.done (p, r.cast h.symm)
  waited : ∀ r p : Fin k.groupSize, 5 < s.done (r, p.cast h.symm) → 4 < s.done (p, r.cast h.symm)

theorem effect_word (hg : k.groupSize < 8192) {t : Fin k.groupSize × Fin k.aivNum} {i : CopyInstr}
    (hi : (k.allGatherSmallSystem input).next s t = some i) {r p : Fin k.groupSize}
    (hne : ¬ (t = (p, r.cast h.symm) ∧ s.done t = 4)) :
    ((k.allGatherSmallSystem input).effect t i s.mem).word r (slot (2 * k.smallArea) p) =
      s.mem.word r (slot (2 * k.smallArea) p) := by
  have harea : k.smallArea = k.groupSize * flagSize := smallArea_eq hg
  have hother : ∀ addr value, addr + k.groupSize * flagSize ≤ 2 * k.smallArea →
      ((k.allGatherSmallSystem input).effect t
        (.exchange (setMetaValue t.2 addr t.1 value)) s.mem).word r (slot (2 * k.smallArea) p) =
        s.mem.word r (slot (2 * k.smallArea) p) := fun addr value hle =>
    if_neg fun heq => (slot_lt t.1.isLt hle).ne' heq.2
  rw [System.next, prog_eq h] at hi
  obtain ⟨hlt, rfl⟩ := List.getElem?_eq_some_iff.mp hi
  generalize s.done t = n at hlt hne
  have hn : n = 0 ∨ n = 1 ∨ n = 2 ∨ n = 3 ∨ n = 4 ∨ n = 5 ∨ n = 6 ∨ n = 7 := by
    simp only [length_cons, length_nil] at hlt
    omega
  rcases hn with rfl | rfl | rfl | rfl | rfl | rfl | rfl | rfl
  · exact hother _ _ (by omega)
  · exact hother _ _ (by omega)
  · rfl
  · rfl
  · refine if_neg fun heq => hne ⟨?_, rfl⟩
    exact Prod.ext (Fin.ext (slot_inj heq.2).symm) (Fin.ext heq.1.symm)
  · rfl
  · rfl
  · rfl

theorem SmallInv.step (hg : k.groupSize < 8192) (hs : SmallInv h s)
    {t : Fin k.groupSize × Fin k.aivNum} {i : CopyInstr}
    (hi : (k.allGatherSmallSystem input).next s t = some i)
    (hr : (k.allGatherSmallSystem input).ready t i s.mem = true) :
    SmallInv h ((k.allGatherSmallSystem input).perform s t i) := by
  have hdone : ∀ u, ((k.allGatherSmallSystem input).perform s t i).done u =
      s.done u + if u = t then 1 else 0 := by
    intro u
    simp only [System.perform, Function.update_apply]
    split
    next hu => rw [hu]
    next => rfl
  refine ⟨fun r p hword => ?_, fun r p hlt => ?_⟩
  · rw [hdone]
    by_cases hsend : t = (p, r.cast h.symm) ∧ s.done t = 4
    · rw [if_pos hsend.1.symm, ← hsend.1]
      omega
    · rw [System.perform_mem, effect_word h hg hi hsend] at hword
      exact Nat.lt_add_right _ (hs.stored r p hword)
  · rw [hdone] at hlt ⊢
    apply Nat.lt_add_right
    by_cases hwait : (r, p.cast h.symm) = t ∧ s.done t = 5
    · obtain ⟨rfl, hn⟩ := hwait
      rw [System.next, prog_eq h, hn] at hi
      cases hi
      exact hs.stored r p (beq_iff_eq.mp hr)
    · refine hs.waited r p ?_
      split at hlt
      next hu =>
        have hn : s.done (r, p.cast h.symm) ≠ 5 := fun hn => hwait ⟨hu, hu ▸ hn⟩
        omega
      next => exact hlt

end

/-- With one core for each rank: when a rank has ended, no core of any rank has still to copy
from its input; and the states that a rank sends go to its own slot at the ranks of the group,
one to each of them. -/
theorem allGatherSmall_completes {k : Launch} (input : Nat → Nat) (h : k.aivNum = k.groupSize)
    (hg : k.groupSize < 8192) {m : Memory k.groupSize k.aivNum}
    (hm : ∀ r p : Fin k.groupSize, m.word r (slot (2 * k.smallArea) p) ≠ k.waitSymbol) :
    (∀ s, (k.allGatherSmallSystem input).Reachable m s → ∀ r, k.Ended input s r → ∀ u,
      .copy r.val ∉ (k.allGatherSmallSystem input).ahead s u) ∧
    ∀ p : Fin k.groupSize,
      (∀ c dst word count value, .exchange (.store dst word count value) ∈
          (k.allGatherSmallSystem input).prog (p, c) → slot (2 * k.smallArea) 0 ≤ word →
        .exchange (.store dst word count value) = k.stat p dst ∧ dst < k.groupSize) ∧
      ∀ dst < k.groupSize, ∃ c0, ∀ c,
        ((k.allGatherSmallSystem input).prog (p, c)).count (k.stat p dst) =
          if c = c0 then 1 else 0 := by
  have harea : k.smallArea = k.groupSize * flagSize := smallArea_eq hg
  refine ⟨fun s hs r hended u hmem => ?_, fun p => ⟨?_, fun dst hdst => ?_⟩⟩
  · have hinv : SmallInv h s := hs.invariant
      ⟨fun r p hword => absurd hword (hm r p), fun _ _ hlt => absurd hlt (Nat.not_lt_zero 5)⟩
      fun _ _ _ hs hi hr => hs.step h hg hi hr
    have hlen := drop_eq_nil_iff.mp (hended (u.1.cast h.symm))
    rw [prog_eq h] at hlen
    have hlt := hinv.waited r u.1 (Nat.lt_of_lt_of_le (Nat.lt_of_sub_eq_succ rfl) hlen)
    have hu : u.2 = r.cast h.symm := by
      have := mem_of_mem_drop hmem
      rw [prog_eq h] at this
      simpa [stat, eq_comm, Fin.ext_iff] using this
    rw [← hu] at hlt
    rw [System.ahead, prog_eq h] at hmem
    have := (drop_sublist_drop_left _ hlt).subset hmem
    simp at this
  · intro c dst word count value hmem hle
    rw [prog_eq h] at hmem
    simp only [mem_cons, CopyInstr.exchange.injEq, setMetaValue, waitMetaValue, stat,
      Instr.store.injEq, slot, harea, flagSize, reduceCtorEq, not_mem_nil, or_false,
      false_or] at hmem hle ⊢
    rcases hmem with hmem | hmem | hmem
    · omega
    · omega
    · exact ⟨⟨trivial, hmem.2⟩, hmem.1 ▸ h ▸ c.isLt⟩
  · refine ⟨⟨dst, h ▸ hdst⟩, fun c => ?_⟩
    have hpos : 0 < k.smallArea := harea ▸ Nat.mul_pos p.pos (by decide)
    have h0 : ¬ 2 * k.smallArea = 0 := by omega
    have h1 : ¬ k.smallArea = 2 * k.smallArea := by omega
    rw [prog_eq h]
    simp [count_cons, stat, setMetaValue, waitMetaValue, slot, h0, h1, Fin.ext_iff]

/-- Rank 0 ends before the second core of rank 1 has begun. -/
theorem allGatherSmall_completes_two :
    let k : Launch := ⟨2, 2, 7⟩
    let S := k.allGatherSmallSystem fun _ => 0
    (∃ s, S.Reachable { word := fun _ _ => 0 } s ∧ k.Ended (fun _ => 0) s 0 ∧
      .copy 1 ∈ S.ahead s (1, 1) ∧ ∀ u, .copy 0 ∉ S.ahead s u) ∧
    ∃ c0, ∀ c, (S.prog (0, c)).count (k.stat 0 1) = if c = c0 then 1 else 0 := by
  intro k S
  obtain ⟨hread, hsent⟩ := allGatherSmall_completes (fun _ => 0) (k := k) rfl (by decide)
    (m := { word := fun _ _ => 0 }) (by simp)
  have hs := System.reaches_follow (S := S) (replicate 2 (1, 0) ++ replicate 5 (0, 1) ++
    replicate 3 (1, 0) ++ replicate 7 (0, 0) ++ replicate 3 (0, 1) ++ [(0, 0)])
    (start { word := fun _ _ => 0 })
  refine ⟨⟨_, hs, ?_, by decide +kernel, hread _ hs 0 ?_⟩, (hsent 0).2 1 (by decide)⟩
  all_goals
    unfold Ended
    decide +kernel

/-- Core 45 of 48 takes itself for a core of a sixth rank. -/
theorem allGatherSmall_state_leaves_group :
    (⟨5, 48, 7⟩ : Launch).stat 0 5 ∈
      ((⟨5, 48, 7⟩ : Launch).allGatherSmallSystem fun _ => 0).prog (0, 45) := by
  decide

end Launch

end MemFabric.Zbal.Exchange
