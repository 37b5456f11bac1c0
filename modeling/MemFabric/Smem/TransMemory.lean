import MemFabric.Machine.Word64

/-!
# Regions before registration

`RegisterLocalMemories` of `smem_trans_entry.cpp` rounds every region to pages of the device
and combines the regions that overlap or touch.
-/

namespace MemFabric.Smem.Trans

open Machine.Word64 List

/-- Address and size. -/
abbrev Region := Nat × Nat

def npuPageSize : Nat := 2 * 1024 * 1024

def alignMemory (m : Region) : Region :=
  let mask := compl (npuPageSize - 1)
  let alignPtr := m.1 &&& mask
  let size := add m.2 (sub m.1 alignPtr)
  (alignPtr, sub (add size npuPageSize) 1 &&& mask)

def combineLoop (current : Region) : List Region → List Region
  | [] => [current]
  | m :: rest =>
    if m.1 ≤ add current.1 current.2 then
      let diff := sub m.1 current.1
      if sub (2 ^ 64 - 1) m.2 < diff then current :: combineLoop m rest
      else combineLoop (current.1, max current.2 (add diff m.2)) rest
    else current :: combineLoop m rest

def notAfter (a b : Region) : Bool := a.1 < b.1 ∨ a.1 = b.1 ∧ a.2 ≤ b.2

/-- The vector is not empty. -/
def combineMemories (input : List Region) : List Region :=
  match input.mergeSort notAfter with
  | [] => []
  | first :: rest => combineLoop first rest

/-- The regions that go to `RegisterOneMemory`, or `none` for `SM_INVALID_PARAM`. -/
def registerLocalMemories (regMemories : List Region) : Option (List Region) :=
  if ∃ m ∈ regMemories, m.1 = 0 ∨ m.2 = 0 then none
  else some (combineMemories (regMemories.map alignMemory))

def Covers (l : List Region) (x : Nat) : Prop := ∃ m ∈ l, m.1 ≤ x ∧ x < m.1 + m.2

theorem covers_cons {m : Region} {l : List Region} {x : Nat} :
    Covers (m :: l) x ↔ m.1 ≤ x ∧ x < m.1 + m.2 ∨ Covers l x := by
  simp only [Covers, mem_cons, exists_eq_or_imp]

theorem alignMemory_eq {m : Region} (h : m.1 + m.2 + npuPageSize < 2 ^ 63) :
    alignMemory m = (m.1 / npuPageSize * npuPageSize,
      (m.2 + m.1 % npuPageSize + (npuPageSize - 1)) / npuPageSize * npuPageSize) := by
  have hdown : m.1 &&& compl (npuPageSize - 1) = m.1 / npuPageSize * npuPageSize :=
    and_compl_eq (k := 21) (by omega) (by decide)
  have hsum : sub (add (add m.2 (sub m.1 (m.1 / npuPageSize * npuPageSize))) npuPageSize) 1 =
      m.2 + m.1 % npuPageSize + (npuPageSize - 1) := by
    unfold add sub npuPageSize at *
    omega
  have hup := and_compl_eq (n := m.2 + m.1 % npuPageSize + (npuPageSize - 1)) (k := 21)
    (by unfold npuPageSize at *; omega) (by decide)
  unfold alignMemory
  dsimp only
  rw [hdown, hsum]
  exact Prod.ext rfl hup

theorem covers_alignMemory {m : Region} (hpos : 0 < m.2) (h : m.1 + m.2 + npuPageSize < 2 ^ 63)
    (x : Nat) : (alignMemory m).1 ≤ x ∧ x < (alignMemory m).1 + (alignMemory m).2 ↔
      ∃ y, m.1 ≤ y ∧ y < m.1 + m.2 ∧ y / npuPageSize = x / npuPageSize := by
  simp only [alignMemory_eq h, npuPageSize]
  constructor
  · intro hx
    exact ⟨max m.1 (x / 2097152 * 2097152), by omega, by omega, by omega⟩
  · rintro ⟨y, hy⟩
    omega

theorem combineLoop_spec {p : Nat} {c : Region} {rest : List Region}
    (hsorted : (c :: rest).Pairwise fun a b => a.1 ≤ b.1)
    (h : ∀ m ∈ c :: rest, m.1 + m.2 < 2 ^ 64 ∧ p ∣ m.1 ∧ p ∣ m.2) :
    (combineLoop c rest).Pairwise (fun a b => a.1 + a.2 < b.1) ∧
      (∀ m ∈ combineLoop c rest, c.1 ≤ m.1 ∧ p ∣ m.1 ∧ p ∣ m.2) ∧
      ∀ x, Covers (combineLoop c rest) x ↔ Covers (c :: rest) x := by
  induction rest generalizing c with
  | nil => exact ⟨pairwise_singleton _ _, by simpa [combineLoop] using (h c mem_cons_self).2,
      fun _ => Iff.rfl⟩
  | cons m rest ih =>
    obtain ⟨hle, hrest⟩ := pairwise_cons.mp hsorted
    obtain ⟨hlem, hle⟩ := forall_mem_cons.mp hle
    obtain ⟨⟨hlt, hdvd⟩, hall⟩ := forall_mem_cons.mp h
    obtain ⟨⟨hltm, hdvdm⟩, hall'⟩ := forall_mem_cons.mp hall
    unfold combineLoop
    dsimp only
    rw [add_eq hlt, sub_eq hlem (by omega), sub_eq (by omega) (by decide), add_eq (by omega)]
    split_ifs with hmeets hwraps
    · omega
    · -- the region begins in the current one or right behind it
      have hmax : p ∣ max c.2 (m.1 - c.1 + m.2) := by
        rw [Nat.max_def]
        split_ifs
        · exact Nat.dvd_add (Nat.dvd_sub hdvdm.1 hdvd.1) hdvdm.2
        · exact hdvd.2
      have hbound : c.1 + max c.2 (m.1 - c.1 + m.2) < 2 ^ 64 := by omega
      obtain ⟨hapart, hpages, hcovers⟩ := ih (c := (c.1, max c.2 (m.1 - c.1 + m.2)))
        (pairwise_cons.mpr ⟨hle, hrest.tail⟩)
        (forall_mem_cons.mpr ⟨⟨hbound, hdvd.1, hmax⟩, hall'⟩)
      refine ⟨hapart, hpages, fun x => (hcovers x).trans ?_⟩
      rw [covers_cons, covers_cons, covers_cons, ← or_assoc]
      refine or_congr_left ?_
      dsimp only
      omega
    · obtain ⟨hapart, hpages, hcovers⟩ := ih hrest hall
      refine ⟨pairwise_cons.mpr ⟨fun n hn => ?_, hapart⟩, forall_mem_cons.mpr
        ⟨⟨le_rfl, hdvd⟩, fun n hn => ⟨hlem.trans (hpages n hn).1, (hpages n hn).2⟩⟩, fun x => ?_⟩
      · exact (not_le.mp hmeets).trans_le (hpages n hn).1
      · rw [covers_cons, hcovers, ← covers_cons]

/-- The regions that are registered are sorted, begin and end with a page, do not touch, and are
the pages that the given regions touch.  A list with an empty region is refused before. -/
theorem combineMemories_alignMemory (input : List Region) (hne : input ≠ [])
    (h : ∀ m ∈ input, m.1 + m.2 + npuPageSize < 2 ^ 63) :
    let out := combineMemories (input.map alignMemory)
    out.Pairwise (fun a b => a.1 + a.2 < b.1) ∧
      (∀ m ∈ out, npuPageSize ∣ m.1 ∧ npuPageSize ∣ m.1 + m.2) ∧
      ((∃ m ∈ input, m.2 = 0) ∧ registerLocalMemories input = none ∨ ∀ x, Covers out x ↔
        ∃ m ∈ input, ∃ y, m.1 ≤ y ∧ y < m.1 + m.2 ∧ y / npuPageSize = x / npuPageSize) := by
  have hsorted : ((input.map alignMemory).mergeSort notAfter).Pairwise _ := pairwise_mergeSort
    (fun a b c => by simp only [notAfter, decide_eq_true_eq]; omega)
    (fun a b => by simp only [notAfter, Bool.or_eq_true, decide_eq_true_eq]; omega) _
  have hmem : ∀ m, m ∈ (input.map alignMemory).mergeSort notAfter ↔
      ∃ n ∈ input, alignMemory n = m :=
    fun m => by rw [mem_mergeSort, mem_map]
  dsimp only
  unfold combineMemories
  split
  · next hnil =>
    have hlength := congrArg length hnil
    rw [length_mergeSort, length_map] at hlength
    exact absurd (length_eq_zero_iff.mp hlength) hne
  · next first rest hsort =>
    rw [hsort] at hsorted hmem
    obtain ⟨hapart, hpages, hcovers⟩ := combineLoop_spec (p := npuPageSize)
      (hsorted.imp fun hab => (of_decide_eq_true hab).elim le_of_lt fun heq => heq.1.le)
      fun m hm => by
        obtain ⟨n, hn, rfl⟩ := (hmem m).mp hm
        rw [alignMemory_eq (h n hn)]
        refine ⟨?_, Nat.dvd_mul_left _ _, Nat.dvd_mul_left _ _⟩
        have hbound := h n hn
        simp only [npuPageSize] at *
        omega
    refine ⟨hapart,
      fun m hm => ⟨(hpages m hm).2.1, Nat.dvd_add (hpages m hm).2.1 (hpages m hm).2.2⟩, ?_⟩
    by_cases hempty : ∃ m ∈ input, m.2 = 0
    · exact .inl ⟨hempty, if_pos (hempty.imp fun m hm => ⟨hm.1, .inr hm.2⟩)⟩
    · refine .inr fun x => (hcovers x).trans ?_
      simp only [Covers, hmem, exists_exists_and_eq_and]
      exact exists_congr fun n => and_congr_right fun hn =>
        covers_alignMemory (Nat.pos_of_ne_zero fun h0 => hempty ⟨n, hn, h0⟩) (h n hn) x

/-- A region in the middle of a page and one that ends where it begins. -/
theorem combineMemories_alignMemory_two :
    (combineMemories ([(3145728, 4096), (2097152, 1048576)].map alignMemory)).Pairwise
      fun a b => a.1 + a.2 < b.1 :=
  (combineMemories_alignMemory _ (by decide) (by decide)).1

end MemFabric.Smem.Trans
