import MemFabric.Hybm.VaManager

/-!
# The maps agree

The ranges in one map do not overlap, and every info is in the map of each type for which
it has an address.  The calls keep this, so the neighbours that `CheckOverlap` looks at
decide whether a range is free, and what is found at an address is the only entry there.
-/

namespace MemFabric.Hybm

open Machine Ordered AllocatedGvaInfo Option

/-! ## Ranges -/

namespace AllocatedGvaInfo

def range (info : AllocatedGvaInfo) (j : Fin hvmButt) : Extent := ⟨info.base.va j, info.base.size⟩

structure Fits (info : AllocatedGvaInfo) : Prop where
  pos : 0 < info.base.size
  noWrap : ∀ j, info.base.va j + info.base.size < 2 ^ 64

variable {info info' : AllocatedGvaInfo}

theorem Fits.contains_iff (h : info.Fits) {addr : Nat} {t : Fin hvmButt} :
    info.contains addr t = true ↔ addr ∈ info.range t := by
  rw [contains, decide_eq_true_eq, Nat.mod_eq_of_lt (h.noWrap t)]
  exact Iff.rfl

theorem range_of_same (h : info.same info' = true) (j : Fin hvmButt) :
    info.range j = info'.range j := by
  obtain ⟨hva, hsize, -⟩ := of_decide_eq_true h
  rw [range, range, hva, hsize]

end AllocatedGvaInfo

namespace HybmVaManager

def extentAt (j : Fin hvmButt) (it : Nat × AllocatedGvaInfo) : Extent := it.2.range j

structure Inv (m : HybmVaManager) : Prop where
  fits : ∀ j, ∀ it ∈ m.allocatedMap j, it.2.Fits
  nonzero : ∀ j, ∀ it ∈ m.allocatedMap j, it.2.base.va j ≠ 0
  apart : ∀ j, Apart (extentAt j) (m.allocatedMap j)
  present : ∀ i j, ∀ it ∈ m.allocatedMap i, it.2.base.va j ≠ 0 →
    (it.2.base.va j, it.2) ∈ m.allocatedMap j

/-- What is known of each map alone, also when infos are recorded for global addresses only. -/
structure Ranges (m : HybmVaManager) : Prop where
  fits : ∀ j, ∀ it ∈ m.allocatedMap j, it.2.Fits
  nonzero : ∀ j, ∀ it ∈ m.allocatedMap j, it.2.base.va j ≠ 0
  apart : ∀ j, Apart (extentAt j) (m.allocatedMap j)

theorem Inv.ranges {m : HybmVaManager} (h : Inv m) : Ranges m := ⟨h.fits, h.nonzero, h.apart⟩

theorem ranges_start : Ranges {} where
  fits _ it hit := absurd hit (notMem_empty it)
  nonzero _ it hit := absurd hit (notMem_empty it)
  apart _ := .empty

theorem inv_start : Inv {} where
  fits := ranges_start.fits
  nonzero := ranges_start.nonzero
  apart := ranges_start.apart
  present _ _ it hit := absurd hit (notMem_empty it)

section Inv

variable {m : HybmVaManager} {info : AllocatedGvaInfo} {it : Nat × AllocatedGvaInfo}
  {j : Fin hvmButt}

theorem Ranges.keyed (h : Ranges m) (hit : it ∈ m.allocatedMap j) : it = (it.2.base.va j, it.2) :=
  Prod.ext ((h.apart j).starts it hit).symm rfl

/-! ## Overlaps -/

section

variable (h : Ranges m) (hinfo : info.Fits)

include h hinfo

theorem Ranges.overlaps_iff (hit : it ∈ m.allocatedMap j) :
    overlaps (info.base.va j) ((info.base.va j + info.base.size) % 2 ^ 64) it = true ↔
      (it.2.range j).Meets (info.range j) := by
  have hfits := h.fits j it hit
  have hkey : it.1 = it.2.base.va j := congrArg Prod.fst (h.keyed hit)
  have hwrap := hfits.noWrap j
  rw [Extent.meets_iff hfits.pos hinfo.pos, overlaps, decide_eq_true_eq, hkey,
    Nat.mod_eq_of_lt (hinfo.noWrap j), Nat.mod_eq_of_lt (by omega)]
  have hpos := hfits.pos
  have hpos' := hinfo.pos
  simp only [range]
  omega

theorem Ranges.checkOverlap_some {old : AllocatedGvaInfo}
    (hold : m.checkOverlap (info.base.va j) info.base.size j = some old) :
    (old.base.va j, old) ∈ m.allocatedMap j ∧ (old.range j).Meets (info.range j) := by
  have hentry : ∀ it, it ∈ m.allocatedMap j →
      overlaps (info.base.va j) ((info.base.va j + info.base.size) % 2 ^ 64) it = true →
      it.2 = old →
      (old.base.va j, old) ∈ m.allocatedMap j ∧ (old.range j).Meets (info.range j) := by
    rintro it hit hoverlaps rfl
    exact ⟨h.keyed hit ▸ hit, (h.overlaps_iff hinfo hit).mp hoverlaps⟩
  unfold checkOverlap at hold
  dsimp only at hold
  split at hold
  · next it hfilter =>
    obtain ⟨hupper, hoverlaps⟩ := filter_eq_some_iff.mp hfilter
    exact hentry it (of_upperBound_eq_some hupper).1 hoverlaps (some.inj hold)
  · obtain ⟨it, hfilter, heq⟩ := map_eq_some_iff.mp hold
    obtain ⟨hupTo, hoverlaps⟩ := filter_eq_some_iff.mp hfilter
    exact hentry it (of_upTo_eq_some hupTo).1 hoverlaps heq

theorem Ranges.checkOverlap_none (hnone : m.checkOverlap (info.base.va j) info.base.size j = none)
    (hit : it ∈ m.allocatedMap j) : ¬ (it.2.range j).Meets (info.range j) := by
  intro hmeets
  unfold checkOverlap at hnone
  dsimp only at hnone
  split at hnone
  · cases hnone
  · next hfilter =>
    rcases (h.apart j).neighbour hinfo.pos hit hmeets with ⟨b, hb, hmeets'⟩ | ⟨b, hb, hmeets'⟩
    · have hmem := (of_upperBound_eq_some hb).1
      have hoverlaps := (h.overlaps_iff hinfo hmem).mpr hmeets'
      rw [show (m.allocatedMap j).upperBound (info.base.va j) = some b from hb,
        filter_some, if_pos hoverlaps] at hfilter
      cases hfilter
    · have hmem := (of_upTo_eq_some hb).1
      have hoverlaps := (h.overlaps_iff hinfo hmem).mpr hmeets'
      rw [show (m.allocatedMap j).upTo (info.base.va j) = some b from hb,
        filter_some, if_pos hoverlaps] at hnone
      cases hnone

end

/-- An info can be added if everything that it overlaps is the same info. -/
def Free (m : HybmVaManager) (info : AllocatedGvaInfo) : Prop :=
  ∀ j, info.base.va j ≠ 0 → ∀ it ∈ m.allocatedMap j, (it.2.range j).Meets (info.range j) →
    it.2.same info = true

/-- Whether the found overlap is one with the same info decides for all overlaps: what
overlaps the range of an info overlaps the recorded range of that info. -/
theorem Ranges.checkOverlap_any (h : Ranges m) (hinfo : info.Fits) :
    (m.checkOverlap (info.base.va j) info.base.size j).any (fun old => !old.same info) = true ↔
      ∃ it ∈ m.allocatedMap j, (it.2.range j).Meets (info.range j) ∧ it.2.same info = false := by
  cases hcheck : m.checkOverlap (info.base.va j) info.base.size j with
  | none =>
    refine ⟨(fun hany => by cases hany), ?_⟩
    rintro ⟨it, hit, hmeets, -⟩
    exact absurd hmeets (h.checkOverlap_none hinfo hcheck hit)
  | some old =>
    obtain ⟨hmem, hmeets⟩ := h.checkOverlap_some hinfo hcheck
    rw [any_some, Bool.not_eq_true']
    refine ⟨fun hsame => ⟨_, hmem, hmeets, hsame⟩, ?_⟩
    rintro ⟨it, hit, hmeets', hdiffers⟩
    by_contra hsame
    rw [Bool.not_eq_false] at hsame
    rw [← range_of_same hsame j] at hmeets'
    have heq := (h.apart j).unique it hit _ hmem hmeets'
    rw [heq] at hdiffers
    exact absurd (hsame.symm.trans hdiffers) (by decide)

variable {i : Fin hvmButt} {onlyGva : Bool} {va type : Nat}

theorem records_false : records info false i = true ↔ info.base.va i ≠ 0 :=
  decide_eq_true_iff

def Clear (m : HybmVaManager) (info : AllocatedGvaInfo) (onlyGva : Bool) : Prop :=
  ∀ j, records info onlyGva j = true → ∀ it ∈ m.allocatedMap j,
    (it.2.range j).Meets (info.range j) → it.2.same info = true

theorem clear_false : Clear m info false ↔ Free m info := by
  simp only [Clear, Free, records_false]

theorem Ranges.conflicts_iff (h : Ranges m) (hinfo : info.Fits) (onlyGva : Bool) :
    m.conflicts info onlyGva = true ↔ ¬ Clear m info onlyGva := by
  rw [conflicts, List.any_eq_true]
  simp only [Bool.and_eq_true, h.checkOverlap_any hinfo, List.mem_finRange,
    true_and, Clear, not_forall, Bool.not_eq_true, exists_prop]

/-! ## Adding -/

def recorded (m : HybmVaManager) (info : AllocatedGvaInfo) : HybmVaManager where
  allocatedMap i :=
    if info.base.va i ≠ 0 then (m.allocatedMap i).assign (info.base.va i, info)
    else m.allocatedMap i

/-- The maps after an info has been recorded for all its addresses, or for the global one. -/
def entered (m : HybmVaManager) (info : AllocatedGvaInfo) (onlyGva : Bool) : HybmVaManager where
  allocatedMap i :=
    if records info onlyGva i then (m.allocatedMap i).assign (info.base.va i, info)
    else m.allocatedMap i

theorem entered_false : m.entered info false = m.recorded info := by
  simp only [entered, recorded, records_false]

theorem mem_entered :
    it ∈ (m.entered info onlyGva).allocatedMap j ↔
      it = (info.base.va j, info) ∧ records info onlyGva j = true ∨
        it ∈ m.allocatedMap j ∧ (records info onlyGva j = true → it.1 ≠ info.base.va j) := by
  unfold entered
  dsimp only
  split
  · next hrecords => simp [hrecords]
  · next hrecords => simp [hrecords]

theorem mem_recorded :
    it ∈ (m.recorded info).allocatedMap j ↔
      it = (info.base.va j, info) ∧ info.base.va j ≠ 0 ∨
        it ∈ m.allocatedMap j ∧ (info.base.va j ≠ 0 → it.1 ≠ info.base.va j) := by
  rw [← entered_false, mem_entered, records_false]

theorem Clear.same_of_va (hclear : Clear m info onlyGva) (h : Ranges m) (hinfo : info.Fits)
    (hrecords : records info onlyGva j = true) (hit : it ∈ m.allocatedMap j)
    (heq : it.2.base.va j = info.base.va j) : it.2.same info = true := by
  refine hclear j hrecords it hit ?_
  have hpos := (h.fits j it hit).pos
  have hpos' := hinfo.pos
  rw [Extent.meets_iff hpos hpos']
  simp only [range]
  omega

theorem Ranges.entered (h : Ranges m) (hinfo : info.Fits)
    (hclear : Clear m info onlyGva) : Ranges (m.entered info onlyGva) where
  fits j it hit := by
    rcases mem_entered.mp hit with ⟨rfl, -⟩ | ⟨hit, -⟩
    · exact hinfo
    · exact h.fits j it hit
  nonzero j it hit := by
    rcases mem_entered.mp hit with ⟨rfl, hrecords⟩ | ⟨hit, -⟩
    · exact of_decide_eq_true (Bool.and_eq_true_iff.mp hrecords).2
    · exact h.nonzero j it hit
  apart j := by
    unfold HybmVaManager.entered
    dsimp only
    split
    · next hrecords =>
      refine (h.apart j).assign rfl hinfo.pos fun it hit hmeets => ?_
      have hsame := hclear j hrecords it hit hmeets
      rw [← (h.apart j).starts it hit]
      exact congrArg Extent.offset (range_of_same hsame j)
    · exact h.apart j

theorem addVaInfo_eq (hinfo : info.Fits) (onlyGva : Bool) :
    m.addVaInfo info onlyGva =
      if info.base.memType = .butt ∨ m.conflicts info onlyGva = true then (bmError, m)
      else (bmOk, m.entered info onlyGva) := by
  unfold addVaInfo entered
  rw [if_neg hinfo.pos.ne']
  split <;> split <;> simp_all

theorem Ranges.addVaInfo_cases (h : Ranges m) (hinfo : info.Fits) (onlyGva : Bool) :
    (info.base.memType = .butt ∨ ¬ Clear m info onlyGva) ∧ m.addVaInfo info onlyGva = (bmError, m) ∨
      (info.base.memType ≠ .butt ∧ Clear m info onlyGva) ∧
        m.addVaInfo info onlyGva = (bmOk, m.entered info onlyGva) := by
  rw [addVaInfo_eq hinfo onlyGva]
  by_cases hfails : info.base.memType = .butt ∨ m.conflicts info onlyGva = true
  · rw [if_pos hfails]
    rw [h.conflicts_iff hinfo] at hfails
    exact .inl ⟨hfails, rfl⟩
  · rw [if_neg hfails]
    rw [h.conflicts_iff hinfo, not_or, not_not] at hfails
    exact .inr ⟨hfails, rfl⟩

theorem Inv.addVaInfo_cases (h : Inv m) (hinfo : info.Fits) :
    (info.base.memType = .butt ∨ ¬ Free m info) ∧ m.addVaInfo info = (bmError, m) ∨
      (info.base.memType ≠ .butt ∧ Free m info) ∧ m.addVaInfo info = (bmOk, m.recorded info) := by
  have hcases := h.ranges.addVaInfo_cases hinfo false
  rwa [clear_false, entered_false] at hcases

theorem Inv.recorded (h : Inv m) (hinfo : info.Fits) (hfree : Free m info) :
    Inv (m.recorded info) := by
  have hclear := clear_false.mpr hfree
  have hranges : Ranges (m.recorded info) := by
    rw [← entered_false]
    exact h.ranges.entered hinfo hclear
  refine { hranges with present := fun i j it hit hva => ?_ }
  rw [mem_recorded]
  rcases mem_recorded.mp hit with ⟨rfl, -⟩ | ⟨hit, hother⟩
  · exact .inl ⟨rfl, hva⟩
  · refine .inr ⟨h.present i j it hit hva, fun hrecords heq => ?_⟩
    -- then the two infos agree in all types, and the entry was replaced in map `i`
    have hsame := hclear.same_of_va h.ranges hinfo (records_false.mpr hrecords)
      (h.present i j it hit hva) heq
    have hvai : it.2.base.va i = info.base.va i :=
      congrArg Extent.offset (range_of_same hsame i)
    refine hother (hvai ▸ h.nonzero i it hit) ?_
    rw [← hvai]
    exact congrArg Prod.fst (h.ranges.keyed hit)

/-! ## Removing -/

def without (m : HybmVaManager) (info : AllocatedGvaInfo) : HybmVaManager where
  allocatedMap i := (m.allocatedMap i).erase (info.base.va i)

/-- An entry of another map is removed if there is one at the address. -/
theorem Ranges.eraseAt_eq (h : Ranges m) (info : AllocatedGvaInfo) (i : Fin hvmButt) :
    m.eraseAt info i = (m.allocatedMap i).erase (info.base.va i) := by
  unfold eraseAt
  cases hfind : (m.allocatedMap i).find (info.base.va i) with
  | none =>
    refine Ordered.ext fun other => ?_
    rw [mem_erase]
    exact ⟨fun hother => ⟨hother, find_eq_none.mp hfind other hother⟩, And.left⟩
  | some its =>
    obtain ⟨hits, hkey⟩ := find_eq_some.mp hfind
    have hva : its.2.base.va i = info.base.va i := ((h.apart i).starts its hits).trans hkey
    dsimp only
    rw [if_pos hva, hkey]

theorem Ranges.removeOneVaInfo_eq (h : Ranges m) (htype : type < hvmButt)
    (hit : (va, info) ∈ m.allocatedMap ⟨type, htype⟩) :
    m.removeOneVaInfo va type = m.without info := by
  have hkey : va = info.base.va ⟨type, htype⟩ := congrArg Prod.fst (h.keyed hit)
  have hva : va ≠ 0 := hkey ▸ h.nonzero _ _ hit
  unfold removeOneVaInfo
  rw [dif_neg (by omega)]
  dsimp only
  rw [find_eq_some.mpr ⟨hit, rfl⟩]
  refine congrArg HybmVaManager.mk (funext fun i => ?_)
  split
  · next heq =>
    subst heq
    exact congrArg (erase _) hkey
  · exact h.eraseAt_eq info i

theorem Ranges.without (h : Ranges m) (info : AllocatedGvaInfo) : Ranges (m.without info) where
  fits j it hit := h.fits j it (mem_erase.mp hit).1
  nonzero j it hit := h.nonzero j it (mem_erase.mp hit).1
  apart j := (h.apart j).erase _

theorem removeOneVaInfo_eq_self
    (hnone : ∀ htype : type < hvmButt, ∀ info, (va, info) ∉ m.allocatedMap ⟨type, htype⟩) :
    m.removeOneVaInfo va type = m := by
  unfold removeOneVaInfo
  split
  · rfl
  · dsimp only
    rw [find_eq_none.mpr fun other hother heq => ?_]
    subst heq
    exact hnone (by omega) other.2 hother

theorem Inv.mem_without (h : Inv m) (hinfo : (info.base.va i, info) ∈ m.allocatedMap i) :
    it ∈ (m.without info).allocatedMap j ↔ it ∈ m.allocatedMap j ∧ it.2 ≠ info := by
  rw [without, mem_erase]
  refine and_congr_right fun hit => not_congr ⟨fun heq => ?_, fun heq => ?_⟩
  · have hkey : it.1 = it.2.base.va j := congrArg Prod.fst (h.ranges.keyed hit)
    have hva : info.base.va j ≠ 0 := by
      rw [← heq, hkey]
      exact h.nonzero j it hit
    have hmem := h.present i j _ hinfo hva
    exact congrArg Prod.snd (eq_of_key hit hmem heq)
  · rw [← heq]
    exact congrArg Prod.fst (h.ranges.keyed hit)

theorem Inv.without (h : Inv m) (hinfo : (info.base.va i, info) ∈ m.allocatedMap i) :
    Inv (m.without info) := by
  have hranges := h.ranges.without info
  refine { hranges with present := fun k j it hit hva => ?_ }
  rw [h.mem_without hinfo] at hit ⊢
  exact ⟨h.present k j it hit.1 hva, hit.2⟩

end Inv

end HybmVaManager

end MemFabric.Hybm
