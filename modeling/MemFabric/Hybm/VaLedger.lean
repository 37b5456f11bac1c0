import MemFabric.Hybm.VaLookup

/-!
# Infos of one owner

The manager is shared by all segments of the process.  One of them knows its infos and
what the others had recorded; adding an info where nothing is recorded and removing an own
one changes nothing for the others.
-/

namespace MemFabric.Hybm

open Machine

namespace HybmVaManager

/-- The entries of infos in the map of type `j`. -/
def EntryOf (own : AllocatedGvaInfo → Prop) (j : Fin hvmButt) (it : Nat × AllocatedGvaInfo) :
    Prop :=
  ∃ info, own info ∧ info.base.va j ≠ 0 ∧ it = (info.base.va j, info)

/-- What `base` had recorded and the own infos, each at all its addresses. -/
structure Ledger (base : HybmVaManager) (own : AllocatedGvaInfo → Prop) (m : HybmVaManager) :
    Prop where
  ranges : Ranges m
  overlay : ∀ j, Overlay (base.allocatedMap j) (EntryOf own j) (m.allocatedMap j)

def Vacant (m : HybmVaManager) (info : AllocatedGvaInfo) : Prop :=
  ∀ j, info.base.va j ≠ 0 → ∀ it ∈ m.allocatedMap j, ¬ (it.2.range j).Meets (info.range j)

section

variable {base m m' : HybmVaManager} {own own' : AllocatedGvaInfo → Prop} {info : AllocatedGvaInfo}

theorem Ranges.ledger (h : Ranges base) : Ledger base (fun _ => False) base where
  ranges := h
  overlay j := (Overlay.refl _).congr fun it => by
    refine iff_of_false ?_ id
    rintro ⟨info, hown, -⟩
    exact hown

theorem Ledger.congr (h : Ledger base own m) (heq : ∀ info, own' info ↔ own info) :
    Ledger base own' m where
  ranges := h.ranges
  overlay j := (h.overlay j).congr fun it => by simp only [EntryOf, heq]

theorem Ledger.mem_iff (h : Ledger base own m) {j : Fin hvmButt} {it : Nat × AllocatedGvaInfo} :
    it ∈ m.allocatedMap j ↔ it ∈ base.allocatedMap j ∨ EntryOf own j it :=
  (h.overlay j).mem_iff it

theorem Ledger.own_mem (h : Ledger base own m) (hown : own info) {j : Fin hvmButt}
    (hva : info.base.va j ≠ 0) : (info.base.va j, info) ∈ m.allocatedMap j :=
  h.mem_iff.mpr (.inr ⟨info, hown, hva, rfl⟩)

theorem Vacant.free (h : Vacant m info) : Free m info :=
  fun j hva it hit hmeets => absurd hmeets (h j hva it hit)

theorem Vacant.ne_va (h : Vacant m info) (hm : Ranges m) (hinfo : info.Fits) {j : Fin hvmButt}
    (hva : info.base.va j ≠ 0) {it : Nat × AllocatedGvaInfo} (hit : it ∈ m.allocatedMap j) :
    it.1 ≠ info.base.va j := by
  intro heq
  have hstart : it.2.base.va j = it.1 := (hm.apart j).starts it hit
  have hpos := (hm.fits j it hit).pos
  have hpos' := hinfo.pos
  refine h j hva it hit ?_
  rw [Extent.meets_iff hpos hpos']
  simp only [AllocatedGvaInfo.range]
  omega

theorem addVaInfo_of_vacant (hm : Ranges m) (hinfo : info.Fits) (hvacant : Vacant m info)
    (htype : info.base.memType ≠ .butt) : m.addVaInfo info = (bmOk, m.recorded info) := by
  rcases hm.addVaInfo_cases hinfo false with ⟨htype' | hclear, -⟩ | ⟨-, heq⟩
  · exact absurd htype' htype
  · exact absurd (clear_false.mpr hvacant.free) hclear
  · rw [heq, entered_false]

theorem Ledger.recorded (h : Ledger base own m) (hinfo : info.Fits) (hvacant : Vacant m info) :
    Ledger base (fun other => other = info ∨ own other) (m.recorded info) where
  ranges := by
    rw [← entered_false]
    exact h.ranges.entered hinfo (clear_false.mpr hvacant.free)
  overlay j := by
    by_cases hva : info.base.va j ≠ 0
    · have hmap : (m.recorded info).allocatedMap j =
          (m.allocatedMap j).assign (info.base.va j, info) := if_pos hva
      rw [hmap]
      refine ((h.overlay j).assign fun it hit => hvacant.ne_va h.ranges hinfo hva hit).congr ?_
      intro it
      constructor
      · rintro ⟨other, rfl | hown, hother, rfl⟩
        · exact .inl rfl
        · exact .inr ⟨other, hown, hother, rfl⟩
      · rintro (rfl | ⟨other, hown, hother, rfl⟩)
        · exact ⟨info, .inl rfl, hva, rfl⟩
        · exact ⟨other, .inr hown, hother, rfl⟩
    · have hmap : (m.recorded info).allocatedMap j = m.allocatedMap j := if_neg hva
      rw [hmap]
      refine (h.overlay j).congr fun it => ?_
      constructor
      · rintro ⟨other, rfl | hown, hother, rfl⟩
        · exact absurd hother hva
        · exact ⟨other, hown, hother, rfl⟩
      · rintro ⟨other, hown, hother, rfl⟩
        exact ⟨other, .inr hown, hother, rfl⟩

theorem Ledger.removeOneVaInfo_eq (h : Ledger base own m) (hown : own info) (t : Fin hvmButt)
    (hva : info.base.va t ≠ 0) : m.removeOneVaInfo (info.base.va t) t = m.without info :=
  h.ranges.removeOneVaInfo_eq t.isLt (h.own_mem hown hva)

theorem Ledger.without (h : Ledger base own m) (hown : own info) :
    Ledger base (fun other => own other ∧ other ≠ info) (m.without info) where
  ranges := h.ranges.without info
  overlay j := by
    by_cases hva : info.base.va j ≠ 0
    · refine ((h.overlay j).erase (a := (info.base.va j, info)) ⟨info, hown, hva, rfl⟩).congr ?_
      intro it
      constructor
      · rintro ⟨other, ⟨hother, hne⟩, hva', rfl⟩
        exact ⟨⟨other, hother, hva', rfl⟩, fun heq => hne (congrArg Prod.snd heq)⟩
      · rintro ⟨⟨other, hother, hva', rfl⟩, hne⟩
        refine ⟨other, ⟨hother, ?_⟩, hva', rfl⟩
        rintro rfl
        exact hne rfl
    · -- the address is zero, and no entry is there
      have hzero : info.base.va j = 0 := not_not.mp hva
      have hmap : (m.without info).allocatedMap j = m.allocatedMap j := by
        refine Ordered.erase_eq_self fun it hit heq => ?_
        have hstart : it.2.base.va j = it.1 := (h.ranges.apart j).starts it hit
        exact h.ranges.nonzero j it hit (hstart.trans (heq.trans hzero))
      rw [hmap]
      refine (h.overlay j).congr fun it => ?_
      constructor
      · rintro ⟨other, ⟨hother, -⟩, hva', rfl⟩
        exact ⟨other, hother, hva', rfl⟩
      · rintro ⟨other, hother, hva', rfl⟩
        refine ⟨other, ⟨hother, ?_⟩, hva', rfl⟩
        rintro rfl
        exact hva hva'

end

end HybmVaManager

end MemFabric.Hybm
