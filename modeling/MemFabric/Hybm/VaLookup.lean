import MemFabric.Hybm.VaMaps

/-!
# Lookups and runs

What is found at an address, for a manager whose maps agree, and that the maps agree after
any calls that record infos for all types of addresses.
-/

namespace MemFabric.Hybm

open Machine HybmVaManager

namespace HybmVaManager

section

variable {m : HybmVaManager} {it : Nat × AllocatedGvaInfo} {va : Nat} {i j : Fin hvmButt}

section

variable (h : Ranges m)

include h

theorem Ranges.lookup_eq (hit : it ∈ m.allocatedMap j) (hva : va ∈ it.2.range j) :
    m.lookup va j = some it.2 := by
  unfold lookup
  rw [(h.apart j).upTo_eq hit hva]
  exact if_pos ((h.fits j it hit).contains_iff.mpr hva)

theorem Ranges.lookup_eq_none (hnone : ∀ it ∈ m.allocatedMap j, va ∉ it.2.range j) :
    m.lookup va j = none := by
  unfold lookup
  split
  · next it hcandidate =>
    have hit : it ∈ m.allocatedMap j := by
      rcases Option.or_eq_some_iff.mp hcandidate with hupTo | ⟨-, hhead⟩
      · exact (Ordered.of_upTo_eq_some hupTo).1
      · exact List.mem_of_head? hhead
    refine if_neg fun hcontains => hnone it hit ?_
    exact (h.fits j it hit).contains_iff.mp hcontains
  · rfl

/-- Either one entry contains the address and is found, or none does. -/
theorem Ranges.lookup_cases (va : Nat) (j : Fin hvmButt) :
    (∃ it ∈ m.allocatedMap j, va ∈ it.2.range j ∧ m.lookup va j = some it.2) ∨
      (∀ it ∈ m.allocatedMap j, va ∉ it.2.range j) ∧ m.lookup va j = none := by
  by_cases hex : ∃ it ∈ m.allocatedMap j, va ∈ it.2.range j
  · obtain ⟨it, hit, hva⟩ := hex
    exact .inl ⟨it, hit, hva, h.lookup_eq hit hva⟩
  · have hnone : ∀ it ∈ m.allocatedMap j, va ∉ it.2.range j :=
      fun it hit hva => hex ⟨it, hit, hva⟩
    exact .inr ⟨hnone, h.lookup_eq_none hnone⟩

/-! ## TransformVa -/

theorem Ranges.transformVa_eq (hit : it ∈ m.allocatedMap i) (hva : va ∈ it.2.range i)
    (hij : i ≠ j) (hout : it.2.base.va j ≠ 0) :
    m.transformVa va i j = it.2.base.va j + (va - it.2.base.va i) := by
  have hfits := h.fits i it hit
  have hin := h.nonzero i it hit
  have hcontains := hfits.contains_iff.mpr hva
  obtain ⟨hle, hlt⟩ := hva
  have hwrap := hfits.noWrap j
  simp only [AllocatedGvaInfo.range, Extent.stop] at hle hlt
  unfold transformVa
  rw [dif_pos ⟨by omega, i.isLt, j.isLt⟩, if_neg fun heq => hij (Fin.ext heq)]
  dsimp only
  rw [(h.apart i).upTo_eq hit ⟨hle, hlt⟩]
  dsimp only
  rw [if_pos ⟨hcontains, hout⟩]
  change (it.2.base.va j + (va - it.2.base.va i)) % 2 ^ 64 = _
  exact Nat.mod_eq_of_lt (by omega)

/-- Where an address is transformed to depends on the entry that contains it alone. -/
theorem Ranges.transformVa_of_mem (hit : it ∈ m.allocatedMap i) (hva : va ∈ it.2.range i) :
    m.transformVa va i j =
      if i = j then va
      else if it.2.base.va j = 0 then 0
      else it.2.base.va j + (va - it.2.base.va i) := by
  have hin := h.nonzero i it hit
  have hle : it.2.base.va i ≤ va := hva.1
  have hvalid : 0 < va ∧ i.val < hvmButt ∧ j.val < hvmButt := ⟨by omega, i.isLt, j.isLt⟩
  by_cases hij : i = j
  · rw [transformVa, dif_pos hvalid, if_pos (congrArg Fin.val hij), if_pos hij]
  rw [if_neg hij]
  by_cases hout : it.2.base.va j = 0
  · rw [if_pos hout, transformVa, dif_pos hvalid, if_neg fun heq => hij (Fin.ext heq)]
    dsimp only
    rw [(h.apart i).upTo_eq hit hva]
    exact if_neg fun hcan => hcan.2 hout
  · rw [if_neg hout]
    exact h.transformVa_eq hit hva hij hout

/-- Where an address is transformed to comes from an entry that contains it. -/
theorem Ranges.of_transformVa (hij : i ≠ j) (hne : m.transformVa va i j ≠ 0) :
    ∃ it ∈ m.allocatedMap i, va ∈ it.2.range i ∧ it.2.base.va j ≠ 0 := by
  unfold transformVa at hne
  split at hne
  · rw [if_neg fun heq => hij (Fin.ext heq)] at hne
    dsimp only at hne
    split at hne
    · next it hupTo =>
      split at hne
      · next hcontains =>
        have hit := (Ordered.of_upTo_eq_some hupTo).1
        exact ⟨it, hit, (h.fits i it hit).contains_iff.mp hcontains.1, hcontains.2⟩
      · exact absurd rfl hne
    · exact absurd rfl hne
  · exact absurd rfl hne

end

theorem Inv.transformVa_roundTrip (h : Inv m) (hij : i ≠ j) (hne : m.transformVa va i j ≠ 0) :
    m.transformVa (m.transformVa va i j) j i = va := by
  obtain ⟨it, hit, hva, hout⟩ := h.ranges.of_transformVa hij hne
  have hin := h.nonzero i it hit
  rw [h.ranges.transformVa_eq hit hva hij hout]
  obtain ⟨hle, hlt⟩ := hva
  simp only [AllocatedGvaInfo.range, Extent.stop] at hle hlt
  have hmem := h.present i j it hit hout
  have hrange : it.2.base.va j + (va - it.2.base.va i) ∈ it.2.range j := by
    rw [Extent.mem_iff]
    simp only [AllocatedGvaInfo.range]
    omega
  rw [h.ranges.transformVa_eq hmem hrange hij.symm hin]
  dsimp only
  omega

theorem transformVa_roundTrip_nat (h : Inv m) {inputType outputType : Nat}
    (hne : m.transformVa va inputType outputType ≠ 0) :
    m.transformVa (m.transformVa va inputType outputType) outputType inputType = va := by
  by_cases hvalid : 0 < va ∧ inputType < hvmButt ∧ outputType < hvmButt
  · by_cases heq : inputType = outputType
    · have hself : m.transformVa va inputType outputType = va := by
        rw [transformVa, dif_pos hvalid, if_pos heq]
      rw [hself, ← heq, transformVa, dif_pos ⟨hvalid.1, hvalid.2.1, hvalid.2.1⟩, if_pos rfl]
    · exact Inv.transformVa_roundTrip (i := ⟨inputType, hvalid.2.1⟩)
        (j := ⟨outputType, hvalid.2.2⟩) h (fun h => heq (congrArg Fin.val h)) hne
  · rw [transformVa, dif_neg hvalid] at hne
    exact absurd rfl hne

end

/-! ## Runs -/

/-- The calls that are considered: infos are recorded for all types of addresses, and their
ranges are not empty and do not wrap. -/
def Call.Ok : Call → Prop
  | .addVaInfo info onlyGva => onlyGva = false ∧ info.Fits
  | .addVaInfoOfBase baseInfo _ onlyGva =>
    onlyGva = false ∧ AllocatedGvaInfo.Fits { base := baseInfo }
  | .addVaInfoFromExternal baseInfo _ _ => AllocatedGvaInfo.Fits { base := baseInfo }
  | .removeOneVaInfo _ _ => True

section Runs

variable {m : HybmVaManager}

theorem Inv.addVaInfo (h : Inv m) {info : AllocatedGvaInfo} (hinfo : info.Fits) :
    Inv (m.addVaInfo info).2 := by
  rcases h.addVaInfo_cases hinfo with ⟨-, heq⟩ | ⟨⟨-, hfree⟩, heq⟩
  · rw [heq]
    exact h
  · rw [heq]
    exact h.recorded hinfo hfree

theorem Inv.removeOneVaInfo (h : Inv m) (va type : Nat) : Inv (m.removeOneVaInfo va type) := by
  by_cases hfound : ∃ (htype : type < hvmButt) (info : _), (va, info) ∈ m.allocatedMap ⟨type, htype⟩
  · obtain ⟨htype, info, hit⟩ := hfound
    rw [h.ranges.removeOneVaInfo_eq htype hit]
    exact h.without (h.ranges.keyed hit ▸ hit)
  · rw [removeOneVaInfo_eq_self fun htype info hit => hfound ⟨htype, info, hit⟩]
    exact h

theorem Inv.step (h : Inv m) (call : Call) (hcall : call.Ok) : Inv (step m call).1 := by
  cases call with
  | addVaInfo info onlyGva =>
    obtain ⟨rfl, hinfo⟩ := hcall
    exact h.addVaInfo hinfo
  | addVaInfoOfBase baseInfo localRankId onlyGva =>
    obtain ⟨rfl, hinfo⟩ := hcall
    exact h.addVaInfo ⟨hinfo.pos, hinfo.noWrap⟩
  | addVaInfoFromExternal baseInfo localRankId importedRankId =>
    exact h.addVaInfo ⟨hcall.pos, hcall.noWrap⟩
  | removeOneVaInfo va type => exact h.removeOneVaInfo va type

/-- The ranges of each type are disjoint, each entry is at its address, and an info is in
the maps of all its addresses. -/
structure Consistent (m : HybmVaManager) : Prop where
  disjoint : ∀ j, ∀ it ∈ m.allocatedMap j, ∀ other ∈ m.allocatedMap j, it ≠ other →
    ∀ x, x ∈ it.2.range j → x ∉ other.2.range j
  keyed : ∀ j, ∀ it ∈ m.allocatedMap j, it.1 = it.2.base.va j
  present : ∀ i j, ∀ it ∈ m.allocatedMap i, it.2.base.va j ≠ 0 →
    (it.2.base.va j, it.2) ∈ m.allocatedMap j

/-- An info is refused if its memory type is none, or if a range of it overlaps one of a
different info; and then nothing changes. -/
structure Adds (m : HybmVaManager) (info : AllocatedGvaInfo) : Prop where
  fails_iff : (m.addVaInfo info).1 ≠ bmOk ↔ info.base.memType = .butt ∨
    ∃ j, info.base.va j ≠ 0 ∧ ∃ it ∈ m.allocatedMap j,
      (it.2.range j).Meets (info.range j) ∧ it.2.same info = false
  unchanged : (m.addVaInfo info).1 ≠ bmOk → (m.addVaInfo info).2 = m
  recorded : (m.addVaInfo info).1 = bmOk → ∀ j, info.base.va j ≠ 0 →
    (info.base.va j, info) ∈ (m.addVaInfo info).2.allocatedMap j

/-- The info at the address leaves all maps, and nothing else does. -/
structure Removes (m : HybmVaManager) (va type : Nat) : Prop where
  found : ∀ (htype : type < hvmButt) (info : AllocatedGvaInfo),
    (va, info) ∈ m.allocatedMap ⟨type, htype⟩ →
    ∀ j it, it ∈ (m.removeOneVaInfo va type).allocatedMap j ↔ it ∈ m.allocatedMap j ∧ it.2 ≠ info
  notFound : (∀ (htype : type < hvmButt) (info : AllocatedGvaInfo),
    (va, info) ∉ m.allocatedMap ⟨type, htype⟩) → m.removeOneVaInfo va type = m

/-- The lookups answer from the entry that contains the address. -/
structure Finds (m : HybmVaManager) (va : Nat) : Prop where
  findAllocByVa : ∀ j, ∀ it ∈ m.allocatedMap j, va ∈ it.2.range j →
    m.findAllocByVa va j = (it.2, true)
  findAllocByVa_none : ∀ j, (∀ it ∈ m.allocatedMap j, va ∉ it.2.range j) →
    m.findAllocByVa va j = ({}, false)
  getRank : ∀ it ∈ m.allocatedMap hvmGva, va ∈ it.2.range hvmGva →
    m.getRank va = (it.2.rankId, true)
  getRank_none : (∀ it ∈ m.allocatedMap hvmGva, va ∉ it.2.range hvmGva) → m.getRank va = (0, false)
  getGvaMemType : ∀ it ∈ m.allocatedMap hvmGva, va ∈ it.2.range hvmGva →
    m.getGvaMemType va = it.2.base.memType
  getGvaMemType_none : (∀ it ∈ m.allocatedMap hvmGva, va ∉ it.2.range hvmGva) →
    m.getGvaMemType va = .butt
  isValidAddr : m.isValidAddr va = true ↔ ∃ j, ∃ it ∈ m.allocatedMap j, va ∈ it.2.range j

theorem Inv.consistent (h : Inv m) : Consistent m where
  disjoint j it hit other hother hne x hx hx' :=
    hne ((h.apart j).unique it hit other hother ⟨x, hx, hx'⟩)
  keyed _ _ hit := congrArg Prod.fst (h.ranges.keyed hit)
  present := h.present

theorem Inv.adds (h : Inv m) {info : AllocatedGvaInfo} (hinfo : info.Fits) : Adds m info := by
  have hnotFree : ¬ Free m info ↔ ∃ j, info.base.va j ≠ 0 ∧ ∃ it ∈ m.allocatedMap j,
      (it.2.range j).Meets (info.range j) ∧ it.2.same info = false := by
    simp only [Free, not_forall, Bool.not_eq_true, exists_prop]
  rcases h.addVaInfo_cases hinfo with ⟨hfails, heq⟩ | ⟨⟨hmem, hfree⟩, heq⟩
  · have hne : bmError ≠ bmOk := by decide
    refine ⟨?_, fun _ => congrArg Prod.snd heq, fun hok => ?_⟩
    · rw [heq, ← hnotFree]
      exact iff_of_true hne hfails
    · rw [heq] at hok
      exact absurd hok hne
  · refine ⟨?_, fun hfails => ?_, fun _ j hva => ?_⟩
    · rw [heq, ← hnotFree]
      exact iff_of_false (fun hfails => hfails rfl) (not_or.mpr ⟨hmem, not_not.mpr hfree⟩)
    · rw [heq] at hfails
      exact absurd rfl hfails
    · rw [heq]
      exact mem_recorded.mpr (.inl ⟨rfl, hva⟩)

theorem Inv.removes (h : Inv m) (va type : Nat) : Removes m va type where
  found htype info hit j it := by
    rw [h.ranges.removeOneVaInfo_eq htype hit]
    exact h.mem_without (h.ranges.keyed hit ▸ hit)
  notFound := removeOneVaInfo_eq_self

theorem Inv.finds (h : Inv m) (va : Nat) : Finds m va where
  findAllocByVa j it hit hva := by
    rw [findAllocByVa, h.ranges.lookup_eq hit hva]
  findAllocByVa_none j hnone := by
    rw [findAllocByVa, h.ranges.lookup_eq_none hnone]
  getRank it hit hva := by
    have hpos : va ≠ 0 := by
      have hnonzero := h.nonzero hvmGva it hit
      have hle : it.2.base.va hvmGva ≤ va := hva.1
      omega
    rw [getRank, if_neg hpos, h.ranges.lookup_eq hit hva]
  getRank_none hnone := by
    rw [getRank, h.ranges.lookup_eq_none hnone]
    exact ite_self _
  getGvaMemType it hit hva := by
    rw [getGvaMemType, h.ranges.lookup_eq hit hva]
  getGvaMemType_none hnone := by
    rw [getGvaMemType, h.ranges.lookup_eq_none hnone]
  isValidAddr := by
    rw [isValidAddr, List.any_eq_true]
    constructor
    · rintro ⟨j, -, hsome⟩
      rcases h.ranges.lookup_cases va j with ⟨it, hit, hva, -⟩ | ⟨-, hnone⟩
      · exact ⟨j, it, hit, hva⟩
      · rw [hnone] at hsome
        cases hsome
    · rintro ⟨j, it, hit, hva⟩
      refine ⟨j, List.mem_finRange j, ?_⟩
      rw [h.ranges.lookup_eq hit hva]
      rfl

/-- In every state that the calls lead to, the maps are consistent, the calls change them as
they should, the lookups answer from the one entry at the address, and an address that is
transformed to another type is transformed back. -/
theorem vaMaps_correct (h : Reachable step (fun _ call => call.Ok) {} m) :
    Consistent m ∧ (∀ info : AllocatedGvaInfo, info.Fits → Adds m info) ∧
      (∀ va type, Removes m va type) ∧ (∀ va, Finds m va) ∧
      ∀ va i j, m.transformVa va i j ≠ 0 → m.transformVa (m.transformVa va i j) j i = va := by
  have hinv : Inv m := h.invariant inv_start fun m call hm hcall => hm.step call hcall
  exact ⟨hinv.consistent, fun info hinfo => hinv.adds hinfo, hinv.removes, hinv.finds,
    fun va i j hne => transformVa_roundTrip_nat hinv hne⟩

end Runs

def page (memType : HybmMemType) : AllocatedGvaInfo where
  base := { va := fun | 0 => 0x1000 | 1 => 0x2000 | 2 => 0, size := 0x100, memType }
  localRankId := 0

theorem fits_page (memType : HybmMemType) : (page memType).Fits :=
  ⟨by change 0 < 0x100; decide, fun
    | 0 => by change 0x1000 + 0x100 < 2 ^ 64; decide
    | 1 => by change 0x2000 + 0x100 < 2 ^ 64; decide
    | 2 => by change 0 + 0x100 < 2 ^ 64; decide⟩

theorem vaMaps_correct_page :
    (step {} (.addVaInfo (page .device) false)).1.transformVa 0x1010 0 1 = 0x2010 ∧
      (step {} (.addVaInfo (page .device) false)).1.transformVa 0x2010 1 0 = 0x1010 := by
  have hreach : Reachable step (fun _ call => call.Ok) {}
      (step {} (.addVaInfo (page .device) false)).1 :=
    Reachable.next ⟨[], .nil⟩ _ ⟨rfl, fits_page .device⟩
  have htransform : (step {} (.addVaInfo (page .device) false)).1.transformVa 0x1010 0 1 =
      0x2010 := by
    decide +kernel
  refine ⟨htransform, ?_⟩
  have hback := (vaMaps_correct hreach).2.2.2.2 0x1010 0 1 (by rw [htransform]; decide)
  rwa [htransform] at hback

/-- An info without a memory type is refused, though nothing is recorded. -/
theorem addVaInfo_butt_fails :
    ∃ info : AllocatedGvaInfo, info.Fits ∧
      (∀ j it, it ∉ ({} : HybmVaManager).allocatedMap j) ∧
      (({} : HybmVaManager).addVaInfo info).1 = bmError :=
  ⟨page .butt, fits_page .butt, fun _ => Ordered.notMem_empty, by decide +kernel⟩

end HybmVaManager

end MemFabric.Hybm
