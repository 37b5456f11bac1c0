import MemFabric.Hybm.VaLookup

/-!
# Infos that are recorded for their global address only

The segment of user memory records an info under its global address and not under the
local addresses it carries; another segment may have recorded the same memory under these.
`RemoveOneVaInfo` removes what it finds at any address of the info.  This is the info's own
entry if the info has been recorded for all its addresses, and may be an entry of another
info if it has not.
-/

namespace MemFabric.Hybm

open Machine AllocatedGvaInfo Option

namespace AllocatedGvaInfo

variable {info info' info'' : AllocatedGvaInfo}

theorem same_iff : info.same info' = true ↔
    info.base.va = info'.base.va ∧ info.base.size = info'.base.size ∧ info.rankId = info'.rankId :=
  decide_eq_true_iff

theorem same_refl (info : AllocatedGvaInfo) : info.same info = true :=
  same_iff.mpr ⟨rfl, rfl, rfl⟩

theorem same_trans (h : info.same info' = true) (h' : info'.same info'' = true) :
    info.same info'' = true := by
  rw [same_iff] at *
  exact ⟨h.1.trans h'.1, h.2.1.trans h'.2.1, h.2.2.trans h'.2.2⟩

theorem same_symm (h : info.same info' = true) : info'.same info = true := by
  rw [same_iff] at *
  exact ⟨h.1.symm, h.2.1.symm, h.2.2.symm⟩

end AllocatedGvaInfo

namespace HybmVaManager

variable {m : HybmVaManager} {info other : AllocatedGvaInfo}

/-! ## Entries of an info -/

def Stored (m : HybmVaManager) (info : AllocatedGvaInfo) : Prop :=
  ∀ j, info.base.va j ≠ 0 → ∃ it ∈ m.allocatedMap j, it.1 = info.base.va j ∧ it.2.same info = true

def Owns (m : HybmVaManager) (info : AllocatedGvaInfo) : Prop :=
  ∀ j, ∀ it ∈ m.allocatedMap j, it.2.base.va j = info.base.va j → it.2.same info = true

theorem Stored.owns (h : Stored m info) (hm : Ranges m) : Owns m info := by
  intro j it hit heq
  obtain ⟨own, hown, hkey, hsame⟩ := h j (heq ▸ hm.nonzero j it hit)
  have hstart : it.1 = it.2.base.va j := congrArg Prod.fst (hm.keyed hit)
  rw [Ordered.eq_of_key hit hown (hstart.trans (heq.trans hkey.symm))]
  exact hsame

theorem Stored.of_same (h : Stored m other) (hsame : other.same info = true) : Stored m info := by
  intro j hva
  have heq : other.base.va j = info.base.va j :=
    congrFun (same_iff.mp hsame).1 j
  obtain ⟨it, hit, hkey, hit'⟩ := h j (heq ▸ hva)
  exact ⟨it, hit, hkey.trans heq, same_trans hit' hsame⟩

theorem stored_entered (m : HybmVaManager) (info : AllocatedGvaInfo) :
    Stored (m.entered info false) info := by
  intro j hva
  refine ⟨(info.base.va j, info), mem_entered.mpr (.inl ⟨rfl, records_false.mpr hva⟩), rfl, ?_⟩
  exact same_refl info

variable {onlyGva : Bool}

/-- An entry that is replaced is replaced by one of the same info. -/
theorem Stored.entered (h : Stored m other) (hm : Ranges m) (hinfo : info.Fits)
    (hclear : Clear m info onlyGva) : Stored (m.entered info onlyGva) other := by
  intro j hva
  obtain ⟨it, hit, hkey, hsame⟩ := h j hva
  by_cases hreplaced : records info onlyGva j = true ∧ it.1 = info.base.va j
  · have hstart : it.2.base.va j = it.1 := (hm.apart j).starts it hit
    have hit' := hclear.same_of_va hm hinfo hreplaced.1 hit (hstart.trans hreplaced.2)
    refine ⟨(info.base.va j, info), mem_entered.mpr (.inl ⟨rfl, hreplaced.1⟩), ?_, ?_⟩
    · exact hreplaced.2.symm.trans hkey
    · exact same_trans (same_symm hit') hsame
  · refine ⟨it, mem_entered.mpr (.inr ⟨hit, fun hrecords heq => ?_⟩), hkey, hsame⟩
    exact hreplaced ⟨hrecords, heq⟩

/-! ## Calls that add -/

/-- The info that a call adds, and whether for its global address only. -/
def Call.added : Call → Option (AllocatedGvaInfo × Bool)
  | .addVaInfo info onlyGva => some (info, onlyGva)
  | .addVaInfoOfBase baseInfo localRankId onlyGva =>
    some ({ base := baseInfo, localRankId }, onlyGva)
  | .addVaInfoFromExternal baseInfo localRankId importedRankId =>
    some ({ base := baseInfo, localRankId, importedRankId }, false)
  | .removeOneVaInfo _ _ => none

variable {call : Call}

theorem step_of_added (h : call.added = some (info, onlyGva)) :
    (step m call).1 = (m.addVaInfo info onlyGva).2 := by
  cases call with
  | addVaInfo info' onlyGva' =>
    obtain ⟨rfl, rfl⟩ := Prod.mk.inj (some.inj h)
    rfl
  | addVaInfoOfBase baseInfo localRankId onlyGva' =>
    obtain ⟨rfl, rfl⟩ := Prod.mk.inj (some.inj h)
    rfl
  | addVaInfoFromExternal baseInfo localRankId importedRankId =>
    obtain ⟨rfl, rfl⟩ := Prod.mk.inj (some.inj h)
    rfl
  | removeOneVaInfo va type => cases h

/-- The call adds an info and succeeds.  A range of the info may be empty and does not wrap. -/
def AddsOk (m : HybmVaManager) (call : Call) : Prop :=
  ∃ info onlyGva, call.added = some (info, onlyGva) ∧ (info.base.size = 0 ∨ info.Fits) ∧
    (m.addVaInfo info onlyGva).1 = bmOk

/-- A call that adds changes nothing, or records the info where it can be recorded. -/
theorem AddsOk.cases (h : AddsOk m call) (hm : Ranges m) :
    ∃ info onlyGva, call.added = some (info, onlyGva) ∧
      (info.base.size = 0 ∧ (step m call).1 = m ∨
        info.Fits ∧ Clear m info onlyGva ∧ (step m call).1 = m.entered info onlyGva) := by
  obtain ⟨info, onlyGva, hadded, hsize | hfits, hok⟩ := h
  · refine ⟨info, onlyGva, hadded, .inl ⟨hsize, ?_⟩⟩
    rw [step_of_added hadded, addVaInfo, if_pos hsize]
  · refine ⟨info, onlyGva, hadded, .inr ⟨hfits, ?_⟩⟩
    rcases hm.addVaInfo_cases hfits onlyGva with ⟨-, heq⟩ | ⟨⟨-, hclear⟩, heq⟩
    · rw [heq] at hok
      exact absurd hok (by decide : bmError ≠ bmOk)
    · exact ⟨hclear, by rw [step_of_added hadded, heq]⟩

theorem Ranges.next (h : Ranges m) (hcall : AddsOk m call) : Ranges (step m call).1 := by
  obtain ⟨info, onlyGva, -, ⟨-, heq⟩ | ⟨hfits, hclear, heq⟩⟩ := hcall.cases h
  · rw [heq]
    exact h
  · rw [heq]
    exact h.entered hfits hclear

theorem Ranges.after (h : Ranges m) {calls : List Call} (hcalls : AllAllowed step AddsOk m calls) :
    Ranges (run step m calls).1 := by
  induction calls generalizing m with
  | nil => exact h
  | cons call calls ih => exact ih (h.next hcalls.1) hcalls.2

theorem Stored.after (hstored : Stored m info) (h : Ranges m) {calls : List Call}
    (hcalls : AllAllowed step AddsOk m calls) : Stored (run step m calls).1 info := by
  induction calls generalizing m with
  | nil => exact hstored
  | cons call calls ih =>
    refine ih ?_ (h.next hcalls.1) hcalls.2
    obtain ⟨added, onlyGva, -, ⟨-, heq⟩ | ⟨hfits, hclear, heq⟩⟩ := hcalls.1.cases h
    · rw [heq]
      exact hstored
    · rw [heq]
      exact hstored.entered h hfits hclear

/-- An info that one of the calls records for all its addresses stays there. -/
theorem Ranges.stored_of_mem (h : Ranges m) {calls : List Call}
    (hcalls : AllAllowed step AddsOk m calls) (hmem : call ∈ calls)
    (hadded : call.added = some (info, false)) (hpos : 0 < info.base.size) :
    Stored (run step m calls).1 info := by
  induction calls generalizing m with
  | nil => cases hmem
  | cons first calls ih =>
    have hnext := h.next hcalls.1
    rcases List.mem_cons.mp hmem with rfl | hmem
    · refine Stored.after ?_ hnext hcalls.2
      obtain ⟨added, onlyGva, hadded', hcases⟩ := hcalls.1.cases h
      obtain ⟨rfl, rfl⟩ := Prod.mk.inj (some.inj (hadded.symm.trans hadded'))
      rcases hcases with ⟨hsize, -⟩ | ⟨-, -, heq⟩
      · omega
      · rw [heq]
        exact stored_entered m info
    · exact ih hnext hcalls.2 hmem

/-! ## Removing one info -/

variable {j : Fin hvmButt}

theorem Owns.mem_without (h : Owns m info) (hm : Ranges m) {it : Nat × AllocatedGvaInfo} :
    it ∈ (m.without info).allocatedMap j ↔ it ∈ m.allocatedMap j ∧ it.2.same info = false := by
  rw [without, Ordered.mem_erase]
  refine and_congr_right fun hit => ?_
  rw [← (hm.apart j).starts it hit, ← Bool.not_eq_true]
  refine not_congr ⟨fun heq => h j it hit heq, fun hsame => ?_⟩
  exact congrArg Extent.offset (range_of_same hsame j)

variable {x : Nat}

theorem Owns.lookup_without (h : Owns m info) (hm : Ranges m) (hlookup : m.lookup x j = some other)
    (hother : other.same info = false) : (m.without info).lookup x j = some other := by
  rcases hm.lookup_cases x j with ⟨it, hit, hx, heq⟩ | ⟨-, heq⟩
  · obtain rfl := some.inj (heq.symm.trans hlookup)
    exact (hm.without info).lookup_eq ((h.mem_without hm).mpr ⟨hit, hother⟩) hx
  · rw [heq] at hlookup
    cases hlookup

theorem Owns.transformVa_without (h : Owns m info) (hm : Ranges m) {i : Fin hvmButt}
    (hlookup : m.lookup x i = some other) (hother : other.same info = false) (j : Fin hvmButt) :
    (m.without info).transformVa x i j = m.transformVa x i j := by
  rcases hm.lookup_cases x i with ⟨it, hit, hx, heq⟩ | ⟨-, heq⟩
  · obtain rfl := some.inj (heq.symm.trans hlookup)
    have hkept := (h.mem_without hm).mpr ⟨hit, hother⟩
    rw [(hm.without info).transformVa_of_mem hkept hx, hm.transformVa_of_mem hit hx]
  · rw [heq] at hlookup
    cases hlookup

theorem findAllocByVa_eq_true :
    m.findAllocByVa x j = (other, true) ↔ m.lookup x j = some other := by
  rw [findAllocByVa]
  cases m.lookup x j with
  | none => exact iff_of_false (fun h => by cases h) (fun h => by cases h)
  | some found => simp

/-- The entries of the info leave the maps and no others; what is found at an address and
where an address is transformed to does not change unless it is that of the info. -/
structure RemovesOnly (m : HybmVaManager) (va : Nat) (type : Fin hvmButt)
    (info : AllocatedGvaInfo) : Prop where
  entries : ∀ j it, it ∈ (m.removeOneVaInfo va type).allocatedMap j ↔
    it ∈ m.allocatedMap j ∧ it.2.same info = false
  findAllocByVa : ∀ x j other, m.findAllocByVa x j = (other, true) → other.same info = false →
    (m.removeOneVaInfo va type).findAllocByVa x j = (other, true)
  getRank : ∀ x other, m.findAllocByVa x hvmGva = (other, true) → other.same info = false →
    (m.removeOneVaInfo va type).getRank x = m.getRank x
  getGvaMemType : ∀ x other, m.findAllocByVa x hvmGva = (other, true) → other.same info = false →
    (m.removeOneVaInfo va type).getGvaMemType x = m.getGvaMemType x
  transformVa : ∀ x (i j : Fin hvmButt) other, m.findAllocByVa x i = (other, true) →
    other.same info = false →
    (m.removeOneVaInfo va type).transformVa x i j = m.transformVa x i j

theorem Owns.removesOnly (h : Owns m info) (hm : Ranges m) {va : Nat} {type : Fin hvmButt}
    (hit : (va, info) ∈ m.allocatedMap type) : RemovesOnly m va type info := by
  have hremoved : m.removeOneVaInfo va type = m.without info :=
    hm.removeOneVaInfo_eq type.isLt hit
  constructor
  · intro j it
    rw [hremoved]
    exact h.mem_without hm
  · intro x j other hfound hother
    rw [hremoved]
    rw [findAllocByVa_eq_true] at hfound ⊢
    exact h.lookup_without hm hfound hother
  · intro x other hfound hother
    rw [findAllocByVa_eq_true] at hfound
    rw [hremoved, getRank, getRank, hfound, h.lookup_without hm hfound hother]
  · intro x other hfound hother
    rw [findAllocByVa_eq_true] at hfound
    rw [hremoved, getGvaMemType, getGvaMemType, hfound, h.lookup_without hm hfound hother]
  · intro x i j other hfound hother
    rw [hremoved]
    exact h.transformVa_without hm (findAllocByVa_eq_true.mp hfound) hother j

/-- After calls that add infos, removing an info is removing its entries alone, if the info
has been recorded for all its addresses, or if nothing else is recorded at the addresses it
carries. -/
theorem removeOneVaInfo_only {calls : List Call} (hcalls : AllAllowed step AddsOk {} calls)
    {va : Nat} {type : Fin hvmButt} (hit : (va, info) ∈ (run step {} calls).1.allocatedMap type)
    (hown : (∃ call ∈ calls, ∃ full, call.added = some (full, false) ∧ full.same info = true) ∨
      Owns (run step {} calls).1 info) :
    RemovesOnly (run step {} calls).1 va type info := by
  have hranges := ranges_start.after hcalls
  refine Owns.removesOnly ?_ hranges hit
  rcases hown with ⟨call, hmem, full, hadded, hsame⟩ | howns
  · have hpos : 0 < full.base.size := by
      rw [(same_iff.mp hsame).2.1]
      exact (hranges.fits type _ hit).pos
    have hstored := ranges_start.stored_of_mem hcalls hmem hadded hpos
    exact (hstored.of_same hsame).owns hranges
  · exact howns

def registered : BaseAllocatedGvaInfo where
  va := fun | 0 => 0 | 1 => 0x100000000000 | 2 => 0x100000000000
  size := 0x200000

def shared : BaseAllocatedGvaInfo where
  va := fun | 0 => 0x1000000000000000 | 1 => 0x100000000000 | 2 => 0x100000000000
  size := 0x200000

theorem fits_registered : ({ base := registered, localRankId := 0 } : AllocatedGvaInfo).Fits :=
  ⟨by change 0 < 0x200000; decide, fun
    | 0 => by change 0 + 0x200000 < 2 ^ 64; decide
    | 1 => by change 0x100000000000 + 0x200000 < 2 ^ 64; decide
    | 2 => by change 0x100000000000 + 0x200000 < 2 ^ 64; decide⟩

def twoCalls : List Call := [.addVaInfoOfBase registered 0 false, .addVaInfo (page .device) false]

theorem removeOneVaInfo_only_page :
    RemovesOnly (run step {} twoCalls).1 0x1000 0 (page .device) := by
  have hcalls : AllAllowed step AddsOk {} twoCalls :=
    ⟨⟨_, _, rfl, .inr fits_registered, by decide +kernel⟩,
      ⟨_, _, rfl, .inr (fits_page .device), by decide +kernel⟩, trivial⟩
  have hit : (0x1000, page .device) ∈ ((run step {} twoCalls).1.allocatedMap 0).toList := by
    decide +kernel
  have hmem : Call.addVaInfo (page .device) false ∈ twoCalls :=
    List.mem_cons_of_mem _ (List.mem_singleton_self _)
  exact removeOneVaInfo_only hcalls hit (.inl ⟨_, hmem, _, rfl, same_refl _⟩)

/-- The registration of the memory with a segment is lost when the user segment of the same
rank removes its own. -/
theorem removal_of_global_only :
    let calls := [.addVaInfoOfBase registered 0 false, .addVaInfoOfBase shared 0 true]
    let m := (run step {} calls).1
    (run step {} calls).2 = [bmOk, bmOk] ∧
      m.isValidAddr 0x100000000010 = true ∧
      m.findAllocByVa 0x100000000010 1 = ({ base := registered, localRankId := 0 }, true) ∧
      (m.removeOneVaInfo 0x1000000000000000 0).findAllocByVa 0x100000000010 1 = ({}, false) ∧
      (m.removeOneVaInfo 0x1000000000000000 0).isValidAddr 0x100000000010 = false := by
  decide +kernel

end HybmVaManager

end MemFabric.Hybm
