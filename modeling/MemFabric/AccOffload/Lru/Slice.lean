import MemFabric.AccOffload.Lru.PhasedPlan

/-!
# A workspace slice over whole runs

The phased kernels never clear `token_mark` between two calls except when the
epochs run out.  A slice stays usable because every call takes a smaller epoch
than all marks the calls before it left: epochs only decrease between two
clears, and everything else the kernels write to `token_mark` is a slot.
-/

namespace MemFabric.AccOffload.Lru.Phased

open Simt Cache Reference

def MarksAbove (maxToken bound : Int) (mark : Int → Int) : Prop :=
  ∀ token, 0 ≤ token → token < maxToken → bound ≤ mark token

/-- The next call clears the slice, or its epoch is below every mark. -/
def SliceReady (maxToken : Int) (ws : Workspace) : Prop :=
  -1 ≤ ws.epoch ∨ MarksAbove maxToken ws.epoch ws.tokenMark

theorem SliceReady.freshEpoch {sh : Shape} {ws : Workspace} (h : SliceReady sh.maxToken ws) :
    FreshEpoch sh ws := by
  rcases h with hclear | hmarks
  · exact .inl (.inl hclear)
  · right
    intro token ht heq
    have := hmarks token ht.1 ht.2
    omega

/-! ## One call -/

section

variable {sh : Shape} {inp : RowInput}

theorem currentEpoch_le (epoch : Int) : currentEpoch epoch ≤ -2 := by
  unfold currentEpoch NeedsClear
  split_ifs <;> omega

theorem MarksAbove.update {maxToken bound : Int} {mark : Int → Int}
    (h : MarksAbove maxToken bound mark) {value : Int} (hv : bound ≤ value) (cell : Int) :
    MarksAbove maxToken bound (Function.update mark cell value) := by
  intro token h0 h1
  by_cases heq : token = cell
  · rw [heq, Function.update_self]
    exact hv
  · rw [Function.update_of_ne heq]
    exact h token h0 h1

theorem epochStart_marksAbove {ws : Workspace} (h : SliceReady sh.maxToken ws) :
    MarksAbove sh.maxToken (currentEpoch ws.epoch) (epochStart sh ws).tokenMark := by
  intro token h0 h1
  unfold epochStart currentEpoch
  split_ifs with hclear
  · rw [clearMarks_tokenMark]
    simp only [h0, h1, and_self, if_true]
    omega
  · have hmarks := h.resolve_left fun hge => hclear (.inl hge)
    have := hmarks token h0 h1
    omega

theorem markTopk_marksAbove {topkIndices : Int → Int} {epoch : Int} {ws : Workspace}
    (h : MarksAbove sh.maxToken epoch ws.tokenMark) :
    MarksAbove sh.maxToken epoch (markTopk sh topkIndices epoch ws).tokenMark := by
  refine forLoop_preserve (fun ws : Workspace => MarksAbove sh.maxToken epoch ws.tokenMark) h ?_
  intro pos ws _ _ hws
  dsimp only
  split_ifs
  · exact hws.update le_rfl _
  · exact hws

theorem buildStacks_marksAbove {bound : Int} (hb : bound ≤ 0) {lruSlots mark : Int → Int}
    (h : MarksAbove sh.maxToken bound mark) :
    MarksAbove sh.maxToken bound (buildStacks sh lruSlots mark).tokenMark := by
  refine forLoop_preserve (fun st : Stacks => MarksAbove sh.maxToken bound st.tokenMark) h ?_
  intro order st _ _ hst
  dsimp only
  split_ifs with hhit hslot
  · exact hst.update (by omega) _
  · exact hst.update (hb.trans hslot.1) _
  · exact hst

theorem phasedRow_marksAbove (o : Orders) {w w' : Work} (h : SliceReady sh.maxToken w.toWorkspace)
    (hrun : phasedRow o sh inp w = some w') :
    w'.epoch = currentEpoch w.epoch ∧ MarksAbove sh.maxToken w'.epoch w'.tokenMark := by
  have hws : w'.toWorkspace = (plannedWork o sh inp w).toWorkspace := by
    rw [phasedRow_some o hrun, publish_toWorkspace]
  have hepoch : w'.epoch = currentEpoch w.epoch := congrArg Workspace.epoch hws
  refine ⟨hepoch, ?_⟩
  rw [hepoch, show w'.tokenMark = (plannedWork o sh inp w).tokenMark from
    congrArg Workspace.tokenMark hws]
  exact buildStacks_marksAbove ((currentEpoch_le _).trans (by norm_num))
    (markTopk_marksAbove (epochStart_marksAbove h))

end

/-! ## Every run -/

/-- The contents a slice can have after phased calls with one `maxToken`: any
rows of any shapes, in any order and number. -/
inductive ReachableSlice (maxToken : Int) : Workspace → Prop where
  | start {ws : Workspace} (hepoch : ws.epoch = 0) : ReachableSlice maxToken ws
  | call {ws : Workspace} (o : Orders) {numReqs : Int} {sh : Shape}
      (hsh : CanUseProductionPhasedLru numReqs sh) (hmax : sh.maxToken = maxToken)
      (inp : RowInput) (row : Row) {w : Work} (hrun : phasedRow o sh inp ⟨row, ws⟩ = some w)
      (h : ReachableSlice maxToken ws) : ReachableSlice maxToken w.toWorkspace

theorem ReachableSlice.sliceReady {maxToken : Int} {ws : Workspace}
    (h : ReachableSlice maxToken ws) : SliceReady maxToken ws := by
  induction h with
  | start hepoch =>
    left
    omega
  | call o _ hmax inp row hrun _ ih =>
    subst hmax
    exact .inr (phasedRow_marksAbove o ih hrun).2

theorem assignCount_le {sh : Shape} (inp : RowInput) (row : Row) (hsh : PhasedShape sh) :
    ((stepPlan sh inp row).assignCount : Int) ≤ min sh.topk sh.capacity := by
  have hmisses := length_misses_le inp row hsh.topk_pos.le
  have hevictable := length_evictable_le inp row hsh.capacity_pos.le
  unfold LruPlan.assignCount
  omega

/-- Over every run of phased calls the five kernels compute the reference step,
as long as `Assign` can count the misses with its 128 lanes. -/
theorem phasedRow_reachable_eq_lruStep (o : Orders) {numReqs : Int} {sh : Shape}
    (hsh : CanUseProductionPhasedLru numReqs sh) (hroom : min sh.topk sh.capacity ≤ 2 ^ 31 - 128)
    {ws : Workspace} (hws : ReachableSlice sh.maxToken ws) (inp : RowInput) (row : Row)
    (hlru : DistinctSlots sh row.lruSlots) :
    (phasedRow o sh inp ⟨row, ws⟩).map Work.toRow = some (lruStep sh inp row) :=
  phasedRow_eq_lruStep o hsh.phasedShape hws.sliceReady.freshEpoch
    ((assignCount_le inp row hsh.phasedShape).trans hroom) (nodup_stepPlan_order hlru inp)

def Orders.ascending : Orders := ⟨.ascending _, .ascending _, .ascending _⟩

def coldInput : RowInput := ⟨1, fun pos => pos, 0⟩

def coldRow : Row where
  lastReqId := 0
  slotToToken _ := -1
  lruSlots i := i
  currentSlots _ := -1
  missCount := 0
  missTokens _ := -1
  missSlots _ := -1

theorem phasedRow_reachable_eq_lruStep_cold :
    CanUseProductionPhasedLru 1 ⟨2, 3, 5⟩ ∧
    (phasedRow .ascending ⟨2, 3, 5⟩ coldInput ⟨coldRow, fun _ => -2, fun _ => 0, 0⟩).map
      Work.toRow = some (lruStep ⟨2, 3, 5⟩ coldInput coldRow) :=
  ⟨by decide, phasedRow_reachable_eq_lruStep _
    (by decide : CanUseProductionPhasedLru 1 ⟨2, 3, 5⟩) (by decide) (.start rfl) _ _
    fun _ _ _ _ _ _ _ heq => heq⟩

def hugeShape : Shape := ⟨2 ^ 31 - 3, 2 ^ 31 - 3, 2 ^ 31 - 1⟩

/-- The check accepts shapes whose misses `Assign` cannot count. -/
theorem phasedRow_hugeShape :
    CanUseProductionPhasedLru 1 hugeShape ∧
    ReachableSlice hugeShape.maxToken ⟨fun _ => 0, fun _ => 0, 0⟩ ∧
    DistinctSlots hugeShape coldRow.lruSlots ∧
    (phasedRow .ascending hugeShape coldInput ⟨coldRow, fun _ => 0, fun _ => 0, 0⟩).map
      Work.toRow ≠ some (lruStep hugeShape coldInput coldRow) := by
  have hcan : CanUseProductionPhasedLru 1 hugeShape := by decide
  refine ⟨hcan, .start rfl, fun _ _ _ _ _ _ _ heq => heq, ?_⟩
  have hreq : coldRow.lastReqId ≠ coldInput.reqId := by decide
  -- all `2^31 - 3` positions miss and find a free slot
  have hmisses : (stepPlan hugeShape coldInput coldRow).misses = Int.range 0 hugeShape.topk := by
    rw [misses_reset hreq, List.filter_eq_self]
    intro pos hpos
    have hb := Int.mem_range_iff.mp hpos
    exact decide_eq_true ⟨hb.1, hb.2.trans (by decide)⟩
  have hcount : ((stepPlan hugeShape coldInput coldRow).assignCount : Int) = 2 ^ 31 - 3 := by
    rw [assignCount_reset hreq (by decide) (by decide), hmisses, length_range]
    decide
  rw [phasedRow_eq_none _ hcan.phasedShape (.inl (.inl (by decide))) (by rw [hcount]; decide)]
  exact (Option.some_ne_none _).symm

end MemFabric.AccOffload.Lru.Phased
