import MemFabric.AccOffload.Lru.Workspace

/-!
# One workspace for all kernels

Calls of different shapes share the workspace and are dispatched to different
kernels.  A phased call relies on its epoch being below every mark of its slice.
Phased calls keep that up among themselves and legacy calls only add marks that
are slots, but the fused kernel stores the epoch `-2` without looking at the
marks: when earlier phased calls of the slice had reached smaller epochs, later
ones use these epochs again and take stale marks for their own.
-/

namespace MemFabric.AccOffload.Lru

open Simt Reference Phased Device FusedV3 Function

def SlicesReady (maxToken : Int) (sl : Slices) : Prop :=
  ∀ k, 0 ≤ k → k < workspaceThreads → SliceReady maxToken (sl.slice maxToken k)

variable {maxToken : Int} {sl : Slices}

/-- A slice stays ready when its marks are kept or replaced by slots. -/
theorem Phased.SliceReady.of_marks {ws ws' : Workspace} (h : SliceReady maxToken ws)
    (hepoch : ws'.epoch = ws.epoch) (hmark : ∀ token, 0 ≤ token → token < maxToken →
      ws'.tokenMark token = ws.tokenMark token ∨ 0 ≤ ws'.tokenMark token) :
    SliceReady maxToken ws' := by
  by_cases hclear : -1 ≤ ws.epoch
  · left
    omega
  · right
    intro token h0 h1
    have hold := h.resolve_left hclear token h0 h1
    rcases hmark token h0 h1 with heq | hslot
    · rw [heq, hepoch]
      exact hold
    · omega

theorem sliceIndex_mem (row : Int) :
    0 ≤ row % workspaceThreads ∧ row % workspaceThreads < workspaceThreads :=
  ⟨Int.emod_nonneg row (by decide), Int.emod_lt_of_pos row (by decide)⟩

theorem SlicesReady.putSlice (h : SlicesReady maxToken sl) {k : Int} {ws : Workspace}
    (hown : SliceReady maxToken ws) (hkeep : ∀ i, ¬ (0 ≤ i ∧ i < maxToken) → ws.tokenMark i =
      viewAt (k * maxToken) sl.tokenMark i) : SlicesReady maxToken (sl.putSlice maxToken k ws) := by
  intro j hj0 hj
  by_cases hjk : j = k
  · rw [hjk]
    have hmark : (sl.putSlice maxToken k ws).slice maxToken k = ws := by
      simp [Slices.slice, Slices.putSlice]
    rw [hmark]
    exact hown
  · refine (h j hj0 hj).of_marks (update_of_ne hjk _ _) fun token h0 h1 => .inl ?_
    exact viewAt_storeAt_row hjk hkeep h0 h1

/-- Two devices that differ in the workspace only, both ready for any call. -/
structure Alike (maxToken : Int) (d d' : Device) : Prop where
  state : d.state = d'.state
  ready : SlicesReady maxToken d.slices
  ready' : SlicesReady maxToken d'.slices

section

variable (s : Schedules) (c : Call) (hroom : c.shape.maxToken ≤ 2 ^ 31 - 128)

/-! ## Phased calls -/

section

variable (hsh : PhasedShape c.shape)

include hsh

variable {d d' : Device}

theorem launchPhasedRow_ready (row : Int) {e : Device} (h : SlicesReady c.shape.maxToken d.slices)
    (hrun : launchPhasedRow s c row d = some e) : SlicesReady c.shape.maxToken e.slices := by
  obtain ⟨w, hw, rfl⟩ := Option.map_eq_some_iff.mp hrun
  have hk := sliceIndex_mem row
  exact h.putSlice (.inr (phasedRow_marksAbove _ (h _ hk.1 hk.2) hw).2)
    fun i hi => phasedRow_mark_frame _ hsh hw hi

include hroom

theorem launchPhasedRow_alike (row : Int) (h : Alike c.shape.maxToken d d') :
    ∃ e e', launchPhasedRow s c row d = some e ∧ launchPhasedRow s c row d' = some e' ∧
      Alike c.shape.maxToken e e' := by
  have hk := sliceIndex_mem row
  obtain ⟨w, w', hw, hw', hrow⟩ := phasedRow_toRow_congr (s.phased row) hsh hroom
    (d.state.row c.shape row) (h.ready _ hk.1 hk.2).freshEpoch (h.ready' _ hk.1 hk.2).freshEpoch
  have hrun : launchPhasedRow s c row d = some (d.putWork c.shape row w) :=
    congrArg (Option.map (d.putWork c.shape row)) hw
  have hrun' : launchPhasedRow s c row d' = some (d'.putWork c.shape row w') := by
    unfold launchPhasedRow work
    rw [← h.state]
    exact congrArg (Option.map (d'.putWork c.shape row)) hw'
  refine ⟨_, _, hrun, hrun', ?_, launchPhasedRow_ready s c hsh row h.ready hrun,
    launchPhasedRow_ready s c hsh row h.ready' hrun'⟩
  simp only [putWork, h.state, hrow]

theorem launchProductionPhasedLru_alike (h : Alike c.shape.maxToken d d') :
    ∃ e e', launchProductionPhasedLru s c d = some e ∧ launchProductionPhasedLru s c d' = some e' ∧
      Alike c.shape.maxToken e e' := by
  refine List.foldl_rel (r := fun acc acc' : Option Device => ∃ e e', acc = some e ∧
    acc' = some e' ∧ Alike c.shape.maxToken e e') ⟨d, d', rfl, rfl, h⟩ ?_
  rintro row - _ _ ⟨e, e', rfl, rfl, he⟩
  exact launchPhasedRow_alike s c hroom hsh row he

end

/-! ## Legacy calls -/

variable {maxToken : Int} {d d' : Device}

theorem SlicesReady.of_marks {sl sl' : Slices} (h : SlicesReady maxToken sl)
    (hepochs : sl'.epochs = sl.epochs)
    (hmark : ∀ i, sl'.tokenMark i = sl.tokenMark i ∨ 0 ≤ sl'.tokenMark i) :
    SlicesReady maxToken sl' := fun k h0 h1 =>
  (h k h0 h1).of_marks (congrFun hepochs k) fun _ _ _ => hmark _

theorem laneRow_ready (b t row : Int) (h : SlicesReady maxToken d.slices) :
    SlicesReady maxToken (Legacy.laneRow c b t row d).slices := by
  refine h.of_marks rfl fun i => ?_
  have hview : viewAt (Legacy.scratchBase c.shape b t) d.slices.tokenMark
      (i - Legacy.scratchBase c.shape b t) = d.slices.tokenMark i := by simp [viewAt]
  rw [← hview]
  exact Legacy.legacyRow_scratch _ _ _

include hroom in
theorem launchLegacyLruCompact_alike (h : Alike c.shape.maxToken d d') :
    Alike c.shape.maxToken (launchLegacyLruCompact s c d) (launchLegacyLruCompact s c d') := by
  refine List.foldl_rel h fun lane _ d d' h => ?_
  unfold Legacy.lane
  split_ifs with hguard
  · refine List.foldl_rel h fun row _ d d' h => ?_
    exact ⟨by dsimp only; rw [h.state], h.ready, h.ready'⟩
  · refine List.foldl_rel h fun row _ d d' h => ?_
    refine ⟨?_, laneRow_ready c _ _ row h.ready, laneRow_ready c _ _ row h.ready'⟩
    unfold Legacy.laneRow
    dsimp only
    rw [h.state, Legacy.legacyRow_congr (by omega) (by omega)]

/-! ## Fused calls -/

theorem launchFusedV3_state (h : d.state = d'.state) :
    (forLoop 0 c.numReqs (launchFusedV3 s c) d).state =
      (forLoop 0 c.numReqs (launchFusedV3 s c) d').state := by
  refine List.foldl_rel (r := fun d d' : Device => d.state = d'.state) h fun row _ d d' h => ?_
  unfold launchFusedV3 putWork work
  rw [h, fusedV3Kernel_toRow_congr]

/-- The marks a fused call finds in the slices it uses are not below the epoch it
stores. -/
def MarksKept (c : Call) (sl : Slices) : Prop :=
  IsCompactV3Shape c.numReqs c.shape → ∀ row, 0 ≤ row → row < c.numReqs →
    MarksAbove c.shape.maxToken fusedV3Epoch
      (sl.slice c.shape.maxToken (row % workspaceThreads)).tokenMark

theorem launchFusedV3_ready (h : SlicesReady c.shape.maxToken d.slices)
    (hmarks : ∀ row, 0 ≤ row → row < c.numReqs →
      MarksAbove c.shape.maxToken fusedV3Epoch
        (d.slices.slice c.shape.maxToken (row % workspaceThreads)).tokenMark) :
    SlicesReady c.shape.maxToken (forLoop 0 c.numReqs (launchFusedV3 s c) d).slices := by
  refine (forLoop_preserve (fun e : Device => SlicesReady c.shape.maxToken e.slices ∧
    e.slices.tokenMark = d.slices.tokenMark) ⟨h, rfl⟩ fun row e h0 h1 he => ?_).1
  have hws : (offloadLruCompactFusedV3Kernel (s.fusedV3 row) (s.fusedV3Ub row)
      (c.input row) (e.work c.shape row)).toWorkspace = _ :=
    fusedV3Kernel_toWorkspace _ _ _ _
  unfold launchFusedV3 putWork
  rw [hws]
  refine ⟨he.1.putSlice (.inr ?_) fun _ _ => rfl, ?_⟩
  · have hm := hmarks row h0 h1
    simp only [Slices.slice] at hm
    rw [← he.2] at hm
    exact hm
  · simp only [Slices.putSlice, work, Slices.slice, storeAt_viewAt]
    exact he.2

end

/-! ## Every run -/

/-- The workspaces that calls with one `maxToken` can leave, starting from epochs
that are zero.  Every call brings its own rows, shape and schedule, and finds
the workspace in a condition `Ok`. -/
inductive ReachableSlices (Ok : Call → Slices → Prop) (maxToken : Int) : Slices → Prop where
  | start {sl : Slices} (hepochs : ∀ k, 0 ≤ k → k < workspaceThreads → sl.epochs k = 0) :
      ReachableSlices Ok maxToken sl
  | call (s : Schedules) (c : Call) (st : State) {sl : Slices} {d : Device}
      (hmax : c.shape.maxToken = maxToken) (hok : Ok c sl)
      (hrun : accOffloadLruCompact s c ⟨st, sl⟩ = some d)
      (h : ReachableSlices Ok maxToken sl) : ReachableSlices Ok maxToken d.slices

/-- What a call does to two devices that differ in the workspace only. -/
theorem accOffloadLruCompact_alike (s : Schedules) (c : Call)
    (hroom : c.shape.maxToken ≤ 2 ^ 31 - 128) {d d' : Device} (h : Alike c.shape.maxToken d d') :
    ∃ e e', accOffloadLruCompact s c d = some e ∧ accOffloadLruCompact s c d' = some e' ∧
      e.state = e'.state ∧ (MarksKept c d.slices → SlicesReady c.shape.maxToken e.slices) := by
  unfold accOffloadLruCompact offloadOpsLruCompact
  split_ifs with hfused hphased
  · exact ⟨_, _, rfl, rfl, launchFusedV3_state s c h.state,
      fun hkept => launchFusedV3_ready s c h.ready (hkept hfused)⟩
  · obtain ⟨e, e', he, he', halike⟩ :=
      launchProductionPhasedLru_alike s c hroom hphased.phasedShape h
    exact ⟨e, e', he, he', halike.state, fun _ => halike.ready⟩
  · have halike := launchLegacyLruCompact_alike s c hroom h
    exact ⟨_, _, rfl, rfl, halike.state, fun _ => halike.ready⟩

theorem ReachableSlices.ready (hroom : maxToken ≤ 2 ^ 31 - 128)
    (h : ReachableSlices MarksKept maxToken sl) : SlicesReady maxToken sl := by
  induction h with
  | start hepochs =>
    intro k h0 h1
    left
    rw [show (Slices.slice maxToken _ k).epoch = _ from hepochs k h0 h1]
    decide
  | @call s c st sl d hmax hok hrun _ ih =>
    subst hmax
    have halike : Alike c.shape.maxToken ⟨st, sl⟩ ⟨st, sl⟩ := ⟨rfl, ih, ih⟩
    obtain ⟨e, -, he, -, -, hready⟩ := accOffloadLruCompact_alike s c hroom halike
    obtain rfl : e = d := Option.some.inj (he.symm.trans hrun)
    exact hready hok

def zeroSlices : Slices := ⟨fun _ => 0, fun _ => 0, fun _ => 0⟩

theorem zeroSlices_ready (maxToken : Int) : SlicesReady maxToken zeroSlices := fun _ _ _ =>
  .inl (by decide : (-1 : Int) ≤ 0)

/-- As long as no fused call finds a mark below the epoch it stores, every call
leaves the rows and outputs it would leave with a workspace of zeros. -/
theorem accOffloadLruCompact_eq_zeroed {sl : Slices} (h : ReachableSlices MarksKept 4096 sl)
    (s : Schedules) (c : Call) (hmax : c.shape.maxToken = 4096) (st : State) :
    ∃ d d', accOffloadLruCompact s c ⟨st, sl⟩ = some d ∧
      accOffloadLruCompact s c ⟨st, zeroSlices⟩ = some d' ∧ d.state = d'.state := by
  have halike : Alike c.shape.maxToken ⟨st, sl⟩ ⟨st, zeroSlices⟩ :=
    ⟨rfl, hmax ▸ h.ready (by decide), zeroSlices_ready _⟩
  obtain ⟨d, d', hd, hd', hstate, -⟩ :=
    accOffloadLruCompact_alike s c (by rw [hmax]; decide) halike
  exact ⟨d, d', hd, hd', hstate⟩

/-! ## A stale mark

Two phased calls for token `100` leave its mark at epoch `-3`.  A fused call then
sets the epoch back to `-2`, so the next phased call works with epoch `-3` as
well and takes the resident token `100` for a requested one. -/

section Stale

def pinShape : Shape := ⟨1, 1, 4096⟩

theorem forLoop_one {σ : Type*} (body : Int → σ → σ) (s : σ) : forLoop 0 1 body s = body 0 s := rfl

theorem pinShape_phased : PhasedShape pinShape := ⟨by decide, by decide, by decide, by decide,
  by decide, by decide⟩

theorem buildStacks_pin (lruSlots mark : Int → Int) {t : Int} (h0 : 0 < t) (h1 : t < 4095) :
    (buildStacks pinShape lruSlots mark).tokenMark t = mark t := by
  rw [buildStacks, show pinShape.capacity = 1 from rfl, forLoop_one]
  dsimp only
  split_ifs
  · exact update_of_ne (by simp only [pinShape]; omega) _ _
  · exact update_of_ne (by omega) _ _
  · rfl

theorem plannedWork_pin (o : Orders) (inp : RowInput) {w : Work}
    (h : FreshEpoch pinShape w.toWorkspace) (h0 : 0 < inp.topkIndices 0)
    (h1 : inp.topkIndices 0 < 4095) :
    (plannedWork o pinShape inp w).tokenMark (inp.topkIndices 0) = currentEpoch w.epoch := by
  have htok : pinShape.IsToken (inp.topkIndices 0) := ⟨h0.le, h1.trans (by decide)⟩
  have hmark : markTopk pinShape inp.topkIndices (currentEpoch w.epoch)
      (epochStart pinShape w.toWorkspace) = _ :=
    (forLoop_one _ _).trans (if_pos ⟨htok, epochStart_fresh h htok⟩)
  unfold plannedWork offloadLruCompactSimtOps
  dsimp only
  rw [hmark]
  exact (buildStacks_pin _ _ h0 h1).trans (update_self _ _ _)

def pinInput (token : Int) : RowInput := ⟨7, fun _ => token, 4096⟩

def pinRow : Row := ⟨7, fun _ => 100, fun i => i, fun _ => -1, 0, fun _ => -1, fun _ => -1⟩

/-- The plan for token `200` on a slice whose mark of token `100` carries the
epoch of the call: the resident token counts as a hit, and nothing is missing. -/
theorem plannedWork_stale (o : Orders) {ws : Workspace} (hepoch : ws.epoch = -2)
    (hmark : ws.tokenMark 100 = -3) :
    (plannedWork o pinShape (pinInput 200) ⟨pinRow, ws⟩).missCount = 0 := by
  -- marking token `200` leaves token `100` alone
  have hm : (markTopk pinShape (pinInput 200).topkIndices (-3) ws).tokenMark 100 = -3 := by
    rw [markTopk, show pinShape.topk = 1 from rfl, forLoop_one]
    dsimp only
    split_ifs
    · dsimp only
      exact hmark
    · exact hmark
  have hstart : epochStart pinShape ws = ws := if_neg (by rw [hepoch]; decide)
  have hcur : currentEpoch ws.epoch = -3 := by rw [hepoch]; decide
  unfold plannedWork
  rw [prepare_reset_eq o.prepare pinShape (pinInput 200) pinRow (by decide)]
  unfold offloadLruCompactSimtOps
  dsimp only
  rw [hstart, hcur]
  generalize markTopk pinShape (pinInput 200).topkIndices (-3) ws = ws' at *
  have hstack : ∀ lruSlots mark : Int → Int, lruSlots 0 = -2 →
      (buildStacks pinShape lruSlots mark).evictableCount = 0 := by
    intro lruSlots mark hlru
    rw [buildStacks, show pinShape.capacity = 1 from rfl, forLoop_one]
    rw [hlru, if_pos le_rfl]
  have hcount : ∀ cur missTokens tokenPos : Int → Int,
      ¬ (collectMisses pinShape (pinInput 200).topkIndices cur missTokens tokenPos).count < 0 := by
    intro cur missTokens tokenPos
    rw [collectMisses, show pinShape.topk = 1 from rfl, forLoop_one]
    dsimp only
    split_ifs
    · dsimp only
      omega
    · exact lt_irrefl 0
  -- the entry of slot `0` is encoded as a hit
  have henc : ∀ cur : Int → Int, (encodeHits pinShape ws' (-3)
      (startRow pinShape (pinInput 200) pinRow).slotToToken
      (startRow pinShape (pinInput 200) pinRow).lruSlots cur).lruSlots 0 = -2 := by
    intro cur
    rw [encodeHits, show pinShape.capacity = 1 from rfl, forLoop_one]
    dsimp only
    rw [if_neg (by decide), if_pos ⟨by decide, hm⟩]
    dsimp only
    rfl
  rw [hstack _ _ (henc _), if_neg (hcount _ _ _)]

def pinCall (token : Int) : Call := ⟨1, pinShape, fun _ => 7, fun _ => token, fun _ => 4096⟩

def pinState : State :=
  ⟨fun _ => 7, fun _ => 100, fun i => i, fun _ => -1, fun _ => 0, fun _ => -1, fun _ => -1⟩

theorem pinCall_work (token : Int) (sl : Slices) :
    (pinCall token).input 0 = pinInput token ∧
      work pinShape ⟨pinState, sl⟩ 0 = ⟨pinRow, sl.slice 4096 0⟩ := by
  constructor
  · simp [Call.input, pinCall, pinInput]
  · have hrow : pinState.row pinShape 0 = pinRow := by
      simp [State.row, pinState, pinRow]
    rw [work, hrow]
    rfl

theorem pinCall_run (s : Schedules) (token : Int) (sl : Slices) :
    accOffloadLruCompact s (pinCall token) ⟨pinState, sl⟩ =
      (phasedRow (s.phased 0) pinShape (pinInput token) ⟨pinRow, sl.slice 4096 0⟩).map
        (putWork pinShape ⟨pinState, sl⟩ 0) := by
  have hfused : ¬ IsCompactV3Shape (pinCall token).numReqs (pinCall token).shape := by
    rintro ⟨-, htopk, -⟩
    exact absurd htopk (by decide : (1 : Int) ≠ 2048)
  have hphased : CanUseProductionPhasedLru (pinCall token).numReqs (pinCall token).shape :=
    (by decide : CanUseProductionPhasedLru 1 pinShape)
  obtain ⟨hinput, hwork⟩ := pinCall_work token sl
  rw [accOffloadLruCompact, if_neg hfused, offloadOpsLruCompact, if_pos hphased,
    launchProductionPhasedLru, show (pinCall token).numReqs = 1 from rfl, forLoop_one,
    Option.bind_some, launchPhasedRow, hinput, show (pinCall token).shape = pinShape from rfl,
      hwork]

@[simp] theorem putWork_zero_mark (sh : Shape) (d : Device) (w : Work) :
    (d.putWork sh 0 w).slices.tokenMark = w.tokenMark := by
  funext i
  simp [putWork, Slices.putSlice, storeAt]

@[simp] theorem putWork_zero_epoch (sh : Shape) (d : Device) (w : Work) :
    (d.putWork sh 0 w).slices.epochs 0 = w.epoch := by
  simp [putWork, Slices.putSlice]

@[simp] theorem putWork_missCount (sh : Shape) (d : Device) (row : Int) (w : Work) :
    (d.putWork sh row w).state.missCount row = w.missCount := update_self _ _ _

theorem pinCall_marks (s : Schedules) {token : Int} (h0 : 0 < token) (h1 : token < 4095)
    {sl : Slices} (h : SlicesReady 4096 sl) :
    ∃ d, accOffloadLruCompact s (pinCall token) ⟨pinState, sl⟩ = some d ∧
      SlicesReady 4096 d.slices ∧ d.slices.epochs 0 = currentEpoch (sl.epochs 0) ∧
      d.slices.tokenMark token = currentEpoch (sl.epochs 0) := by
  have hslice := h 0 le_rfl (by decide)
  obtain ⟨d, -, hd, -, -, hready⟩ := accOffloadLruCompact_alike s (pinCall token)
    (by decide : pinShape.maxToken ≤ 2 ^ 31 - 128)
    (⟨rfl, h, h⟩ : Alike 4096 ⟨pinState, sl⟩ ⟨pinState, sl⟩)
  refine ⟨d, hd, hready fun hfused => ?_, ?_⟩
  · exact absurd hfused.2.1 (by decide : (1 : Int) ≠ 2048)
  · rw [pinCall_run] at hd
    obtain ⟨w, hw, rfl⟩ := Option.map_eq_some_iff.mp hd
    have hws : w.toWorkspace = (plannedWork (s.phased 0) pinShape (pinInput token)
        ⟨pinRow, sl.slice 4096 0⟩).toWorkspace := by
      rw [phasedRow_some _ hw, publish_toWorkspace]
    have hmark := plannedWork_pin (s.phased 0) (pinInput token) (w := ⟨pinRow, sl.slice 4096 0⟩)
      hslice.freshEpoch h0 h1
    rw [putWork_zero_mark, putWork_zero_epoch, show w.tokenMark = _ from
      congrArg Workspace.tokenMark hws]
    exact ⟨congrArg Workspace.epoch hws, hmark⟩

def fusedCall : Call := ⟨1, fusedV3Shape, fun _ => 7, fun _ => 0, fun _ => 0⟩

theorem fusedCall_marks (s : Schedules) (st : State) (sl : Slices) :
    ∃ d, accOffloadLruCompact s fusedCall ⟨st, sl⟩ = some d ∧
      d.slices.epochs 0 = -2 ∧ d.slices.tokenMark = sl.tokenMark := by
  have hfused : IsCompactV3Shape fusedCall.numReqs fusedCall.shape := by decide
  refine ⟨_, if_pos hfused, ?_⟩
  rw [show fusedCall.numReqs = 1 from rfl, forLoop_one, launchFusedV3]
  have hws := fusedV3Kernel_toWorkspace (s.fusedV3 0) (s.fusedV3Ub 0) (fusedCall.input 0)
    (work fusedCall.shape ⟨st, sl⟩ 0)
  rw [putWork_zero_mark]
  refine ⟨congrArg Workspace.epoch hws, (congrArg Workspace.tokenMark hws).trans ?_⟩
  simp [work, Slices.slice]

def ascendingSchedules : Schedules where
  fusedV3 _ _ := .ascending _
  fusedV3Ub _ :=
    { lastReqId := 0, slotToToken := fun _ => 0, lruSlots := fun _ => 0, currentSlots := fun _ => 0
      missCount := 0, missTokens := fun _ => 0, missSlots := fun _ => 0, tokenMark := fun _ => 0
      tokenPos := fun _ => 0, epoch := 0, topkIndices := fun _ => 0
      scan := ⟨fun _ => 0, fun _ => 0, fun _ => 0, fun _ => 0⟩
      evictableCount := 0, hitCount := 0, resetRow := 0, stablePrefix := 0, hasMiss := 0 }
  phased _ := .ascending
  legacy _ := .ascending _

/-- A fused call on a new workspace, and then a phased one. -/
theorem accOffloadLruCompact_eq_zeroed_fused :
    ∃ sl, ReachableSlices MarksKept 4096 sl ∧ sl.epochs 0 = -2 ∧
      ∃ d d', accOffloadLruCompact ascendingSchedules (pinCall 200) ⟨pinState, sl⟩ = some d ∧
        accOffloadLruCompact ascendingSchedules (pinCall 200) ⟨pinState, zeroSlices⟩ = some d' ∧
        d.state = d'.state := by
  obtain ⟨d, hrun, hepoch, -⟩ := fusedCall_marks ascendingSchedules pinState zeroSlices
  have hkept : MarksKept fusedCall zeroSlices := fun _ _ _ _ _ _ _ =>
    (by decide : fusedV3Epoch ≤ 0)
  have hreach : ReachableSlices MarksKept 4096 d.slices :=
    .call _ _ _ rfl hkept hrun (.start fun _ _ _ => rfl)
  exact ⟨d.slices, hreach, hepoch,
    accOffloadLruCompact_eq_zeroed hreach ascendingSchedules (pinCall 200) rfl pinState⟩

/-- After two phased calls and a fused one, a phased call loses its miss. -/
theorem accOffloadLruCompact_stale :
    ∃ sl d d', ReachableSlices (fun _ _ => True) 4096 sl ∧
      accOffloadLruCompact ascendingSchedules (pinCall 200) ⟨pinState, sl⟩ = some d ∧
      accOffloadLruCompact ascendingSchedules (pinCall 200) ⟨pinState, zeroSlices⟩ = some d' ∧
      d.state.missCount 0 = 0 ∧ d'.state.missCount 0 = 1 := by
  obtain ⟨d1, hrun1, hready1, hepoch1, -⟩ := pinCall_marks ascendingSchedules
    (by decide : (0 : Int) < 100) (by decide) (zeroSlices_ready 4096)
  obtain ⟨d2, hrun2, -, hepoch2, hmark2⟩ := pinCall_marks ascendingSchedules
    (by decide : (0 : Int) < 100) (by decide) hready1
  obtain ⟨d3, hrun3, hepoch3, hmark3⟩ := fusedCall_marks ascendingSchedules pinState d2.slices
  have hreach : ReachableSlices (fun _ _ => True) 4096 d3.slices :=
    .call _ _ _ rfl trivial hrun3 (.call _ _ _ rfl trivial hrun2
      (.call _ _ _ rfl trivial hrun1 (.start fun _ _ _ => rfl)))
  have hstale : d3.slices.tokenMark 100 = -3 := by
    rw [hmark3, hmark2, hepoch1]
    decide
  have hslice : (d3.slices.slice 4096 0).tokenMark 100 = -3 := by
    simpa [Slices.slice] using hstale
  have hmiss := plannedWork_stale .ascending hepoch3 hslice
  have hrun : phasedRow .ascending pinShape (pinInput 200) ⟨pinRow, d3.slices.slice 4096 0⟩ = _ :=
    phasedRow_eq_publish .ascending (hmiss.trans_le (by decide))
  have hfresh : (phasedRow .ascending pinShape (pinInput 200)
      ⟨pinRow, zeroSlices.slice 4096 0⟩).map Work.toRow = some (lruStep pinShape _ pinRow) :=
    phasedRow_eq_lruStep .ascending pinShape_phased
      (.inl (.inl (by decide))) (by decide) (by decide)
  obtain ⟨w, hw, hstep⟩ := Option.map_eq_some_iff.mp hfresh
  refine ⟨d3.slices, _, _, hreach, (pinCall_run _ _ _).trans (congrArg _ hrun),
    (pinCall_run _ _ _).trans (congrArg _ hw), ?_, ?_⟩
  · rw [putWork_missCount, publish_missCount, hmiss]
  · rw [putWork_missCount, show w.missCount = _ from congrArg Row.missCount hstep]
    decide

end Stale

/-! ## Runs of the operator -/

/-- The reference step on the rows of a call. -/
def lruRows (c : Call) (st : State) : State :=
  forLoop 0 c.numReqs (fun row st =>
    st.putRow c.shape row (lruStep c.shape (c.input row) (st.row c.shape row))) st

/-- Each of the first `n` rows has all slots in its use order. -/
def RowsOrdered (sh : Shape) (n : Int) (st : State) : Prop :=
  ∀ row, 0 ≤ row → row < n → LruPerm sh (st.row sh row).lruSlots

/-- Between two calls.  The fused kernel does not look at the slices. -/
structure Between (sh : Shape) (n : Int) (d : Device) (st : State) : Prop where
  state : d.state = st
  ordered : RowsOrdered sh n st
  ready : sh ≠ fusedV3Shape → SlicesReady sh.maxToken d.slices

variable {sh : Shape} {n : Int} {st : State}

theorem RowsOrdered.putRow (h : RowsOrdered sh n st) {row : Int} (h0 : 0 ≤ row) (h1 : row < n)
    (inp : RowInput) : RowsOrdered sh n (st.putRow sh row (lruStep sh inp (st.row sh row))) := by
  intro r hr0 hr1
  by_cases hrow : r = row
  · subst hrow
    simpa [State.row, State.putRow] using lruPerm_lruStep ((h r h0 h1).startLru inp)
  · refine (List.Perm.of_eq (List.map_congr_left fun i hi => ?_)).trans (h r hr0 hr1)
    have hi := Int.mem_range_iff.mp hi
    exact viewAt_storeAt_row hrow (fun _ hi => if_neg hi) hi.1 hi.2

theorem accOffloadLruCompact_between (s : Schedules) (c : Call) {d : Device}
    (hsh : CanUseProductionPhasedLru c.numReqs c.shape) (hroom : c.shape.maxToken ≤ 2 ^ 31 - 128)
    (hn : c.numReqs ≤ n) (h : Between c.shape n d st) :
    ∃ e, accOffloadLruCompact s c d = some e ∧ Between c.shape n e (lruRows c st) := by
  have hnd : ∀ {d st row}, Between c.shape n d st → 0 ≤ row → row < c.numReqs →
      (stepPlan c.shape (c.input row) (d.work c.shape row).toRow).order.Nodup := by
    rintro d _ row ⟨rfl, hst, -⟩ h0 h1
    exact nodup_order_of_perm ((hst row h0 (h1.trans_le hn)).startLru _)
  have hphased := hsh.phasedShape
  unfold accOffloadLruCompact offloadOpsLruCompact
  by_cases hfused : c.shape = fusedV3Shape
  · rw [if_pos (by rw [hfused]; exact ⟨hsh.1, rfl, rfl, rfl⟩)]
    refine ⟨_, rfl, forLoop_rel hsh.1.le (fun _ => Between c.shape n) h ?_⟩
    intro row d st h0 h1 h
    refine ⟨?_, h.ordered.putRow h0 (h1.trans_le hn) _, absurd hfused⟩
    rw [launchFusedV3, fusedV3Kernel_eq _ _ _ _ (hfused ▸ hnd h h0 h1), ← hfused, ← h.state]
    rfl
  · rw [if_neg fun hv3 => hfused ((Shape.mk.injEq ..).mpr hv3.2), if_pos hsh]
    refine forLoop_rel hsh.1.le (fun _ d st => ∃ e, d = some e ∧ Between c.shape n e st)
      ⟨d, rfl, h⟩ ?_
    rintro row _ st h0 h1 ⟨d, rfl, h⟩
    have hk := sliceIndex_mem row
    have hready := h.ready hfused
    have hcount := assignCount_le (c.input row) (d.work c.shape row).toRow hphased
    have htopk := hphased.topk_le
    obtain ⟨w, hw, hrow⟩ := Option.map_eq_some_iff.mp (phasedRow_eq_lruStep (s.phased row) hphased
      (hready _ hk.1 hk.2).freshEpoch (hcount.trans (by omega)) (hnd h h0 h1))
    have hrun : launchPhasedRow s c row d = some (d.putWork c.shape row w) :=
      congrArg (Option.map _) hw
    refine ⟨_, hrun, ?_, h.ordered.putRow h0 (h1.trans_le hn) _,
      fun _ => launchPhasedRow_ready s c hphased row hready hrun⟩
    rw [putWork, hrow, ← h.state]
    rfl

/-- On a new workspace, calls of one production shape leave what the reference steps
leave, whichever kernel the shape is dispatched to and in every lane order. -/
theorem accOffloadLruCompact_run (calls : List (Schedules × Call)) (d : Device)
    (hcalls : ∀ call ∈ calls, call.2.shape = sh ∧ call.2.numReqs ≤ n ∧
      CanUseProductionPhasedLru call.2.numReqs sh) (hroom : sh.maxToken ≤ 2 ^ 31 - 128)
    (hepochs : ∀ k, 0 ≤ k → k < workspaceThreads → d.slices.epochs k = 0)
    (hrows : RowsOrdered sh n d.state) :
    (calls.foldlM (fun d call => accOffloadLruCompact call.1 call.2 d) d).map state =
      some (calls.foldl (fun st call => lruRows call.2 st) d.state) := by
  have h : Between sh n d d.state := ⟨rfl, hrows, fun _ =>
    (show ReachableSlices MarksKept _ _ from .start hepochs).ready hroom⟩
  clear hepochs hrows
  generalize d.state = st at h ⊢
  induction calls generalizing st d with
  | nil => exact congrArg some h.state
  | cons call calls ih =>
    obtain ⟨⟨rfl, hn, hsh⟩, hcalls⟩ := List.forall_mem_cons.mp hcalls
    obtain ⟨e, he, h⟩ := accOffloadLruCompact_between call.1 _ hsh hroom hn h
    rw [List.foldlM_cons, he]
    exact ih e hcalls _ h

theorem accOffloadLruCompact_run_pin :
    ([(ascendingSchedules, pinCall 100), (ascendingSchedules, pinCall 200)].foldlM
      (fun d call => accOffloadLruCompact call.1 call.2 d) ⟨pinState, zeroSlices⟩).map state =
      some (lruRows (pinCall 200) (lruRows (pinCall 100) pinState)) :=
  accOffloadLruCompact_run (n := 1) _ _ (by decide) (by decide : pinShape.maxToken ≤ _)
    (fun _ _ _ => rfl) fun row h0 h1 => by
      obtain rfl : row = 0 := by omega
      decide

end MemFabric.AccOffload.Lru
