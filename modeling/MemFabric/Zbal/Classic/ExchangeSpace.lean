import MemFabric.Zbal.Classic.Exchange
import MemFabric.Zbal.GroupMeta

/-!
# The kernels keep to the space of their group

The areas of the kernels are computed from the number of ranks and of cores, and the space of
a group comes from the options.  The kernels use at most eight areas of a slot for each rank,
which always fit.  The ring of the all-gather is the exception: it has a slot for each slice
of each core.
-/

namespace MemFabric.Zbal.Exchange

open Launch AllGatherBigKernel List GroupMetaArranger AlltoAllVKernel.CopyRange

/-! ## What is written -/

/-- The words of the exchange space of a rank that an instruction writes: the first, and how
many. -/
def Instr.range : Instr → Option (Nat × Nat)
  | .store _ word count _ => some (word, count)
  | .clear count => some (0, count)
  | .add word => some (word, 1)
  | _ => none

/-- The words of the parameter space that a core writes in `BarrierAll`: the slot of its own
rank at the ranks that it serves, and the slots of these ranks at its own. -/
def barrierWords (k : Launch) (rank aivIndex : Nat) : List Nat :=
  (Barrier.ranksOf k.groupSize k.aivNum aivIndex).flatMap fun p =>
    [Barrier.slot .flag rank, Barrier.slot .flag p, Barrier.slot .stat rank, Barrier.slot .stat p]

/-- A core of a group writes the byte at the address, on the rank that it writes to. -/
def Writes (g : GroupAddresses) (k : Launch) (op : Op) (rank aivIndex a : Nat) : Prop :=
  (∃ i ∈ op.process k rank aivIndex, ∃ word count, i.range = some (word, count) ∧
    g.addressExchangeGVA + word * 8 ≤ a ∧ a < g.addressExchangeGVA + (word + count) * 8) ∨
  ((∃ n, Instr.arrive (.barrierAll n) ∈ op.process k rank aivIndex) ∧
    ∃ word ∈ barrierWords k rank aivIndex,
      g.paramGVA + word * 8 ≤ a ∧ a < g.paramGVA + (word + ubPadCount) * 8)

/-- All that the cores of a group write lies in its parameter space or its exchange space,
and hence in the metadata of no other group. -/
structure Contained (arranger : GroupMetaArranger) (index : Nat) (k : Launch) (op : Op) : Prop where
  own : ∀ g, arranger.getGroupByIndex index = some g → ∀ rank aivIndex a, rank < k.groupSize →
    aivIndex < k.aivNum → Writes g k op rank aivIndex a →
    (g.paramGVA ≤ a ∧ a < g.paramGVA + paramSpaceSize) ∨
      (g.addressExchangeGVA ≤ a ∧ a < g.addressExchangeGVA + arranger.exchangeSpaceSize)
  other : ∀ g, arranger.getGroupByIndex index = some g → ∀ rank aivIndex a, rank < k.groupSize →
    aivIndex < k.aivNum → Writes g k op rank aivIndex a →
    ∀ index' g', index' ≠ index → arranger.getGroupByIndex index' = some g' →
      ¬ (g'.groupMetaGVA ≤ a ∧ a < g'.groupMetaGVA + arranger.singleMetaSpaceSize)

def Op.usesRing (k : Launch) : Op → Prop
  | .allReduce totalElems _ _ _ _ => k.groupSize < totalElems ∧ totalElems % k.groupSize = 0
  | .allGather _ _ _ => True
  | .broadcast elements typeSize _ _ =>
    k.isFullCopy elements = false ∧ smallAgThreshold < elements % 2 ^ 32 * typeSize
  | _ => False

def Op.PeersIn (k : Launch) : Op → Prop
  | .sendRecv _ src dst => src < k.groupSize ∧ dst < k.groupSize
  | _ => True

/-! ## Lists of instructions that stay below a bound -/

def Within (bound : Nat) (l : List Instr) : Prop :=
  ∀ i ∈ l, ∀ word count, i.range = some (word, count) → word + count ≤ bound

namespace Within

variable {bound : Nat} {l l' : List Instr}

theorem nil : Within bound [] := by
  intro i hi
  cases hi

variable {i : Instr} {xs : List Nat}

theorem cons (hi : ∀ word count, i.range = some (word, count) → word + count ≤ bound)
    (h : Within bound l) : Within bound (i :: l) := by
  intro j hj
  rcases mem_cons.mp hj with rfl | hj
  · exact hi
  · exact h j hj

theorem skip (hi : i.range = none) (h : Within bound l) : Within bound (i :: l) :=
  cons (by simp [hi]) h

theorem append (h : Within bound l) (h' : Within bound l') : Within bound (l ++ l') := by
  intro i hi
  rcases mem_append.mp hi with hi | hi
  · exact h i hi
  · exact h' i hi

theorem flatMap {f : Nat → List Instr} (h : ∀ x ∈ xs, Within bound (f x)) :
    Within bound (xs.flatMap f) := by
  intro i hi
  obtain ⟨x, hx, hi⟩ := mem_flatMap.mp hi
  exact h x hx i hi

theorem map {f : Nat → Instr} (h : ∀ x ∈ xs, Within bound [f x]) : Within bound (xs.map f) := by
  intro i hi
  obtain ⟨x, hx, rfl⟩ := mem_map.mp hi
  exact h x hx _ (mem_singleton.mpr rfl)

theorem of_range_eq_none (h : ∀ i ∈ l, i.range = none) : Within bound l := by
  intro i hi word count hr
  rw [h i hi] at hr
  cases hr

theorem mono {bound' : Nat} (h : Within bound l) (hle : bound ≤ bound') : Within bound' l :=
  fun i hi word count hr => (h i hi word count hr).trans hle

theorem ite {p : Prop} [Decidable p] (h : p → Within bound l) (h' : ¬ p → Within bound l') :
    Within bound (if p then l else l') := by
  split
  next hp => exact h hp
  next hp => exact h' hp

theorem syncAll (n : Nat) : Within bound (syncAll n) :=
  of_range_eq_none (by simp [Exchange.syncAll, Instr.range])

theorem barrierAll (n : Nat) : Within bound (barrierAll n) :=
  of_range_eq_none (by simp [Exchange.barrierAll, Instr.range])

end Within

/-! ## The kernels -/

namespace Launch

variable {k : Launch} {rank aivIndex addr r dst value flagAddr bound root coreLeft coreRight : Nat}
  {elements src aivNum peer site : Nat}
  {l : List Instr} {srcs : List Nat} {input buffer : Nat → Nat} {s : AlltoAllVKernel.CopyRange}
  {args : AlltoAllVArgs} {op : AllGatherBigKernel}

section

variable (haddr : addr + k.area ≤ 8 * k.area)

include haddr

theorem slot_add_le {count : Nat} (hr : r < k.groupSize)
    (hc : count ≤ 8) : slot addr r + count ≤ 8 * k.area := by
  have h2 : (r + 1) * flagSize ≤ k.area := Nat.mul_le_mul_right _ hr
  rw [slot]
  rw [flagSize] at h2 ⊢
  omega

theorem within_setMetaValue (hr : r < k.groupSize)
    (h : Within (8 * k.area) l) : Within (8 * k.area) (setMetaValue dst addr r value :: l) := by
  refine .cons (fun word count hrange => ?_) h
  cases hrange
  exact slot_add_le haddr hr (by decide)

theorem within_setFlag (hr : r < k.groupSize)
    (h : Within (8 * k.area) l) : Within (8 * k.area) (setFlag dst addr r value :: l) := by
  refine .cons (fun word count hrange => ?_) h
  cases hrange
  exact slot_add_le haddr hr (by decide)

theorem within_tell {dsts : List Nat}
    (hflag : flagAddr + k.area ≤ 8 * k.area) (hr : rank < k.groupSize) :
    Within (8 * k.area) (k.tell dsts addr flagAddr rank value) :=
  .flatMap fun _ _ => within_setFlag haddr hr (within_setFlag hflag hr .nil)

end

theorem within_waitFlags : Within bound (k.waitFlags addr srcs) := by
  refine .of_range_eq_none fun i hi => ?_
  obtain ⟨_, -, rfl⟩ := mem_map.mp hi
  rfl

theorem within_exchangeAddrFlag (hflag : flagAddr + k.area ≤ 8 * k.area) (hr : rank < k.groupSize) :
    Within (8 * k.area) (k.exchangeAddrFlag flagAddr addr rank dst) :=
  within_setMetaValue (by omega) hr (within_setMetaValue hflag hr .nil)

theorem within_allGatherSmall (hg : k.groupSize ≤ 384)
    (hr : rank < k.groupSize) : Within (8 * k.area) (k.allGatherSmall input rank aivIndex) := by
  have hstat : 2 * k.smallArea + k.area ≤ 8 * k.area := by
    rw [smallArea_eq (by omega)]
    omega
  have hflag : k.smallArea + k.area ≤ 8 * k.area := by
    omega
  refine .append (.flatMap fun dst _ => within_exchangeAddrFlag hflag hr) ?_
  refine .ite (fun _ => .flatMap fun offset _ => ?_) fun _ => ?_
  · refine .append (.skip rfl ?_) (.skip rfl .nil)
    exact .ite (fun _ => within_setMetaValue hstat hr .nil) fun _ => .nil
  · refine .append (.append (.skip rfl ?_) (.skip rfl .nil))
      (.syncAll 0)
    exact .ite (fun _ => within_setMetaValue hstat hr .nil) fun _ => .nil

section

variable (hr : rank < k.groupSize)

include hr

theorem within_reduceScatter : Within (8 * k.area) (k.reduceScatter input rank aivIndex) :=
  .append (.append (.append (.syncAll 0)
    (within_tell (by omega) (by omega) hr)) within_waitFlags) (.barrierAll 0)

theorem within_processRs : Within (8 * k.area) (k.processRs input rank aivIndex) :=
  .append (.append (.append (.syncAll 0)
    (within_tell (by omega) (by omega) hr)) within_waitFlags) (.barrierAll 1)

theorem within_processAg : Within (8 * k.area) (k.processAg buffer rank aivIndex) :=
  .append (.append (within_tell (by omega) (by omega) hr) within_waitFlags)
    (.barrierAll 2)

theorem within_processElemsLtGroupSize :
    Within (8 * k.area) (k.processElemsLtGroupSize input buffer rank aivIndex) := by
  refine .append (.append (.ite (fun _ => ?_) fun _ => ?_)
    (.barrierAll 1)) (.barrierAll 2)
  · exact .append (.append (.syncAll 0)
      (within_tell (by omega) (by omega) hr)) within_waitFlags
  · refine .append (.append (.append (.flatMap fun dst _ => ?_)
      within_waitFlags) within_waitFlags) (.syncAll 0)
    exact (within_tell (by omega) (by omega) hr).append (within_tell (by omega) (by omega) hr)

theorem within_tellRoot : Within (8 * k.area) (k.tellRoot input root rank aivIndex) :=
  .ite (fun _ => .flatMap fun _ _ => within_exchangeAddrFlag (by omega) hr)
    fun _ => .nil

theorem within_broadcastFullCopy :
    Within (8 * k.area) (k.broadcastFullCopy input root rank aivIndex) := by
  refine .append (.append (within_tellRoot hr) ?_) (.barrierAll 0)
  exact .ite (fun _ => .nil) fun _ => .skip rfl .nil

theorem within_scatter : Within (8 * k.area) (k.scatter input root rank aivIndex) := by
  refine .append (.append ?_ (.skip rfl .nil)) (.barrierAll 0)
  exact .ite (fun _ => within_tell (by omega) (by omega) hr) fun _ => .nil

end

/-! ### All-to-all -/

theorem scanRank_copyEndRank_le {counts i : Nat} (hi : i ≤ k.groupSize)
    (h : s.copyEndRank ≤ k.groupSize) :
    (s.scanRank coreLeft coreRight counts i).copyEndRank ≤ k.groupSize := by
  have hstart : ∀ s : AlltoAllVKernel.CopyRange,
      (s.checkStart coreLeft counts i).copyEndRank = s.copyEndRank := by
    intro s
    rw [checkStart]
    split <;> rfl
  have hmiddle : ∀ s : AlltoAllVKernel.CopyRange,
      (s.checkMiddle counts i).copyEndRank = s.copyEndRank := by
    intro s
    rw [checkMiddle]
    split <;> rfl
  simp only [scanRank, hmiddle]
  rw [checkEnd]
  split
  · exact hi
  · rw [hstart]
    exact h

theorem scanCounts_copyEndRank_le {n i : Nat} {counts : Nat → Nat}
    (h : s.copyEndRank ≤ k.groupSize) :
    (scanCounts coreLeft coreRight counts n i s).copyEndRank ≤ k.groupSize := by
  induction n generalizing i s with
  | zero => exact h
  | succ n ih =>
    rw [scanCounts]
    split
    next hlt => exact ih (scanRank_copyEndRank_le (by omega) h)
    next => exact h

theorem le_of_mem_alltoAllCopy (h : src ∈ k.alltoAllCopy elements aivIndex) :
    src ≤ k.groupSize := by
  have hlt := (mem_ranks.mp h).2
  exact Nat.le_of_lt_succ (hlt.trans_le
    (Nat.succ_le_succ (scanCounts_copyEndRank_le (Nat.le_refl _))))

theorem le_of_mem_alltoAllvCopy {elements : Nat → Nat}
    (h : src ∈ (k.alltoAllVKernel args).alltoAllvCopy elements aivIndex) : src ≤ k.groupSize := by
  have hlt := mem_range'_1.mp (mem_filter.mp h).1
  have hle : ((k.alltoAllVKernel args).getCoreCopyRangeInfo elements aivIndex).copyEndRank ≤
      k.groupSize := by
    rw [AlltoAllVKernel.getCoreCopyRangeInfo, scan_eq_scanCounts]
    exact scanCounts_copyEndRank_le (Nat.le_refl _)
  omega

theorem within_alltoAllProcess {statAddr sendAddr baseAddr readyAddr : Nat}
    {told : Nat → List Instr} {statBase : Nat → Nat} (hstat : statAddr + k.area ≤ 8 * k.area)
    (hsend : sendAddr + 2 * k.area ≤ 8 * k.area) (hbase : baseAddr + k.area ≤ 8 * k.area)
    (hready : readyAddr + k.area ≤ 8 * k.area) (htold : ∀ dst, Within (8 * k.area) (told dst))
    (hsrcs : ∀ src ∈ srcs, src ≤ k.groupSize) (hr : rank < k.groupSize) :
    Within (8 * k.area) (k.alltoAllProcess aivNum flagAddr statAddr sendAddr baseAddr readyAddr
      told statBase srcs rank aivIndex) := by
  have hpos : flagSize ≤ k.area := Nat.le_mul_of_pos_left _ (by omega)
  refine .append (.append ?_ ?_) (.barrierAll 0)
  · refine .flatMap fun i hi => ?_
    have hi' := mem_range.mp hi
    exact within_setMetaValue (by omega) hi' (within_setMetaValue hbase hi' .nil)
  · refine .ite (fun _ => ?_) fun _ => .nil
    refine .append (.append (.append (.append
      (.flatMap fun dst _ => htold dst) ?_) ?_) ?_) within_waitFlags
    · refine .append ?_ (.skip rfl .nil)
      refine .ite (fun _ => .append ?_ ?_) fun _ => .nil
      · exact .map fun m hm =>
          within_setMetaValue hbase (mem_range.mp hm) .nil
      · exact within_setMetaValue hready (by omega) .nil
    · refine .flatMap fun src hsrc => .skip rfl ?_
      refine .cons (fun word count hrange => ?_) .nil
      cases hrange
      have hle : src * flagSize ≤ k.area := Nat.mul_le_mul_right _ (hsrcs src hsrc)
      rw [slot]
      rw [flagSize] at hpos hle ⊢
      omega
    · refine .flatMap fun dst _ => .skip rfl ?_
      exact within_setMetaValue hstat hr .nil

theorem within_alltoAll {stack : Nat → Nat} (hg : k.groupSize ≤ 384) (hr : rank < k.groupSize) :
    Within (8 * k.area) (k.alltoAll elements input stack rank aivIndex) := by
  rw [alltoAll, smallArea_eq (by omega)]
  exact within_alltoAllProcess (by omega) (by omega) (by omega) (by omega)
    (fun _ => within_exchangeAddrFlag (by omega) hr) (fun _ => le_of_mem_alltoAllCopy) hr

theorem within_alltoAllV (hr : rank < k.groupSize) :
    Within (8 * k.area) (k.alltoAllV args rank aivIndex) := by
  refine within_alltoAllProcess (by omega) (by omega) (by omega) (by omega) (fun dst => ?_)
    (fun _ => le_of_mem_alltoAllvCopy) hr
  exact within_setMetaValue (by omega) hr (within_setMetaValue (by omega) hr
    (within_setMetaValue (by omega) hr (within_setMetaValue (by omega) hr .nil)))

theorem within_send {sendBuf : Nat} (hr : rank < k.groupSize) (hp : peer < k.groupSize) :
    Within (8 * k.area) (k.send sendBuf peer rank) :=
  within_setFlag (by omega) hr (within_setFlag (by omega) hr
    (.skip rfl (within_setFlag (by omega) hp .nil)))

theorem within_recv (hr : rank < k.groupSize) (hp : peer < k.groupSize) :
    Within (8 * k.area) (k.recv peer rank aivIndex) := by
  refine .append (.append (.skip rfl (.syncAll 0)) ?_) (.syncAll 1)
  exact .ite (fun _ => within_setFlag (by omega) hp (within_setFlag (by omega) hr .nil))
    fun _ => .nil

/-! ### The ring -/

theorem statSlot_add_le {a j : Nat} (hg : op.groupSize ≤ 1024) (hcores : op.aivNum ≤ 48)
    (hr : r < op.groupSize) (ha : a < op.aivNum) (hj : j < slicePerCore) :
    slot (op.statAddr a) (op.statOffset r a j) + ubPadCount ≤
      max op.exchangeMetaSize (8 * (op.groupSize * flagSize)) := by
  have hexch := Note.elemExchSize_eq hg
  rcases Nat.eq_zero_or_pos op.coreNumPerRing with hzero | hpos
  · -- a single core, whose areas of stats are empty
    have ha0 : a = 0 := by
      rw [coreNumPerRing] at hzero
      omega
    subst ha0
    have hstat : op.statOffset r 0 j = j := by
      simp [statOffset, statSizePerRank,
        coreIndex, hzero]
    have haddr : op.statAddr 0 = 2 * (op.groupSize * flagSize) := by
      rw [statAddr, if_neg (by simp [readsLeft, hzero]),
        readRightStatAddr, readLeftStatAddr,
        flagAddr, statSizePerRank, hzero, hexch]
      omega
    rw [haddr, slot, ubPadCount, slicePerCore] at *
    rw [flagSize]
    omega
  · have hword := Note.word_add_le hg hcores
      (show Note.Valid op (.stat (decide (op.readsLeft a)) r (op.coreIndex a) j)
        from ⟨hr, Nat.mod_lt _ hpos, hj⟩)
    simp only [Note.word, decide_eq_true_eq] at hword
    rw [slot, statAddr, statOffset, ubPadCount]
    rw [flagSize] at hword ⊢
    omega

theorem within_ring (hg : op.groupSize ≤ 1024) (hcores : op.aivNum ≤ 48)
    (hr : rank < op.groupSize) (ha : aivIndex < op.aivNum) :
    Within (max op.exchangeMetaSize (8 * (op.groupSize * flagSize)))
      (ring op site rank aivIndex) := by
  intro i hi word count hrange
  obtain ⟨x, hx, hofx⟩ := mem_filterMap.mp hi
  have hexch := Note.elemExchSize_eq hg
  have hrank : (rank + 1) * flagSize ≤ op.groupSize * flagSize := Nat.mul_le_mul_right _ hr
  cases x with
  | clear =>
    cases hofx
    cases hrange
    omega
  | presetStat j =>
    cases hofx
    cases hrange
    exact statSlot_add_le hg hcores hr ha (presetStat_mem_process.mp hx)
  | writeStat i j =>
    cases hofx
    cases hrange
    refine statSlot_add_le hg hcores ?_ ha (writeStat_mem_process.mp hx).2
    rw [readRank]
    split <;> exact Nat.mod_lt _ (by omega)
  | writeAddr =>
    cases hofx
    cases hrange
    rw [slot, ubPadCount]
    rw [flagSize] at hrank ⊢
    omega
  | writeFlag =>
    cases hofx
    cases hrange
    rw [slot, ubPadCount, flagAddr, hexch]
    rw [flagSize] at hrank ⊢
    omega
  | arrive site => cases site <;> (cases hofx; cases hrange)
  | await site => cases site <;> (cases hofx; cases hrange)
  | waitFlag =>
    cases hofx
    cases hrange
  | waitStat i j =>
    cases hofx
    cases hrange
  | load _ => cases hofx
  | store _ => cases hofx
  | readAddr => cases hofx

def ringWords (k : Launch) : Nat := 2 * (k.area + k.aivNum / 2 * 3 * k.area)

section

variable {typeSize symbol : Nat} {output : Nat → Nat} (hg : k.groupSize ≤ 384)
  (hcores : k.aivNum ≤ 48)

include hg hcores

theorem exchangeMetaSize_bigKernel :
    (({ k with waitSymbol := symbol } : Launch).bigKernel elements typeSize
      output).exchangeMetaSize = k.ringWords :=
  Note.exchangeMetaSize_eq (hg.trans (by decide)) hcores

theorem within_bigRing (hr : rank < k.groupSize) (ha : aivIndex < k.aivNum)
    (hbound : 8 * k.area ≤ bound) (hring : k.ringWords ≤ bound) :
    Within bound (ring (({ k with waitSymbol := symbol } : Launch).bigKernel elements typeSize
      output) site rank aivIndex) := by
  refine (within_ring (hg.trans (by decide)) hcores hr ha).mono (max_le ?_ hbound)
  rw [exchangeMetaSize_bigKernel hg hcores]
  exact hring

theorem clear_mem_bigRing :
    Instr.clear k.ringWords ∈ ring (({ k with waitSymbol := symbol } : Launch).bigKernel elements
      typeSize output) site rank aivIndex := by
  refine mem_filterMap.mpr ⟨.clear, mem_cons_self, ?_⟩
  rw [ofRing, exchangeMetaSize_bigKernel hg hcores]

end

end Launch

variable {k : Launch} {op : Op} {rank aivIndex : Nat}

section

variable (hg : k.groupSize ≤ 384) (hcores : k.aivNum ≤ 48)

include hg hcores

/-- The ring clears all that it uses. -/
theorem clear_mem_process (hring : op.usesRing k) :
    Instr.clear k.ringWords ∈ op.process k rank aivIndex := by
  cases op with
  | allReduce totalElems typeSize input buffer output =>
    obtain ⟨hgt, hdiv⟩ := hring
    rw [Op.process, allReduce, if_pos hgt, processElemsGtGroupSize, if_pos hdiv]
    refine mem_append_right _ (mem_append_right _ ?_)
    exact clear_mem_bigRing hg hcores
  | allGather elements typeSize output => exact clear_mem_bigRing hg hcores
  | broadcast elements typeSize input root =>
    obtain ⟨hfull, hlarge⟩ := hring
    rw [Op.process, broadcast, if_neg (by rw [hfull]; decide), broadcastRing,
      if_neg (not_le.mpr hlarge)]
    exact mem_append_right _ (clear_mem_bigRing hg hcores)
  | reduceScatter _ | alltoAll _ _ _ | alltoAllV _ | scatter _ _ | sendRecv _ _ _ | barrier =>
    cases hring

variable (hr : rank < k.groupSize) (ha : aivIndex < k.aivNum)

include hr ha

theorem within_process {bound : Nat} (hpeers : op.PeersIn k) (hbound : 8 * k.area ≤ bound)
    (hring : op.usesRing k → k.ringWords ≤ bound) : Within bound (op.process k rank aivIndex) := by
  cases op with
  | allReduce totalElems typeSize input buffer output =>
    refine .cons (fun word count hrange => ?_) (.append (.barrierAll 0) ?_)
    · cases hrange
      omega
    · refine .ite (fun hgt => ?_) fun _ =>
        (within_processElemsLtGroupSize hr).mono hbound
      refine .append ((within_processRs hr).mono hbound) ?_
      exact .ite (fun hdiv => within_bigRing hg hcores hr ha hbound (hring ⟨hgt, hdiv⟩))
        fun _ => (within_processAg hr).mono hbound
  | reduceScatter input => exact (within_reduceScatter hr).mono hbound
  | allGather elements typeSize output =>
    exact within_bigRing hg hcores hr ha hbound (hring trivial)
  | alltoAll elements input stack => exact (within_alltoAll hg hr).mono hbound
  | alltoAllV args => exact (within_alltoAllV hr).mono hbound
  | broadcast elements typeSize input root =>
    refine .ite (fun _ => (within_broadcastFullCopy hr).mono hbound) fun hfull => ?_
    refine .append (.append (.append
      ((within_tellRoot hr).mono hbound) (.skip rfl .nil))
      (.barrierAll 0)) ?_
    refine .ite (fun _ => ?_) fun hlarge => ?_
    · exact .mono (within_allGatherSmall hg hr) hbound
    · refine within_bigRing hg hcores hr ha hbound (hring ⟨?_, not_le.mp hlarge⟩)
      exact Bool.not_eq_true _ ▸ hfull
  | scatter input root => exact (within_scatter hr).mono hbound
  | sendRecv sendBuf src dst =>
    rw [Op.process]
    split
    · exact .ite (fun _ => (within_send hr hpeers.2).mono hbound)
        fun _ => .nil
    · exact .ite (fun _ => (within_recv hr hpeers.1).mono hbound) fun _ => .nil
  | barrier => exact .barrierAll 0

omit hcores in
theorem barrierWords_add_le {word : Nat} (h : word ∈ barrierWords k rank aivIndex) :
    (word + ubPadCount) * 8 ≤ paramSpaceSize := by
  obtain ⟨p, hp, hword⟩ := mem_flatMap.mp h
  have hp' : p < k.groupSize :=
    Barrier.lt_of_mem_ranksOf (c := ⟨aivIndex, ha⟩) (hg.trans (by decide)) hp
  have hslot : ∀ area q, q < k.groupSize →
      (Barrier.slot area q + ubPadCount) * 8 ≤ paramSpaceSize := by
    intro area q hq
    have hparam : paramSpaceSize = 63376 := by decide
    rw [Barrier.slot, ubPadCount, flagSize]
    cases area with
    | flag =>
      rw [Barrier.Area.addr]
      omega
    | stat =>
      rw [show Barrier.Area.addr .stat = 4096 by decide]
      omega
  simp only [mem_cons, not_mem_nil, or_false] at hword
  rcases hword with rfl | rfl | rfl | rfl
  · exact hslot _ _ hr
  · exact hslot _ _ hp'
  · exact hslot _ _ hr
  · exact hslot _ _ hp'

end

/-! ## The result -/

def maxRankSize : Nat := 384

def maxAivSizePerNpu : Nat := 48

section

variable {arranger : GroupMetaArranger} {g : GroupAddresses} {index : Nat}
  (hspace : 1024 * 1024 ≤ arranger.singleMetaSpaceSize) (hg : k.groupSize ≤ maxRankSize)
  (hcores : k.aivNum ≤ maxAivSizePerNpu)

include hspace hg hcores

theorem writes_own (hpeers : op.PeersIn k)
    (hring : op.usesRing k → k.ringWords * 8 ≤ arranger.exchangeSpaceSize)
    {a : Nat} (hr : rank < k.groupSize) (ha : aivIndex < k.aivNum)
    (hw : Writes g k op rank aivIndex a) :
    (g.paramGVA ≤ a ∧ a < g.paramGVA + paramSpaceSize) ∨
      (g.addressExchangeGVA ≤ a ∧ a < g.addressExchangeGVA + arranger.exchangeSpaceSize) := by
  rw [maxRankSize] at hg
  have hexchange : arranger.exchangeSpaceSize = arranger.singleMetaSpaceSize - 65536 := rfl
  have harea : k.area = k.groupSize * 8 := rfl
  rcases hw with ⟨i, hi, word, count, hrange, hlo, hhi⟩ | ⟨-, word, hword, hlo, hhi⟩
  · have hwithin : Within (arranger.exchangeSpaceSize / 8) (op.process k rank aivIndex) := by
      refine within_process hg hcores hr ha hpeers (by omega) fun hu => ?_
      have := hring hu
      omega
    have hle := hwithin i hi word count hrange
    omega
  · have := barrierWords_add_le hg hr ha hword
    omega

theorem contained_of_ringWords_le (hpeers : op.PeersIn k)
    (hring : op.usesRing k → k.ringWords * 8 ≤ arranger.exchangeSpaceSize) :
    Contained arranger index k op := by
  refine ⟨fun g _ rank aivIndex a hr ha hw => ?_,
    fun g hindex rank aivIndex a hr ha hw index' g' hne hindex' => ?_⟩
  · exact writes_own hspace hg hcores hpeers hring hr ha hw
  · obtain ⟨-, hparam, hexchange⟩ := getGroupByIndex_eq_some hindex
    have hown := writes_own hspace hg hcores hpeers hring hr ha hw
    have hsizes : paramSpaceSize + commGroupInfoSize = operateParamSize ∧
        operateParamSize = 65536 := by decide
    rw [exchangeSpaceSize] at hown
    exact disjoint_of_ne hne.symm hindex hindex' (by omega) (by omega)

/-- Without ranks or cores the areas fit.  Otherwise the first core clears the last byte. -/
theorem ringWords_le_of_contained (hindex : arranger.getGroupByIndex index = some g)
    (h : Contained arranger index k op) (hring : op.usesRing k) :
    k.ringWords * 8 ≤ arranger.exchangeSpaceSize := by
  by_contra hgt
  have hexchange : arranger.exchangeSpaceSize = arranger.singleMetaSpaceSize - 65536 := rfl
  have hwords : k.ringWords = 2 * (k.groupSize * 8 + k.aivNum / 2 * 3 * (k.groupSize * 8)) := rfl
  rw [maxRankSize] at hg
  have hranks : 0 < k.groupSize := by
    by_contra hzero
    rw [Nat.eq_zero_of_not_pos hzero] at hwords
    omega
  have haivs : 0 < k.aivNum := by
    by_contra hzero
    rw [Nat.eq_zero_of_not_pos hzero] at hwords
    omega
  have hown := h.own g hindex 0 0 (g.addressExchangeGVA + k.ringWords * 8 - 1) hranks haivs
    (.inl ⟨_, clear_mem_process hg hcores hring, 0, k.ringWords, rfl, by omega, by omega⟩)
  obtain ⟨-, hparam, haddr⟩ := getGroupByIndex_eq_some hindex
  have hsizes : paramSpaceSize + commGroupInfoSize = operateParamSize := by decide
  omega

end

/-- The kernels keep to the space of their group, the ring exactly if it fits. -/
theorem classic_kernels_contained (o : BootstrapOptions) (gva : Nat) (arranger : GroupMetaArranger)
    (hsize : BootstrapOptions.commMetaSpaceSizeDefault ≤ o.commMetaSpaceSize)
    (harranger : initializeFrom o gva = .ok arranger) (index : Nat)
    (hindex : index < arranger.commGroupCap) (k : Launch) (op : Op)
    (hg : k.groupSize ≤ maxRankSize) (hcores : k.aivNum ≤ maxAivSizePerNpu)
    (hpeers : op.PeersIn k) :
    Contained arranger index k op ↔
      (op.usesRing k → k.ringWords * 8 ≤ arranger.exchangeSpaceSize) := by
  have hspace : 1024 * 1024 ≤ arranger.singleMetaSpaceSize := by
    rw [initializeFrom_eq_ok harranger]
    exact Nat.mul_le_mul_right 1024 hsize
  constructor
  · intro h hring
    exact ringWords_le_of_contained hspace hg hcores (if_neg (not_le.mpr hindex)) h hring
  · exact contained_of_ringWords_le hspace hg hcores hpeers

def defaultOptions : BootstrapOptions where
  btType := 0
  ipPort := some "tcp://127.0.0.1:9897"
  worldSize := 384
  rankId := 0
  deviceId := 0
  deviceMemorySize := 64 * 1024 * 1024 * 1024
  commMetaSpaceSize := BootstrapOptions.commMetaSpaceSizeDefault
  commGroupCap := 128

def defaultArranger : GroupMetaArranger where
  myMetaGVA := 0
  totalMetaSpaceSize := 128 * 1024 * 1024
  singleMetaSpaceSize := 1024 * 1024
  commGroupCap := 128

theorem classic_kernels_contained_default :
    Contained defaultArranger 0 ⟨64, 48, 1⟩ (.allGather 1 4 id) :=
  (classic_kernels_contained defaultOptions 0 defaultArranger (by decide) rfl 0 (by decide)
    ⟨64, 48, 1⟩ (.allGather 1 4 id) (by decide) (by decide) trivial).mpr fun _ => by decide

/-- The ring of 384 ranks with 48 cores each clears the metadata of other groups. -/
theorem ring_of_384_ranks_clears_other_groups :
    defaultOptions.verifyOptions = .ok () ∧
      initializeFrom defaultOptions 0 = .ok defaultArranger ∧
      ¬ Contained defaultArranger 0 ⟨maxRankSize, maxAivSizePerNpu, 1⟩ (.allGather 1 4 id) := by
  refine ⟨by decide +kernel, rfl, fun h => ?_⟩
  refine h.other ⟨0, commGroupInfoSize, operateParamSize⟩ rfl 0 0 (1024 * 1024) (by decide)
    (by decide) (.inl ⟨.clear 448512, ?_, 0, 448512, rfl, by decide, by decide⟩) 1
    ⟨1024 * 1024, 1024 * 1024 + commGroupInfoSize, 1024 * 1024 + operateParamSize⟩ (by decide) rfl
    ⟨by decide, by decide⟩
  exact mem_filterMap.mpr ⟨.clear, mem_cons_self, by decide⟩

end MemFabric.Zbal.Exchange
