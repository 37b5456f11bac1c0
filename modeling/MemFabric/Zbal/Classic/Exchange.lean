import MemFabric.Zbal.Classic.AllGather
import MemFabric.Zbal.Classic.AlltoAllV

/-!
# What the kernels do with the exchange space

Every kernel tells the other ranks of the group where its data is, and waits for what they
have to tell.  It uses the exchange space of the group for that, in areas that have a slot for
each rank of the group.  The areas are the kernel's own affair: all kernels share the space.

Here a kernel is the list of what a core of a rank stores in an exchange space, waits for and
clears.  The copies of the data are left out.
-/

namespace MemFabric.Zbal.Exchange

/-- The calls of `SyncAll` and of `BarrierAll` in a kernel, and its end, which the cores of a
rank reach together before the next kernel begins on the rank. -/
inductive Site
  | syncAll (n : Nat)
  | barrierAll (n : Nat)
  | exit
deriving DecidableEq

/-- `store` writes `count` words from `word` on at the rank `dst`, of which the first gets the
value.  The other instructions are about the core's own rank.  `wait` also says which rank is
to write the value. -/
inductive Instr
  | store (dst word count value : Nat)
  | clear (count : Nat)
  | add (word : Nat)
  | wait (word value peer : Nat)
  | waitLocal (word base : Nat)
  | arrive (site : Site)
  | await (site : Site)
deriving DecidableEq

def syncAll (n : Nat) : List Instr := [.arrive (.syncAll n), .await (.syncAll n)]

def barrierAll (n : Nat) : List Instr := [.arrive (.barrierAll n), .await (.barrierAll n)]

/-- `UB_PAD_COUNT`, the words that `SetMetaValue` copies. -/
def ubPadCount : Nat := 4

def slot (addr rank : Nat) : Nat := addr + rank * flagSize

def setMetaValue (dst addr rank value : Nat) : Instr := .store dst (slot addr rank) ubPadCount value

def setFlag (dst addr rank value : Nat) : Instr := .store dst (slot addr rank) 1 value

def setDataAddr (dst addr rank value : Nat) : Instr := .store dst (slot addr rank) 1 value

/-- `WaitMetaValue`, and the loops over `GetFlag`. -/
def waitMetaValue (addr rank value : Nat) : Instr := .wait (slot addr rank) value rank

def ranks (lo hi : Nat) : List Nat := List.range' lo (hi - lo)

theorem mem_ranks {lo hi r : Nat} : r ∈ ranks lo hi ↔ lo ≤ r ∧ r < hi := by
  rw [ranks, List.mem_range'_1]
  omega

structure Launch where
  groupSize : Nat
  aivNum : Nat
  waitSymbol : Nat

namespace Launch

variable (k : Launch)

def area : Nat := k.groupSize * flagSize

/-! ## All-gather

The instructions of the ring that do not concern the exchange space are left out.  `site` is
the number of its first barrier in the kernel that it is part of. -/

def ofRing (op : AllGatherBigKernel) (site rank aivIndex : Nat) :
    AllGatherBigKernel.Instr → Option Instr
  | .clear => some (.clear op.exchangeMetaSize)
  | .arrive .begin => some (.arrive (.barrierAll site))
  | .await .begin => some (.await (.barrierAll site))
  | .arrive .finish => some (.arrive (.barrierAll (site + 1)))
  | .await .finish => some (.await (.barrierAll (site + 1)))
  | .presetStat j =>
    some (setMetaValue (op.statUpdateRank rank aivIndex) (op.statAddr aivIndex)
      (op.statOffset rank aivIndex j) op.waitSymbol)
  | .writeAddr =>
    some (setMetaValue (op.statUpdateRank rank aivIndex) 0 rank (op.outputPtr rank))
  | .writeFlag =>
    some (setMetaValue (op.statUpdateRank rank aivIndex) op.flagAddr rank op.waitSymbol)
  | .waitFlag => some (waitMetaValue op.flagAddr (op.inputPtrIndex rank aivIndex) op.waitSymbol)
  | .waitStat i j =>
    some (.wait
      (slot (op.statAddr aivIndex) (op.statOffset (op.readRank rank aivIndex i) aivIndex j))
      op.waitSymbol (op.inputPtrIndex rank aivIndex))
  | .writeStat i j =>
    some (setMetaValue (op.statUpdateRank rank aivIndex) (op.statAddr aivIndex)
      (op.statOffset (op.readRank rank aivIndex i) aivIndex j) op.waitSymbol)
  | .load _ => none
  | .store _ => none
  | .readAddr => none

def ring (op : AllGatherBigKernel) (site rank aivIndex : Nat) : List Instr :=
  (op.process aivIndex).filterMap (ofRing op site rank aivIndex)

def bigKernel (elements typeSize : Nat) (output : Nat → Nat) : AllGatherBigKernel where
  groupSize := k.groupSize
  aivNum := k.aivNum
  elements := elements
  waitSymbol := k.waitSymbol
  copyUbNum := 176 * 1024 / typeSize
  outputPtr := output

def allGather (elements typeSize : Nat) (output : Nat → Nat) (rank aivIndex : Nat) : List Instr :=
  ring (k.bigKernel elements typeSize output) 0 rank aivIndex

/-! ## The small all-gather -/

/-- `inputAddrSize`, a `uint16_t` -/
def smallArea : Nat := k.area % 2 ^ 16

theorem smallArea_eq {k : Launch} (hg : k.groupSize < 8192) : k.smallArea = k.area := by
  rw [smallArea]
  rw [area, flagSize]
  omega

def exchangeAddrFlag (flagAddr addr rank dst : Nat) : List Instr :=
  [setMetaValue dst 0 rank addr, setMetaValue dst flagAddr rank k.waitSymbol]

/-- The ranks that a core tells: equal parts, the last of which may be shorter or empty, or
one for each of the first cores. -/
def exchangeRanks (aivIndex : Nat) : List Nat :=
  if k.aivNum < k.groupSize then
    let ranksPerCore := (k.groupSize + k.aivNum - 1) / k.aivNum
    ranks (aivIndex * ranksPerCore) (min (aivIndex * ranksPerCore + ranksPerCore) k.groupSize)
  else if aivIndex < k.groupSize then [aivIndex]
  else []

/-- `WriteStat` for a rank: with fewer cores than ranks the remainder is taken of zero. -/
def writeStatTo (rank dst : Nat) : List Instr :=
  if 0 % (k.aivNum / k.groupSize) = 0 then
    [setMetaValue dst (2 * k.smallArea) rank k.waitSymbol]
  else []

def writeStat (rank aivIndex : Nat) : List Instr :=
  let corePerRank := k.aivNum / k.groupSize
  if aivIndex % corePerRank = 0 then
    [setMetaValue (aivIndex / corePerRank) (2 * k.smallArea) rank k.waitSymbol]
  else []

def innerProcessLargeGroupSize (rank aivIndex : Nat) : List Instr :=
  let remainder := k.groupSize % k.aivNum
  let ranksPerCore :=
    if aivIndex < remainder then k.groupSize / k.aivNum + 1 else k.groupSize / k.aivNum
  let startRank :=
    if remainder ≤ aivIndex then aivIndex * ranksPerCore + remainder else aivIndex * ranksPerCore
  (ranks startRank (startRank + ranksPerCore)).flatMap fun offset =>
    waitMetaValue k.smallArea offset k.waitSymbol :: k.writeStatTo rank offset ++
      [waitMetaValue (2 * k.smallArea) offset k.waitSymbol]

/-- The rank that a core copies from when there are enough cores for all ranks. -/
def innerOffset (aivIndex : Nat) : Nat :=
  let baseCorePerRank := k.aivNum / k.groupSize
  let remainder := k.aivNum % k.groupSize
  if aivIndex < remainder * (baseCorePerRank + 1) then aivIndex / (baseCorePerRank + 1)
  else remainder + (aivIndex - remainder * (baseCorePerRank + 1)) / baseCorePerRank

def innerProcess (rank aivIndex : Nat) : List Instr :=
  waitMetaValue k.smallArea (k.innerOffset aivIndex) k.waitSymbol :: k.writeStat rank aivIndex ++
    [waitMetaValue (2 * k.smallArea) (k.innerOffset aivIndex) k.waitSymbol] ++ syncAll 0

def allGatherSmall (input : Nat → Nat) (rank aivIndex : Nat) : List Instr :=
  (k.exchangeRanks aivIndex).flatMap (k.exchangeAddrFlag k.smallArea (input rank) rank) ++
    if k.aivNum < k.groupSize then k.innerProcessLargeGroupSize rank aivIndex
    else k.innerProcess rank aivIndex

/-! ## Reduce-scatter and all-reduce -/

/-- `InitParallelStrategy`: the ranks that a core copies from and those that it tells. -/
structure ParallelStrategy where
  startRank : Nat
  endRank : Nat
  startNotifyRank : Nat
  endNotifyRank : Nat

def parallelStrategy (aivIndex : Nat) : ParallelStrategy :=
  if k.aivNum < k.groupSize then
    let avg := k.groupSize / k.aivNum
    let remain := k.groupSize % k.aivNum
    let startRank := aivIndex * avg + if aivIndex < remain then aivIndex else remain
    let endRank := startRank + avg + if aivIndex < remain then 1 else 0
    ⟨startRank, endRank, startRank, endRank⟩
  else
    let avg := k.aivNum / k.groupSize
    let remain := k.aivNum % k.groupSize
    let extra := avg + 1
    let startRank :=
      if aivIndex < remain * extra then aivIndex / extra
      else remain + (aivIndex - remain * extra) / avg
    if aivIndex < k.groupSize then ⟨startRank, startRank + 1, aivIndex, aivIndex + 1⟩
    else ⟨startRank, startRank + 1, 0, 0⟩

def notifyRanks (aivIndex : Nat) : List Nat :=
  ranks (k.parallelStrategy aivIndex).startNotifyRank (k.parallelStrategy aivIndex).endNotifyRank

def sourceRanks (aivIndex : Nat) : List Nat :=
  ranks (k.parallelStrategy aivIndex).startRank (k.parallelStrategy aivIndex).endRank

def tell (dsts : List Nat) (dataAddr flagAddr rank value : Nat) : List Instr :=
  dsts.flatMap fun dst =>
    [setDataAddr dst dataAddr rank value, setFlag dst flagAddr rank k.waitSymbol]

def waitFlags (flagAddr : Nat) (srcs : List Nat) : List Instr :=
  srcs.map fun src => waitMetaValue flagAddr src k.waitSymbol

def reduceScatter (input : Nat → Nat) (rank aivIndex : Nat) : List Instr :=
  syncAll 0 ++ k.tell (k.notifyRanks aivIndex) 0 k.area rank (input rank) ++
    k.waitFlags k.area (k.sourceRanks aivIndex) ++ barrierAll 0

/-- `ProcessRs` of the all-reduce. -/
def processRs (input : Nat → Nat) (rank aivIndex : Nat) : List Instr :=
  syncAll 0 ++ k.tell (k.notifyRanks aivIndex) 0 (2 * k.area) rank (input rank) ++
    k.waitFlags (2 * k.area) (k.sourceRanks aivIndex) ++ barrierAll 1

def processAg (buffer : Nat → Nat) (rank aivIndex : Nat) : List Instr :=
  k.tell (k.notifyRanks aivIndex) k.area (3 * k.area) rank (buffer rank) ++
    k.waitFlags (3 * k.area) (k.sourceRanks aivIndex) ++ barrierAll 2

/-- The second phase: the ring when the ranks have equal parts, with the symbol before. -/
def processElemsGtGroupSize (totalElems typeSize : Nat) (input buffer output : Nat → Nat)
    (rank aivIndex : Nat) : List Instr :=
  k.processRs input rank aivIndex ++
    if totalElems % k.groupSize = 0 then
      let ag : Launch := { k with waitSymbol := k.waitSymbol - 1 }
      ring (ag.bigKernel (totalElems / k.groupSize) typeSize output) 2 rank aivIndex
    else k.processAg buffer rank aivIndex

def processElemsLtGroupSize (input buffer : Nat → Nat) (rank aivIndex : Nat) : List Instr :=
  (if k.aivNum < k.groupSize then
    syncAll 0 ++ k.tell (k.notifyRanks aivIndex) 0 (2 * k.area) rank (input rank) ++
      k.waitFlags (2 * k.area) (k.sourceRanks aivIndex)
  else
    (k.notifyRanks aivIndex).flatMap (fun dst =>
      k.tell [dst] 0 (2 * k.area) rank (input rank) ++
        k.tell [dst] k.area (3 * k.area) rank (buffer rank)) ++
      k.waitFlags (2 * k.area) [aivIndex] ++ k.waitFlags (3 * k.area) [aivIndex] ++ syncAll 0) ++
    barrierAll 1 ++ barrierAll 2

def allReduce (totalElems typeSize : Nat) (input buffer output : Nat → Nat) (rank aivIndex : Nat) :
    List Instr :=
  .clear (4 * k.area) :: barrierAll 0 ++
    if k.groupSize < totalElems then
      k.processElemsGtGroupSize totalElems typeSize input buffer output rank aivIndex
    else k.processElemsLtGroupSize input buffer rank aivIndex

/-! ## Broadcast and scatter -/

/-- `InitDataAddrAndFlag` of the two broadcasts. -/
def tellRoot (input : Nat → Nat) (root rank aivIndex : Nat) : List Instr :=
  if rank = root then
    (k.exchangeRanks aivIndex).flatMap (k.exchangeAddrFlag k.area (input rank) rank)
  else []

def broadcastFullCopy (input : Nat → Nat) (root rank aivIndex : Nat) : List Instr :=
  k.tellRoot input root rank aivIndex ++
    (if rank = root then [] else [waitMetaValue k.area root k.waitSymbol]) ++ barrierAll 0

def smallAgThreshold : Nat := 1024 * 7168

/-- The all-gather that follows, with a symbol of its own.  The kernel keeps the elements in
a `uint32_t`. -/
def broadcastRing (elements typeSize : Nat) (input : Nat → Nat) (root rank aivIndex : Nat) :
    List Instr :=
  let ag : Launch := { k with waitSymbol := k.waitSymbol + 16 }
  let elements := elements % 2 ^ 32
  let elementsPerRank := elements / k.groupSize
  k.tellRoot input root rank aivIndex ++ [waitMetaValue k.area root k.waitSymbol] ++
    barrierAll 0 ++
    if elements * typeSize ≤ smallAgThreshold then
      ag.allGatherSmall (fun r => input r + r * elementsPerRank * typeSize) rank aivIndex
    else ring (ag.bigKernel elementsPerRank typeSize input) 1 rank aivIndex

def fullCopyGroupSize : Nat := 4

def isFullCopy (elements : Nat) : Bool :=
  decide (k.groupSize ≤ fullCopyGroupSize ∨ elements % k.groupSize ≠ 0)

def broadcast (elements typeSize : Nat) (input : Nat → Nat) (root rank aivIndex : Nat) :
    List Instr :=
  if k.isFullCopy elements then k.broadcastFullCopy input root rank aivIndex
  else k.broadcastRing elements typeSize input root rank aivIndex

def scatterRanks (aivIndex : Nat) : List Nat :=
  if k.aivNum < k.groupSize then
    let base := k.groupSize / k.aivNum
    let rem := k.groupSize % k.aivNum
    if aivIndex < rem then ranks (aivIndex * (base + 1)) (aivIndex * (base + 1) + base + 1)
    else
      let startRank := rem * (base + 1) + (aivIndex - rem) * base
      ranks startRank (startRank + base)
  else if aivIndex < k.groupSize then [aivIndex]
  else []

def scatter (input : Nat → Nat) (root rank aivIndex : Nat) : List Instr :=
  (if root = rank then k.tell (k.scatterRanks aivIndex) 0 k.area rank (input rank) else []) ++
    [waitMetaValue k.area root k.waitSymbol] ++ barrierAll 0

/-! ## All-to-all -/

/-- `GetCoreCommonRangeInfo` for `aivNum` cores; `none` has an empty range. -/
def commonRanks (aivNum blockIdx : Nat) : List Nat :=
  if k.groupSize ≤ aivNum then
    if blockIdx < k.groupSize then [blockIdx] else []
  else
    let rankPerCore := k.groupSize / aivNum
    ranks (blockIdx * rankPerCore)
      (if blockIdx + 1 = aivNum then k.groupSize else blockIdx * rankPerCore + rankPerCore)

/-- The slots of the two counters are set to zero. -/
def prepare (sendAddr baseAddr rank : Nat) : List Instr :=
  (List.range k.groupSize).flatMap fun i =>
    [setMetaValue rank sendAddr i 0, setMetaValue rank baseAddr i 0]

/-- `InitLocalStat`: the first core stores the expected counts, which are `uint32_t`. -/
def initLocalStat (baseAddr readyAddr : Nat) (statBase : Nat → Nat) (rank aivIndex : Nat) :
    List Instr :=
  (if aivIndex = 0 then
    (List.range k.groupSize).map (fun m => setMetaValue rank baseAddr m (statBase m % 2 ^ 32)) ++
      [setMetaValue rank readyAddr 0 k.waitSymbol]
  else []) ++ [.wait (slot readyAddr 0) k.waitSymbol rank]

/-- A core waits for the flag of a rank before it copies from it, and counts it then. -/
def copies (flagAddr sendAddr : Nat) (srcs : List Nat) : List Instr :=
  srcs.flatMap fun src =>
    [waitMetaValue flagAddr src k.waitSymbol, .add (slot sendAddr src)]

def writeRangeStat (statAddr sendAddr baseAddr rank : Nat) (dsts : List Nat) : List Instr :=
  dsts.flatMap fun dst =>
    [.waitLocal (slot sendAddr dst) (slot baseAddr dst),
      setMetaValue dst statAddr rank k.waitSymbol]

/-- A core without a range waits for the first rank. -/
def waitRangeStat (statAddr : Nat) (srcs : List Nat) : List Instr :=
  k.waitFlags statAddr (if srcs = [] then [0] else srcs)

/-- Both kernels: `aivNum` of the cores take part, and `told` is what is stored at a rank. -/
def alltoAllProcess (aivNum flagAddr statAddr sendAddr baseAddr readyAddr : Nat)
    (told : Nat → List Instr) (statBase : Nat → Nat) (srcs : List Nat) (rank aivIndex : Nat) :
    List Instr :=
  k.prepare sendAddr baseAddr rank ++
    (if aivIndex < aivNum then
      (k.commonRanks aivNum aivIndex).flatMap told ++
        k.initLocalStat baseAddr readyAddr statBase rank aivIndex ++
        k.copies flagAddr sendAddr srcs ++
        k.writeRangeStat statAddr sendAddr baseAddr rank (k.commonRanks aivNum aivIndex) ++
        k.waitRangeStat statAddr (k.commonRanks aivNum aivIndex)
    else []) ++
    barrierAll 0

/-- `ReAssignmentCoreNum` -/
def alltoAllNum (elements : Nat) : Nat :=
  if k.groupSize ≤ k.aivNum ∧ elements < k.groupSize then k.groupSize else k.aivNum

/-- The loop of `GetCoreCopyRangeInfo`. -/
def scanCounts (coreLeft coreRight : Nat) (counts : Nat → Nat) :
    Nat → Nat → AlltoAllVKernel.CopyRange → AlltoAllVKernel.CopyRange
  | 0, _, s => s
  | n + 1, i, s =>
    if i < s.copyEndRank then
      scanCounts coreLeft coreRight counts n (i + 1) (s.scanRank coreLeft coreRight (counts i) i)
    else s

theorem scan_eq_scanCounts (op : AlltoAllVKernel) (core n i : Nat) (s : AlltoAllVKernel.CopyRange) :
    AlltoAllVKernel.CopyRange.scan op core n i s =
      scanCounts (op.curCoreLeft core) (op.curCoreRight core) op.outputCountsArray n i s := by
  induction n generalizing i s with
  | zero => rfl
  | succ n ih =>
    rw [AlltoAllVKernel.CopyRange.scan, scanCounts]
    split
    · exact ih _ _
    · rfl

/-- The ranks that a core copies from. -/
def alltoAllCopy (elements aivIndex : Nat) : List Nat :=
  let aivNum := k.alltoAllNum elements
  let total := elements * k.groupSize
  let curCoreLeft := aivIndex * (total / aivNum)
  let curElement :=
    if aivIndex + 1 = aivNum then total - (aivNum - 1) * (total / aivNum) else total / aivNum
  let s := scanCounts curCoreLeft (curCoreLeft + curElement) (fun _ => elements) k.groupSize 0
    { copyStartRank := k.groupSize + 1, copyEndRank := k.groupSize, startOffset := 0,
      copyElements := fun _ => 0, left := 0, findStart := false, findEnd := false }
  ranks s.copyStartRank (s.copyEndRank + 1)

/-- The loop of `InitLocalStat` with equal counts. -/
def alltoAllScanRanks (aivNum avgElement : Nat) (cumsum : Nat → Nat) :
    Nat → Nat → AlltoAllVKernel.StatScan → AlltoAllVKernel.StatScan
  | 0, _, s => s
  | n + 1, i, s =>
    if i < k.groupSize then
      let r := AlltoAllVKernel.StatScan.countCores aivNum avgElement (cumsum i) i (2 ^ 16) s
      let i := if r.2 then i + k.groupSize else i
      alltoAllScanRanks aivNum avgElement cumsum n (i + 1) (r.1.passEqual avgElement (cumsum i))
    else s

/-- Behind the ranks the array of sums holds what was on the stack. -/
def alltoAllStatBase (elements : Nat) (stack : Nat → Nat) : Nat → Nat :=
  let avgElement := elements * k.groupSize / k.alltoAllNum elements
  (k.alltoAllScanRanks (k.alltoAllNum elements) avgElement
    (fun i => if i < k.groupSize then (i + 1) * elements else stack i) k.groupSize 0
    { statBase := fun _ => 1, core := 1, coreRight := avgElement }).statBase

def alltoAll (elements : Nat) (input stack : Nat → Nat) (rank aivIndex : Nat) : List Instr :=
  k.alltoAllProcess (k.alltoAllNum elements) k.smallArea (2 * k.smallArea) (3 * k.smallArea)
    (4 * k.smallArea) (5 * k.smallArea)
    (k.exchangeAddrFlag k.smallArea (input rank) rank)
    (k.alltoAllStatBase elements stack) (k.alltoAllCopy elements aivIndex) rank aivIndex

structure AlltoAllVArgs where
  input : Nat
  inputCumSum : Nat
  inputElement : Nat
  outputElement : Nat
  outputCounts : Nat → Nat
  /-- What the array of the elements to copy and the one of the sums hold before. -/
  elements : Nat → Nat
  stack : Nat → Nat

def alltoAllVKernel (args : AlltoAllVArgs) : AlltoAllVKernel where
  groupSize := k.groupSize
  blockNum := k.aivNum
  outputElement := args.outputElement
  outputCounts := args.outputCounts

/-- `Exchange` -/
def alltoAllVTell (args : AlltoAllVArgs) (rank dst : Nat) : List Instr :=
  [setMetaValue dst 0 rank args.input, setMetaValue dst k.area rank args.inputCumSum,
    setMetaValue dst (2 * k.area) rank args.inputElement,
    setMetaValue dst (3 * k.area) rank k.waitSymbol]

def alltoAllV (args : AlltoAllVArgs) (rank aivIndex : Nat) : List Instr :=
  let op := k.alltoAllVKernel args
  k.alltoAllProcess op.aivNum (3 * k.area) (4 * k.area) (5 * k.area) (6 * k.area) (7 * k.area)
    (k.alltoAllVTell args rank) (op.initLocalStat args.stack)
    (op.alltoAllvCopy args.elements aivIndex) rank aivIndex

/-! ## Send and receive

Both use a fixed number in the place of the symbol. -/

/-- `waitSymbol` of the two kernels. -/
def sendSymbol : Nat := 1024

def send (sendBuf peer rank : Nat) : List Instr :=
  [setDataAddr peer 0 rank sendBuf, setFlag peer k.area rank sendSymbol,
    waitMetaValue (2 * k.area) peer sendSymbol, setFlag rank (2 * k.area) peer 0]

def recv (peer rank aivIndex : Nat) : List Instr :=
  waitMetaValue k.area peer sendSymbol :: syncAll 0 ++
    (if aivIndex = 0 then
      [setFlag rank k.area peer 0, setFlag peer (2 * k.area) rank sendSymbol]
    else []) ++
    syncAll 1

end Launch

/-! ## Operations -/

/-- The operations of a group, with the arguments of all ranks that matter here.  A send and
the receive that it matches are one operation. -/
inductive Op
  | allReduce (totalElems typeSize : Nat) (input buffer output : Nat → Nat)
  | reduceScatter (input : Nat → Nat)
  | allGather (elements typeSize : Nat) (output : Nat → Nat)
  | alltoAll (elements : Nat) (input : Nat → Nat) (stack : Nat → Nat → Nat)
  | alltoAllV (args : Nat → Launch.AlltoAllVArgs)
  | broadcast (elements typeSize : Nat) (input : Nat → Nat) (root : Nat)
  | scatter (input : Nat → Nat) (root : Nat)
  | sendRecv (sendBuf src dst : Nat)
  | barrier

/-- What core `aivIndex` of a rank does in an operation.  A send is launched on one core. -/
def Op.process (op : Op) (k : Launch) (rank aivIndex : Nat) : List Instr :=
  match op with
  | .allReduce totalElems typeSize input buffer output =>
    k.allReduce totalElems typeSize input buffer output rank aivIndex
  | .reduceScatter input => k.reduceScatter input rank aivIndex
  | .allGather elements typeSize output => k.allGather elements typeSize output rank aivIndex
  | .alltoAll elements input stack => k.alltoAll elements input (stack rank) rank aivIndex
  | .alltoAllV args => k.alltoAllV (args rank) rank aivIndex
  | .broadcast elements typeSize input root =>
    k.broadcast elements typeSize input root rank aivIndex
  | .scatter input root => k.scatter input root rank aivIndex
  | .sendRecv sendBuf src dst =>
    if rank = src then if aivIndex = 0 then k.send sendBuf dst rank else []
    else if rank = dst then k.recv src rank aivIndex
    else []
  | .barrier => barrierAll 0

/-! ## Runs of the kernels on the exchange spaces -/

open Machine.Cores

/-- `word rank w` is the word `w` of the exchange space of a rank, and `arrived` counts how
often a core has come to a site. -/
structure Memory (g n : Nat) where
  word : Nat → Nat → Nat
  arrived : Fin g × Fin n → Site → Nat := fun _ _ => 0

abbrev Launch.Config (k : Launch) : Type :=
  State (Fin k.groupSize × Fin k.aivNum) (Memory k.groupSize k.aivNum)

variable {g n : Nat}

def Memory.store (m : Memory g n) (rank w value : Nat) : Memory g n :=
  { m with word := fun r v => if r = rank ∧ v = w then value else m.word r v }

/-- Of a slot only the first word is read. -/
def ready (t : Fin g × Fin n) : Instr → Memory g n → Bool
  | .wait w value _, m => m.word t.1 w == value
  | .waitLocal w base, m => m.word t.1 w == m.word t.1 base
  | .await (.barrierAll k), m =>
    decide (∀ r c, m.arrived t (.barrierAll k) ≤ m.arrived (r, c) (.barrierAll k))
  | .await site, m => decide (∀ c, m.arrived t site ≤ m.arrived (t.1, c) site)
  | _, _ => true

def effect (t : Fin g × Fin n) : Instr → Memory g n → Memory g n
  | .store dst w _ value, m => m.store dst w value
  | .clear count, m =>
    { m with word := fun r v => if r = t.1 ∧ v < count then 0 else m.word r v }
  | .add w, m => m.store t.1 w (m.word t.1 w + 1)
  | .arrive site, m =>
    { m with arrived := fun u x => m.arrived u x + if u = t ∧ x = site then 1 else 0 }
  | _, m => m

theorem slot_inj {addr p q : Nat} (h : slot addr p = slot addr q) : p = q := by
  simp only [slot, flagSize] at h
  omega

theorem slot_lt {g addr next p q : Nat} (hp : p < g) (h : addr + g * flagSize ≤ next) :
    slot addr p < slot next q := by
  simp only [slot, flagSize] at h ⊢
  omega

end MemFabric.Zbal.Exchange
