import MemFabric.Machine.Shares

/-!
# All-to-all-v: who copies what

`AlltoAllVKernel`: the output of a rank is the concatenation of what it receives from each
rank of the group.  The cores copy equal shares of the output, and count for each rank how
many of them have copied from it.  Core 0 computes beforehand how many there will be.

The `uint64_t` sums of counts are at most `outputElement`, and every difference is taken of a
number and one that is not larger, so that none of them wraps.
-/

namespace MemFabric.Zbal

structure AlltoAllVKernel where
  groupSize : Nat
  /-- The number of cores that the kernel is launched on. -/
  blockNum : Nat
  outputElement : Nat
  /-- The counts in global memory. -/
  outputCounts : Nat → Nat

namespace AlltoAllVKernel

/-- `Prepare` reads the counts into an array of `uint32_t`. -/
def outputCountsArray (op : AlltoAllVKernel) (i : Nat) : Nat := op.outputCounts i % 2 ^ 32

/-- `ReAssignmentCoreNum`: the number of cores that take part. -/
def aivNum (op : AlltoAllVKernel) : Nat :=
  if op.groupSize ≤ op.blockNum ∧ op.outputElement < op.groupSize then op.groupSize else op.blockNum

/-! ## Copying -/

structure CopyRange where
  copyStartRank : Nat
  copyEndRank : Nat
  startOffset : Nat
  copyElements : Nat → Nat
  left : Nat
  findStart : Bool
  findEnd : Bool

def curElement (op : AlltoAllVKernel) (core : Nat) : Nat :=
  if core + 1 = op.aivNum then
    op.outputElement - (op.aivNum - 1) * (op.outputElement / op.aivNum)
  else op.outputElement / op.aivNum

def curCoreLeft (op : AlltoAllVKernel) (core : Nat) : Nat :=
  core * (op.outputElement / op.aivNum)

def curCoreRight (op : AlltoAllVKernel) (core : Nat) : Nat :=
  op.curCoreLeft core + op.curElement core

namespace CopyRange

def setElements (s : CopyRange) (i n : Nat) : CopyRange :=
  { s with copyElements := Function.update s.copyElements i (n % 2 ^ 32) }

/-- The rank in which the core begins. -/
def checkStart (coreLeft counts i : Nat) (s : CopyRange) : CopyRange :=
  if s.findStart = false ∧ coreLeft < s.left + counts then
    { s.setElements i (counts - (coreLeft - s.left)) with
      copyStartRank := i, startOffset := coreLeft - s.left, findStart := true }
  else s

/-- The rank in which the core ends. -/
def checkEnd (coreRight counts i : Nat) (s : CopyRange) : CopyRange :=
  if s.findStart = true ∧ s.findEnd = false ∧ coreRight ≤ s.left + counts then
    let count :=
      if s.copyStartRank = i then
        s.copyElements i + 2 ^ 32 - (s.left + counts - coreRight) % 2 ^ 32
      else coreRight - s.left
    { s.setElements i count with copyEndRank := i, findEnd := true }
  else s

/-- A rank of which the core copies all. -/
def checkMiddle (counts i : Nat) (s : CopyRange) : CopyRange :=
  if s.findStart = true ∧ s.copyStartRank < i ∧ i < s.copyEndRank then s.setElements i counts else s

def scanRank (coreLeft coreRight counts i : Nat) (s : CopyRange) : CopyRange :=
  let s := s.setElements i 0
  let s := s.checkStart coreLeft counts i
  let s := s.checkEnd coreRight counts i
  let s := s.checkMiddle counts i
  { s with left := s.left + counts }

/-- `n` more rounds of the loop, the next one for the rank `i`. -/
def scan (op : AlltoAllVKernel) (core : Nat) : Nat → Nat → CopyRange → CopyRange
  | 0, _, s => s
  | n + 1, i, s =>
    if i < s.copyEndRank then
      scan op core n (i + 1)
        (s.scanRank (op.curCoreLeft core) (op.curCoreRight core) (op.outputCountsArray i) i)
    else s

end CopyRange

/-- The elements are those that the array held before. -/
def getCoreCopyRangeInfo (op : AlltoAllVKernel) (elements : Nat → Nat) (core : Nat) : CopyRange :=
  CopyRange.scan op core op.groupSize 0
    { copyStartRank := op.groupSize + 1, copyEndRank := op.groupSize, startOffset := 0,
      copyElements := elements, left := 0, findStart := false, findEnd := false }

/-- The ranks from which the core copies, each of which it then counts in `localStatSend`. -/
def alltoAllvCopy (op : AlltoAllVKernel) (elements : Nat → Nat) (core : Nat) : List Nat :=
  let s := op.getCoreCopyRangeInfo elements core
  (List.range' s.copyStartRank (s.copyEndRank + 1 - s.copyStartRank)).filter fun rank =>
    decide (0 < s.copyElements rank)

/-! ## Counting -/

/-- The sum of the first `i` counts. -/
def received (op : AlltoAllVKernel) : Nat → Nat
  | 0 => 0
  | i + 1 => op.received i + op.outputCountsArray i

/-- The array of sums.  Behind the ranks it holds what was on the stack. -/
def cumsum (op : AlltoAllVKernel) (stack : Nat → Nat) (k : Nat) : Nat :=
  if k < op.groupSize then op.received (k + 1) else stack k

structure StatScan where
  statBase : Nat → Nat
  core : Nat
  coreRight : Nat

namespace StatScan

/-- `core` is a `uint16_t`. -/
def nextCore (s : StatScan) : Nat := (s.core + 1) % 2 ^ 16

/-- The cores that end before the sum are counted for the rank `k`.  The flag says that there
are no more cores. -/
def countCores (aivNum avgElement sum k : Nat) : Nat → StatScan → StatScan × Bool
  | 0, s => (s, false)
  | n + 1, s =>
    if s.coreRight < sum then
      let statBase := Function.update s.statBase k (s.statBase k + 1)
      if s.nextCore = aivNum then (⟨statBase, s.nextCore, s.coreRight⟩, true)
      else countCores aivNum avgElement sum k n ⟨statBase, s.nextCore, s.coreRight + avgElement⟩
    else (s, false)

/-- The next core if the sum is where one ends. -/
def passEqual (avgElement sum : Nat) (s : StatScan) : StatScan :=
  if sum = s.coreRight then
    { s with core := s.nextCore, coreRight := s.coreRight + avgElement }
  else s

/-- `n` more rounds of the loop, the next one for the rank `k`.  As `core` is a `uint16_t` the
inner loop ends after `2 ^ 16` rounds at the latest. -/
def scanRanks (op : AlltoAllVKernel) (stack : Nat → Nat) : Nat → Nat → StatScan → StatScan
  | 0, _, s => s
  | n + 1, k, s =>
    if k < op.groupSize then
      let avgElement := op.outputElement / op.aivNum
      let r := countCores op.aivNum avgElement (op.cumsum stack k) k (2 ^ 16) s
      let k := if r.2 then k + op.groupSize else k
      scanRanks op stack n (k + 1) (r.1.passEqual avgElement (op.cumsum stack k))
    else s

end StatScan

/-- `InitLocalStat`: the expected number for each rank. -/
def initLocalStat (op : AlltoAllVKernel) (stack : Nat → Nat) : Nat → Nat :=
  (StatScan.scanRanks op stack op.groupSize 0
    { statBase := fun i => if 0 < op.outputCountsArray i then 1 else 0
      core := 1
      coreRight := op.outputElement / op.aivNum }).statBase

/-- What `localStatSend` holds for a rank when the cores of these pairs have counted it. -/
def localStatSend (counted : List (Nat × Nat)) (rank : Nat) : Nat :=
  (counted.filter fun c => decide (c.2 = rank)).length

def WaitLocalStat (op : AlltoAllVKernel) (stack : Nat → Nat) (counted : List (Nat × Nat))
    (rank : Nat) : Prop :=
  localStatSend counted rank = op.initLocalStat stack rank

end AlltoAllVKernel

end MemFabric.Zbal
