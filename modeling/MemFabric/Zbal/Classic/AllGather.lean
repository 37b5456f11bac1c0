import MemFabric.Zbal.Classic.Barrier

/-!
# The ring all-gather

`AllGatherBigKernel`: half of the cores of a rank pass the first halves of all inputs on to
the next rank, the other half pass the second halves on to the rank before.  Every core has a
part of its half, in three slices.  It announces each slice to the rank it passes it on to,
and reads it from the output of the rank on the other side when that rank has announced it.

The cores of all ranks share one memory.  What an instruction of the loops does is computed
from the core and from the counters of the loops.
-/

namespace MemFabric.Zbal

open Machine.Cores
open scoped List

/-- The arguments of the kernel.  `copyUbNum` is the number of elements that fit into the
buffer of `CpGM2GM`, and `outputPtr` the address of the output of each rank. -/
structure AllGatherBigKernel where
  groupSize : Nat
  aivNum : Nat
  elements : Nat
  waitSymbol : Nat
  copyUbNum : Nat
  outputPtr : Nat → Nat

namespace AllGatherBigKernel

variable (op : AllGatherBigKernel)

def u32 (n : Nat) : Nat := n % 2 ^ 32

/-! ## Init -/

def slicePerCore : Nat := 3

def coreNumPerRing : Nat := op.aivNum / 2

def statSizePerRank : Nat := op.coreNumPerRing * slicePerCore

/-- `elemExchSize`, a `uint16_t` -/
def elemExchSize : Nat := op.groupSize * flagSize % 2 ^ 16

/-- The words of the exchange space at which the areas begin; `outputAddr` is the first. -/
def flagAddr : Nat := op.elemExchSize

def readLeftStatAddr : Nat := op.flagAddr + op.elemExchSize

def readRightStatAddr : Nat := op.readLeftStatAddr + op.statSizePerRank * op.elemExchSize

/-- The words that are cleared, a `uint32_t` -/
def exchangeMetaSize : Nat := u32 (2 * (op.elemExchSize + op.statSizePerRank * op.elemExchSize))

/-! ## The rings -/

def prevRank (rank : Nat) : Nat := (rank + op.groupSize - 1) % op.groupSize

def nextRank (rank : Nat) : Nat := (rank + 1) % op.groupSize

def readsLeft (aivIndex : Nat) : Prop := aivIndex < op.coreNumPerRing

instance (aivIndex : Nat) : Decidable (op.readsLeft aivIndex) := by
  unfold readsLeft
  infer_instance

def elemPerRing : Nat := op.elements / 2

def curRingElem (aivIndex : Nat) : Nat :=
  if op.readsLeft aivIndex then op.elemPerRing else op.elements - op.elemPerRing

def coreIndex (aivIndex : Nat) : Nat := aivIndex % op.coreNumPerRing

/-- The rank that a core reads from. -/
def inputPtrIndex (rank aivIndex : Nat) : Nat :=
  if op.readsLeft aivIndex then op.prevRank rank else op.nextRank rank

/-- The rank that it passes on to. -/
def statUpdateRank (rank aivIndex : Nat) : Nat :=
  if op.readsLeft aivIndex then op.nextRank rank else op.prevRank rank

def statAddr (aivIndex : Nat) : Nat :=
  if op.readsLeft aivIndex then op.readLeftStatAddr else op.readRightStatAddr

/-- `GetTargetRank` -/
def readRank (rank aivIndex i : Nat) : Nat :=
  if op.readsLeft aivIndex then (op.prevRank rank + op.groupSize - i) % op.groupSize
  else (op.nextRank rank + i) % op.groupSize

/-! ## The parts -/

/-- `numPerCore` of `CopyLocal2Output`, before and after the last core takes the rest. -/
def localPerCore : Nat := u32 (op.elements / op.aivNum)

def localCount (aivIndex : Nat) : Nat :=
  if aivIndex + 1 = op.aivNum then u32 (op.elements - (op.aivNum - 1) * op.localPerCore)
  else op.localPerCore

/-- `elemPerCore` in the loop, before and after the last core of the ring takes the rest. -/
def ringPerCore (aivIndex : Nat) : Nat := u32 (op.curRingElem aivIndex / op.coreNumPerRing)

def elemPerCore (aivIndex : Nat) : Nat :=
  if op.coreIndex aivIndex + 1 = op.coreNumPerRing then
    u32 (op.curRingElem aivIndex - (op.coreNumPerRing - 1) * op.ringPerCore aivIndex)
  else op.ringPerCore aivIndex

def elemPerSlice (aivIndex j : Nat) : Nat :=
  if j + 1 = slicePerCore then
    op.elemPerCore aivIndex - (slicePerCore - 1) * (op.elemPerCore aivIndex / slicePerCore)
  else op.elemPerCore aivIndex / slicePerCore

def statOffset (readRank aivIndex j : Nat) : Nat :=
  readRank * op.statSizePerRank + op.coreIndex aivIndex * slicePerCore + j

/-! ## The program of a core -/

/-- The two calls of `BarrierAll`. -/
inductive Site
  | begin
  | finish
deriving DecidableEq

/-- What is copied through the buffer at once: the elements from `offset` on of the core's
share of its own input, or of a slice. -/
inductive Piece
  | own (offset count : Nat)
  | slice (i j offset count : Nat)
deriving DecidableEq

inductive Instr
  | clear
  | arrive (site : Site)
  | await (site : Site)
  | load (piece : Piece)
  | store (piece : Piece)
  | presetStat (j : Nat)
  | writeAddr
  | writeFlag
  | waitFlag
  | readAddr
  | waitStat (i j : Nat)
  | writeStat (i j : Nat)
deriving DecidableEq

def barrierAll (site : Site) : List Instr := [.arrive site, .await site]

/-- The rounds of `CpGM2GM`: offset and count of each.  A round takes at least one element,
so that there are at most as many rounds as elements. -/
def cpRounds (copyUbNum : Nat) : Nat → Nat → Nat → List (Nat × Nat)
  | 0, _, _ => []
  | fuel + 1, count, curOffset =>
    if count = 0 then []
    else
      let curCount := if count > copyUbNum then copyUbNum else count
      (curOffset, curCount) :: cpRounds copyUbNum fuel (count - curCount) (curOffset + curCount)

def cpGM2GM (count : Nat) (piece : Nat → Nat → Piece) : List Instr :=
  (cpRounds op.copyUbNum count count 0).flatMap fun round =>
    [.load (piece round.1 round.2), .store (piece round.1 round.2)]

def copyLocal2Output (aivIndex : Nat) : List Instr :=
  op.cpGM2GM (op.localCount aivIndex) .own

def exchangeOutputAddr (aivIndex : Nat) : List Instr :=
  (List.range slicePerCore).map .presetStat ++
    if op.coreIndex aivIndex = 0 then [.writeAddr, .writeFlag] else []

def passOn (aivIndex i j : Nat) : List Instr :=
  .waitStat i j :: op.cpGM2GM (op.elemPerSlice aivIndex j) (.slice i j) ++ [.writeStat i j]

def process (aivIndex : Nat) : List Instr :=
  .clear :: barrierAll .begin ++ op.copyLocal2Output aivIndex ++ op.exchangeOutputAddr aivIndex ++
    [.waitFlag, .readAddr] ++
    (List.range (op.groupSize - 1)).flatMap (fun i =>
      (List.range slicePerCore).flatMap (op.passOn aivIndex i)) ++
    barrierAll .finish

end AllGatherBigKernel

end MemFabric.Zbal

/-! ## What the ring all-gather notes -/

namespace MemFabric.Zbal.AllGatherBigKernel

open List

variable {op : AllGatherBigKernel}

/-! ## Slots -/

/-- The output of a rank, that it can be read, or that a slice of an input can be read in
one of the rings. -/
inductive Note
  | addr (rank : Nat)
  | flag (rank : Nat)
  | stat (left : Bool) (rank core j : Nat)
deriving DecidableEq

namespace Note

def word (op : AllGatherBigKernel) : Note → Nat
  | .addr rank => rank * flagSize
  | .flag rank => op.flagAddr + rank * flagSize
  | .stat left rank core j =>
    (if left then op.readLeftStatAddr else op.readRightStatAddr) +
      (rank * op.statSizePerRank + core * slicePerCore + j) * flagSize

def Valid (op : AllGatherBigKernel) : Note → Prop
  | .addr rank => rank < op.groupSize
  | .flag rank => rank < op.groupSize
  | .stat _ rank core j => rank < op.groupSize ∧ core < op.coreNumPerRing ∧ j < slicePerCore

theorem statIndex_lt {r c j : Nat} (hr : r < op.groupSize) (hc : c < op.coreNumPerRing)
    (hj : j < slicePerCore) :
    (r * op.statSizePerRank + c * slicePerCore + j) * flagSize + flagSize ≤
      op.statSizePerRank * (op.groupSize * flagSize) := by
  have h1 := Nat.mul_le_mul_right slicePerCore (show c + 1 ≤ op.coreNumPerRing from hc)
  have h2 := Nat.mul_le_mul_right op.statSizePerRank (show r + 1 ≤ op.groupSize from hr)
  rw [Nat.add_mul] at h1 h2
  have h3 : r * op.statSizePerRank + c * slicePerCore + j + 1 ≤
      op.groupSize * op.statSizePerRank := by
    rw [statSizePerRank] at h2 ⊢
    omega
  calc (r * op.statSizePerRank + c * slicePerCore + j) * flagSize + flagSize
      = (r * op.statSizePerRank + c * slicePerCore + j + 1) * flagSize :=
        (Nat.succ_mul _ _).symm
    _ ≤ op.groupSize * op.statSizePerRank * flagSize := Nat.mul_le_mul_right _ h3
    _ = op.statSizePerRank * (op.groupSize * flagSize) := by
        rw [Nat.mul_comm op.groupSize, Nat.mul_assoc]

theorem elemExchSize_eq (h : op.groupSize ≤ 1024) : op.elemExchSize = op.groupSize * flagSize :=
  Nat.mod_eq_of_lt (by rw [flagSize]; omega)

theorem exchangeMetaSize_eq (h : op.groupSize ≤ 1024) (ha : op.aivNum ≤ 48) :
    op.exchangeMetaSize =
      2 * (op.groupSize * flagSize + op.statSizePerRank * (op.groupSize * flagSize)) := by
  have hstat : op.statSizePerRank ≤ 72 := by
    rw [statSizePerRank, coreNumPerRing, slicePerCore]
    omega
  have harea : op.groupSize * flagSize ≤ 8192 := by
    rw [flagSize]
    omega
  have := Nat.mul_le_mul hstat harea
  rw [exchangeMetaSize, elemExchSize_eq h, u32, Nat.mod_eq_of_lt (by omega)]

/-- The slot of a note lies in the part of the exchange space that is cleared. -/
theorem word_add_le (h : op.groupSize ≤ 1024) (ha : op.aivNum ≤ 48) {n : Note}
    (hn : n.Valid op) : n.word op + flagSize ≤ op.exchangeMetaSize := by
  have hexch := elemExchSize_eq h
  rw [exchangeMetaSize_eq h ha]
  cases n with
  | addr r =>
    simp only [word, Valid, flagSize] at hn ⊢
    omega
  | flag r =>
    simp only [word, Valid, flagAddr, hexch, flagSize] at hn ⊢
    omega
  | stat left r c j =>
    obtain ⟨hr, hc, hj⟩ := hn
    have := statIndex_lt hr hc hj
    simp only [word, readLeftStatAddr, readRightStatAddr, flagAddr, hexch, flagSize] at this ⊢
    split <;> omega

end Note

/-! ## Instructions -/

theorem notMem_cpGM2GM {count : Nat} {piece : Nat → Nat → Piece} {i : Instr}
    (hload : ∀ p, i ≠ .load p) (hstore : ∀ p, i ≠ .store p) : i ∉ op.cpGM2GM count piece := by
  simp [cpGM2GM, hload, hstore]

/-- The loop over the rounds of the ring. -/
def passes (op : AllGatherBigKernel) (a : Nat) : List Instr :=
  (range (op.groupSize - 1)).flatMap fun i =>
    (range slicePerCore).flatMap (op.passOn a i)

theorem process_eq (op : AllGatherBigKernel) (a : Nat) :
    op.process a = [.clear, .arrive .begin, .await .begin] ++ (op.copyLocal2Output a ++
      (op.exchangeOutputAddr a ++ ([.waitFlag, .readAddr] ++
        (op.passes a ++ [.arrive .finish, .await .finish])))) := by
  simp [process, barrierAll, passes]

theorem presetStat_mem_process {a j : Nat} :
    Instr.presetStat j ∈ op.process a ↔ j < slicePerCore := by
  simp only [process_eq, passes, passOn, copyLocal2Output, exchangeOutputAddr, mem_append,
    mem_cons, mem_map, mem_range, mem_flatMap, not_mem_nil]
  have hcopy : ∀ (n : Nat) (f : Nat → Nat → Piece), Instr.presetStat j ∉ op.cpGM2GM n f :=
    fun _ _ => notMem_cpGM2GM (by simp) (by simp)
  simp only [hcopy]
  split <;> simp

theorem writeStat_mem_process {a i j : Nat} :
    Instr.writeStat i j ∈ op.process a ↔ i < op.groupSize - 1 ∧ j < slicePerCore := by
  simp only [process_eq, passes, passOn, copyLocal2Output, exchangeOutputAddr, mem_append,
    mem_cons, mem_map, mem_range, mem_flatMap, not_mem_nil]
  have hcopy : ∀ (n : Nat) (f : Nat → Nat → Piece), Instr.writeStat i j ∉ op.cpGM2GM n f :=
    fun _ _ => notMem_cpGM2GM (by simp) (by simp)
  simp only [hcopy]
  split <;> simp

end MemFabric.Zbal.AllGatherBigKernel
