import MemFabric.Machine.Intervals
import MemFabric.Machine.Run

/-!
# The manager of virtual addresses

`HybmVaManager` of `hybm_va_manager.cpp`: for each type of address a map from the first
address of a range to the info of the range.  One info has an address of each type, or
zero; the ranges of one info lie at different places in the three maps.  The reserved
ranges are kept apart from these.

Addresses and sizes are `uint64_t`, and the sums wrap as they do there.
-/

namespace MemFabric.Hybm

open Machine

/-! ## Infos -/

def bmOk : Int := 0
def bmError : Int := -1

inductive HybmMemType
  | device
  | host
  | butt
deriving DecidableEq

/-- `HVM_BUTT`; the types are `HVM_GVA`, `HVM_DVA` and `HVM_HVA`. -/
abbrev hvmButt : Nat := 3

abbrev hvmGva : Fin hvmButt := 0

abbrev hvmDva : Fin hvmButt := 1

abbrev hvmHva : Fin hvmButt := 2

def invalidRankId : Nat := 2 ^ 32 - 1

structure BaseAllocatedGvaInfo where
  va : Fin hvmButt → Nat := fun _ => 0
  size : Nat := 0
  memType : HybmMemType := .device
deriving DecidableEq

structure AllocatedGvaInfo where
  base : BaseAllocatedGvaInfo := {}
  localRankId : Nat := invalidRankId
  importedRankId : Nat := invalidRankId
deriving DecidableEq

namespace AllocatedGvaInfo

def contains (info : AllocatedGvaInfo) (addr : Nat) (t : Fin hvmButt) : Bool :=
  decide (info.base.va t ≤ addr ∧ addr < (info.base.va t + info.base.size) % 2 ^ 64)

def rankId (info : AllocatedGvaInfo) : Nat :=
  if info.importedRankId ≠ invalidRankId then info.importedRankId else info.localRankId

/-- `operator==`: the type of the memory is not compared. -/
def same (lhs rhs : AllocatedGvaInfo) : Bool :=
  decide (lhs.base.va = rhs.base.va ∧ lhs.base.size = rhs.base.size ∧ lhs.rankId = rhs.rankId)

end AllocatedGvaInfo

/-! ## The maps -/

abbrev VaMap := Ordered (Prod.fst : Nat × AllocatedGvaInfo → Nat)

structure HybmVaManager where
  allocatedMap : Fin hvmButt → VaMap := fun _ => ∅

namespace HybmVaManager

variable (m : HybmVaManager)

def overlaps (va stop : Nat) (it : Nat × AllocatedGvaInfo) : Bool :=
  let st := it.1
  let ed := (it.2.base.size + st) % 2 ^ 64
  decide ((st ≤ va ∧ va < ed) ∨ (va ≤ st ∧ st < stop))

/-- The neighbours of the range: the entry behind its start is looked at first. -/
def checkOverlap (va size : Nat) (type : Fin hvmButt) : Option AllocatedGvaInfo :=
  let stop := (va + size) % 2 ^ 64
  match ((m.allocatedMap type).upperBound va).filter (overlaps va stop) with
  | some it => some it.2
  | none =>
    (((m.allocatedMap type).upTo va).filter (overlaps va stop)).map Prod.snd

def records (info : AllocatedGvaInfo) (onlyGva : Bool) (i : Fin hvmButt) : Bool :=
  !(onlyGva && decide (i ≠ hvmGva)) && decide (info.base.va i ≠ 0)

def conflicts (info : AllocatedGvaInfo) (onlyGva : Bool) : Bool :=
  (List.finRange hvmButt).any fun i =>
    records info onlyGva i &&
      (m.checkOverlap (info.base.va i) info.base.size i).any fun old => !old.same info

/-- `AddVaInfo`.  Nothing is recorded unless all types have been checked. -/
def addVaInfo (info : AllocatedGvaInfo) (onlyGva : Bool := false) : Int × HybmVaManager :=
  if info.base.size = 0 then (bmOk, m)
  else if info.base.memType = .butt then (bmError, m)
  else if m.conflicts info onlyGva then (bmError, m)
  else
    (bmOk,
      { allocatedMap := fun i =>
          if records info onlyGva i then (m.allocatedMap i).assign (info.base.va i, info)
          else m.allocatedMap i })

def addVaInfoOfBase (baseInfo : BaseAllocatedGvaInfo) (localRankId : Nat)
    (onlyGva : Bool := false) : Int × HybmVaManager :=
  m.addVaInfo { base := baseInfo, localRankId } onlyGva

/-- `AddVaInfoFromExternal`; without an imported rank it is called with `INVALID_RANK_ID`. -/
def addVaInfoFromExternal (baseInfo : BaseAllocatedGvaInfo) (localRankId : Nat)
    (importedRankId : Nat := invalidRankId) : Int × HybmVaManager :=
  m.addVaInfo { base := baseInfo, localRankId, importedRankId }

/-- The entry of another map that is removed together with the info. -/
def eraseAt (info : AllocatedGvaInfo) (i : Fin hvmButt) : VaMap :=
  match (m.allocatedMap i).find (info.base.va i) with
  | some its =>
    if its.2.base.va i = info.base.va i then (m.allocatedMap i).erase its.1 else m.allocatedMap i
  | none => m.allocatedMap i

def removeOneVaInfo (va type : Nat) : HybmVaManager :=
  if h : va = 0 ∨ hvmButt ≤ type then m
  else
    let t : Fin hvmButt := ⟨type, by omega⟩
    match (m.allocatedMap t).find va with
    | none => m
    | some it =>
      { allocatedMap := fun i =>
          if i = t then (m.allocatedMap t).erase it.1 else m.eraseAt it.2 i }

/-! ## Lookups -/

/-- What the lookups have in common: the entry in front of the upper bound, or the first
one, if it contains the address. -/
def lookup (va : Nat) (type : Fin hvmButt) : Option AllocatedGvaInfo :=
  match ((m.allocatedMap type).upTo va).or (m.allocatedMap type).toList.head? with
  | some it => if it.2.contains va type then some it.2 else none
  | none => none

/-- The index of the array is not checked in the source. -/
def findAllocByVa (va : Nat) (type : Fin hvmButt) : AllocatedGvaInfo × Bool :=
  match m.lookup va type with
  | some info => (info, true)
  | none => ({}, false)

def getGvaMemType (va : Nat) : HybmMemType :=
  match m.lookup va hvmGva with
  | some info => info.base.memType
  | none => .butt

def getRank (gva : Nat) : Nat × Bool :=
  if gva = 0 then (0, false)
  else
    match m.lookup gva hvmGva with
    | some info => (info.rankId, true)
    | none => (0, false)

def isValidAddr (va : Nat) : Bool :=
  (List.finRange hvmButt).any fun i => (m.lookup va i).isSome

/-- Zero if there is no mapping. -/
def transformVa (va inputType outputType : Nat) : Nat :=
  if h : 0 < va ∧ inputType < hvmButt ∧ outputType < hvmButt then
    if inputType = outputType then va
    else
      let input : Fin hvmButt := ⟨inputType, h.2.1⟩
      let output : Fin hvmButt := ⟨outputType, h.2.2⟩
      match (m.allocatedMap input).upTo va with
      | some it =>
        if it.2.contains va input ∧ it.2.base.va output ≠ 0 then
          (it.2.base.va output + (va - it.2.base.va input)) % 2 ^ 64
        else 0
      | none => 0
  else 0

/-! ## Calls -/

inductive Call
  | addVaInfo (info : AllocatedGvaInfo) (onlyGva : Bool)
  | addVaInfoOfBase (baseInfo : BaseAllocatedGvaInfo) (localRankId : Nat) (onlyGva : Bool)
  | addVaInfoFromExternal (baseInfo : BaseAllocatedGvaInfo) (localRankId importedRankId : Nat)
  | removeOneVaInfo (va type : Nat)

def step (m : HybmVaManager) : Call → HybmVaManager × List Int
  | .addVaInfo info onlyGva => ((m.addVaInfo info onlyGva).2, [(m.addVaInfo info onlyGva).1])
  | .addVaInfoOfBase baseInfo localRankId onlyGva =>
    ((m.addVaInfoOfBase baseInfo localRankId onlyGva).2,
      [(m.addVaInfoOfBase baseInfo localRankId onlyGva).1])
  | .addVaInfoFromExternal baseInfo localRankId importedRankId =>
    ((m.addVaInfoFromExternal baseInfo localRankId importedRankId).2,
      [(m.addVaInfoFromExternal baseInfo localRankId importedRankId).1])
  | .removeOneVaInfo va type => (m.removeOneVaInfo va type, [])

end HybmVaManager

end MemFabric.Hybm
