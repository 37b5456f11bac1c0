import MemFabric.Hybm.VaManager

/-!
# Reserved ranges of virtual addresses

The other half of `HybmVaManager`: address space that has been set aside, by global
address and by address on the device.  A reservation of global addresses comes with one of
device addresses at the same place, or, with addresses of 56 bits, at a place of its own;
device addresses can also be reserved alone.
-/

namespace MemFabric.Hybm

open Machine

/-! ## Windows -/

inductive AscendSocType
  | unknown
  | ascend910B
  | ascend910C
  | ascend950
deriving DecidableEq

structure Window where
  start : Nat
  stop : Nat

def gvmMaxPoolSize : Nat := 0x800000000000

/-- `HYBM_GVM_START_ADDR`, `HYBM_GVM_START_ADDR_A5` and what belongs to them. -/
def gvmWindow (soc : AscendSocType) : Window :=
  if soc = .ascend950 then ⟨0x340000000000, 0x340000000000 + gvmMaxPoolSize⟩
  else ⟨0x280040000000, 0x280040000000 + gvmMaxPoolSize⟩

/-- `HYBM_56BITS_GVA_START_ADDR`, `HYBM_TRANS_GVA_START_ADDR` and what belongs to them. -/
def gvaWindow (isTrans : Bool) : Window :=
  if isTrans then ⟨0x1000000000000000, 0x2000000000000000⟩
  else ⟨0x100000000000000, 0x200000000000000⟩

/-! ## Maps -/

structure ReservedGvaInfo where
  va : Fin hvmButt → Nat := fun _ => 0
  size : Nat := 0
  memType : HybmMemType := .butt
  localRankId : Nat := 0
deriving DecidableEq

abbrev ReservedMap := Ordered (Prod.fst : Nat × ReservedGvaInfo → Nat)

structure ReservedVas where
  soc : AscendSocType := .unknown
  reservedMap : Fin hvmButt → ReservedMap := fun _ => ∅

/-- The order of `std::pair`. -/
def rangeLe (r r' : Nat × Nat) : Bool := decide (r.1 < r'.1 ∨ r.1 = r'.1 ∧ r.2 ≤ r'.2)

namespace ReservedVas

variable (s : ReservedVas)

def usedRanges (start stop : Nat) (type : Fin hvmButt) : List (Nat × Nat) :=
  ((s.reservedMap type).toList.filter fun it =>
    decide (start ≤ it.2.va type ∧ it.2.va type < stop)).map fun it =>
      (it.2.va type, (it.2.va type + it.2.size) % 2 ^ 64)

def findFreeSpace (start stop size : Nat) (type : Fin hvmButt) : Option Nat :=
  if size = 0 ∨ stop ≤ start ∨ stop - start < size then none
  else if s.usedRanges start stop type = [] then some start
  else firstGap size stop start ((s.usedRanges start stop type).mergeSort rangeLe)

/-- Zero if there is no space. -/
def allocReserveLvaInner (size : Nat) (type : Fin hvmButt) : Nat :=
  let window := gvmWindow s.soc
  if size = 0 then 0
  else if window.stop - window.start < size then 0
  else (s.findFreeSpace window.start window.stop size type).getD 0

def set (type : Fin hvmButt) (it : Nat × ReservedGvaInfo) : ReservedVas :=
  { s with
    reservedMap := fun i => if i = type then (s.reservedMap i).assign it else s.reservedMap i }

def erase (type : Fin hvmButt) (addr : Nat) : ReservedVas :=
  { s with
    reservedMap := fun i => if i = type then (s.reservedMap i).erase addr else s.reservedMap i }

def findGva (size lva : Nat) (enable56BitsGva isTrans : Bool) : Option Nat :=
  if enable56BitsGva then
    let window := gvaWindow isTrans
    if window.stop - window.start < size then none
    else s.findFreeSpace window.start window.stop size hvmGva
  else some lva

/-- The info of a reservation with a global address and one on the device. -/
def pairInfo (gva lva size : Nat) (memType : HybmMemType) (localRankId : Nat) :
    ReservedGvaInfo where
  va i := if i = hvmGva then gva else if i = hvmDva then lva else 0
  size := size
  memType := memType
  localRankId := localRankId

/-- `AllocReserveGva`; the addresses of the result are zero if it has failed. -/
def allocReserveGva (localRankId size localSize : Nat) (memType : HybmMemType)
    (enable56BitsGva : Bool := false) (isTrans : Bool := false) : ReservedGvaInfo × ReservedVas :=
  if size = 0 then ({}, s)
  else if localSize = 0 ∧ enable56BitsGva = false then ({}, s)
  else
    let lva := if localSize > 0 then s.allocReserveLvaInner localSize hvmDva else 0
    if localSize > 0 ∧ lva = 0 then ({}, s)
    else
      match s.findGva size lva enable56BitsGva isTrans with
      | none => ({}, s)
      | some gva =>
        let result := pairInfo gva lva size memType localRankId
        (result, (s.set hvmGva (gva, result)).set hvmDva (lva, { result with size := localSize }))

def allocReserveLva (localRankId size : Nat) (type : Fin hvmButt) (memType : HybmMemType) :
    ReservedGvaInfo × ReservedVas :=
  if size = 0 then ({}, s)
  else
    let lva := s.allocReserveLvaInner size type
    if lva = 0 then ({}, s)
    else
      let result : ReservedGvaInfo :=
        { va := fun i => if i = type then lva else 0, size, memType, localRankId }
      (result, s.set type (lva, result))

/-- `FreeReserveGva`: without a device address the host address is taken for the local one. -/
def freeReserveGva (addr : Nat) : ReservedVas :=
  if addr = 0 then s
  else
    match (s.reservedMap hvmGva).find addr with
    | none => s
    | some it =>
      let type := if it.2.va hvmDva ≠ 0 then hvmDva else hvmHva
      (s.erase type (it.2.va type)).erase hvmGva addr

def freeReserveLva (addr : Nat) (type : Fin hvmButt) : ReservedVas :=
  if addr = 0 ∨ type ≠ hvmDva ∧ type ≠ hvmHva then s
  else
    match (s.reservedMap type).find addr with
    | none => s
    | some _ => s.erase type addr

end ReservedVas

end MemFabric.Hybm
