import MemFabric.Zbal.Classic.Barrier

/-!
# The metadata of the groups

`Bootstrap::VerifyOptions` and `GroupMetaArranger`: every group has a piece of the same size
of the metadata of a rank.  It begins with the description of the group and the parameter
space, and the exchange space is the rest of it.
-/

namespace MemFabric.Zbal

/-- The options that are checked.  `btType` is the number of the bootstrap type, of which
there is one. -/
structure BootstrapOptions where
  btType : Int
  ipPort : Option String
  worldSize : Nat
  rankId : Nat
  deviceId : Nat
  deviceMemorySize : Nat
  commMetaSpaceSize : Nat
  commGroupCap : Nat

namespace BootstrapOptions

def rankCountMaxLimit : Nat := 1024

def deviceCountMaxLimit : Nat := 32

def memorySizeCap : Nat := 274877906944

def commGroupCountCapMax : Nat := 256

/-- `COMM_META_SPACE_SIZE_DEFAULT`, in KB -/
def commMetaSpaceSizeDefault : Nat := 1024

def validate (ok : Bool) (message : String) : Except String Unit :=
  if ok then .ok () else .error message

def verifyOptions (o : BootstrapOptions) : Except String Unit := do
  validate (decide (0 ≤ o.btType ∧ o.btType < 1)) "invalid option, bootstrapType is invalid"
  validate o.ipPort.isSome "invalid option, ipPort is nullptr"
  validate (decide (o.worldSize ≤ rankCountMaxLimit)) "invalid option, worldSize too large"
  validate (decide (o.rankId < o.worldSize)) "invalid option, rankId should be less than worldSize"
  validate (decide (o.deviceId < deviceCountMaxLimit)) "invalid option, deviceId is incorrect"
  validate (decide (o.deviceMemorySize < memorySizeCap)) "invalid options, memory size is too large"
  validate (!decide (o.commGroupCap ≥ commGroupCountCapMax))
    "comm group count cap is over the limit."
  validate (!decide (o.commGroupCap * o.commMetaSpaceSize * 1024 ≥ o.deviceMemorySize))
    "total meta space size is GE total device memory size."
  validate (!decide (o.commMetaSpaceSize * 1024 ≤ operateParamSize))
    "single meta space size is too small"

end BootstrapOptions

/-- `sizeof(CommGroupInfo)`: the two ranks, three addresses, three sizes, the configuration,
`ZBAL_MAX_RANKS` ranks of two bytes, five more words and the index, each at a multiple of its
size. -/
def commGroupInfoSize : Nat := 8 + 3 * 8 + 3 * 8 + 8 + 1024 * 2 + 5 * 8 + 8

structure GroupMetaArranger where
  myMetaGVA : Nat
  totalMetaSpaceSize : Nat
  singleMetaSpaceSize : Nat
  commGroupCap : Nat

structure GroupAddresses where
  groupMetaGVA : Nat
  paramGVA : Nat
  addressExchangeGVA : Nat

namespace GroupMetaArranger

def verify (a : GroupMetaArranger) : Except String Unit :=
  if a.commGroupCap = 0 then .error "Group count cap cannot be zero"
  else if a.totalMetaSpaceSize ≥ a.singleMetaSpaceSize * a.commGroupCap then .ok ()
  else .error "Size of meta space is less than single space multiple group count cap."

/-- The sizes come from the options, the address from the memory that was set up for them. -/
def initializeFrom (o : BootstrapOptions) (myCommMetaDeviceGva : Nat) :
    Except String GroupMetaArranger := do
  let a : GroupMetaArranger :=
    { myMetaGVA := myCommMetaDeviceGva
      totalMetaSpaceSize := o.commMetaSpaceSize * 1024 * o.commGroupCap
      singleMetaSpaceSize := o.commMetaSpaceSize * 1024
      commGroupCap := o.commGroupCap }
  a.verify
  return a

variable (a : GroupMetaArranger)

def paramSpaceSize : Nat := operateParamSize - commGroupInfoSize

def exchangeSpaceSize : Nat := a.singleMetaSpaceSize - operateParamSize

def getGroupByIndex (index : Nat) : Option GroupAddresses :=
  if index ≥ a.commGroupCap then none
  else
    let groupMetaGVA := a.myMetaGVA + a.singleMetaSpaceSize * index
    some ⟨groupMetaGVA, groupMetaGVA + commGroupInfoSize, groupMetaGVA + operateParamSize⟩

variable {a}

theorem getGroupByIndex_eq_some {index : Nat} {g : GroupAddresses}
    (h : a.getGroupByIndex index = some g) :
    g.groupMetaGVA = a.myMetaGVA + a.singleMetaSpaceSize * index ∧
      g.paramGVA = g.groupMetaGVA + commGroupInfoSize ∧
      g.addressExchangeGVA = g.groupMetaGVA + operateParamSize := by
  rw [getGroupByIndex] at h
  split at h
  · cases h
  · cases h
    exact ⟨rfl, rfl, rfl⟩

theorem initializeFrom_eq_ok {o : BootstrapOptions} {gva : Nat} (h : initializeFrom o gva = .ok a) :
    a.singleMetaSpaceSize = o.commMetaSpaceSize * 1024 := by
  rw [initializeFrom] at h
  cases hv : verify _ with
  | error e =>
    rw [hv] at h
    cases h
  | ok u =>
    rw [hv] at h
    cases h
    rfl

theorem disjoint_of_ne {index index' : Nat} (hne : index ≠ index') {g g' : GroupAddresses}
    (h : a.getGroupByIndex index = some g) (h' : a.getGroupByIndex index' = some g') {x : Nat}
    (hlo : g.groupMetaGVA ≤ x) (hhi : x < g.groupMetaGVA + a.singleMetaSpaceSize) :
    ¬ (g'.groupMetaGVA ≤ x ∧ x < g'.groupMetaGVA + a.singleMetaSpaceSize) := by
  rw [(getGroupByIndex_eq_some h).1] at hlo hhi
  rw [(getGroupByIndex_eq_some h').1]
  rcases Nat.lt_or_gt_of_ne hne with hlt | hlt
  · have := Nat.mul_le_mul_left a.singleMetaSpaceSize (show index + 1 ≤ index' from hlt)
    rw [Nat.mul_add] at this
    omega
  · have := Nat.mul_le_mul_left a.singleMetaSpaceSize (show index' + 1 ≤ index from hlt)
    rw [Nat.mul_add] at this
    omega

end GroupMetaArranger

end MemFabric.Zbal
