import MemFabric.Hybm.Segment.Common

/-!
# Composites

The composite of the transports (`compose_transport_manager.cpp`) and the composite of the
data operators (`hybm_compose_data_op.cpp`) try one of the parts below them after the other.
What a part returns is chosen by the environment.
-/

namespace MemFabric.Hybm

open Machine

/-- The types stand for the bits of a mask, in this order. -/
inductive HybmDopType
  | mte
  | sdma
  | deviceRdma
  | hostRdma
  | hostTcp
  | hostUrma
  | hostShm
deriving DecidableEq

def HybmDopType.In (t : HybmDopType) (opType : Nat) : Bool := opType.testBit t.ctorIdx

open HybmDopType

def hostProtocol (opType : Nat) : Bool :=
  hostTcp.In opType || hostRdma.In opType || hostUrma.In opType

/-! ## Transports -/

inductive Transport
  | host
  | device
deriving DecidableEq

/-- `opType` is what the tag manager says of another rank; `accepted` are the transfers to a rank
that a transport has accepted since the last `Synchronize` with that rank. -/
structure ComposeTransportManager where
  hostOpen : Bool
  deviceOpen : Bool
  opType : Nat → Nat
  accepted : Transport → Nat → List Nat := fun _ _ => []

namespace ComposeTransportManager

section

variable (s : ComposeTransportManager) (rankId transfer : Nat) (device host : Int)

def uses : Transport → Bool
  | .device => deviceRdma.In (s.opType rankId) && s.deviceOpen
  | .host => hostProtocol (s.opType rankId) && s.hostOpen

def setAccepted (t : Transport) (transfers : List Nat) : ComposeTransportManager :=
  { s with
    accepted := Function.update s.accepted t (Function.update (s.accepted t) rankId transfers) }

/-- A call goes to the device transport, and to the host transport if that does not take it. -/
def orElseHost (toDevice toHost : Bool) : Option Transport :=
  if toDevice ∧ device = bmOk then some .device
  else if toHost ∧ host = bmOk then some .host
  else none

def accept : Option Transport → Int × ComposeTransportManager
  | some t => (bmOk, s.setAccepted rankId t (transfer :: s.accepted t rankId))
  | none => (bmError, s)

def writeRemoteAsync : Int × ComposeTransportManager :=
  s.accept rankId transfer (orElseHost device host (s.uses rankId .device) (s.uses rankId .host))

/-- Unlike for a write it is not looked at whether there is a host transport. -/
def readRemoteAsync : Int × ComposeTransportManager :=
  s.accept rankId transfer
    (orElseHost device host (s.uses rankId .device) (hostProtocol (s.opType rankId)))

/-- `ReadRemoteBatchAsync` and `WriteRemoteBatchAsync`. -/
def remoteBatchAsync : Int × ComposeTransportManager :=
  if deviceRdma.In (s.opType rankId) then (bmNotSupported, s)
  else s.accept rankId transfer (orElseHost device host false (s.uses rankId .host))

/-- The transport whose answer `Synchronize` returns. -/
def answers : Option Transport :=
  orElseHost device host (s.uses rankId .device) (s.uses rankId .host)

def synchronize : Int × ComposeTransportManager :=
  (if (s.answers rankId device host).isSome then bmOk else bmError,
    (s.setAccepted rankId .device []).setAccepted rankId .host [])

end

inductive Call
  | write (rankId transfer : Nat)
  | read (rankId transfer : Nat)
  | batch (rankId transfer : Nat)
  | synchronize (rankId : Nat)

def answer (s : ComposeTransportManager) (device host : Int) :
    Call → Int × ComposeTransportManager
  | .write r transfer => s.writeRemoteAsync r transfer device host
  | .read r transfer => s.readRemoteAsync r transfer device host
  | .batch r transfer => s.remoteBatchAsync r transfer device host
  | .synchronize r => s.synchronize r device host

/-- A call, and what the two transports return for it. -/
def step (s : ComposeTransportManager) (c : Call × Int × Int) :
    ComposeTransportManager × List Int :=
  ((s.answer c.2.1 c.2.2 c.1).2, [(s.answer c.2.1 c.2.2 c.1).1])

/-- A read does not go through a host transport that has not been opened. -/
def Allowed (s : ComposeTransportManager) (c : Call × Int × Int) : Prop :=
  ∀ r transfer, c.1 = .read r transfer → hostProtocol (s.opType r) = true → s.hostOpen = true

/-- Only a transport that is used for a rank has transfers to it. -/
def Inv (s : ComposeTransportManager) : Prop := ∀ t r, s.uses r t = false → s.accepted t r = []

section

variable {s : ComposeTransportManager} {rankId transfer : Nat} {device host : Int} {t : Transport}

theorem accepted_setAccepted (t' : Transport) (r : Nat) (transfers : List Nat) :
    (s.setAccepted rankId t transfers).accepted t' r =
      if t' = t ∧ r = rankId then transfers else s.accepted t' r := by
  simp only [setAccepted, Function.update_apply]
  split_ifs <;> simp_all

theorem orElseHost_eq_some {toDevice toHost : Bool}
    (h : orElseHost device host toDevice toHost = some t) :
    t = .device ∧ toDevice = true ∨ t = .host ∧ toHost = true := by
  unfold orElseHost at h
  split_ifs at h with hdevice hhost
  · exact .inl ⟨(Option.some.inj h).symm, hdevice.1⟩
  · exact .inr ⟨(Option.some.inj h).symm, hhost.1⟩

theorem Inv.setAccepted (h : Inv s) {transfers : List Nat}
    (hused : s.uses rankId t = true ∨ transfers = []) : Inv (s.setAccepted rankId t transfers) := by
  intro t' r hunused
  rw [accepted_setAccepted]
  split_ifs with hsame
  · obtain ⟨rfl, rfl⟩ := hsame
    exact hused.resolve_left (by rw [show s.uses r t' = false from hunused]; decide)
  · exact h t' r hunused

theorem Inv.accept (h : Inv s) {toDevice toHost : Bool}
    (hdevice : toDevice = true → s.uses rankId .device = true)
    (hhost : toHost = true → s.uses rankId .host = true) :
    Inv (s.accept rankId transfer (orElseHost device host toDevice toHost)).2 := by
  cases htook : orElseHost device host toDevice toHost with
  | none => exact h
  | some t =>
    rcases orElseHost_eq_some htook with ⟨rfl, hto⟩ | ⟨rfl, hto⟩
    · exact h.setAccepted (.inl (hdevice hto))
    · exact h.setAccepted (.inl (hhost hto))

theorem Inv.step (h : Inv s) (c : Call × Int × Int) (hc : s.Allowed c) : Inv (s.step c).1 := by
  obtain ⟨call, device, host⟩ := c
  cases call with
  | write r transfer => exact h.accept id id
  | read r transfer =>
    refine h.accept id fun hproto => ?_
    rw [uses, hproto, hc r transfer rfl hproto]
    rfl
  | batch r transfer =>
    change Inv (s.remoteBatchAsync r transfer device host).2
    unfold remoteBatchAsync
    split_ifs
    · exact h
    · exact h.accept (absurd · Bool.false_ne_true) id
  | synchronize r =>
    have hdevice : Inv (s.setAccepted r .device []) := h.setAccepted (.inr rfl)
    exact hdevice.setAccepted (.inr rfl)

end

end ComposeTransportManager

/-! ## Data operators -/

inductive DataOperator
  | sdma
  | devRdma
  | hostRdma
  | hostShm
deriving DecidableEq

abbrev TypedOperator := HybmDopType × DataOperator

structure HostComposeDataOp where
  sdma : Option DataOperator := none
  devRdma : Option DataOperator := none
  hostRdma : Option DataOperator := none

structure HybmCopyParams where
  src : Nat
  dest : Nat
  dataSize : Nat
deriving DecidableEq

namespace HostComposeDataOp

/-- One part of `Initialize`: the operator is made and kept by `set`; when its own initialization
fails, all of them are dropped. -/
def install (init : DataOperator → Int) (enabled : Bool) (op : DataOperator)
    (set : HostComposeDataOp → HostComposeDataOp) (s : Int × HostComposeDataOp) :
    Int × HostComposeDataOp :=
  if s.1 = bmOk ∧ enabled then
    if init op = bmOk then (bmOk, set s.2) else (init op, {})
  else s

/-- Shared memory has no field of its own. -/
def initializeOps (aiCore : Bool) (enabled : Nat) (init : DataOperator → Int) :
    Int × HostComposeDataOp :=
  if aiCore then (bmOk, {})
  else
    (bmOk, {})
    |> install init (HybmDopType.sdma.In enabled) .sdma ({ · with sdma := some .sdma })
    |> install init (deviceRdma.In enabled) .devRdma ({ · with devRdma := some .devRdma })
    |> install init (hostProtocol enabled) .hostRdma ({ · with hostRdma := some .hostRdma })
    |> install init (hostShm.In enabled) .hostShm ({ · with hostRdma := some .hostShm })

def priority : List HybmDopType := [.sdma, .deviceRdma, .hostRdma, .hostUrma, .hostTcp, .hostShm]

/-- The field that is read for a type. -/
def field (s : HostComposeDataOp) : HybmDopType → Option DataOperator
  | .sdma => s.sdma
  | .deviceRdma => s.devRdma
  | _ => s.hostRdma

def getPrioritedDataOperators (s : HostComposeDataOp) (opTypes : Nat) :
    List TypedOperator :=
  priority.filterMap fun t => if t.In opTypes then (s.field t).map (Prod.mk t) else none

section

/-! What an attempt returns, and what it leaves in the parameters it was given. -/

variable (attempt : TypedOperator → HybmCopyParams → Int × HybmCopyParams)

/-- The loop of a copy, with its attempts.  With `copies` each of them works on a copy of the
parameters. -/
def tryInOrder (copies : Bool) : Int → HybmCopyParams → List TypedOperator →
    Int × List (TypedOperator × HybmCopyParams)
  | result, _, [] => (result, [])
  | _, params, op :: ops =>
    let r := attempt op params
    if r.1 = bmOk then (bmOk, [(op, params)])
    else
      let rest := tryInOrder copies r.1 (if copies then params else r.2) ops
      (rest.1, (op, params) :: rest.2)

def copyBy (copies : Bool) (params : HybmCopyParams) (ops : List TypedOperator) :=
  if ops.isEmpty then (bmInvalidParam, []) else tryInOrder attempt copies bmError params ops

def dataCopy := copyBy attempt true

def dataCopyAsync := copyBy attempt false

/-- The elements up to the first one that will do. -/
def upToFirst (ok : TypedOperator → Bool) : List TypedOperator → List TypedOperator
  | [] => []
  | op :: ops => if ok op then [op] else op :: upToFirst ok ops

/-- The operators are tried in their order on the caller's parameters until one succeeds. -/
def Tried (params : HybmCopyParams) (ops : List TypedOperator)
    (out : Int × List (TypedOperator × HybmCopyParams)) : Prop :=
  out.2 = (upToFirst (fun op => (attempt op params).1 = bmOk) ops).map (·, params) ∧
    (out.1 = bmOk ↔ ∃ op ∈ ops, (attempt op params).1 = bmOk)

variable {attempt} {copies : Bool} {params : HybmCopyParams}

theorem upToFirst_ne_nil {ok : TypedOperator → Bool} {op : TypedOperator}
    {ops : List TypedOperator} : upToFirst ok (op :: ops) ≠ [] := by
  rw [upToFirst]
  split_ifs <;> simp

/-- Induction on the operators that are left.  The parameters that are handed on are the caller's
if each operator but the last one that is tried has left them alone, and then only. -/
theorem tried_tryInOrder_iff {result : Int} (hresult : result ≠ bmOk) (ops : List TypedOperator) :
    Tried attempt params ops (tryInOrder attempt copies result params ops) ↔
      copies = true ∨
        ∀ op ∈ (upToFirst (fun op => (attempt op params).1 = bmOk) ops).dropLast,
          (attempt op params).2 = params := by
  induction ops generalizing result with
  | nil => simp [Tried, tryInOrder, upToFirst, hresult]
  | cons op ops ih =>
    rw [tryInOrder]
    by_cases hop : (attempt op params).1 = bmOk
    · simp [Tried, upToFirst, hop]
    have htried : Tried attempt params (op :: ops)
        ((tryInOrder attempt copies (attempt op params).1 params ops).1,
          (op, params) :: (tryInOrder attempt copies (attempt op params).1 params ops).2) ↔
        Tried attempt params ops (tryInOrder attempt copies (attempt op params).1 params ops) := by
      simp [Tried, upToFirst, hop]
    dsimp only
    rw [if_neg hop]
    cases ops with
    | nil => simp [Tried, tryInOrder, upToFirst, hop]
    | cons next ops =>
      have hlast :
          (upToFirst (fun op => (attempt op params).1 = bmOk) (op :: next :: ops)).dropLast =
          op :: (upToFirst (fun op => (attempt op params).1 = bmOk) (next :: ops)).dropLast := by
        rw [upToFirst, if_neg (by simpa using hop), List.dropLast_cons_of_ne_nil upToFirst_ne_nil]
      rw [hlast, List.forall_mem_cons]
      by_cases hparams : copies = true ∨ (attempt op params).2 = params
      · have hsame : (if copies then params else (attempt op params).2) = params := by
          split_ifs with hcopies
          · rfl
          · exact hparams.resolve_left hcopies
        rw [hsame, htried, ih hop]
        tauto
      · rw [not_or] at hparams
        refine iff_of_false (fun htried => ?_) (by tauto)
        -- the next operator has been tried on other parameters
        have hfirst : (tryInOrder attempt copies (attempt op params).1 (attempt op params).2
            (next :: ops)).2.head? = some (next, (attempt op params).2) := by
          rw [tryInOrder]
          split_ifs <;> rfl
        have hexpected : (upToFirst (fun op => (attempt op params).1 = bmOk)
            (next :: ops)).head? = some next := by
          rw [upToFirst]
          split_ifs <;> rfl
        have hattempts := htried.1
        rw [if_neg hparams.1, upToFirst, if_neg (by simpa using hop), List.map_cons] at hattempts
        have hheads := congrArg List.head? (List.cons.inj hattempts).2
        rw [hfirst, List.head?_map, hexpected] at hheads
        exact hparams.2 (Prod.mk.inj (Option.some.inj hheads)).2

theorem tried_copyBy_iff (ops : List TypedOperator) :
    Tried attempt params ops (copyBy attempt copies params ops) ↔
      copies = true ∨
        ∀ op ∈ (upToFirst (fun op => (attempt op params).1 = bmOk) ops).dropLast,
          (attempt op params).2 = params := by
  unfold copyBy
  split_ifs with hnil
  · rw [List.isEmpty_iff.1 hnil]
    exact iff_of_true ⟨rfl, by simp [bmInvalidParam, bmOk]⟩ (.inr (by simp [upToFirst]))
  · exact tried_tryInOrder_iff (by decide) ops

end

section

variable {init : DataOperator → Int} {enabled : Bool} {op : DataOperator}
  {set : HostComposeDataOp → HostComposeDataOp} {s : Int × HostComposeDataOp}

theorem install_of_ok (h : (install init enabled op set s).1 = bmOk) :
    s.1 = bmOk ∧ (install init enabled op set s).2 = if enabled then set s.2 else s.2 := by
  unfold install at h ⊢
  split_ifs at h ⊢ <;> simp_all

theorem install_of_ne (hs : s.1 ≠ bmOk → s.2 = {}) (h : (install init enabled op set s).1 ≠ bmOk) :
    (install init enabled op set s).2 = {} := by
  unfold install at h ⊢
  split_ifs at h ⊢ <;> simp_all

end

section

variable {aiCore : Bool} {enabled opTypes : Nat} {init : DataOperator → Int}

theorem initializeOps_of_ne (h : (initializeOps aiCore enabled init).1 ≠ bmOk) :
    (initializeOps aiCore enabled init).2 = {} := by
  unfold initializeOps at h ⊢
  split_ifs at h ⊢
  · rfl
  · exact install_of_ne (install_of_ne (install_of_ne (install_of_ne fun h => absurd rfl h))) h

/-- The operator that is created for a type; the host protocols share one. -/
def created (enabled : Nat) : HybmDopType → Option DataOperator
  | .sdma => if HybmDopType.sdma.In enabled then some .sdma else none
  | .deviceRdma => if deviceRdma.In enabled then some .devRdma else none
  | .hostRdma | .hostTcp | .hostUrma => if hostProtocol enabled then some .hostRdma else none
  | .hostShm => if hostShm.In enabled then some .hostShm else none
  | .mte => none

/-- The operators that are allowed for a pair, in the order of their priority. -/
def allowedOps (enabled opTypes : Nat) : List TypedOperator :=
  priority.filterMap fun t => if t.In opTypes then (created enabled t).map (Prod.mk t) else none

/-- The one field of the host operators is the one of the host protocols and of shared memory. -/
theorem field_initializeOps (h : (initializeOps false enabled init).1 = bmOk) (t : HybmDopType) :
    (initializeOps false enabled init).2.field t =
      match t with
      | .sdma | .deviceRdma => created enabled t
      | _ =>
        if hostShm.In enabled then some .hostShm
        else if hostProtocol enabled then some .hostRdma else none := by
  rw [initializeOps, if_neg (by decide)] at h ⊢
  obtain ⟨h3, heq3⟩ := install_of_ok h
  obtain ⟨h2, heq2⟩ := install_of_ok h3
  obtain ⟨h1, heq1⟩ := install_of_ok h2
  obtain ⟨-, heq0⟩ := install_of_ok h1
  rw [heq3, heq2, heq1, heq0]
  cases t with
  | sdma => simp [field, created, apply_ite HostComposeDataOp.sdma]
  | deviceRdma => simp [field, created, apply_ite HostComposeDataOp.devRdma]
  | _ => simp [field, apply_ite HostComposeDataOp.hostRdma]

theorem mem_getPrioritedDataOperators {s : HostComposeDataOp} {t : HybmDopType}
    {op : DataOperator} :
    (t, op) ∈ s.getPrioritedDataOperators opTypes ↔
      t ∈ priority ∧ t.In opTypes = true ∧ s.field t = some op := by
  simp only [getPrioritedDataOperators, List.mem_filterMap, Option.ite_none_right_eq_some,
    Option.map_eq_some_iff, Prod.mk.injEq]
  constructor
  · rintro ⟨_, ht, hin, _, hfield, rfl, rfl⟩
    exact ⟨ht, hin, hfield⟩
  · rintro ⟨ht, hin, hfield⟩
    exact ⟨t, ht, hin, op, hfield, rfl, rfl⟩

theorem mem_allowedOps {t : HybmDopType} {op : DataOperator}
    (h : (t, op) ∈ allowedOps enabled opTypes) :
    created enabled t = some op := by
  simp only [allowedOps, List.mem_filterMap, Option.ite_none_right_eq_some,
    Option.map_eq_some_iff, Prod.mk.injEq] at h
  obtain ⟨_, -, -, _, hcreated, rfl, rfl⟩ := h
  exact hcreated

/-- No type of the pair is served by the operator of another one. -/
def OwnOperators (enabled opTypes : Nat) : Prop :=
  if hostShm.In enabled then hostProtocol opTypes = false
  else hostProtocol enabled = true → hostShm.In opTypes = false

theorem getPrioritedDataOperators_eq_iff (h : (initializeOps false enabled init).1 = bmOk) :
    (initializeOps false enabled init).2.getPrioritedDataOperators opTypes =
      allowedOps enabled opTypes ↔ OwnOperators enabled opTypes := by
  have hfield := field_initializeOps h
  constructor
  · intro heq
    have hown : ∀ t ∈ priority, ∀ op, (initializeOps false enabled init).2.field t = some op →
        created enabled t ≠ some op → t.In opTypes = false :=
      fun t ht op hop hne => Bool.eq_false_iff.mpr fun hin =>
        hne (mem_allowedOps (heq ▸ mem_getPrioritedDataOperators.mpr ⟨ht, hin, hop⟩))
    simp only [hfield] at hown
    unfold OwnOperators
    split_ifs with hshm
    · have htcp := hown .hostTcp (by decide) .hostShm (if_pos hshm) (by simp [created])
      have hrdma := hown .hostRdma (by decide) .hostShm (if_pos hshm) (by simp [created])
      have hurma := hown .hostUrma (by decide) .hostShm (if_pos hshm) (by simp [created])
      rw [hostProtocol, htcp, hrdma, hurma]
      rfl
    · intro hproto
      exact hown .hostShm (by decide) .hostRdma (by simp [hshm, hproto]) (by simp [created, hshm])
  · intro hown
    refine List.filterMap_congr fun t ht => ?_
    split_ifs with hin
    · rw [hfield]
      unfold OwnOperators at hown
      cases t with
      | sdma | deviceRdma => rfl
      | mte => exact absurd ht (by decide)
      | hostRdma | hostTcp | hostUrma =>
        split_ifs at hown with hshm
        · simp [hostProtocol, hin] at hown
        · simp [created, hshm]
      | hostShm =>
        split_ifs at hown with hshm
        · simp [created, hshm]
        · have hproto : hostProtocol enabled = false := by
            rw [Bool.eq_false_iff]
            exact fun hproto => absurd hin (by simp [hown hproto])
          simp [created, hshm, hproto]
    · rfl

end

/-- A pair is given the operators that have been created for its types if shared memory and the
host protocols do not stand in for each other, and then only.  A copy tries the operators as it
should, and an asynchronous one if each of them but the last one tried leaves its parameters
alone, and then only. -/
theorem compose_copies (aiCore : Bool) (enabled opTypes : Nat) (init : DataOperator → Int)
    (attempt : TypedOperator → HybmCopyParams → Int × HybmCopyParams) (params : HybmCopyParams) :
    let s := initializeOps aiCore enabled init
    let ops := s.2.getPrioritedDataOperators opTypes
    (if aiCore ∨ s.1 ≠ bmOk then ops = []
      else (ops = allowedOps enabled opTypes ↔ OwnOperators enabled opTypes)) ∧
    Tried attempt params ops (dataCopy attempt params ops) ∧
    (Tried attempt params ops (dataCopyAsync attempt params ops) ↔
      ∀ op ∈ (upToFirst (fun op => (attempt op params).1 = bmOk) ops).dropLast,
        (attempt op params).2 = params) := by
  intro s ops
  refine ⟨?_, (tried_copyBy_iff ops).mpr (.inl rfl), ?_⟩
  · split_ifs with hempty
    · have hs : s.2 = {} := by
        rcases hempty with haiCore | hret
        · simp [s, initializeOps, haiCore]
        · exact initializeOps_of_ne hret
      simp [ops, hs, getPrioritedDataOperators, priority, field]
    · push Not at hempty
      obtain ⟨haiCore, hret⟩ := hempty
      obtain rfl : aiCore = false := by simpa using haiCore
      exact getPrioritedDataOperators_eq_iff hret
  · exact (tried_copyBy_iff ops).trans (or_iff_right Bool.false_ne_true)

/-- An SDMA copy that fails after `HostDataOpSDMA::TransformVa`, which keeps an address that is
null or has no translation; the other operators succeed. -/
def sdmaFails (transform : Nat → Nat) (op : TypedOperator) (params : HybmCopyParams) :
    Int × HybmCopyParams :=
  let translated va := if va ≠ 0 ∧ transform va ≠ 0 then transform va else va
  if op.2 = .sdma then
    (bmError, { params with src := translated params.src, dest := translated params.dest })
  else (bmOk, params)

theorem compose_copies_sdma_tcp :
    (initializeOps false 18 fun _ => bmOk).2.getPrioritedDataOperators 18 = allowedOps 18 18 ∧
    Tried (sdmaFails id) ⟨1, 2, 8⟩ [(.sdma, .sdma), (.hostTcp, .hostRdma)]
      (dataCopyAsync (sdmaFails id) ⟨1, 2, 8⟩ [(.sdma, .sdma), (.hostTcp, .hostRdma)]) := by
  have h := compose_copies false 18 18 (fun _ => bmOk) (sdmaFails id) ⟨1, 2, 8⟩
  exact ⟨h.1.mpr (by unfold OwnOperators; decide), h.2.2.mpr (by decide)⟩

/-- With shared memory enabled its operator gets the TCP copies; and after SDMA has failed, the
next operator gets the translated addresses. -/
theorem compose_copies_shm :
    (initializeOps false 80 fun _ => bmOk).2.getPrioritedDataOperators 16 =
      [(.hostTcp, .hostShm)] ∧
    (dataCopyAsync (sdmaFails (· + 4096)) ⟨1, 2, 8⟩
      ((initializeOps false 18 fun _ => bmOk).2.getPrioritedDataOperators 18)).2 =
      [((.sdma, .sdma), ⟨1, 2, 8⟩), ((.hostTcp, .hostRdma), ⟨4097, 4098, 8⟩)] := by decide

end HostComposeDataOp

end MemFabric.Hybm
