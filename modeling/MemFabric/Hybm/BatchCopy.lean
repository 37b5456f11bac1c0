import MemFabric.Hybm.Segment.Common

/-!
# Batches of copies over RDMA

A batch posts transfers to another rank and copies over a stream, and waits for them
(`hybm_data_op_device_rdma.cpp`, `hybm_data_op_host_rdma.cpp`).  What a call below returns is
chosen by the environment; a call that fails has no effect.
-/

namespace MemFabric.Hybm

open Function

inductive HybmDataCopyDirection
  | localHostToGlobalHost
  | localHostToGlobalDevice
  | localDeviceToGlobalHost
  | localDeviceToGlobalDevice
  | globalHostToGlobalHost
  | globalHostToGlobalDevice
  | globalHostToLocalHost
  | globalHostToLocalDevice
  | globalDeviceToGlobalHost
  | globalDeviceToGlobalDevice
  | globalDeviceToLocalHost
  | globalDeviceToLocalDevice
  | auto
  | butt
deriving DecidableEq

/-- Where a copy is under way once it has been submitted: to another rank, or over the stream. -/
inductive Engine
  | remote
  | stream
deriving DecidableEq

inductive DataCall
  | submit (engine : Engine)
  | synchronize (engine : Engine)
  | memcpy
  | memcpyBatch
  | allocate

structure CopyItem where
  localAddr : Nat
  globalAddr : Nat
  count : Nat
deriving DecidableEq

/-- The calls so far, and the copies that no call has waited for, be it in vain. -/
structure Transfers where
  calls : Nat := 0
  pending : Engine → List CopyItem := fun _ => []

structure DataOpDeviceRDMA where
  rankId : Nat
  forceUnregistered : Bool
  queryHasRegistered : Nat → Nat → Bool
  rdmaSwapSpaceSize : Nat

def DataOpDeviceRDMA.registered (op : DataOpDeviceRDMA) (item : CopyItem) : Bool :=
  !op.forceUnregistered && op.queryHasRegistered item.localAddr item.count

namespace Transfers

/-- What a call returns, and what is under way then. -/
abbrev Op := Transfers → Int × Transfers

section Operations

variable (env : DataCall → Nat → Int) (op : DataOpDeviceRDMA) (direction : HybmDataCopyDirection)
  (engine : Engine) (swapSize tmpHost : Nat) (items : List CopyItem)

def ask (call : DataCall) : Op :=
  fun s => (env call s.calls, { s with calls := s.calls + 1 })

def submit (item : CopyItem) : Op := fun s =>
  let (ret, s) := ask env (.submit engine) s
  (ret, if ret = bmOk then
    { s with pending := update s.pending engine (item :: s.pending engine) } else s)

def synchronize : Op := fun s =>
  let (ret, s) := ask env (.synchronize engine) s
  (ret, { s with pending := update s.pending engine [] })

/-- Two operations, the second if the first succeeds. -/
def andThen (f g : Op) : Op :=
  fun s => if (f s).1 = bmOk then g (f s).2 else f s

/-- A loop over items that ends with the first call that fails. -/
def untilFails (call : CopyItem → Op) : List CopyItem → Op
  | [] => fun s => (bmOk, s)
  | item :: items => andThen (call item) (untilFails call items)

/-- What has been posted is waited for also if the next transfer cannot be posted. -/
def postAndWait : Op := fun s =>
  let posted := untilFails (submit env .remote) items s
  let waited := synchronize env .remote posted.2
  (if waited.1 = bmOk then posted.1 else waited.1, waited.2)

/-! ## Through swap memory -/

/-- The size of the items from the front that fit into the swap memory together, these items,
and the others. -/
def swapRound : Nat → List CopyItem → Nat × List CopyItem × List CopyItem
  | used, [] => (used, [], [])
  | used, item :: items =>
    if (used + item.count) % 2 ^ 64 ≤ swapSize then
      let (total, fitting, others) := swapRound ((used + item.count) % 2 ^ 64) items
      (total, item :: fitting, others)
    else (used, [], item :: items)

/-- A round takes an item at least, so that there are no more rounds than items. -/
def rounds (round : List CopyItem → Op) : Nat → List CopyItem → Op
  | 0, _ | _ + 1, [] => fun s => (bmOk, s)
  | n + 1, items =>
    let (total, fitting, others) := swapRound swapSize 0 items
    if total = 0 then fun s => (bmInvalidParam, s)
    else andThen (round fitting) (rounds round n others)

/-- The items with their places in swap memory for the local addresses. -/
def swapItems : Nat → List CopyItem → List CopyItem
  | _, [] => []
  | address, item :: items =>
    { item with localAddr := address } :: swapItems (address + item.count) items

def inSwap (f : Nat → Op) : Op := fun s =>
  let (tmpHost, s) := ask env .allocate s
  if tmpHost = 0 then (bmMallocFailed, s) else f tmpHost.toNat s

/-! ## The operator on the device -/

def srcIsHost : HybmDataCopyDirection → Bool
  | .localHostToGlobalHost | .localHostToGlobalDevice | .globalHostToGlobalHost
  | .globalHostToGlobalDevice | .globalHostToLocalHost | .globalHostToLocalDevice => true
  | _ => false

def destIsHost : HybmDataCopyDirection → Bool
  | .localHostToGlobalHost | .localDeviceToGlobalHost | .globalHostToGlobalHost
  | .globalHostToLocalHost | .globalDeviceToGlobalHost | .globalDeviceToLocalHost => true
  | _ => false

def batchDataCopyLocalSync : Op := fun s =>
  let copied := untilFails (fun _ => ask env .memcpy) items s
  (if copied.1 = bmOk then bmOk else bmDlFunctionFailed, copied.2)

def batchDataCopyLocalAsync : Op := fun s =>
  let copied := untilFails (submit env .stream) items s
  let waited := synchronize env .stream copied.2
  (if copied.1 = bmOk then waited.1 else bmDlFunctionFailed, waited.2)

def batchDataCopyLocalBatch : Op := fun s =>
  let copied := ask env .memcpyBatch s
  if copied.1 = bmOk then copied else batchDataCopyLocalAsync env items copied.2

def batchDataCopyLocal : Op :=
  match direction with
  | .localHostToGlobalHost | .globalHostToGlobalHost | .globalHostToLocalHost =>
    batchDataCopyLocalSync env items
  | .globalHostToLocalDevice | .localDeviceToGlobalHost => batchDataCopyLocalBatch env items
  | .auto | .butt => fun s => (-1, s)
  | _ => batchDataCopyLocalAsync env items

/-- Transfers to adjacent addresses are one transfer. -/
def merge : List CopyItem → List CopyItem
  | [] => []
  | item :: items =>
    match merge items with
    | [] => [item]
    | next :: others =>
      if next.globalAddr = (item.globalAddr + item.count) % 2 ^ 64 then
        { item with count := (item.count + next.count) % 2 ^ 64 } :: others
      else item :: next :: others

def swapCopy (host : Bool) : Op :=
  if host then batchDataCopyLocalSync env items else batchDataCopyLocalBatch env items

def batchMergedWrite : Op :=
  andThen (swapCopy env items (srcIsHost direction))
    (postAndWait env (merge (swapItems tmpHost items)))

/-- The result of the copy out of the swap memory is not looked at. -/
def batchMergedRead : Op :=
  andThen (postAndWait env (merge (swapItems tmpHost items)))
    fun s => (bmOk, (swapCopy env items (destIsHost direction) s).2)

/-- The directions stand in the order of their numbers. -/
def isWrite : Bool :=
  direction.ctorIdx ≤ HybmDataCopyDirection.localDeviceToGlobalDevice.ctorIdx

def batchMerged : Op :=
  if isWrite direction then batchMergedWrite env direction tmpHost items
  else batchMergedRead env direction tmpHost items

def batchDataCopyDefault : Op :=
  inSwap env fun tmpHost =>
    rounds op.rdmaSwapSpaceSize (batchMerged env direction tmpHost) items.length items

def batchCopy (rank : Nat) : Op := fun s =>
  if rank = op.rankId then
    if items = [] then (bmOk, s) else batchDataCopyLocal env direction items s
  else
    let registered := items.filter op.registered
    let notRegistered := items.filter (!op.registered ·)
    let posted := untilFails (submit env .remote) registered s
    if posted.1 ≠ bmOk then
      -- nothing is waited for if the first transfer could not be posted
      (posted.1, if posted.2.pending .remote = s.pending .remote then posted.2
        else (synchronize env .remote posted.2).2)
    else
      let moved := if notRegistered = [] then posted
        else batchDataCopyDefault env op direction notRegistered posted.2
      if moved.1 = bmOk ∧ registered ≠ [] then synchronize env .remote moved.2 else moved

def batchCopyWrite (destRankId : Nat) : Op :=
  batchCopy env op direction items destRankId

def batchCopyRead (srcRankId : Nat) : Op :=
  batchCopy env op direction items srcRankId

/-! ## The operator on the host -/

def batchCopyLD2LH : Op := fun s =>
  let copied := untilFails (submit env .stream) items s
  if copied.1 = bmOk then synchronize env .stream copied.2 else (bmDlFunctionFailed, copied.2)

def batchCopyLH2LD : Op := batchCopyLD2LH env items

def writeRound : Op :=
  inSwap env fun tmpHost =>
    andThen (batchCopyLD2LH env items) (postAndWait env (swapItems tmpHost items))

def readRound : Op :=
  inSwap env fun tmpHost =>
    andThen (postAndWait env (swapItems tmpHost items)) (batchCopyLH2LD env items)

def batchWriteLD2RH : Op :=
  if swapSize = 0 then fun s => (bmError, s)
  else rounds swapSize (writeRound env) items.length items

def batchReadRH2LD : Op :=
  if swapSize = 0 then fun s => (bmError, s) else rounds swapSize (readRound env) items.length items

end Operations

/-! ## What is waited for -/

/-- If it succeeds, or in any case under `H`, an operation leaves nothing pending on an engine
that it has found idle. -/
def Keeps (H : Prop) (f : Op) : Prop :=
  ∀ s, (f s).1 = bmOk ∨ H → ∀ engine, s.pending engine = [] → (f s).2.pending engine = []

section Waiting

variable (env : DataCall → Nat → Int) (op : DataOpDeviceRDMA) (direction : HybmDataCopyDirection)
  (engine other : Engine) (swapSize : Nat) (items : List CopyItem) (s : Transfers) {H : Prop}

theorem untilFails_induction {P : Transfers → Prop} {call : CopyItem → Op}
    (step : ∀ item s, P s → P (call item s).2) (h : P s) : P (untilFails call items s).2 := by
  induction items generalizing s with
  | nil => exact h
  | cons item items ih =>
    rw [untilFails, andThen]
    split
    · exact ih _ (step item s h)
    · exact step item s h

theorem pending_submit (hne : other ≠ engine) (item : CopyItem) :
    (submit env engine item s).2.pending other = s.pending other := by
  simp only [submit]
  split
  · exact update_of_ne hne _ _
  · rfl

theorem waited_synchronize (h : other ≠ engine → s.pending other = []) :
    (synchronize env engine s).2.pending other = [] := by
  by_cases hne : other = engine
  · rw [hne]
    exact update_self engine _ _
  · exact (update_of_ne hne _ _).trans (h hne)

theorem waited_untilFails (hne : other ≠ engine) (h : s.pending other = []) :
    (untilFails (submit env engine) items s).2.pending other = [] :=
  untilFails_induction (P := (pending · other = [])) items s
    (fun item s h => (pending_submit env engine other s hne item).trans h) h

theorem keeps_postAndWait : Keeps H (postAndWait env items) :=
  fun s _ other h => waited_synchronize env .remote other _ fun hne =>
    waited_untilFails env .remote other items s hne h

theorem Keeps.andThen {f g : Op} (h : Keeps H f) (h' : Keeps H g) : Keeps H (andThen f g) := by
  intro s
  rw [Transfers.andThen]
  split
  · rename_i hret
    exact fun hret' other hs => h' _ hret' other (h s (.inl hret) other hs)
  · exact h s

theorem Keeps.rounds {round : List CopyItem → Op} (h : ∀ items, Keeps H (round items)) (n : Nat) :
    Keeps H (rounds swapSize round n items) := by
  induction n generalizing items with
  | zero => exact fun _ _ _ => id
  | succ n ih =>
    cases items with
    | nil => exact fun _ _ _ => id
    | cons item items =>
      simp only [Transfers.rounds]
      split
      · exact fun _ _ _ => id
      · exact (h _).andThen (ih _)

theorem Keeps.inSwap {f : Nat → Op} (h : ∀ tmpHost, Keeps H (f tmpHost)) :
    Keeps H (inSwap env f) := by
  intro s
  simp only [Transfers.inSwap]
  split
  · exact fun _ _ => id
  · exact h _ _

/-! ### The operator on the device -/

theorem keeps_localAsync : Keeps True (batchDataCopyLocalAsync env items) :=
  fun s _ other h => waited_synchronize env .stream other _ fun hne =>
    waited_untilFails env .stream other items s hne h

theorem keeps_localSync : Keeps True (batchDataCopyLocalSync env items) :=
  fun s _ other h =>
    untilFails_induction (P := (pending · other = [])) items s (fun _ _ h => h) h

theorem keeps_localBatch : Keeps True (batchDataCopyLocalBatch env items) := by
  intro s
  simp only [batchDataCopyLocalBatch]
  split
  · exact fun _ _ => id
  · exact keeps_localAsync env items _

theorem keeps_local : Keeps True (batchDataCopyLocal env direction items) := by
  unfold batchDataCopyLocal
  split
  iterate 3 exact keeps_localSync env items
  iterate 2 exact keeps_localBatch env items
  iterate 2 exact fun _ _ _ => id
  exact keeps_localAsync env items

theorem keeps_swapCopy (host : Bool) : Keeps True (swapCopy env items host) := by
  unfold swapCopy
  split
  · exact keeps_localSync env items
  · exact keeps_localBatch env items

theorem keeps_merged (tmpHost : Nat) : Keeps True (batchMerged env direction tmpHost items) := by
  unfold batchMerged
  split
  · exact (keeps_swapCopy env items _).andThen (keeps_postAndWait env _)
  · exact (keeps_postAndWait env _).andThen fun s _ => keeps_swapCopy env items _ s (.inr trivial)

theorem keeps_default : Keeps True (batchDataCopyDefault env op direction items) :=
  Keeps.inSwap env fun tmpHost =>
    Keeps.rounds _ items (fun items => keeps_merged env direction items tmpHost) _

/-! ### What is submitted -/

theorem submit_fst (item : CopyItem) :
    (submit env engine item s).1 = env (.submit engine) s.calls ∧
      (submit env engine item s).2.calls = s.calls + 1 := by
  refine ⟨rfl, ?_⟩
  change (ite _ _ _ : Transfers).calls = _
  split <;> rfl

theorem untilFails_submit_iff :
    (untilFails (submit env engine) items s).1 = bmOk ↔
      ∀ i < items.length, env (.submit engine) (s.calls + i) = bmOk := by
  induction items generalizing s with
  | nil => simp [untilFails]
  | cons item items ih =>
    obtain ⟨hret, hcalls⟩ := submit_fst env engine s item
    rw [untilFails, andThen, hret]
    split
    · next hfirst =>
      rw [ih, hcalls]
      constructor
      · intro h i hi
        cases i with
        | zero => exact hfirst
        | succ i =>
          rw [← Nat.add_assoc, Nat.add_right_comm]
          exact h i (Nat.lt_of_succ_lt_succ hi)
      · intro h i hi
        rw [Nat.add_right_comm, Nat.add_assoc]
        exact h (i + 1) (Nat.succ_lt_succ hi)
    · next hfirst =>
      rw [hret]
      exact iff_of_false hfirst fun h => hfirst (h 0 (Nat.succ_pos _))

/-- Something is under way as soon as the first call has succeeded. -/
theorem pending_untilFails_iff (h : s.pending engine = []) :
    (untilFails (submit env engine) items s).2.pending engine = [] ↔
      items = [] ∨ env (.submit engine) s.calls ≠ bmOk := by
  cases items with
  | nil => exact iff_of_true h (.inl rfl)
  | cons item items =>
    obtain ⟨hret, -⟩ := submit_fst env engine s item
    simp only [reduceCtorEq, false_or]
    rw [untilFails, andThen, hret]
    split
    · next hfirst =>
      refine iff_of_false ?_ (not_not.mpr hfirst)
      refine untilFails_induction (P := (pending · engine ≠ [])) items _ (fun item s hs => ?_) ?_
      · simp only [submit]
        split
        · simp
        · exact hs
      · change (ite _ _ _ : Transfers).pending engine ≠ []
        rw [if_pos hfirst]
        simp
    · next hfirst =>
      refine iff_of_true ?_ hfirst
      change (ite _ _ _ : Transfers).pending engine = []
      rw [if_neg hfirst]
      exact h

theorem pending_swapCopy (host : Bool) :
    (swapCopy env items host s).2.pending .remote = s.pending .remote := by
  have hasync : ∀ s, (batchDataCopyLocalAsync env items s).2.pending .remote = s.pending .remote :=
    fun s => (update_of_ne (by decide : Engine.remote ≠ .stream) [] _).trans
      (untilFails_induction (P := (pending · .remote = s.pending .remote)) items s
        (fun item s' hs => (pending_submit env .stream .remote s' (by decide) item).trans hs) rfl)
  unfold swapCopy
  split
  · exact untilFails_induction (P := (pending · .remote = s.pending .remote)) items s
      (fun _ _ h => h) rfl
  · simp only [batchDataCopyLocalBatch]
    split
    · rfl
    · exact hasync _

/-! ### Registered memory and other memory -/

/-- The way through the swap memory ends before the first `Synchronize`: there is no swap memory,
the first item is too large for it, or what is to be written cannot be copied into it. -/
def StopsEarly : Prop :=
  env .allocate s.calls = 0 ∨ (swapRound op.rdmaSwapSpaceSize 0 items).1 = 0 ∨
    isWrite direction = true ∧
      (swapCopy env (swapRound op.rdmaSwapSpaceSize 0 items).2.1 (srcIsHost direction)
        { s with calls := s.calls + 1 }).1 ≠ bmOk

theorem waited_postAndWait : (postAndWait env items s).2.pending .remote = [] :=
  waited_synchronize env .remote .remote _ fun hne => absurd rfl hne

theorem waited_batchMerged (tmpHost : Nat)
    (h : isWrite direction = true → (swapCopy env items (srcIsHost direction) s).1 = bmOk) :
    (batchMerged env direction tmpHost items s).2.pending .remote = [] := by
  unfold batchMerged
  split
  · next hwrite =>
    rw [batchMergedWrite, andThen, if_pos (h hwrite)]
    exact waited_postAndWait env _ _
  · rw [batchMergedRead, andThen]
    split
    · exact (pending_swapCopy env _ _ _).trans (waited_postAndWait env _ _)
    · exact waited_postAndWait env _ _

/-- Transfers that are under way before are waited for with those through the swap memory, if it
comes to these. -/
theorem pending_batchDataCopyDefault_iff (hne : items ≠ []) (h : s.pending .remote ≠ []) :
    ((batchDataCopyDefault env op direction items s).2.pending .remote = [] ↔
      ¬ StopsEarly env op direction items s) ∧
    (StopsEarly env op direction items s →
      (batchDataCopyDefault env op direction items s).1 ≠ bmOk) := by
  obtain ⟨item, rest, rfl⟩ := List.exists_cons_of_ne_nil hne
  simp only [batchDataCopyDefault, inSwap, ask, List.length_cons, rounds]
  split
  · next hnull =>
    exact ⟨iff_of_false h (not_not.mpr (.inl hnull)), fun _ => (by decide : bmMallocFailed ≠ bmOk)⟩
  next hnull =>
  split
  · next hlarge =>
    exact ⟨iff_of_false h (not_not.mpr (.inr (.inl hlarge))),
      fun _ => (by decide : bmInvalidParam ≠ bmOk)⟩
  next hlarge =>
  rw [andThen]
  by_cases hstops : StopsEarly env op direction (item :: rest) s
  · -- the first round is a write whose copy fails
    obtain ⟨hwrite, hcopy⟩ := (hstops.resolve_left hnull).resolve_left hlarge
    rw [batchMerged, if_pos hwrite, batchMergedWrite, andThen, if_neg hcopy, if_neg hcopy]
    refine ⟨iff_of_false ?_ (not_not.mpr hstops), fun _ => hcopy⟩
    rw [pending_swapCopy]
    exact h
  · have hfirst := waited_batchMerged env direction _ { s with calls := s.calls + 1 }
      (env .allocate s.calls).toNat fun hwrite => not_not.mp fun hcopy =>
        hstops (.inr (.inr ⟨hwrite, hcopy⟩))
    refine ⟨iff_of_true ?_ hstops, fun h => absurd h hstops⟩
    split
    · exact Keeps.rounds _ _ (fun items => keeps_merged env direction items _) _ _ (.inr trivial)
        .remote hfirst
    · exact hfirst

/-- All registered items have been posted, and then the others stop early. -/
def LeavesPosted (rank : Nat) : Prop :=
  let registered := items.filter op.registered
  let notRegistered := items.filter (!op.registered ·)
  rank ≠ op.rankId ∧ registered ≠ [] ∧ notRegistered ≠ [] ∧
    (∀ i < registered.length, env (.submit .remote) i = bmOk) ∧
    StopsEarly env op direction notRegistered (untilFails (submit env .remote) registered {}).2

theorem waited_batchCopy_iff (rank : Nat) :
    (batchCopy env op direction items rank {}).2.pending engine = [] ↔
      (engine = .remote → ¬ LeavesPosted env op direction items rank) := by
  have start : ({} : Transfers).pending engine = [] := rfl
  unfold batchCopy LeavesPosted
  dsimp only
  generalize items.filter op.registered = registered
  generalize items.filter (!op.registered ·) = others
  have hposts := untilFails_submit_iff env .remote registered {}
  simp only [Nat.zero_add] at hposts
  have hstream (hne : engine ≠ .remote) :=
    waited_untilFails env .remote engine registered {} hne start
  by_cases hrank : rank = op.rankId
  · refine iff_of_true ?_ fun _ h => h.1 hrank
    rw [if_pos hrank]
    split
    · exact start
    · exact keeps_local env direction items {} (.inr trivial) engine start
  rw [if_neg hrank]
  by_cases hposted : (untilFails (submit env .remote) registered {}).1 = bmOk
  · rw [if_neg (not_not.mpr hposted)]
    have hmoved := keeps_default env op direction others
      (untilFails (submit env .remote) registered {}).2 (.inr trivial) engine
    by_cases hnone : registered = []
    · refine iff_of_true ?_ fun _ h => h.2.1 hnone
      rw [if_neg fun h => h.2 hnone]
      rw [hnone] at hmoved ⊢
      split
      · exact start
      · exact hmoved start
    by_cases hall : others = []
    · refine iff_of_true ?_ fun _ h => h.2.2.1 hall
      rw [if_pos hall, if_pos ⟨hposted, hnone⟩]
      exact waited_synchronize env _ _ _ hstream
    rw [if_neg hall]
    have hpending : (untilFails (submit env .remote) registered {}).2.pending .remote ≠ [] := by
      intro hempty
      rcases (pending_untilFails_iff env .remote registered {} rfl).mp hempty with h | h
      · exact hnone h
      · exact h (hposts.mp hposted 0 (List.length_pos_iff.mpr hnone))
    obtain ⟨hiff, hfails⟩ :=
      pending_batchDataCopyDefault_iff env op direction others _ hall hpending
    by_cases hret : (batchDataCopyDefault env op direction others
        (untilFails (submit env .remote) registered {}).2).1 = bmOk
    · refine iff_of_true ?_ fun _ h => hfails h.2.2.2.2 hret
      rw [if_pos ⟨hret, hnone⟩]
      exact waited_synchronize env _ _ _ fun hne => hmoved (hstream hne)
    · rw [if_neg fun h => hret h.1]
      cases engine with
      | remote =>
        rw [hiff, imp_iff_right rfl]
        exact not_congr ⟨fun h => ⟨hrank, hnone, hall, hposts.mp hposted, h⟩, fun h => h.2.2.2.2⟩
      | stream => exact iff_of_true (hmoved (hstream (by decide))) fun h => nomatch h
  · refine iff_of_true ?_ fun _ h => hposted (hposts.mpr h.2.2.2.1)
    rw [if_pos hposted]
    split
    · cases engine with
      | remote => assumption
      | stream => exact hstream (by decide)
    · exact waited_synchronize env _ _ _ hstream

/-! ### The operator on the host -/

/-- A copy over the stream has been submitted, and a later one cannot be. -/
def LeavesCopies : Prop :=
  env (.submit .stream) s.calls = bmOk ∧
    ∃ i < items.length, env (.submit .stream) (s.calls + i) ≠ bmOk

theorem waited_LD2LH_iff (h : s.pending engine = []) :
    (batchCopyLD2LH env items s).2.pending engine = [] ↔
      (engine = .stream → ¬ LeavesCopies env items s) := by
  have hcopied := untilFails_submit_iff env .stream items s
  unfold batchCopyLD2LH
  dsimp only
  split
  · next hret =>
    refine iff_of_true (keeps_localAsync env items s (.inr trivial) engine h) fun _ hleaves => ?_
    obtain ⟨-, i, hi, hfails⟩ := hleaves
    exact hfails (hcopied.mp hret i hi)
  · next hret =>
    rw [hcopied] at hret
    push Not at hret
    cases engine with
    | remote =>
      exact iff_of_true (waited_untilFails env .stream .remote items s (by decide) h)
        fun h => nomatch h
    | stream =>
      rw [pending_untilFails_iff env .stream items s h, imp_iff_right rfl]
      obtain ⟨i, hi, hfails⟩ := hret
      constructor
      · rintro (rfl | hfirst) ⟨hok, -⟩
        · exact absurd hi (Nat.not_lt_zero i)
        · exact hfirst hok
      · exact fun h => .inr fun hok => h ⟨hok, i, hi, hfails⟩

theorem keeps_LD2LH : Keeps False (batchCopyLD2LH env items) := by
  intro s h other hs
  refine (waited_LD2LH_iff env other items s hs).mpr fun _ hleaves => ?_
  obtain ⟨-, i, hi, hfails⟩ := hleaves
  have hret : (untilFails (submit env .stream) items s).1 = bmOk := by
    have hok := h.resolve_right id
    unfold batchCopyLD2LH at hok
    dsimp only at hok
    split at hok
    · assumption
    · exact absurd hok (by decide : bmDlFunctionFailed ≠ bmOk)
  exact hfails ((untilFails_submit_iff env .stream items s).mp hret i hi)

/-- In a round that is reached, swap memory is granted and copies are left on the stream. -/
def RoundLeaves (round : List CopyItem → Op) (leaves : List CopyItem → Transfers → Prop) :
    Nat → List CopyItem → Transfers → Prop
  | 0, _, _ | _ + 1, [], _ => False
  | n + 1, items, s =>
    let (total, fitting, others) := swapRound swapSize 0 items
    total ≠ 0 ∧
      (leaves fitting s ∨
        (round fitting s).1 = bmOk ∧ RoundLeaves round leaves n others (round fitting s).2)

/-- Induction on the rounds: a round that succeeds leaves nothing, so that what is left comes from
the last round that is reached. -/
theorem waited_rounds_iff {round : List CopyItem → Op} {leaves : List CopyItem → Transfers → Prop}
    (hkeeps : ∀ items, Keeps False (round items))
    (hround : ∀ items s, s.pending engine = [] →
      ((round items s).2.pending engine = [] ↔ (engine = .stream → ¬ leaves items s)))
    (n : Nat) (h : s.pending engine = []) :
    (rounds swapSize round n items s).2.pending engine = [] ↔
      (engine = .stream → ¬ RoundLeaves swapSize round leaves n items s) := by
  induction n generalizing items s with
  | zero => exact iff_of_true h fun _ => id
  | succ n ih =>
    cases items with
    | nil => exact iff_of_true h fun _ => id
    | cons item items =>
      simp only [rounds, RoundLeaves]
      split
      · next hlarge => exact iff_of_true h fun _ hleaves => hleaves.1 hlarge
      next hlarge =>
      rw [andThen]
      split
      · next hret =>
        have hdone := hkeeps _ s (.inl hret) engine h
        rw [ih _ _ hdone]
        have hnot := (hround _ s h).mp hdone
        refine imp_congr_right fun hengine => not_congr ?_
        exact ⟨fun hrest => ⟨hlarge, .inr ⟨hret, hrest⟩⟩,
          fun hleaves => (hleaves.2.resolve_left (hnot hengine)).2⟩
      · next hret =>
        rw [hround _ s h]
        refine imp_congr_right fun _ => not_congr ?_
        exact ⟨fun hleaves => ⟨hlarge, .inl hleaves⟩,
          fun hleaves => hleaves.2.resolve_right fun hrest => hret hrest.1⟩

/-- A round of a write copies into the swap memory that it has been granted. -/
def WriteLeaves (items : List CopyItem) (s : Transfers) : Prop :=
  env .allocate s.calls ≠ 0 ∧ LeavesCopies env items { s with calls := s.calls + 1 }

/-- A round of a read copies out of it, once the transfers have succeeded. -/
def ReadLeaves (items : List CopyItem) (s : Transfers) : Prop :=
  env .allocate s.calls ≠ 0 ∧
    let received := postAndWait env (swapItems (env .allocate s.calls).toNat items)
      { s with calls := s.calls + 1 }
    received.1 = bmOk ∧ LeavesCopies env items received.2

theorem waited_inSwap_iff {f : Nat → Op} {leaves : Prop} (h : s.pending engine = [])
    (hf : (f (env .allocate s.calls).toNat { s with calls := s.calls + 1 }).2.pending engine = [] ↔
      (engine = .stream → ¬ leaves)) :
    (inSwap env f s).2.pending engine = [] ↔
      (engine = .stream → ¬ (env .allocate s.calls ≠ 0 ∧ leaves)) := by
  have heq : inSwap env f s = if env .allocate s.calls = 0
      then (bmMallocFailed, { s with calls := s.calls + 1 })
      else f (env .allocate s.calls).toNat { s with calls := s.calls + 1 } := rfl
  rw [heq]
  by_cases hnull : env .allocate s.calls = 0
  · rw [if_pos hnull]
    exact iff_of_true h fun _ hleaves => hleaves.1 hnull
  · rw [if_neg hnull, hf]
    exact imp_congr_right fun _ => not_congr (and_iff_right hnull).symm

theorem waited_writeRound_iff (h : s.pending engine = []) :
    (writeRound env items s).2.pending engine = [] ↔
      (engine = .stream → ¬ WriteLeaves env items s) := by
  have hcopies := waited_LD2LH_iff env engine items { s with calls := s.calls + 1 } h
  refine waited_inSwap_iff env engine s h ?_
  rw [andThen]
  split
  · next hret =>
    have hdone := keeps_LD2LH env items _ (.inl hret) engine h
    exact iff_of_true (keeps_postAndWait env _ _ (.inr trivial) engine hdone) (hcopies.mp hdone)
  · exact hcopies

theorem waited_readRound_iff (h : s.pending engine = []) :
    (readRound env items s).2.pending engine = [] ↔
      (engine = .stream → ¬ ReadLeaves env items s) := by
  refine waited_inSwap_iff env engine s h ?_
  have hdone := keeps_postAndWait env (swapItems (env .allocate s.calls).toNat items)
    { s with calls := s.calls + 1 } (.inr trivial) engine h
  rw [andThen]
  split
  · next hret =>
    refine (waited_LD2LH_iff env engine items _ hdone).trans ?_
    exact imp_congr_right fun _ => not_congr (and_iff_right hret).symm
  · next hret => exact iff_of_true hdone fun _ hleaves => hret hleaves.1

/-- The operator on the device leaves transfers from registered memory under way if it comes to no
`Synchronize` after they have all been posted; the one on the host leaves copies on the stream if
one of them cannot be submitted after another one of the same round; and nothing else is left. -/
theorem batchCopies_waited (rank : Nat) :
    ((batchCopyWrite env op direction items rank {}).2.pending engine = [] ↔
      (engine = .remote → ¬ LeavesPosted env op direction items rank)) ∧
    ((batchCopyRead env op direction items rank {}).2.pending engine = [] ↔
      (engine = .remote → ¬ LeavesPosted env op direction items rank)) ∧
    ((batchWriteLD2RH env swapSize items {}).2.pending engine = [] ↔
      (engine = .stream → swapSize ≠ 0 →
        ¬ RoundLeaves swapSize (writeRound env) (WriteLeaves env) items.length items {})) ∧
    ((batchReadRH2LD env swapSize items {}).2.pending engine = [] ↔
      (engine = .stream → swapSize ≠ 0 →
        ¬ RoundLeaves swapSize (readRound env) (ReadLeaves env) items.length items {})) := by
  have start : ({} : Transfers).pending engine = [] := rfl
  have hwrite (items : List CopyItem) : Keeps False (writeRound env items) :=
    .inSwap env fun _ => (keeps_LD2LH env items).andThen (keeps_postAndWait env _)
  have hread (items : List CopyItem) : Keeps False (readRound env items) :=
    .inSwap env fun _ => (keeps_postAndWait env _).andThen (keeps_LD2LH env items)
  refine ⟨waited_batchCopy_iff env op direction engine items rank,
    waited_batchCopy_iff env op direction engine items rank, ?_, ?_⟩
  · unfold batchWriteLD2RH
    split
    · next hzero => exact iff_of_true start fun _ hne => absurd hzero hne
    · next hne =>
      rw [waited_rounds_iff engine swapSize items {} hwrite
        (fun items s => waited_writeRound_iff env engine items s) items.length start]
      exact imp_congr_right fun _ => (imp_iff_right hne).symm
  · unfold batchReadRH2LD
    split
    · next hzero => exact iff_of_true start fun _ hne => absurd hzero hne
    · next hne =>
      rw [waited_rounds_iff engine swapSize items {} hread
        (fun items s => waited_readRound_iff env engine items s) items.length start]
      exact imp_congr_right fun _ => (imp_iff_right hne).symm

end Waiting

/-- Memory at even addresses is registered. -/
def evenRegistered : DataOpDeviceRDMA := ⟨0, false, fun address _ => address % 2 == 0, 64⟩

/-- Swap memory is granted, and every third call fails if it submits to the stream. -/
def streamFails : DataCall → Nat → Int
  | .allocate, _ => 1
  | .submit .stream, n => if n % 3 = 2 then 1 else 0
  | _, _ => 0

theorem batchCopies_waited_two :
    (batchCopyWrite streamFails evenRegistered .localHostToGlobalHost [⟨2, 0, 8⟩, ⟨3, 8, 8⟩] 1
      {}).2.pending .remote = [] := by
  refine (batchCopies_waited _ evenRegistered .localHostToGlobalHost .remote 64 _ 1).1.mpr
    fun _ hleaves => ?_
  obtain ⟨-, -, -, -, hstops⟩ := hleaves
  unfold StopsEarly at hstops
  revert hstops
  decide

/-- No swap memory is granted after a transfer has been posted; the second copy over the stream
cannot be submitted. -/
theorem batchCopies_not_waited :
    let items := [⟨2, 0, 8⟩, ⟨3, 8, 8⟩]
    let op := evenRegistered
    (batchCopyWrite (fun _ _ => 0) op .localHostToGlobalHost items 1 {}).2.pending .remote ≠ [] ∧
    (batchCopyRead (fun _ _ => 0) op .globalHostToLocalHost items 1 {}).2.pending .remote ≠ [] ∧
    (batchWriteLD2RH streamFails 64 items {}).2.pending .stream ≠ [] ∧
    (batchReadRH2LD streamFails 64 items {}).2.pending .stream ≠ [] := by
  decide

end Transfers

end MemFabric.Hybm
