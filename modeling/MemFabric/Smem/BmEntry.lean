import MemFabric.Smem.Collective.Engine

/-!
# Setting up and extending a pool

`smem_bm_entry.cpp`.  What `hybm` has handed out and not got back is part of the state, and what
its calls return is chosen by the environment.
-/

namespace MemFabric.Smem

open Smem.Group Smem.Collective

def smNotInitialized : Int := -2008

inductive SmemBmMemType
  | localDevice
  | localHost
  | device
  | host
  | butt
deriving DecidableEq

/-- What the calls return; an address of zero is a null pointer, and `groupUpdate` has one result
for each attempt. -/
structure Calls where
  createGlobalTeam : Int := smOk
  start : Bool := true
  createEntity : Nat := 1
  reserveMemSpace : Int := smOk
  allocLocalMemory : SmemBmMemType → Nat
  exportSlice : Nat → Int := fun _ => smOk
  exportEntity : Int := smOk
  groupUpdate : List Int := []

namespace Calls

variable (calls : Calls)

/-- The call fails before anything of `hybm` is kept. -/
def RefusesPool : Prop :=
  calls.createGlobalTeam ≠ smOk ∨ calls.start = false ∨ calls.createEntity = 0 ∨
    calls.reserveMemSpace ≠ smOk

def RefusesSlice (memType : SmemBmMemType) : Prop :=
  calls.allocLocalMemory memType = 0 ∨ calls.exportSlice (calls.allocLocalMemory memType) ≠ smOk

/-- Some step of `Initialize` fails. -/
def SetUpFails (maxHBMSize maxDRAMSize : Nat) : Prop :=
  calls.RefusesPool ∨ 0 < maxHBMSize ∧ calls.RefusesSlice .device ∨
    0 < maxDRAMSize ∧ calls.RefusesSlice .host ∨ calls.exportEntity ≠ smOk

end Calls

structure SmemBmEntry where
  inited : Bool := false
  entity : Nat := 0
  slices : List Nat := []
  sliceInfos : List Nat := []
  registedSlice : List Nat := []
  /-- The entities, reservations and slices that `hybm` has handed out. -/
  entities : List Nat := []
  reserved : List Nat := []
  allocated : List Nat := []
deriving DecidableEq

namespace SmemBmEntry

variable (calls : Calls) (s : SmemBmEntry)

def unInitalize : SmemBmEntry :=
  if s.inited = false ∨ s.entity = 0 then s
  else
    { inited := false
      entities := s.entities.erase s.entity
      reserved := s.reserved.erase s.entity
      allocated := s.allocated.diff (s.slices ++ s.registedSlice) }

/-- A local slice of a kind that is asked for. -/
def addSlice (memType : SmemBmMemType) (wanted : Bool) (r : Int × SmemBmEntry) :
    Int × SmemBmEntry :=
  let slice := calls.allocLocalMemory memType
  let s := r.2
  if r.1 ≠ smOk ∨ wanted = false then r
  else if slice = 0 then (smError, s)
  else
    let s := { s with slices := s.slices ++ [slice], allocated := slice :: s.allocated }
    if calls.exportSlice slice ≠ smOk then (calls.exportSlice slice, s)
    else (smOk, { s with sliceInfos := s.sliceInfos ++ [slice] })

def setUp (maxHBMSize maxDRAMSize : Nat) : Int × SmemBmEntry :=
  if calls.createEntity = 0 then (smError, s)
  else
    let s := { s with entities := calls.createEntity :: s.entities }
    if calls.reserveMemSpace ≠ smOk then
      (smError, { s with entities := s.entities.erase calls.createEntity })
    else
      let r := (smOk, { s with
        entity := calls.createEntity, reserved := calls.createEntity :: s.reserved })
        |> addSlice calls .device (0 < maxHBMSize) |> addSlice calls .host (0 < maxDRAMSize)
      if r.1 ≠ smOk then r else (calls.exportEntity, r.2)

/-- `Initialize`. -/
def setUpPool (maxHBMSize maxDRAMSize : Nat) : Int × SmemBmEntry :=
  if s.inited then (smOk, s)
  else if calls.createGlobalTeam ≠ smOk then (calls.createGlobalTeam, s)
  else if calls.start = false then (smError, s)
  else
    let r := s.setUp calls maxHBMSize maxDRAMSize
    if r.1 ≠ smOk then (r.1, r.2.unInitalize) else (smOk, { r.2 with inited := true })

def extendLocalMem (memType : SmemBmMemType) (size : Nat) : Int × SmemBmEntry :=
  let slice := calls.allocLocalMemory memType
  if s.inited = false then (smNotInitialized, s)
  else if memType ≠ .device ∧ memType ≠ .host then (smInvalidParam, s)
  else if size = 0 then (smInvalidParam, s)
  else if slice = 0 then (smError, s)
  else
    let s := { s with allocated := slice :: s.allocated }
    if calls.exportSlice slice ≠ smOk then
      (calls.exportSlice slice, { s with allocated := s.allocated.erase slice })
    else
      let s := { s with slices := s.slices ++ [slice], sliceInfos := s.sliceInfos ++ [slice] }
      match calls.groupUpdate.find? (· ≠ smInnerBusy) with
      | some ret => (ret, s)
      | none =>
        (smError, { s with
          slices := s.slices.dropLast
          sliceInfos := s.sliceInfos.dropLast
          allocated := s.allocated.erase slice })

variable {calls s}

/-! ## Setting up -/

theorem error_ne : smError ≠ smOk := by decide

section

variable {memType : SmemBmMemType} {wanted : Bool} {r : Int × SmemBmEntry}
  {maxHBMSize maxDRAMSize size : Nat}

theorem addSlice_keeps : (addSlice calls memType wanted r).2.entities = r.2.entities ∧
    (addSlice calls memType wanted r).2.inited = r.2.inited := by
  unfold addSlice
  dsimp only
  split_ifs <;> exact ⟨rfl, rfl⟩

/-- A failure goes through, and a slice that is refused is one. -/
theorem addSlice_fails (h : r.1 ≠ smOk ∨ wanted = true ∧ calls.RefusesSlice memType) :
    (addSlice calls memType wanted r).1 ≠ smOk := by
  unfold addSlice
  dsimp only
  split_ifs with hskip hnull hexport
  · rcases h with h | ⟨hwanted, -⟩
    · exact h
    · exact hskip.resolve_right (by simp [hwanted])
  · exact error_ne
  · exact hexport
  · rcases h with h | ⟨-, h⟩
    · exact absurd (.inl h) hskip
    · exact absurd (h.resolve_left hnull) hexport

theorem setUp_of_not_refused (hentity : calls.createEntity ≠ 0)
    (hreserve : calls.reserveMemSpace = smOk) :
    (s.setUp calls maxHBMSize maxDRAMSize).2.entities = calls.createEntity :: s.entities ∧
      (s.setUp calls maxHBMSize maxDRAMSize).2.inited = s.inited ∧
      (0 < maxHBMSize ∧ calls.RefusesSlice .device ∨ 0 < maxDRAMSize ∧ calls.RefusesSlice .host ∨
        calls.exportEntity ≠ smOk → (s.setUp calls maxHBMSize maxDRAMSize).1 ≠ smOk) := by
  unfold setUp
  dsimp only
  rw [if_neg hentity, if_neg (not_not.mpr hreserve)]
  refine ⟨?_, ?_, fun hfails => ?_⟩
  · split_ifs <;> simp only [addSlice_keeps]
  · split_ifs <;> simp only [addSlice_keeps]
  · split_ifs with hslices
    · exact hslices
    · rcases hfails with ⟨hwanted, h⟩ | ⟨hwanted, h⟩ | h
      · exact absurd (addSlice_fails (.inl (addSlice_fails (.inr ⟨by simpa using hwanted, h⟩))))
          hslices
      · exact absurd (addSlice_fails (.inr ⟨by simpa using hwanted, h⟩)) hslices
      · exact h

/-- `Initialize` is undone by the failures up to the reservation.  After any other one the
entity is left, as `UnInitalize` does nothing yet. -/
theorem setUpPool_undone_iff (hinited : s.inited = false)
    (hfails : calls.SetUpFails maxHBMSize maxDRAMSize) :
    (s.setUpPool calls maxHBMSize maxDRAMSize).1 ≠ smOk ∧
      ((s.setUpPool calls maxHBMSize maxDRAMSize).2 = s ↔ calls.RefusesPool) := by
  have hkept : s.unInitalize = s := if_pos (.inl hinited)
  rw [setUpPool, if_neg (by simp [hinited])]
  split_ifs with hteam hstart
  · exact ⟨hteam, iff_of_true rfl (.inl hteam)⟩
  · exact ⟨error_ne, iff_of_true rfl (.inr (.inl hstart))⟩
  by_cases hentity : calls.createEntity = 0
  · simp [setUp, hentity, error_ne, hkept, Calls.RefusesPool]
  by_cases hreserve : calls.reserveMemSpace = smOk
  · have hpool : ¬ calls.RefusesPool := by
      rintro (h | h | h | h)
      · exact hteam h
      · exact hstart h
      · exact hentity h
      · exact h hreserve
    obtain ⟨hentities, hsame, hfailed⟩ :=
      @setUp_of_not_refused calls s maxHBMSize maxDRAMSize hentity hreserve
    have hret := hfailed (hfails.resolve_left hpool)
    dsimp only
    rw [if_pos hret]
    refine ⟨hret, iff_of_false (fun hundone => ?_) hpool⟩
    rw [unInitalize, if_pos (.inl (hsame.trans hinited))] at hundone
    rw [hundone] at hentities
    exact List.cons_ne_self _ _ hentities.symm
  · simp [setUp, hentity, hreserve, error_ne, hkept, Calls.RefusesPool]

/-! ## Extending -/

/-- The call comes to the update of the group. -/
def Updates (calls : Calls) (s : SmemBmEntry) (memType : SmemBmMemType) (size : Nat) : Prop :=
  s.inited = true ∧ (memType = .device ∨ memType = .host) ∧ size ≠ 0 ∧ ¬ calls.RefusesSlice memType

/-- An extension that fails is undone, unless the group refuses it with an error that is not
`SM_INNER_BUSY`. -/
theorem extendLocalMem_undone_iff
    (hfails : Updates calls s memType size →
      calls.groupUpdate.find? (· ≠ smInnerBusy) ≠ some smOk) :
    (s.extendLocalMem calls memType size).1 ≠ smOk ∧
      ((s.extendLocalMem calls memType size).2 = s ↔
        (Updates calls s memType size → calls.groupUpdate.find? (· ≠ smInnerBusy) = none)) := by
  by_cases hupdates : Updates calls s memType size
  · have hreached := hupdates
    obtain ⟨hinited, htype, hsize, hslice⟩ := hreached
    rw [Calls.RefusesSlice, not_or, not_not] at hslice
    rw [extendLocalMem, if_neg (by simp [hinited]), if_neg fun h => htype.elim h.1 h.2,
      if_neg hsize, if_neg hslice.1]
    dsimp only
    rw [if_neg (not_not.mpr hslice.2), imp_iff_right hupdates]
    cases hfind : calls.groupUpdate.find? (· ≠ smInnerBusy) with
    | some ret =>
      refine ⟨fun hok => hfails hupdates (hfind.trans (congrArg some hok)), ?_⟩
      refine iff_of_false (fun hundone => ?_) (Option.some_ne_none ret)
      have hslices := congrArg SmemBmEntry.slices hundone
      simp at hslices
    | none =>
      refine ⟨error_ne, iff_of_true ?_ rfl⟩
      simp
  · refine (and_congr_right' (iff_true_right fun h => absurd h hupdates)).mpr ?_
    unfold extendLocalMem
    dsimp only
    split_ifs with hinited htype hsize hslice hexport
    · exact ⟨(by decide : smNotInitialized ≠ smOk), rfl⟩
    · exact ⟨(by decide : smInvalidParam ≠ smOk), rfl⟩
    · exact ⟨(by decide : smInvalidParam ≠ smOk), rfl⟩
    · exact ⟨error_ne, rfl⟩
    · exact ⟨hexport, by simp⟩
    · refine absurd ⟨by simpa using hinited, ?_, hsize, ?_⟩ hupdates
      · by_contra h
        exact htype (not_or.mp h)
      · rintro (h | h)
        · exact hslice h
        · exact hexport h

end

/-- Whichever step of the two calls fails, the call returns an error.  `Initialize` leaves nothing
behind if it fails up to the reservation, an extension unless the group refuses it for good, and
both of them only then. -/
theorem failed_pool_calls_undone (calls : Calls) (s : SmemBmEntry) (maxHBMSize maxDRAMSize : Nat)
    (memType : SmemBmMemType) (size : Nat) :
    (s.inited = false → calls.SetUpFails maxHBMSize maxDRAMSize →
      (s.setUpPool calls maxHBMSize maxDRAMSize).1 ≠ smOk ∧
        ((s.setUpPool calls maxHBMSize maxDRAMSize).2 = s ↔ calls.RefusesPool)) ∧
    ((Updates calls s memType size → calls.groupUpdate.find? (· ≠ smInnerBusy) ≠ some smOk) →
      (s.extendLocalMem calls memType size).1 ≠ smOk ∧
        ((s.extendLocalMem calls memType size).2 = s ↔
          (Updates calls s memType size →
            calls.groupUpdate.find? (· ≠ smInnerBusy) = none))) :=
  ⟨setUpPool_undone_iff, extendLocalMem_undone_iff⟩

theorem failed_pool_calls_undone_busy :
    let s : SmemBmEntry := { inited := true, entity := 1, slices := [5], sliceInfos := [5] }
    (s.extendLocalMem { allocLocalMemory := fun _ => 7, groupUpdate := [smInnerBusy] } .host
      8).2 = s :=
  ((failed_pool_calls_undone _ _ 0 0 _ _).2 (by simp)).2.mpr (by simp)

/-- The entity and its reservation are left when there is no device memory, and a slice is left in
the lists when the group refuses it. -/
theorem failed_pool_calls_left :
    ({} : SmemBmEntry).setUpPool { allocLocalMemory := fun _ => 0 } 1 0 =
      (smError, { entity := 1, entities := [1], reserved := [1] }) ∧
    ({ inited := true, entity := 1 } : SmemBmEntry).extendLocalMem
        { allocLocalMemory := fun _ => 7, groupUpdate := [smError] } .host 8 =
      (smError,
        { inited := true, entity := 1, slices := [7], sliceInfos := [7], allocated := [7] }) := by
  decide

end SmemBmEntry

end MemFabric.Smem
