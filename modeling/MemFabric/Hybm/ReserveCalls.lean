import MemFabric.Hybm.Reservations

/-!
# Calls that reserve and free

What each call does to the maps and to the list of live reservations, and what holds after
any calls.
-/

namespace MemFabric.Hybm

open Machine Reservation ReservedVas

namespace Reserved

variable {s : ReservedVas} {live : List Reservation} {r : Reservation} {size localSize addr : Nat}
  {enable56BitsGva : Bool}

/-- A request that cannot be served changes nothing; otherwise there is a new reservation. -/
theorem allocReserveGva_cases (h : Reserved s live) (localRankId : Nat) (memType : HybmMemType)
    (isTrans : Bool) (hsizes : enable56BitsGva = false → size = localSize) :
    ¬ Possible s.soc live size localSize enable56BitsGva isTrans ∧
        s.allocReserveGva localRankId size localSize memType enable56BitsGva isTrans = ({}, s) ∨
      Possible s.soc live size localSize enable56BitsGva isTrans ∧
        ∃ info, Placed s.soc live ⟨info, size, localSize, enable56BitsGva, isTrans⟩ ∧
          s.allocReserveGva localRankId size localSize memType enable56BitsGva isTrans =
            (info, enter s ⟨info, size, localSize, enable56BitsGva, isTrans⟩) := by
  unfold allocReserveGva
  by_cases hsize : size = 0
  · rw [if_pos hsize]
    refine .inl ⟨fun hpossible => ?_, rfl⟩
    have hpos := hpossible.pos
    omega
  rw [if_neg hsize, if_neg fun hinvalid => hsize ((hsizes hinvalid.2).trans hinvalid.1)]
  generalize hlva : (if localSize > 0 then s.allocReserveLvaInner localSize hvmDva else 0) = lva
  by_cases hfails : localSize > 0 ∧ lva = 0
  · rw [if_pos hfails]
    rw [if_pos hfails.1] at hlva
    rcases h.allocReserveLvaInner_cases hfails.1 with ⟨-, hne⟩ | ⟨hnone, -⟩
    · exact absurd (hlva.trans hfails.2) hne
    · refine .inl ⟨fun hpossible => ?_, rfl⟩
      obtain ⟨p, hp⟩ := hpossible.locals hfails.1
      exact hnone p hp
  rw [if_neg hfails]
  have hlocals : 0 < localSize →
      LowestGap (gvmWindow s.soc) (live.map localRange) localSize lva := by
    intro hpos
    rw [if_pos hpos] at hlva
    rcases h.allocReserveLvaInner_cases hpos with ⟨hlowest, -⟩ | ⟨-, hzero⟩
    · exact hlva ▸ hlowest
    · exact absurd ⟨hpos, hlva.symm.trans hzero⟩ hfails
  have hlva_zero : localSize = 0 → lva = 0 := by
    rintro rfl
    exact hlva.symm
  have hpos : 0 < size := Nat.pos_of_ne_zero hsize
  cases henable : enable56BitsGva with
  | true =>
    rcases h.findGva_cases size isTrans lva with ⟨gva, hgva, hlowest⟩ | ⟨hgva, hnone⟩
    · rw [hgva]
      refine .inr ⟨⟨hpos, fun hlocal => ⟨lva, (hlocals hlocal).1⟩,
        fun _ => ⟨gva, hlowest.1⟩⟩,
        pairInfo gva lva size memType localRankId, ?_, ?_⟩
      · exact ⟨fun _ => rfl, fun hzero => absurd hzero hsize, hlocals, hlva_zero,
          fun _ _ => hlowest, fun hfalse => by cases hfalse⟩
      · rw [enter, if_pos hpos]
        rfl
    · rw [hgva]
      refine .inl ⟨fun hpossible => ?_, rfl⟩
      obtain ⟨p, hp⟩ := hpossible.globals rfl
      exact hnone p hp
  | false =>
    refine .inr ⟨⟨hpos, fun hlocal => ⟨lva, (hlocals hlocal).1⟩,
      fun hfalse => by cases hfalse⟩,
      pairInfo lva lva size memType localRankId, ?_, ?_⟩
    · exact ⟨fun _ => rfl, fun hzero => absurd hzero hsize, hlocals, hlva_zero,
        (fun hfalse => by cases hfalse), fun _ _ => ⟨rfl, hsizes henable⟩⟩
    · rw [enter, if_pos hpos]
      rfl

theorem allocReserveLva_cases (h : Reserved s live) (localRankId size : Nat)
    (memType : HybmMemType) :
    (∀ p, ¬ FreeGap (gvmWindow s.soc) (live.map localRange) size p) ∧
        s.allocReserveLva localRankId size hvmDva memType = ({}, s) ∨
      ∃ info, Placed s.soc live ⟨info, 0, size, false, false⟩ ∧
        s.allocReserveLva localRankId size hvmDva memType =
          (info, enter s ⟨info, 0, size, false, false⟩) := by
  unfold allocReserveLva
  by_cases hsize : size = 0
  · rw [if_pos hsize]
    refine .inl ⟨fun p hp => ?_, rfl⟩
    have hpos := hp.pos
    omega
  rw [if_neg hsize]
  have hpos : 0 < size := Nat.pos_of_ne_zero hsize
  rcases h.allocReserveLvaInner_cases hpos with ⟨hlowest, hne⟩ | ⟨hnone, hzero⟩
  · rw [if_neg hne]
    refine .inr ⟨⟨fun i => if i = hvmDva then s.allocReserveLvaInner size hvmDva else 0, size,
      memType, localRankId⟩, ?_, rfl⟩
    exact ⟨fun hlt => absurd hlt (lt_irrefl 0), fun _ => hpos, fun _ => hlowest,
      fun heq => absurd heq hsize, (fun hfalse => by cases hfalse),
      fun _ hlt => absurd hlt (lt_irrefl 0)⟩
  · rw [if_pos hzero]
    exact .inl ⟨hnone, rfl⟩

theorem erase_hosts (h : Represents s live) (addr : Nat) : s.erase hvmHva addr = s := by
  unfold erase
  congr
  funext i
  split
  · next heq =>
    rw [heq, h.hosts]
    refine Ordered.ext fun it => ?_
    exact iff_of_false (fun hit => Ordered.notMem_empty it (Ordered.mem_erase.mp hit).1)
      (Ordered.notMem_empty it)
  · rfl

section

variable (h : Reserved s live)

include h

theorem freeReserveGva_eq (hr : r ∈ live) (hpos : 0 < r.size) :
    s.freeReserveGva r.gva = leave s r := by
  have hfind : (s.reservedMap hvmGva).find r.gva = some r.globalEntry :=
    Ordered.find_eq_some.mpr ⟨(h.represents.globals _).mpr ⟨r, hr, hpos, rfl⟩, rfl⟩
  unfold freeReserveGva leave
  rw [if_neg ((h.proper r hr).global_bounds hpos).1, hfind, if_pos hpos]
  change (s.erase (if r.lva ≠ 0 then hvmDva else hvmHva)
    (r.info.va (if r.lva ≠ 0 then hvmDva else hvmHva))).erase hvmGva r.gva = _
  by_cases hlocal : 0 < r.localSize
  · rw [if_pos ((h.proper r hr).local_bounds hlocal).1, if_pos hlocal]
    rfl
  · rw [if_neg (not_not.mpr ((h.proper r hr).lva_eq_zero (by omega))), if_neg hlocal,
      erase_hosts h.represents]

theorem freeReserveGva_eq_self
    (hnone : ∀ r ∈ live, 0 < r.size → r.gva ≠ addr) : s.freeReserveGva addr = s := by
  have hfind : (s.reservedMap hvmGva).find addr = none := by
    refine Ordered.find_eq_none.mpr fun it hit => ?_
    obtain ⟨r, hr, hpos, rfl⟩ := (h.represents.globals it).mp hit
    exact hnone r hr hpos
  unfold freeReserveGva
  rw [hfind]
  exact ite_self s

theorem freeReserveLva_eq (hr : r ∈ live) (hzero : r.size = 0) :
    s.freeReserveLva r.lva hvmDva = leave s r := by
  have hlocal := (h.proper r hr).notEmpty hzero
  have hfind : (s.reservedMap hvmDva).find r.lva = some r.localEntry :=
    Ordered.find_eq_some.mpr ⟨(h.represents.locals _ hlocal).mpr ⟨r, hr, rfl⟩, rfl⟩
  unfold freeReserveLva leave
  rw [if_neg (by simp [((h.proper r hr).local_bounds hlocal).1]), hfind, if_pos hlocal,
    if_neg (by omega)]

theorem freeReserveLva_eq_self (hnone : ∀ r ∈ live, r.lva ≠ addr) :
    s.freeReserveLva addr hvmDva = s := by
  unfold freeReserveLva
  split
  · rfl
  · next hvalid =>
    have hfind : (s.reservedMap hvmDva).find addr = none := by
      refine Ordered.find_eq_none.mpr fun it hit hkey => ?_
      by_cases hpos : 0 < it.2.size
      · obtain ⟨r, hr, rfl⟩ := (h.represents.locals it hpos).mp hit
        exact hnone r hr hkey
      · have hempty := h.represents.empty it hit (by omega)
        exact hvalid (.inl (hkey.symm.trans hempty.1))
    rw [hfind]

end

end Reserved

/-! ## Runs -/

namespace ReservedVas

inductive Call
  | allocReserveGva (localRankId size localSize : Nat) (memType : HybmMemType)
      (enable56BitsGva isTrans : Bool)
  | allocReserveLva (localRankId size : Nat) (memType : HybmMemType)
  | freeReserveGva (addr : Nat)
  | freeReserveLva (addr : Nat)

/-- One call; the list has the reservations that have been made and not been freed. -/
def step (state : ReservedVas × List Reservation) :
    Call → (ReservedVas × List Reservation) × List ReservedGvaInfo
  | .allocReserveGva localRankId size localSize memType enable56BitsGva isTrans =>
    let out := state.1.allocReserveGva localRankId size localSize memType enable56BitsGva isTrans
    ((out.2, if out.1.va hvmGva ≠ 0
      then ⟨out.1, size, localSize, enable56BitsGva, isTrans⟩ :: state.2 else state.2), [out.1])
  | .allocReserveLva localRankId size memType =>
    let out := state.1.allocReserveLva localRankId size hvmDva memType
    ((out.2, if out.1.va hvmDva ≠ 0
      then ⟨out.1, 0, size, false, false⟩ :: state.2 else state.2), [out.1])
  | .freeReserveGva addr =>
    ((state.1.freeReserveGva addr,
      state.2.filter fun r => decide (¬ (0 < r.size ∧ r.gva = addr))), [])
  | .freeReserveLva addr =>
    ((state.1.freeReserveLva addr hvmDva,
      state.2.filter fun r => decide (¬ (r.size = 0 ∧ r.lva = addr))), [])

/-- Without addresses of 56 bits the two sizes are the same.  The device addresses of a
reservation with global addresses are not freed alone. -/
def Allowed (state : ReservedVas × List Reservation) : Call → Prop
  | .allocReserveGva _ size localSize _ enable56BitsGva _ =>
    enable56BitsGva = false → size = localSize
  | .freeReserveLva addr => ∀ r ∈ state.2, r.lva = addr → r.size = 0
  | _ => True

end ReservedVas

namespace Reserved

variable {s : ReservedVas} {live : List Reservation} {r : Reservation}

variable {P : Reservation → Prop} {r' : Reservation} {soc : AscendSocType}

theorem filter_eq_dropped [DecidablePred P] (hr : P r) (hunique : ∀ r' ∈ live, P r' → r' = r) :
    live.filter (fun r' => decide (¬ P r')) = dropped live r := by
  refine List.filter_congr fun r' hr' => decide_eq_decide.mpr (not_congr ?_)
  exact ⟨hunique r' hr', fun heq => heq ▸ hr⟩

theorem filter_eq_self [DecidablePred P] (hnone : ∀ r ∈ live, ¬ P r) :
    live.filter (fun r => decide (¬ P r)) = live :=
  List.filter_eq_self.mpr fun r hr => decide_eq_true (hnone r hr)

section

variable (h : Reserved s live)

include h

theorem eq_of_gva (hr : r ∈ live) (hr' : r' ∈ live) (hpos : 0 < r.size)
    (hpos' : 0 < r'.size) (heq : r'.gva = r.gva) : r' = r := by
  by_contra hne
  exact gva_ne (h.distinct.forall hr hr' (Ne.symm hne)) hpos hpos' heq

theorem eq_of_lva (hr : r ∈ live) (hr' : r' ∈ live) (hpos : 0 < r.localSize)
    (hpos' : 0 < r'.localSize) (heq : r'.lva = r.lva) : r' = r := by
  by_contra hne
  exact lva_ne (h.distinct.forall hr hr' (Ne.symm hne)) hpos hpos' heq

theorem of_allocReserveGva {localRankId size localSize : Nat}
    {memType : HybmMemType} {enable56BitsGva isTrans : Bool}
    (hsizes : enable56BitsGva = false → size = localSize)
    (hne : (s.allocReserveGva localRankId size localSize memType enable56BitsGva isTrans).1.va
      hvmGva ≠ 0) :
    0 < size ∧ ∃ info, Placed s.soc live ⟨info, size, localSize, enable56BitsGva, isTrans⟩ ∧
      s.allocReserveGva localRankId size localSize memType enable56BitsGva isTrans =
        (info, enter s ⟨info, size, localSize, enable56BitsGva, isTrans⟩) := by
  rcases h.allocReserveGva_cases localRankId memType isTrans hsizes with ⟨-, heq⟩ | ⟨hpossible, hex⟩
  · rw [heq] at hne
    exact absurd rfl hne
  · exact ⟨hpossible.pos, hex⟩

theorem step (call : Call) (hcall : Allowed (s, live) call) :
    Reserved (ReservedVas.step (s, live) call).1.1 (ReservedVas.step (s, live) call).1.2 := by
  cases call with
  | allocReserveGva localRankId size localSize memType enable56BitsGva isTrans =>
    unfold ReservedVas.step
    dsimp only
    rcases h.allocReserveGva_cases localRankId memType isTrans hcall with
      ⟨-, heq⟩ | ⟨hpossible, info, hplaced, heq⟩
    · rw [heq]
      exact h
    · have hne : info.va hvmGva ≠ 0 := (hplaced.proper.global_bounds hpossible.pos).1
      rw [heq]
      rw [if_pos hne]
      exact h.cons hplaced
  | allocReserveLva localRankId size memType =>
    unfold ReservedVas.step
    dsimp only
    rcases h.allocReserveLva_cases localRankId size memType with ⟨-, heq⟩ | ⟨info, hplaced, heq⟩
    · rw [heq]
      exact h
    · have hne : info.va hvmDva ≠ 0 := (hplaced.proper.local_bounds (hplaced.notEmpty rfl)).1
      rw [heq]
      rw [if_pos hne]
      exact h.cons hplaced
  | freeReserveGva addr =>
    unfold ReservedVas.step
    dsimp only
    by_cases hex : ∃ r ∈ live, 0 < r.size ∧ r.gva = addr
    · obtain ⟨r, hr, hpos, rfl⟩ := hex
      rw [h.freeReserveGva_eq hr hpos, filter_eq_dropped ⟨hpos, rfl⟩
        fun r' hr' hP => h.eq_of_gva hr hr' hpos hP.1 hP.2]
      exact h.drop hr
    · rw [h.freeReserveGva_eq_self fun r hr hpos heq => hex ⟨r, hr, hpos, heq⟩,
        filter_eq_self fun r hr hP => hex ⟨r, hr, hP⟩]
      exact h
  | freeReserveLva addr =>
    unfold ReservedVas.step
    dsimp only
    by_cases hex : ∃ r ∈ live, r.lva = addr
    · obtain ⟨r, hr, rfl⟩ := hex
      have hzero := hcall r hr rfl
      have hpos := (h.proper r hr).notEmpty hzero
      rw [h.freeReserveLva_eq hr hzero, filter_eq_dropped ⟨hzero, rfl⟩ fun r' hr' hP =>
        h.eq_of_lva hr hr' hpos ((h.proper r' hr').notEmpty hP.1) hP.2]
      exact h.drop hr
    · rw [h.freeReserveLva_eq_self fun r hr heq => hex ⟨r, hr, heq⟩,
        filter_eq_self fun r hr hP => hex ⟨r, hr, hP.2⟩]
      exact h

end

end Reserved

/-- A request for global addresses is served if and only if the windows it needs have gaps,
from the lowest ones; a request that is not served changes nothing. -/
structure ServesGva (s : ReservedVas) (live : List Reservation) (localRankId size localSize : Nat)
    (memType : HybmMemType) (enable56BitsGva isTrans : Bool) : Prop where
  served_iff :
    (s.allocReserveGva localRankId size localSize memType enable56BitsGva isTrans).1.va hvmGva ≠ 0 ↔
      0 < size ∧
        (0 < localSize →
          ∃ p, FreeGap (gvmWindow s.soc) (live.map localRange) localSize p) ∧
        (enable56BitsGva = true →
          ∃ p, FreeGap (gvaWindow isTrans) (live.map globalRange) size p)
  failed :
    (s.allocReserveGva localRankId size localSize memType enable56BitsGva isTrans).1.va hvmGva = 0 →
      (s.allocReserveGva localRankId size localSize memType enable56BitsGva isTrans).2 = s
  served : ∀ info s',
    s.allocReserveGva localRankId size localSize memType enable56BitsGva isTrans = (info, s') →
    info.va hvmGva ≠ 0 →
      (0 < localSize → LowestGap (gvmWindow s.soc) (live.map localRange) localSize
        (info.va hvmDva)) ∧
      (enable56BitsGva = true → LowestGap (gvaWindow isTrans) (live.map globalRange)
        size (info.va hvmGva)) ∧
      (enable56BitsGva = false → info.va hvmGva = info.va hvmDva) ∧
      Represents s' (⟨info, size, localSize, enable56BitsGva, isTrans⟩ :: live)

structure ServesLva (s : ReservedVas) (live : List Reservation) (localRankId size : Nat)
    (memType : HybmMemType) : Prop where
  served_iff : (s.allocReserveLva localRankId size hvmDva memType).1.va hvmDva ≠ 0 ↔
    ∃ p, FreeGap (gvmWindow s.soc) (live.map localRange) size p
  failed : (s.allocReserveLva localRankId size hvmDva memType).1.va hvmDva = 0 →
    (s.allocReserveLva localRankId size hvmDva memType).2 = s
  served : ∀ info s', s.allocReserveLva localRankId size hvmDva memType = (info, s') →
    info.va hvmDva ≠ 0 →
      LowestGap (gvmWindow s.soc) (live.map localRange) size (info.va hvmDva) ∧
      Represents s' (⟨info, 0, size, false, false⟩ :: live)

structure Frees (s : ReservedVas) (live : List Reservation) (r : Reservation) : Prop where
  global : 0 < r.size → Represents (s.freeReserveGva r.gva) (live.filter fun r' => decide (r' ≠ r))
  device : r.size = 0 →
    Represents (s.freeReserveLva r.lva hvmDva) (live.filter fun r' => decide (r' ≠ r))

namespace Reserved

variable {s : ReservedVas} {live : List Reservation}

variable {localRankId size : Nat} {memType : HybmMemType}

theorem servesGva (h : Reserved s live) {localSize : Nat} {enable56BitsGva isTrans : Bool}
    (hsizes : enable56BitsGva = false → size = localSize) :
    ServesGva s live localRankId size localSize memType enable56BitsGva isTrans := by
  rcases h.allocReserveGva_cases localRankId memType isTrans hsizes with
    ⟨hnot, heq⟩ | ⟨hpossible, info, hplaced, heq⟩
  · refine ⟨?_, fun _ => congrArg Prod.snd heq, fun info s' hout hne => ?_⟩
    · rw [heq]
      refine iff_of_false (fun hne => hne rfl) fun hgaps => hnot ?_
      exact ⟨hgaps.1, hgaps.2.1, hgaps.2.2⟩
    · rw [heq] at hout
      obtain ⟨rfl, -⟩ := Prod.mk.inj hout
      exact absurd rfl hne
  · have hne : info.va hvmGva ≠ 0 := (hplaced.proper.global_bounds hpossible.pos).1
    refine ⟨?_, fun hzero => ?_, fun info' s' hout _ => ?_⟩
    · rw [heq]
      exact iff_of_true hne ⟨hpossible.pos, hpossible.locals, hpossible.globals⟩
    · rw [heq] at hzero
      exact absurd hzero hne
    · rw [heq] at hout
      obtain ⟨rfl, rfl⟩ := Prod.mk.inj hout
      exact ⟨hplaced.locals, fun h56 => hplaced.globals h56 hpossible.pos,
        fun h56 => (hplaced.equal h56 hpossible.pos).1, (h.cons hplaced).represents⟩

theorem servesLva (h : Reserved s live) : ServesLva s live localRankId size memType := by
  rcases h.allocReserveLva_cases localRankId size memType with ⟨hnone, heq⟩ | ⟨info, hplaced, heq⟩
  · refine ⟨?_, fun _ => congrArg Prod.snd heq, fun info s' hout hne => ?_⟩
    · rw [heq]
      exact iff_of_false (fun hne => hne rfl) fun hgap => hnone _ hgap.choose_spec
    · rw [heq] at hout
      obtain ⟨rfl, -⟩ := Prod.mk.inj hout
      exact absurd rfl hne
  · have hpos := hplaced.notEmpty rfl
    have hne : info.va hvmDva ≠ 0 := (hplaced.proper.local_bounds hpos).1
    refine ⟨?_, fun hzero => ?_, fun info' s' hout _ => ?_⟩
    · rw [heq]
      exact iff_of_true hne ⟨_, (hplaced.locals hpos).1⟩
    · rw [heq] at hzero
      exact absurd hzero hne
    · rw [heq] at hout
      obtain ⟨rfl, rfl⟩ := Prod.mk.inj hout
      exact ⟨hplaced.locals hpos, (h.cons hplaced).represents⟩

theorem frees (h : Reserved s live) {r : Reservation} (hr : r ∈ live) : Frees s live r := by
  have hdrop := (h.drop hr).represents
  refine ⟨fun hpos => ?_, fun hzero => ?_⟩
  · rw [h.freeReserveGva_eq hr hpos]
    exact hdrop
  · rw [h.freeReserveLva_eq hr hzero]
    exact hdrop

end Reserved

/-- In every state that the calls lead to, the maps hold the ranges of the live reservations,
these are apart and in their windows, requests are served from the lowest gaps, and freeing
a reservation removes it alone. -/
theorem reservations_correct {soc : AscendSocType} {s : ReservedVas} {live : List Reservation}
    (h : Reachable ReservedVas.step Allowed ({ soc }, []) (s, live)) :
    Represents s live ∧ live.Pairwise Distinct ∧
      (∀ r ∈ live, Within r.globalRange (r.globalWindow s.soc) ∧
        Within r.localRange (gvmWindow s.soc)) ∧
      (∀ localRankId size localSize memType enable56BitsGva isTrans,
        (enable56BitsGva = false → size = localSize) →
        ServesGva s live localRankId size localSize memType enable56BitsGva isTrans) ∧
      (∀ localRankId size memType, ServesLva s live localRankId size memType) ∧
      ∀ r ∈ live, Frees s live r := by
  have hreserved : Reserved s live :=
    h.invariant (P := fun state => Reserved state.1 state.2) (reserved_start soc)
      fun state call hstate hcall => hstate.step call hcall
  exact ⟨hreserved.represents, hreserved.distinct,
    fun r hr => ⟨(hreserved.proper r hr).globalWithin, (hreserved.proper r hr).localWithin⟩,
    fun _ _ _ _ _ _ hsizes => hreserved.servesGva hsizes, fun _ _ _ => hreserved.servesLva,
    fun r hr => hreserved.frees hr⟩

def onePool : ReservedVas × List Reservation :=
  (ReservedVas.step ({ soc := .ascend910C }, [])
    (.allocReserveGva 0 0x40000000 0x40000000 .device false false)).1

theorem reservations_correct_onePool :
    onePool.2.map globalRange = [⟨0x280040000000, 0x40000000⟩] ∧
      Represents onePool.1 onePool.2 ∧ ServesLva onePool.1 onePool.2 0 0x200000 .device := by
  have hreach : Reachable ReservedVas.step Allowed ({ soc := .ascend910C }, []) onePool :=
    Reachable.next ⟨[], .nil⟩ _ fun _ => rfl
  have hcorrect := reservations_correct hreach
  exact ⟨by decide +kernel, hcorrect.1, hcorrect.2.2.2.2.1 0 0x200000 .device⟩

end MemFabric.Hybm
