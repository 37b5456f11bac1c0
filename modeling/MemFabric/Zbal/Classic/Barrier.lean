import MemFabric.Machine.Cores
import MemFabric.Machine.Shares

/-!
# The barrier of a group

`BarrierAll`: the cores of a rank meet, and each of them serves some of the ranks of the
group.  It sets its rank's flag at these ranks, waits for the flags of these ranks and takes
them back, does the same with the stats, and meets the other cores of its rank again.

A rank keeps the flags and the stats of all ranks in the parameter space of the group.  The
memory is given word by word; of a slot of eight words only the first one is used.
-/

namespace MemFabric.Zbal

open Machine Machine.Cores List
open scoped List

/-- `ZBAL_FLAG_SIZE`, the words of a slot. -/
def flagSize : Nat := 8

/-- `ZBAL_OPERATE_PARAM_SIZE`, in bytes. -/
def operateParamSize : Nat := 64 * 1024

namespace Barrier

inductive Area
  | flag
  | stat
deriving DecidableEq

/-- The word of the parameter space at which the slots begin: `flagAddr`, `statAddr`. -/
def Area.addr : Area → Nat
  | .flag => 0
  | .stat => operateParamSize / 2 / 8

/-- The two calls of `SyncAll`. -/
inductive Site
  | entering
  | leaving
deriving DecidableEq

inductive Instr
  | arrive (site : Site)
  | await (site : Site)
  | set (area : Area) (rank : Nat)
  | poll (area : Area) (rank : Nat)
  | reset (area : Area) (rank : Nat)
deriving DecidableEq

/-! ## The program of a core -/

/-- The ranks are `uint16_t`; only the first number for a core without ranks can wrap. -/
def startRank (groupSize aivNum aivIndex : Nat) : Nat :=
  if groupSize ≤ aivNum then
    if aivIndex < groupSize then aivIndex else (groupSize + 1) % 2 ^ 16
  else if aivIndex < groupSize % aivNum then aivIndex * (groupSize / aivNum) + aivIndex
  else aivIndex * (groupSize / aivNum) + groupSize % aivNum

def endRank (groupSize aivNum aivIndex : Nat) : Nat :=
  if groupSize ≤ aivNum then
    if aivIndex < groupSize then startRank groupSize aivNum aivIndex + 1 else groupSize
  else if aivIndex < groupSize % aivNum then
    startRank groupSize aivNum aivIndex + (groupSize / aivNum + 1)
  else startRank groupSize aivNum aivIndex + groupSize / aivNum

def ranksOf (groupSize aivNum aivIndex : Nat) : List Nat :=
  range' (startRank groupSize aivNum aivIndex)
    (endRank groupSize aivNum aivIndex - startRank groupSize aivNum aivIndex)

def syncAll (site : Site) : List Instr := [.arrive site, .await site]

def setFlagOrStat (area : Area) (rank : Nat) : List Instr := [.set area rank]

def waitFlagOrStat (area : Area) (rank : Nat) : List Instr := [.poll area rank, .reset area rank]

def barrierAll (groupSize aivNum aivIndex : Nat) : List Instr :=
  syncAll .entering ++
    (ranksOf groupSize aivNum aivIndex).flatMap (setFlagOrStat .flag) ++
    (ranksOf groupSize aivNum aivIndex).flatMap (waitFlagOrStat .flag) ++
    (ranksOf groupSize aivNum aivIndex).flatMap (setFlagOrStat .stat) ++
    (ranksOf groupSize aivNum aivIndex).flatMap (waitFlagOrStat .stat) ++
    syncAll .leaving

/-! ## Its steps -/

/-- `arrived` counts the calls of `SyncAll` that a core has begun; `param rank word` is the
parameter space of a rank. -/
structure Memory (groupSize aivNum : Nat) where
  arrived : Fin groupSize × Fin aivNum → Nat := fun _ => 0
  param : Nat → Nat → Nat := fun _ _ => 0

def magic : Nat := 1024

def slot (area : Area) (rank : Nat) : Nat := area.addr + rank * flagSize

variable {groupSize aivNum calls : Nat}

def Memory.store (m : Memory groupSize aivNum) (rank word value : Nat) : Memory groupSize aivNum :=
  { m with param := fun r w => if r = rank ∧ w = word then value else m.param r w }

/-- A core leaves `SyncAll` when all cores of its rank have come to it. -/
def ready (t : Fin groupSize × Fin aivNum) : Instr → Memory groupSize aivNum → Bool
  | .await _, m => decide (∀ c, m.arrived t ≤ m.arrived (t.1, c))
  | .poll area rank, m => m.param t.1 (slot area rank) == magic
  | _, _ => true

/-- The flag of a rank is set at the other rank and reset at its own. -/
def effect (t : Fin groupSize × Fin aivNum) :
    Instr → Memory groupSize aivNum → Memory groupSize aivNum
  | .arrive _, m => { m with arrived := Function.update m.arrived t (m.arrived t + 1) }
  | .set area rank, m => m.store rank (slot area t.1) magic
  | .reset area rank, m => m.store t.1 (slot area rank) 0
  | _, m => m

def system (groupSize aivNum calls : Nat) :
    System (Fin groupSize × Fin aivNum) Instr (Memory groupSize aivNum) where
  prog t := (replicate calls (barrierAll groupSize aivNum t.2)).flatten
  ready := ready
  effect := effect

@[simp] theorem system_ready : (system groupSize aivNum calls).ready = ready := rfl

@[simp] theorem system_effect : (system groupSize aivNum calls).effect = effect := rfl

def entered (s : State (Fin groupSize × Fin aivNum) (Memory groupSize aivNum))
    (calls : Nat) (t : Fin groupSize × Fin aivNum) : Nat :=
  (system groupSize aivNum calls).count s t (.arrive .entering)

def left (s : State (Fin groupSize × Fin aivNum) (Memory groupSize aivNum))
    (calls : Nat) (t : Fin groupSize × Fin aivNum) : Nat :=
  (system groupSize aivNum calls).count s t (.await .leaving)

/-- What the barrier is for: no core leaves a barrier before all cores of all ranks have
entered it; a flag is only taken back when it is the last one that has been set; and when
all cores have entered a barrier, they can leave it, without anybody entering another one. -/
structure Correct (groupSize aivNum calls : Nat) : Prop where
  separates : ∀ s, (system groupSize aivNum calls).Reachable {} s →
    ∀ t u, left s calls t ≤ entered s calls u
  keeps : ∀ s, (system groupSize aivNum calls).Reachable {} s →
    ∀ (r p : Fin groupSize) (c c' : Fin aivNum) (area : Area),
      (system groupSize aivNum calls).next s (r, c) = some (.reset area p) →
      (system groupSize aivNum calls).count s (p, c') (.set area r) ≤
        (system groupSize aivNum calls).count s (r, c) (.poll area p)
  completes : ∀ s, (system groupSize aivNum calls).Reachable {} s → ∀ k, k ≤ calls →
    (∀ t, k ≤ entered s calls t) →
    ∃ s', (system groupSize aivNum calls).Reaches (fun _ i => i ≠ .arrive .entering) s s' ∧
      ∀ t, k ≤ left s' calls t

/-! ## Who serves whom

A group has at most `ZBAL_MAX_RANKS` ranks. -/

variable {c p k : Nat} {l : List Instr} {ranks : List Nat}

section

variable (hg : groupSize ≤ 1024)

include hg

theorem mem_ranksOf (hc : c < aivNum) :
    p ∈ ranksOf groupSize aivNum c ↔
      evenLeft groupSize aivNum c ≤ p ∧ p < evenLeft groupSize aivNum (c + 1) := by
  rw [ranksOf, mem_range'_1, evenLeft, evenLeft, endRank, startRank, Nat.add_mul]
  by_cases hle : groupSize ≤ aivNum
  · simp only [if_pos hle]
    rcases Nat.lt_or_eq_of_le hle with hlt | rfl
    · rw [Nat.div_eq_of_lt hlt, Nat.mod_eq_of_lt hlt]
      by_cases hcg : c < groupSize
      · simp only [if_pos hcg]
        omega
      · simp only [if_neg hcg]
        omega
    · simp only [Nat.mod_self, Nat.div_self (show 0 < groupSize by omega), if_pos hc]
      omega
  · simp only [if_neg hle]
    split <;> omega

theorem lt_of_mem_ranksOf {c : Fin aivNum}
    (h : p ∈ ranksOf groupSize aivNum c) : p < groupSize := by
  have hn : 0 < aivNum := c.pos
  calc p < evenLeft groupSize aivNum (c + 1) := ((mem_ranksOf hg c.isLt).mp h).2
    _ ≤ evenLeft groupSize aivNum aivNum := evenLeft_mono _ _ c.isLt
    _ = groupSize := evenLeft_parts hn

theorem exists_serving (hn : 0 < aivNum) (p : Fin groupSize) :
    ∃ c : Fin aivNum, p.val ∈ ranksOf groupSize aivNum c := by
  obtain ⟨c, hc, hle, hlt⟩ := exists_evenShare hn p.isLt
  exact ⟨⟨c, hc⟩, (mem_ranksOf hg hc).mpr ⟨hle, hlt⟩⟩

theorem serving_unique {c c' : Fin aivNum}
    (h : p ∈ ranksOf groupSize aivNum c) (h' : p ∈ ranksOf groupSize aivNum c') : c = c' := by
  rw [mem_ranksOf hg c.isLt] at h
  rw [mem_ranksOf hg c'.isLt] at h'
  exact Fin.ext (evenShare_unique h.1 h.2 h'.1 h'.2)

end

theorem slot_inj {a b : Area} {q : Nat} (hp : p < 512) (hq : q < 512) (h : slot a p = slot b q) :
    a = b ∧ p = q := by
  cases a <;> cases b <;> simp only [slot, Area.addr, operateParamSize, flagSize] at h
  · exact ⟨rfl, by omega⟩
  · omega
  · omega
  · exact ⟨rfl, by omega⟩

/-! ## The order in a core -/

def servingOrder (p : Nat) : List Instr :=
  [.arrive .entering, .await .entering, .set .flag p, .poll .flag p, .reset .flag p,
    .set .stat p, .poll .stat p, .reset .stat p, .arrive .leaving, .await .leaving]

theorem servingOrder_sublist (h : p ∈ ranksOf groupSize aivNum c) :
    servingOrder p <+ barrierAll groupSize aivNum c := by
  have hmap : ∀ f : Nat → List Instr, f p <+ (ranksOf groupSize aivNum c).flatMap f := fun f =>
    sublist_flatten_of_mem (mem_map_of_mem h)
  exact (((((Sublist.refl (syncAll .entering)).append (hmap (setFlagOrStat .flag))).append
    (hmap (waitFlagOrStat .flag))).append (hmap (setFlagOrStat .stat))).append
    (hmap (waitFlagOrStat .stat))).append (Sublist.refl (syncAll .leaving))

def syncOrder : List Instr :=
  [.arrive .entering, .await .entering, .arrive .leaving, .await .leaving]

theorem syncOrder_sublist (c : Nat) : syncOrder <+ barrierAll groupSize aivNum c := by
  have h : syncAll .entering <+ syncAll .entering ++
      (ranksOf groupSize aivNum c).flatMap (setFlagOrStat .flag) ++
      (ranksOf groupSize aivNum c).flatMap (waitFlagOrStat .flag) ++
      (ranksOf groupSize aivNum c).flatMap (setFlagOrStat .stat) ++
      (ranksOf groupSize aivNum c).flatMap (waitFlagOrStat .stat) := by
    exact sublist_append_left _ _
  exact h.append (Sublist.refl (syncAll .leaving))

def phase : Instr → Nat
  | .arrive .entering => 0
  | .await .entering => 1
  | .set .flag _ => 2
  | .poll .flag _ => 3
  | .reset .flag _ => 3
  | .set .stat _ => 4
  | .poll .stat _ => 5
  | .reset .stat _ => 5
  | .arrive .leaving => 6
  | .await .leaving => 7

theorem eq_of_seven_le_phase {i : Instr} (h : 7 ≤ phase i) : i = .await .leaving := by
  unfold phase at h
  split at h <;> first | rfl | omega

/-- Different instructions in the order of their phases, the last of which is `k`. -/
structure InPhases (k : Nat) (l : List Instr) : Prop where
  sorted : l.Pairwise fun i j => phase i ≤ phase j
  nodup : l.Nodup
  le : ∀ i ∈ l, phase i ≤ k

theorem InPhases.append (h : InPhases k l) (l' : List Instr) (hl' : l'.Nodup)
    (h' : ∀ i ∈ l', phase i = k + 1) : InPhases (k + 1) (l ++ l') where
  sorted := by
    refine pairwise_append.mpr ⟨h.sorted, ?_, ?_⟩
    · exact pairwise_of_forall_mem_list fun i hi j hj => by rw [h' i hi, h' j hj]
    · intro i hi j hj
      have := h.le i hi
      rw [h' j hj]
      omega
  nodup := by
    refine h.nodup.append hl' fun i hi hi' => ?_
    have := h.le i hi
    have := h' i hi'
    omega
  le i hi := by
    rcases mem_append.mp hi with hi | hi
    · exact (h.le i hi).trans (Nat.le_succ k)
    · exact (h' i hi).le

section

variable (h : InPhases k l) (hranks : ranks.Nodup)

include h hranks

/-- A loop over the ranks of a core adds one phase. -/
theorem InPhases.loop (f : Nat → List Instr)
    (hf : ∀ p, (f p).Nodup) (hinj : ∀ p q i, i ∈ f p → i ∈ f q → p = q)
    (h' : ∀ p, ∀ i ∈ f p, phase i = k + 1) : InPhases (k + 1) (l ++ ranks.flatMap f) := by
  refine h.append _ (nodup_flatMap.mpr ⟨fun p _ => hf p, ?_⟩) ?_
  · exact hranks.imp fun hne i hi hi' => hne (hinj _ _ i hi hi')
  · intro i hi
    obtain ⟨p, -, hi⟩ := mem_flatMap.mp hi
    exact h' p i hi

theorem InPhases.loop_set (area : Area) (hk : ∀ p, phase (.set area p) = k + 1) :
    InPhases (k + 1) (l ++ ranks.flatMap (setFlagOrStat area)) :=
  h.loop hranks _ (by simp [setFlagOrStat]) (by simp [setFlagOrStat]) (by simp [setFlagOrStat, hk])

theorem InPhases.loop_wait (area : Area)
    (hpoll : ∀ p, phase (.poll area p) = k + 1) (hreset : ∀ p, phase (.reset area p) = k + 1) :
    InPhases (k + 1) (l ++ ranks.flatMap (waitFlagOrStat area)) := by
  refine h.loop hranks _ (by simp [waitFlagOrStat]) ?_ (by simp [waitFlagOrStat, hpoll, hreset])
  intro p q i hp hq
  simp only [waitFlagOrStat, mem_cons, not_mem_nil, or_false] at hp hq
  rcases hp with rfl | rfl <;> simpa using hq

end

theorem barrierAll_inPhases (groupSize aivNum c : Nat) :
    InPhases 7 (barrierAll groupSize aivNum c) := by
  have hentering : InPhases 1 (syncAll .entering) :=
    ⟨by simp [syncAll, phase], by simp [syncAll], by simp [syncAll, phase]⟩
  have hranks : (ranksOf groupSize aivNum c).Nodup := nodup_range'
  have hflag := (hentering.loop_set hranks .flag fun _ => rfl).loop_wait hranks .flag
    (fun _ => rfl) fun _ => rfl
  have hstat := (hflag.loop_set hranks .stat fun _ => rfl).loop_wait hranks .stat
    (fun _ => rfl) fun _ => rfl
  have hleaving := (hstat.append [.arrive .leaving] (by simp) (by simp [phase])).append
    [.await .leaving] (by simp) (by simp [phase])
  rw [append_assoc] at hleaving
  exact hleaving

theorem phase_le_phase {i j : Instr} (h : [i, j] <+ barrierAll groupSize aivNum c) :
    phase i ≤ phase j :=
  pairwise_iff_forall_sublist.mp (barrierAll_inPhases groupSize aivNum c).sorted h

theorem repeats (groupSize aivNum calls : Nat) :
    (system groupSize aivNum calls).Repeats calls fun t => barrierAll groupSize aivNum t.2 where
  prog _ := rfl
  nodup t := (barrierAll_inPhases groupSize aivNum t.2).nodup

end Barrier

end MemFabric.Zbal
