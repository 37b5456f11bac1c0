import MemFabric.Smem.Collective.Phases

/-!
# Keys and values of a call

A key names the channel, the number of the call and one of two slots: the one the ranks
add to, and the one they wait for.  The value of the first is a count or the inputs one
after the other; either way a rank learns from the reply whether it came first or last.
-/

namespace MemFabric.Smem.Collective

open Machine Wire Smem.Store List
open Smem.Group (smOk smError)

/-! ## Keys -/

inductive Slot
  | add
  | wait
deriving DecidableEq

def Slot.suffix : Slot → Channel → Bytes
  | .add, ch => ch.addSuffix
  | .wait, ch => ch.waitSuffix

/-- The key of a slot of the `m`-th call on a channel; a static group has version 0. -/
def keyAt (slot : Slot) (ch : Channel) (m : Nat) : Bytes :=
  decimal 0 ++ ascii "_" ++ decimal m ++ slot.suffix ch

theorem head?_suffix (slot : Slot) (ch : Channel) : (slot.suffix ch).head? = some 95 := by
  cases slot <;> cases ch <;> decide

variable {slot slot' : Slot} {ch ch' : Channel} {l : List Bytes} {kv : Table Bytes Bytes}
  {e : Engine} {c : Call}

theorem suffix_inj (h : slot.suffix ch = slot'.suffix ch') : slot = slot' ∧ ch = ch' := by
  revert h
  cases slot <;> cases slot' <;> cases ch <;> cases ch' <;> decide

theorem keyAt_inj {m m' : Nat}
    (h : keyAt slot ch m = keyAt slot' ch' m') : slot = slot' ∧ ch = ch' ∧ m = m' := by
  simp only [keyAt, append_assoc] at h
  have hrest := append_cancel_left (append_cancel_left h)
  have hdigit : ∀ (slot : Slot) (ch : Channel),
      ∀ b ∈ (slot.suffix ch).head?, isDigit b = false := by
    intro slot ch b hb
    rw [head?_suffix] at hb
    cases hb
    decide
  obtain ⟨hm, hs⟩ := decimal_append_inj (hdigit slot ch) (hdigit slot' ch') hrest
  obtain ⟨hslot, hch⟩ := suffix_inj hs
  exact ⟨hslot, hch, hm⟩

section

variable {e : Engine} {ch : Channel}

section

variable (e : Engine)

@[simp] theorem sn_nextSn (ch ch' : Channel) :
    (e.nextSn ch).sn ch' = if ch' = ch then e.sn ch' + 1 else e.sn ch' := by
  cases ch <;> cases ch' <;> rfl

@[simp] theorem keyStart_nextSn (ch : Channel) :
    (e.nextSn ch).keyStart = e.keyStart := by
  cases ch <;> rfl

theorem delayCleanKeyList_nextSn (ch : Channel) :
    (e.nextSn ch).delayCleanKeyList = e.delayCleanKeyList := by
  cases ch <;> rfl

@[simp] theorem sn_after (ch ch' : Channel) (keys : List Bytes) :
    (e.after ch keys).sn ch' = if ch' = ch then e.sn ch' + 1 else e.sn ch' := by
  cases ch <;> cases ch' <;> rfl

theorem after_eq (ch : Channel) (keys : List Bytes) :
    (e.after ch keys).rank = e.rank ∧ (e.after ch keys).groupSize = e.groupSize ∧
      (e.after ch keys).groupVersion = e.groupVersion ∧
      (e.after ch keys).delayCleanKeyList = keys := by
  cases ch <;> exact ⟨rfl, rfl, rfl, rfl⟩

end

theorem toNat_sn_succ (h : (e.sn ch).toNat + 1 < 2 ^ 32) :
    (e.sn ch + 1).toNat = (e.sn ch).toNat + 1 := by
  exact Nat.mod_eq_of_lt h

theorem addKey_nextSn (hv : e.groupVersion = 0) :
    (e.nextSn ch).addKey ch = keyAt .add ch (e.sn ch + 1).toNat := by
  rw [Engine.addKey, keyStart_nextSn, sn_nextSn, if_pos rfl, Engine.keyStart, hv]
  rfl

theorem waitKey_nextSn (hv : e.groupVersion = 0) :
    (e.nextSn ch).waitKey ch = keyAt .wait ch (e.sn ch + 1).toNat := by
  rw [Engine.waitKey, keyStart_nextSn, sn_nextSn, if_pos rfl, Engine.keyStart, hv]
  rfl

/-- The keys that the first rank queues belong to the call before the last one. -/
theorem oldKey_nextSn (hv : e.groupVersion = 0) (h : (e.sn ch).toNat + 1 < 2 ^ 32)
    (hsn : (e.nextSn ch).sn ch > removeInterval) {key : Bytes}
    (hkey : key = oldAddKey (e.nextSn ch) ch ∨ key = oldWaitKey (e.nextSn ch) ch) :
    ∃ slot, key = keyAt slot ch ((e.sn ch).toNat - 1) ∧ 2 ≤ (e.sn ch).toNat := by
  rw [sn_nextSn, if_pos rfl] at hsn
  have hgt : 2 < (e.sn ch + 1).toNat := UInt32.lt_iff_toNat_lt.mp hsn
  have hsub : (e.sn ch + 1 - removeInterval).toNat = (e.sn ch).toNat - 1 := by
    have hle : removeInterval ≤ e.sn ch + 1 := UInt32.le_of_lt hsn
    rw [UInt32.toNat_sub_of_le _ _ hle, toNat_sn_succ h]
    rfl
  rw [toNat_sn_succ h] at hgt
  have hstart : e.keyStart = decimal 0 ++ ascii "_" := by rw [Engine.keyStart, hv]
  rcases hkey with rfl | rfl
  · refine ⟨.add, ?_, by omega⟩
    rw [oldAddKey, keyStart_nextSn, sn_nextSn, if_pos rfl, hsub, hstart]
    rfl
  · refine ⟨.wait, ?_, by omega⟩
    rw [oldWaitKey, keyStart_nextSn, sn_nextSn, if_pos rfl, hsub, hstart]
    rfl

end

/-! ## Values -/

def encode : Channel → List Bytes → Bytes
  | .barrier, l => decimal l.length
  | .gather, l => l.flatten

def stored (ch : Channel) (l : List Bytes) : Option Bytes :=
  if l = [] then none else some (encode ch l)

inductive Shape
  | barrier
  | result
  | all (sendSize : Nat)
deriving DecidableEq

def Call.shape : Call → Shape
  | .barrier => .barrier
  | .gatherResult _ => .result
  | .allGather sendBuf _ => .all sendBuf.length

def Shape.width : Shape → Nat
  | .barrier => 0
  | .result => 4
  | .all sendSize => 4 + sendSize

/-- The sizes of the buffers agree, and what is gathered has fewer than `2 ^ 32` bytes. -/
def Call.Fits (n : Nat) : Call → Prop
  | .allGather sendBuf recvSize =>
    recvSize.toNat = sendBuf.length * n ∧ n * (sendBuf.length + 4) < 2 ^ 32
  | _ => True

instance (n : Nat) (c : Call) : Decidable (c.Fits n) := by
  cases c <;> unfold Call.Fits <;> infer_instance

theorem length_input (rank : UInt32) (c : Call) : (c.input rank).length = c.shape.width := by
  cases c with
  | barrier => rfl
  | gatherResult localRet => exact length_leBytes 4 _
  | allGather sendBuf recvSize =>
    simp [Call.input, gatherInput, Call.shape, Shape.width]

theorem length_flatten_of_width {w : Nat} (h : ∀ x ∈ l, x.length = w) :
    l.flatten.length = w * l.length := by
  induction l with
  | nil => rfl
  | cons x l ih =>
    have hx := h x mem_cons_self
    have hl := ih fun x hx => h x (mem_cons_of_mem _ hx)
    rw [flatten_cons, length_append, hx, hl, length_cons, Nat.mul_succ, Nat.add_comm]

/-! ## Arriving -/

theorem storeAdd_count {key : Bytes} (h : kv.lookup key = stored .barrier l)
    (hl : l.length < 2 ^ 32) :
    storeAdd key 1 kv =
      (some ((l.length + 1 : Nat) : Int), kv.insert key (decimal (l.length + 1 : Nat))) := by
  unfold storeAdd
  rw [h, stored]
  by_cases hnil : l = []
  · subst hnil
    rfl
  · have hpos : 0 < l.length := length_pos_of_ne_nil hnil
    rw [if_neg hnil]
    dsimp only [encode]
    rw [string2Int_decimal (by omega)]
    dsimp only
    rw [if_neg (by omega), if_neg (by omega)]
    rfl

def arrivedPhase (e : Engine) (ch : Channel) (l : List Bytes) : Phase :=
  .settling (cleaned (e.nextSn ch) ch (decide (l = []))).1
    (decide (l.length + 1 = e.groupSize.toNat)) (cleaned (e.nextSn ch) ch (decide (l = []))).2

structure Arrival (e : Engine) (c : Call) (kv : Table Bytes Bytes) (l : List Bytes) (a : Act)
    (k : Resp a → Program (Outcome × Engine)) (r : Resp a) : Prop where
  program : c.program e = .act a k
  key : a.key = (e.nextSn c.channel).addKey c.channel
  isRemove : a.isRemove = false
  serve : serve kv a = some (r, kv.insert ((e.nextSn c.channel).addKey c.channel)
    (encode c.channel (l ++ [c.input e.rank])))
  rest : k r = (arrivedPhase e c.channel l).program e c

theorem groupSize_nextSn (e : Engine) (ch : Channel) : (e.nextSn ch).groupSize = e.groupSize := by
  cases ch <;> rfl

theorem arrival_barrier (hkv : kv.lookup ((e.nextSn .barrier).addKey .barrier) = stored .barrier l)
    (hlen : l.length < 2 ^ 32) : ∃ a k r, Arrival e .barrier kv l a k r := by
  have hfirst : decide (((l.length + 1 : Nat) : Int) = 1) = decide (l = []) := by
    rw [decide_eq_decide, ← length_eq_zero_iff]
    omega
  have hlast : decide (((l.length + 1 : Nat) : Int) = (e.nextSn .barrier).groupSize.toNat) =
      decide (l.length + 1 = e.groupSize.toNat) := by
    rw [decide_eq_decide, groupSize_nextSn]
    omega
  refine ⟨_, _, some ((l.length + 1 : Nat) : Int), rfl, rfl, rfl, ?_, ?_⟩
  · change some (storeAdd _ 1 kv) = _
    rw [storeAdd_count hkv hlen]
    simp [encode, Call.channel]
  · change (settle _ _ _ _ >>= _) = _
    rw [settle_bind, hfirst]
    congr 3
    funext v
    by_cases hv : v = groupSetStr
    · simp only [hv]
      rfl
    · simp only [hv]
      rfl

theorem program_gather (hch : c.channel = .gather) (hfits : c.Fits e.groupSize.toNat) :
    c.program e = gather (c.input e.rank) (fun key => c.read key)
      (fun output => c.outcome e.groupSize.toNat output) e := by
  cases c with
  | barrier => cases hch
  | gatherResult localRet => rfl
  | allGather sendBuf recvSize =>
    obtain ⟨hrecv, hlt⟩ := hfits
    have heq : UInt32.ofNat sendBuf.length * e.groupSize = recvSize := by
      apply UInt32.toNat_inj.mp
      rw [UInt32.toNat_mul, UInt32.toNat_ofNat', hrecv, Nat.mod_mul_mod]
      refine Nat.mod_eq_of_lt (lt_of_le_of_lt ?_ hlt)
      rw [Nat.mul_comm]
      exact Nat.mul_le_mul_left _ (Nat.le_add_right _ _)
    exact if_pos heq

theorem program_settling (hch : c.channel = ch) (removed : List Bytes) (last : Bool)
    (keys : List Bytes) :
    (Phase.settling removed last keys).program e c =
      removeAll removed (announcing (e.nextSn ch) ch last
        (.act (.get ((e.nextSn ch).waitKey ch)) fun v =>
          if v = groupSetStr then c.reading e keys
          else .ret ({ ret := smError }, e.after ch keys))) := by
  subst hch
  rfl

theorem reading_gather (hch : c.channel = .gather) (keys : List Bytes) :
    c.reading e keys = (do
      let output ← c.read ((e.nextSn .gather).addKey .gather)
      pure (match output with
        | none => { ret := smError }
        | some output =>
          if output.length = (c.input e.rank).length * e.groupSize.toNat then
            c.outcome e.groupSize.toNat output
          else { ret := smError }, e.after .gather keys)) := by
  cases c with
  | barrier => cases hch
  | gatherResult localRet => rfl
  | allGather sendBuf recvSize => rfl

theorem arrival_gather (hch : c.channel = .gather) (hfits : c.Fits e.groupSize.toNat)
    (hkv : kv.lookup ((e.nextSn .gather).addKey .gather) = stored .gather l)
    (hl : ∀ x ∈ l, x.length = (c.input e.rank).length) : ∃ a k r, Arrival e c kv l a k r := by
  have hpos : 0 < (c.input e.rank).length := by
    rw [length_input]
    cases c with
    | barrier => cases hch
    | gatherResult localRet => exact Nat.succ_pos 3
    | allGather sendBuf recvSize => exact Nat.lt_of_lt_of_le (Nat.succ_pos 3) (Nat.le_add_right _ _)
  have hvalue : (kv.lookup ((e.nextSn .gather).addKey .gather)).getD [] = l.flatten := by
    rw [hkv, stored]
    by_cases hnil : l = []
    · rw [hnil]
      rfl
    · rw [if_neg hnil]
      rfl
  have hval : (l.flatten ++ c.input e.rank).length = (c.input e.rank).length * (l.length + 1) := by
    rw [length_append, length_flatten_of_width hl, Nat.mul_succ]
  have hfirst : decide ((l.flatten ++ c.input e.rank).length = (c.input e.rank).length) =
      decide (l = []) := by
    rw [decide_eq_decide, hval, ← length_eq_zero_iff]
    constructor
    · intro h
      have := Nat.eq_of_mul_eq_mul_left hpos (h.trans (Nat.mul_one _).symm)
      omega
    · intro h
      rw [h, Nat.mul_one]
  have hlast : decide ((l.flatten ++ c.input e.rank).length =
      (c.input e.rank).length * (e.nextSn .gather).groupSize.toNat) =
      decide (l.length + 1 = e.groupSize.toNat) := by
    rw [decide_eq_decide, hval, groupSize_nextSn]
    exact ⟨Nat.eq_of_mul_eq_mul_left hpos, fun h => by rw [h]⟩
  refine ⟨.append ((e.nextSn .gather).addKey .gather) (c.input e.rank), _,
    (l.flatten ++ c.input e.rank).length, program_gather hch hfits, by rw [hch]; rfl, rfl, ?_, ?_⟩
  · simp only [serve, hvalue, hch, encode, flatten_append, flatten_singleton]
  · change (settle _ _ _ _ >>= _) = _
    rw [settle_bind, hfirst, hch, arrivedPhase, program_settling hch]
    congr 3
    funext v
    by_cases hv : v = groupSetStr
    · simp only [hv, reading_gather hch]
      rfl
    · simp only [hv]
      rfl

/-- A call begins with a request that tells the member whether it came first or last. -/
theorem exists_arrival (hfits : c.Fits e.groupSize.toNat)
    (hkv : kv.lookup ((e.nextSn c.channel).addKey c.channel) = stored c.channel l)
    (hl : ∀ x ∈ l, x.length = (c.input e.rank).length) (hlen : l.length < 2 ^ 32) :
    ∃ a k r, Arrival e c kv l a k r := by
  cases c with
  | barrier => exact arrival_barrier hkv hlen
  | gatherResult localRet => exact arrival_gather rfl hfits hkv hl
  | allGather sendBuf recvSize => exact arrival_gather rfl hfits hkv hl

end MemFabric.Smem.Collective
