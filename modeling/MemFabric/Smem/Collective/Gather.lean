import Mathlib.Data.List.Sort
import MemFabric.Smem.Collective.Wrap

/-!
# Barriers and gathers

A barrier holds everybody back until all have come, as long as its counter does not wrap.
What `GroupAllGather` and `GroupGatherResult` return on every rank: the buffers of all
ranks in the order of the rank numbers, and the disjunction of all results.  The inputs
were appended in the order of arrival; each carries the number of its rank.
-/

namespace MemFabric.Smem.Collective

open Machine Wire List
open Smem.Group (smOk smError)

/-- The ranks of the group call `GroupBarrier`, each of them fewer than `2 ^ 32` times. -/
def BarrierCalls (n : UInt32) (s : System) : Input → Prop
  | .exec _ => True
  | .call i c =>
    i < n.toNat ∧ c = .barrier ∧ (s.members i).engine.barrierGroupSn.toNat + 1 < 2 ^ 32

instance (n : UInt32) (s : System) (input : Input) : Decidable (BarrierCalls n s input) :=
  match input with
  | .exec _ => inferInstanceAs (Decidable True)
  | .call _ _ => inferInstanceAs (Decidable (_ ∧ _ ∧ _))

variable {n : UInt32} {s : System} {rank : Nat → UInt32} {plan : Channel → Nat → Shape}
  {log : List Event} {ch : Channel} {i k : Nat}

theorem allowed_of_barrierCalls {input : Input}
    (h : BarrierCalls n s input) : Allowed n (fun _ _ => .barrier) s input := by
  cases input with
  | exec i => trivial
  | call i c =>
    obtain ⟨hi, rfl, hsn⟩ := h
    exact ⟨hi, trivial, rfl, hsn⟩

section

variable (h : Inv n rank plan log s)

include h

theorem Inv.results_le_calls (ch : Channel) (i : Nat) {q : Nat}
    (hq : q < n.toNat) : (results ch i log).length ≤ (calls ch q log).length := by
  obtain ⟨a, st, h⟩ := h
  rw [h.history.results_length, h.history.calls_length]
  exact h.inv.done_le_entered ch hq

theorem Inv.removedUnused : RemovedUnused log := by
  obtain ⟨a, st, h⟩ := h
  exact h.unused

theorem Inv.planned {c : Call} (hc : (calls ch i log)[k]? = some c) :
    c.channel = ch ∧ c.shape = plan ch k ∧ c.Fits n.toNat := by
  obtain ⟨a, st, h⟩ := h
  exact h.history.planned ch i k c hc

theorem Inv.gathered {o : Outcome} (ho : (results ch i log)[k]? = some o) :
    ∃ c, (calls ch i log)[k]? = some c ∧ c.channel = ch ∧ c.shape = plan ch k ∧
      c.Fits n.toNat ∧ Gathered n rank ch k log c o := by
  obtain ⟨a, st, h⟩ := h
  obtain ⟨c, hc, hg⟩ := h.history.outcome ch i k o ho
  obtain ⟨hch, hplan, hfits⟩ := h.history.planned ch i k c hc
  exact ⟨c, hc, hch, hplan, hfits, hg⟩

end

/-- In every run of barriers: nobody has returned from its `k`-th barrier before all have
entered their `k`-th; every barrier that has returned was successful; if all have entered
their `k`-th barrier, each of them can finish it; and no key is removed that is still used. -/
theorem barrier_safe {n : UInt32} (hn : 0 < n.toNat) {rank : Nat → UInt32} {log : List Event}
    {s : System} (h : Trace step (BarrierCalls n) (System.start n rank) log s) :
    (∀ i q, q < n.toNat → (results .barrier i log).length ≤ (calls .barrier q log).length) ∧
      (∀ i, ∀ o ∈ results .barrier i log, o = { ret := smOk }) ∧
      (∀ k, (∀ q, q < n.toNat → k ≤ (calls .barrier q log).length) → ∀ i, i < n.toNat →
        ∃ out s', Trace step GoesOn s out s' ∧ k ≤ (results .barrier i (log ++ out)).length) ∧
      RemovedUnused log := by
  have hinv : Inv n rank (fun _ _ => .barrier) log s :=
    inv_of_trace hn (h.mono fun _ _ => allowed_of_barrierCalls)
  refine ⟨fun i q hq => hinv.results_le_calls .barrier i hq, fun i o ho => ?_,
    fun k hk i hi => hinv.finishes hk hi, hinv.removedUnused⟩
  obtain ⟨k, hk⟩ := mem_iff_getElem?.mp ho
  obtain ⟨c, hc, hch, hplan, -, -, l, -, rfl⟩ := hinv.gathered hk
  cases c with
  | barrier => rfl
  | gatherResult localRet => cases hch
  | allGather sendBuf recvSize => cases hch

def oneBarrier : List Input :=
  [.call 0 .barrier, .exec 0, .exec 0, .call 1 .barrier, .exec 1, .exec 1, .exec 1, .exec 1,
    .exec 0, .exec 0]

theorem barrier_safe_oneBarrier :
    (results .barrier 0 (run step (System.start 2 UInt32.ofNat) oneBarrier).2).length = 1 ∧
      (results .barrier 0 (run step (System.start 2 UInt32.ofNat) oneBarrier).2).length ≤
        (calls .barrier 1 (run step (System.start 2 UInt32.ofNat) oneBarrier).2).length :=
  ⟨by decide +kernel,
    (barrier_safe (by decide) (trace_run_of_allowed (by decide +kernel))).1 0 1 (by decide)⟩

/-- With `2 ^ 32 + 1` barriers a rank returns from a barrier that the other has not entered:
it finds the keys of the first barrier. -/
theorem barrier_passed_alone :
    ∃ log s, Trace step (Repeats 2 .barrier) (System.start 2 UInt32.ofNat) log s ∧
      ¬ (results .barrier 0 log).length ≤ (calls .barrier 1 log).length := by
  obtain ⟨log, s, htrace, h⟩ := exists_wrapped (.inl rfl) UInt32.ofNat
  obtain ⟨out, kv', e, keys, hpass, hsilent, -⟩ := h.passes_alone (.inl rfl)
  refine ⟨_, _, (htrace.trans hpass).trans trace_ret, ?_⟩
  have hcalls : (calls .barrier 1 (log ++ (.called 0 .barrier :: out) ++
      [.returned 0 .barrier { ret := smOk }])).length = 2 ^ 32 := by
    rw [calls_returned, calls_append, ← singleton_append, calls_append, hsilent.calls,
      calls_called, if_neg (by decide), append_nil, append_nil]
    exact h.called 1 (by omega)
  have hresults : (results .barrier 0 (log ++ (.called 0 .barrier :: out) ++
      [.returned 0 .barrier { ret := smOk }])).length = 2 ^ 32 + 1 := by
    rw [results_append, results_append, ← singleton_append, results_append, hsilent.results,
      results_returned, if_pos ⟨rfl, rfl⟩, length_append, length_append]
    exact congrArg (· + 1) (h.returned 0 (by omega))
  omega

end MemFabric.Smem.Collective

namespace MemFabric.Smem.Collective

open Machine Wire List UInt32
open Smem.Group (smOk smError)

/-! ## The specification -/

/-- The result that member `q` brought to call number `k`, counted from 0. -/
def localRetAt (log : List Event) (k q : Nat) : BitVec 32 :=
  match (calls .gather q log)[k]? with
  | some (.gatherResult localRet) => localRet
  | _ => 0

def sendBufAt (log : List Event) (k q : Nat) : Bytes :=
  match (calls .gather q log)[k]? with
  | some (.allGather sendBuf _) => sendBuf
  | _ => []

def inRankOrder (n : Nat) (rank : Nat → UInt32) : List Nat :=
  (range n).mergeSort fun i j => decide (rank i ≤ rank j)

def expected (n : Nat) (rank : Nat → UInt32) (log : List Event) (k : Nat) : Shape → Outcome
  | .barrier => { ret := smOk }
  | .result =>
    { ret := smOk
      totalRet := (range n).foldl (fun total q => total ||| localRetAt log k q) 0 }
  | .all _ => { ret := smOk, recvBuf := (inRankOrder n rank).flatMap (sendBufAt log k) }

/-! ## Blocks of equal length -/

section

variable {l : List Nat} {f : Nat → Bytes} {w : Nat}

theorem drop_flatten (h : ∀ q ∈ l, (f q).length = w) {i : Nat} (hi : i < l.length) :
    (l.map f).flatten.drop (i * w) = f l[i] ++ ((l.drop (i + 1)).map f).flatten := by
  have hsplit : l = l.take i ++ l[i] :: l.drop (i + 1) := by
    rw [← drop_eq_getElem_cons hi, take_append_drop]
  have hlen : ((l.take i).map f).flatten.length = i * w := by
    rw [length_flatten_of_width, length_map, length_take_of_le hi.le,
      Nat.mul_comm]
    intro x hx
    obtain ⟨q, hq, rfl⟩ := mem_map.mp hx
    exact h q (mem_of_mem_take hq)
  conv_lhs => rw [hsplit]
  rw [map_append, flatten_append, ← hlen, drop_left, map_cons,
    flatten_cons]

end

/-! ## The disjunction of the results -/

theorem word_flatten {l : List Nat} {f : Nat → BitVec 32} {i : Nat} (hi : i < l.length) :
    word (l.map fun q => leBytes 4 (f q).toNat).flatten i = f l[i] := by
  have hdrop := drop_flatten (f := fun q => leBytes 4 (f q).toNat)
    (fun _ _ => length_leBytes 4 _) hi
  rw [word, Nat.mul_comm, hdrop, take_append_of_le_length (by simp),
    take_of_length_le (by simp), leValue_leBytes,
    Nat.mod_eq_of_lt (show _ < 256 ^ 4 from (f l[i]).isLt),
    BitVec.ofNat_toNat, BitVec.setWidth_eq]

theorem foldl_word {l : List Nat} {f : Nat → BitVec 32} {n : Nat} (hperm : l.Perm (range n)) :
    (range n).foldl
        (fun total i => total ||| word (l.map fun q => leBytes 4 (f q).toNat).flatten i) 0 =
      (range n).foldl (fun total q => total ||| f q) 0 := by
  have hlen : l.length = n := by rw [hperm.length_eq, length_range]
  have hmap : (range n).map (word (l.map fun q => leBytes 4 (f q).toNat).flatten) =
      l.map f := by
    apply ext_getElem (by simp [hlen])
    intro i hi hi'
    rw [getElem_map, getElem_map, getElem_range, word_flatten]
  have hcomm : ∀ x ∈ l, ∀ y ∈ l, ∀ z : BitVec 32, z ||| f x ||| f y = z ||| f y ||| f x := by
    intro x _ y _ z
    rw [BitVec.or_assoc, BitVec.or_comm (f x), BitVec.or_assoc]
  calc (range n).foldl
        (fun total i => total ||| word (l.map fun q => leBytes 4 (f q).toNat).flatten i) 0
      = ((range n).map (word (l.map fun q => leBytes 4 (f q).toNat).flatten)).foldl
          (· ||| ·) 0 := (foldl_map).symm
    _ = l.foldl (fun total q => total ||| f q) 0 := by rw [hmap, foldl_map]
    _ = (range n).foldl (fun total q => total ||| f q) 0 := hperm.foldl_eq' hcomm 0

/-! ## Sorting by rank -/

theorem pairwise_pairLe (l : List (Nat × Nat)) :
    (l.mergeSort pairLe).Pairwise fun a b => pairLe a b = true := by
  refine pairwise_mergeSort ?_ ?_ l
  · intro a b c hab hbc
    simp only [pairLe, decide_eq_true_eq] at hab hbc ⊢
    omega
  · simp only [pairLe, Bool.or_eq_true, decide_eq_true_eq]
    omega

theorem pairLe_antisymm {a b : Nat × Nat} (hab : pairLe a b = true) (hba : pairLe b a = true) :
    a = b := by
  simp only [pairLe, decide_eq_true_eq] at hab hba
  exact Prod.ext (by omega) (by omega)

theorem inRankOrder_perm (n : Nat) (rank : Nat → UInt32) :
    (inRankOrder n rank).Perm (range n) :=
  mergeSort_perm _ _

theorem pairwise_inRankOrder {n : Nat} {rank : Nat → UInt32}
    (hrank : ∀ i j, i < n → j < n → rank i = rank j → i = j) :
    (inRankOrder n rank).Pairwise fun i j => (rank i).toNat < (rank j).toNat := by
  have hle : (inRankOrder n rank).Pairwise fun i j => decide (rank i ≤ rank j) = true := by
    refine pairwise_mergeSort ?_ ?_ _
    · intro a b c hab hbc
      rw [decide_eq_true_eq] at hab hbc ⊢
      exact UInt32.le_trans hab hbc
    · intro a b
      rw [Bool.or_eq_true, decide_eq_true_eq, decide_eq_true_eq]
      exact UInt32.le_total _ _
  have hnodup : (inRankOrder n rank).Nodup :=
    (inRankOrder_perm n rank).nodup_iff.mpr nodup_range
  refine (hle.and hnodup).imp_of_mem ?_
  rintro i j hi hj ⟨hle, hne⟩
  rw [decide_eq_true_eq] at hle
  refine lt_of_le_of_ne hle fun heq => hne ?_
  have hlt : ∀ {q}, q ∈ inRankOrder n rank → q < n := fun hq =>
    mem_range.mp ((inRankOrder_perm n rank).mem_iff.mp hq)
  exact hrank i j (hlt hi) (hlt hj) (UInt32.toNat_inj.mp heq)

section

variable {n sendSize : Nat} {rank : Nat → UInt32} {send : Nat → Bytes} {l : List Nat}

/-- Where the input of a member stands in the value, as `SortGatherRecv` sees it. -/
def offsetOf (rank : Nat → UInt32) (l : List Nat) (sendSize q : Nat) : Nat × Nat :=
  ((rank q).toNat, l.idxOf q * (sendSize + 4) + 4)

theorem length_gatherInput (rank : Nat → UInt32) (hsend : ∀ q ∈ l, (send q).length = sendSize)
    (q : Nat) (hq : q ∈ l) : (gatherInput (rank q) (send q)).length = sendSize + 4 := by
  rw [gatherInput, length_append, length_leBytes, hsend q hq, Nat.add_comm]

theorem take_drop_offsetOf (hsend : ∀ q ∈ l, (send q).length = sendSize) {q : Nat} (hq : q ∈ l) :
    (((l.map fun q => gatherInput (rank q) (send q)).flatten.drop
      (offsetOf rank l sendSize q).2).take sendSize) = send q := by
  have hi := idxOf_lt_length_of_mem hq
  have hdrop := drop_flatten
    (length_gatherInput rank hsend) hi
  rw [getElem_idxOf] at hdrop
  rw [offsetOf, ← drop_drop, hdrop, gatherInput, append_assoc]
  rw [drop_left' (length_leBytes 4 _), take_left' (hsend q hq)]

theorem offsets_eq (hperm : l.Perm (range n))
    (hsend : ∀ q ∈ l, (send q).length = sendSize) (hlt : n * (sendSize + 4) < 2 ^ 32) :
    (range n).map (fun i =>
      (leValue (((l.map fun q => gatherInput (rank q) (send q)).flatten.drop
          (i * ((sendSize + 4) % 2 ^ 32) % 2 ^ 32)).take 4),
        (i * ((sendSize + 4) % 2 ^ 32) % 2 ^ 32 + 4) % 2 ^ 32)) =
      l.map (offsetOf rank l sendSize) := by
  have hlen : l.length = n := by rw [hperm.length_eq, length_range]
  have hnodup : l.Nodup := hperm.nodup_iff.mpr nodup_range
  apply ext_getElem (by simp [hlen])
  intro i hi hi'
  rw [length_map, length_range] at hi
  rw [getElem_map, getElem_map, getElem_range]
  have hi' : i < l.length := by omega
  have hle : (i + 1) * (sendSize + 4) ≤ n * (sendSize + 4) := Nat.mul_le_mul_right _ hi
  rw [Nat.succ_mul] at hle
  have hunit : (sendSize + 4) % 2 ^ 32 = sendSize + 4 := Nat.mod_eq_of_lt (by omega)
  have hpos : i * (sendSize + 4) % 2 ^ 32 = i * (sendSize + 4) := Nat.mod_eq_of_lt (by omega)
  have hoff : (i * (sendSize + 4) + 4) % 2 ^ 32 = i * (sendSize + 4) + 4 :=
    Nat.mod_eq_of_lt (by omega)
  have hdrop := drop_flatten
    (length_gatherInput rank hsend) hi'
  rw [hunit, hpos, hoff, hdrop, offsetOf, hnodup.idxOf_getElem, gatherInput, append_assoc,
    take_left' (length_leBytes 4 _), leValue_leBytes,
    Nat.mod_eq_of_lt (show _ < 256 ^ 4 from (rank l[i]).toNat_lt)]

theorem sortGatherRecv_eq (hrank : ∀ i j, i < n → j < n → rank i = rank j → i = j)
    (hperm : l.Perm (range n)) (hsend : ∀ q ∈ l, (send q).length = sendSize)
    (hlt : n * (sendSize + 4) < 2 ^ 32) :
    sortGatherRecv (l.map fun q => gatherInput (rank q) (send q)).flatten sendSize n =
      (inRankOrder n rank).flatMap send := by
  have hsorted : (l.map (offsetOf rank l sendSize)).mergeSort pairLe =
      (inRankOrder n rank).map (offsetOf rank l sendSize) := by
    refine Perm.eq_of_pairwise (fun a b _ _ => pairLe_antisymm) (pairwise_pairLe _) ?_ ?_
    · rw [pairwise_map]
      refine (pairwise_inRankOrder hrank).imp fun h => ?_
      exact decide_eq_true (Or.inl h)
    · exact (mergeSort_perm _ _).trans
        ((hperm.trans (inRankOrder_perm n rank).symm).map _)
  rw [sortGatherRecv, offsets_eq hperm hsend hlt, hsorted, flatMap_map]
  refine flatMap_congr fun q hq => ?_
  exact take_drop_offsetOf hsend (hperm.mem_iff.mpr ((inRankOrder_perm n rank).mem_iff.mp hq))

end

/-! ## Runs of gathers -/

/-- The ranks of the group call `GroupAllGather` and `GroupGatherResult` in the order of the
plan, with sizes that fit, each of them fewer than `2 ^ 32` times. -/
def GatherCalls (n : UInt32) (plan : Nat → Shape) (s : System) : Input → Prop
  | .exec _ => True
  | .call i c =>
    i < n.toNat ∧ c.channel = .gather ∧
      c.shape = plan (s.members i).engine.allGatherGroupSn.toNat ∧ c.Fits n.toNat ∧
      (s.members i).engine.allGatherGroupSn.toNat + 1 < 2 ^ 32

instance (n : UInt32) (plan : Nat → Shape) (s : System) (input : Input) :
    Decidable (GatherCalls n plan s input) :=
  match input with
  | .exec _ => inferInstanceAs (Decidable True)
  | .call _ _ => inferInstanceAs (Decidable (_ ∧ _ ∧ _ ∧ _ ∧ _))

theorem allowed_of_gatherCalls {n : UInt32} {plan : Nat → Shape} {s : System} {input : Input}
    (h : GatherCalls n plan s input) : Allowed n (fun _ => plan) s input := by
  cases input with
  | exec i => trivial
  | call i c =>
    obtain ⟨hi, hch, hplan, hfits, hsn⟩ := h
    exact ⟨hi, hfits, by rw [hch]; exact hplan, by rw [hch]; exact hsn⟩

section

variable {n : UInt32} {rank : Nat → UInt32} {plan : Nat → Shape} {log : List Event} {k : Nat}
  {l : List Nat}

/-- A gather returns what it has to, if all have made the same kind of call. -/
theorem outcome_eq_expected (hrank : ∀ i j, i < n.toNat → j < n.toNat → rank i = rank j → i = j)
    (hcalls : ∀ q, q < n.toNat → ∃ c, (calls .gather q log)[k]? = some c ∧
      c.channel = .gather ∧ c.shape = plan k) (hperm : l.Perm (range n.toNat)) {c : Call}
    (hch : c.channel = .gather) (hshape : c.shape = plan k) (hfits : c.Fits n.toNat) :
    c.outcome n.toNat (l.map (inputAt rank .gather k log)).flatten =
      expected n.toNat rank log k (plan k) := by
  have hlt : ∀ {q}, q ∈ l → q < n.toNat := fun hq => mem_range.mp (hperm.mem_iff.mp hq)
  cases c with
  | barrier => cases hch
  | gatherResult localRet =>
    have hplan : plan k = .result := hshape.symm
    have hinput : l.map (inputAt rank .gather k log) =
        l.map fun q => leBytes 4 (localRetAt log k q).toNat := by
      refine map_congr_left fun q hq => ?_
      obtain ⟨c', hc', -, hshape'⟩ := hcalls q (hlt hq)
      rw [hplan] at hshape'
      cases c' with
      | gatherResult localRet' => simp only [inputAt, localRetAt, hc', Option.elim_some, Call.input]
      | barrier => cases hshape'
      | allGather sendBuf recvSize => cases hshape'
    rw [hinput, hplan, Call.outcome, expected, foldl_word hperm]
  | allGather sendBuf recvSize =>
    have hplan : plan k = .all sendBuf.length := hshape.symm
    obtain ⟨-, hsize⟩ := hfits
    have hsend : ∀ q ∈ l, inputAt rank .gather k log q =
        gatherInput (rank q) (sendBufAt log k q) ∧ (sendBufAt log k q).length = sendBuf.length := by
      intro q hq
      obtain ⟨c', hc', -, hshape'⟩ := hcalls q (hlt hq)
      rw [hplan] at hshape'
      cases c' with
      | allGather sendBuf' recvSize' =>
        simp only [inputAt, sendBufAt, hc', Option.elim_some, Call.input, true_and]
        exact Shape.all.inj hshape'
      | barrier => cases hshape'
      | gatherResult localRet => cases hshape'
    rw [map_congr_left fun q hq => (hsend q hq).1, hplan, Call.outcome, expected,
      sortGatherRecv_eq hrank hperm (fun q hq => (hsend q hq).2) hsize]

end

/-- In every run of gathers: the `k`-th call returns on every rank the buffers, or the
disjunction of the results, that all ranks have brought to their `k`-th call; if all have
made their `k`-th call, each of them can finish it; and no key is removed that is still
used. -/
theorem gather_correct {n : UInt32} (hn : 0 < n.toNat) {rank : Nat → UInt32}
    (hrank : ∀ i j, i < n.toNat → j < n.toNat → rank i = rank j → i = j) {plan : Nat → Shape}
    {log : List Event} {s : System}
    (h : Trace step (GatherCalls n plan) (System.start n rank) log s) :
    (∀ i k o, (results .gather i log)[k]? = some o →
      (∀ q, q < n.toNat → k < (calls .gather q log).length) ∧
        o = expected n.toNat rank log k (plan k)) ∧
      (∀ k, (∀ q, q < n.toNat → k ≤ (calls .gather q log).length) → ∀ i, i < n.toNat →
        ∃ out s', Trace step GoesOn s out s' ∧ k ≤ (results .gather i (log ++ out)).length) ∧
      RemovedUnused log := by
  have hinv : Inv n rank (fun _ => plan) log s :=
    inv_of_trace hn (h.mono fun _ _ => allowed_of_gatherCalls)
  refine ⟨fun i k o ho => ?_, fun k hk i hi => hinv.finishes hk hi, hinv.removedUnused⟩
  obtain ⟨c, -, hch, hshape, hfits, hmade, l, hperm, rfl⟩ := hinv.gathered ho
  refine ⟨hmade, outcome_eq_expected hrank (fun q hq => ?_) hperm hch hshape hfits⟩
  have hc := getElem?_eq_getElem (hmade q hq)
  obtain ⟨hch', hshape', -⟩ := hinv.planned hc
  exact ⟨_, hc, hch', hshape'⟩

def oneGather : List Input :=
  [.call 1 (.gatherResult 2), .exec 1, .call 0 (.gatherResult 1), .exec 0, .exec 0, .exec 0,
    .exec 0, .exec 0, .exec 1, .exec 1, .exec 1]

theorem gather_correct_oneGather :
    (results .gather 1 (run step (System.start 2 ofNat) oneGather).2)[0]? =
        some { ret := smOk, totalRet := 3 } ∧
      (⟨smOk, [], 3⟩ : Outcome) = expected 2 ofNat
        (run step (System.start 2 ofNat) oneGather).2 0 .result := by
  have hresult : (results .gather 1 (run step (System.start 2 ofNat) oneGather).2)[0]? =
      some { ret := smOk, totalRet := 3 } := by decide +kernel
  have hrank : ∀ i, i < 2 → ∀ j, j < 2 → ofNat i = ofNat j → i = j := by decide
  have htrace : Trace step (GatherCalls 2 fun _ => .result) (System.start 2 ofNat)
      (run step (System.start 2 ofNat) oneGather).2
      (run step (System.start 2 ofNat) oneGather).1 :=
    trace_run_of_allowed (by decide +kernel)
  refine ⟨hresult, ?_⟩
  exact ((gather_correct (n := 2) (by decide) (fun i j hi hj => hrank i hi j hj) htrace).1
    1 0 _ hresult).2

/-- With `2 ^ 32 + 1` calls a rank finds the inputs of the first call and fails. -/
theorem gather_fails_alone :
    ∃ log s, Trace step (Repeats 2 (.gatherResult 0)) (System.start 2 ofNat) log s ∧
      ∃ o ∈ results .gather 0 log, o.ret = smError := by
  obtain ⟨log, s, htrace, h⟩ := exists_wrapped (.inr rfl) ofNat
  obtain ⟨out, kv', e, keys, hpass, hsilent, hsize, hvalue⟩ := h.passes_alone (.inr rfl)
  refine ⟨_, _, (htrace.trans hpass).trans trace_read, { ret := smError }, ?_, rfl⟩
  rw [results_append, mem_append]
  have hlookup : kv'.lookup ((e.nextSn .gather).addKey .gather) =
      some (encode .gather [leBytes 4 0, leBytes 4 0, leBytes 4 0]) := hvalue
  rw [hlookup]
  simp [results, Call.channel, encode, Call.input, hsize]

end MemFabric.Smem.Collective
