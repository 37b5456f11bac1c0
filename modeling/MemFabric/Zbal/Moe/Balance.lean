import Mathlib.Algebra.BigOperators.Intervals
import Mathlib.Algebra.Order.BigOperators.Group.Finset
import Mathlib.Data.Nat.ModEq
import MemFabric.Machine.Shares

/-!
# Balanced dispatch and combine

`BuildBalanceMatrix`: when the ranks have many tokens, those that have more than the average
leave some of theirs to those that have less.  A rank handles a range of the tokens of every
rank, and its cores share the entries of the range.
-/

namespace MemFabric.Zbal.Balance

open Machine List Nat

/-! ## The matrix -/

/-- A number in the 24 bits of a `float`: the nearest one, and of two the even one. -/
def toFloat (n : Nat) : Nat :=
  let unit := 2 ^ (n.log2 - 23)
  let rest := n % unit
  if unit < 2 * rest ∨ unit = 2 * rest ∧ n / unit % 2 = 1 then (n / unit + 1) * unit
  else n / unit * unit

/-- `1.2f` in units of `2 ^ -23`.  `Init` assigns its parameters to themselves, so that the
factors keep their first values. -/
def factorHigh : Nat := 10066330

def rebalanceMinTokenNum : Nat := 128

/-- `matrix src tar` is the first and the last token of `tar` that `src` handles, or none if
there is `-1`. -/
structure State where
  matrix : Nat → Nat → Option (Nat × Nat)
  capacity : Nat → Nat

structure Helping extends State where
  remainTokens : Nat
  curStart : Nat

/-- One round of the loop over `helpRank`. -/
def helpRound (tarRankId : Nat) (s : Helping) (helpRank : Nat) : Helping :=
  if helpRank ≠ tarRankId ∧ 0 < s.capacity helpRank ∧ 0 < s.remainTokens then
    let allocCnt := min (s.capacity helpRank) s.remainTokens
    { matrix := Function.update s.matrix helpRank
        (Function.update (s.matrix helpRank) tarRankId
          (some (s.curStart, s.curStart + allocCnt - 1)))
      capacity := Function.update s.capacity helpRank (s.capacity helpRank - allocCnt)
      remainTokens := s.remainTokens - allocCnt
      curStart := s.curStart + allocCnt }
  else s

structure Load where
  epWorldSize : Nat
  bsPerRank : Nat → Nat

namespace Load

variable (k : Load)

def totalTokens : Nat := ∑ i ∈ Finset.range k.epWorldSize, k.bsPerRank i

def avgTokens : Nat := k.totalTokens / k.epWorldSize

/-- `CAST_CEIL` of the product with `factorHigh`, or with `factorLow`, which is one. -/
def processCapacity (i : Nat) : Nat :=
  if k.avgTokens < k.bsPerRank i then
    (toFloat (toFloat k.avgTokens * factorHigh) + (2 ^ 23 - 1)) / 2 ^ 23
  else toFloat k.avgTokens

def isNeedBalance : Bool := decide (rebalanceMinTokenNum < k.avgTokens)

/-- The own tokens that a rank handles. -/
def processCount (i : Nat) : Nat :=
  if k.isNeedBalance then min (k.processCapacity i) (k.bsPerRank i) else k.bsPerRank i

/-- After the first loop.  What is left of the capacity is used only if there is a need. -/
def ownTokens : State where
  matrix src tar :=
    if src = tar ∧ 0 < k.bsPerRank src then some (0, k.processCount src - 1) else none
  capacity i := k.processCapacity i - k.processCount i

def processedCnt (s : State) (tarRankId : Nat) : Nat :=
  ∑ src ∈ Finset.range k.epWorldSize,
    ((s.matrix src tarRankId).elim 0 fun range => range.2 + 1 - range.1)

def helpTarget (s : State) (tarRankId : Nat) : State :=
  if k.isNeedBalance = true ∧ k.bsPerRank tarRankId ≠ 0 then
    let processedCnt := k.processedCnt s tarRankId
    ((range k.epWorldSize).foldl (helpRound tarRankId)
      ⟨s, k.bsPerRank tarRankId - processedCnt, processedCnt⟩).toState
  else s

def buildBalanceMatrix : Nat → Nat → Option (Nat × Nat) :=
  ((range k.epWorldSize).foldl k.helpTarget k.ownTokens).matrix

end Load

/-! ## Who handles what -/

/-- `SplitCoreCal`: the first entry of a core and the number of its entries. -/
def splitCoreCal (totalNum blockNum blockIdx : Nat) : Nat × Nat :=
  let perCoreNum := totalNum / blockNum
  let remainder := totalNum % blockNum
  if blockIdx < remainder then (perCoreNum * blockIdx + blockIdx, perCoreNum + 1)
  else (perCoreNum * blockIdx + remainder, perCoreNum)

/-- `DispatchForTargetRank` and `ReadAndWriteForTargetRank`: the entries that a core handles.
The dispatch has `topK` entries for a token, the combine one.  Everything that is read for an
entry is read at its rank. -/
def forTargetRank (perToken blockNum blockIdx tarRankId : Nat) (range : Nat × Nat) :
    List (Nat × Nat) :=
  let split := splitCoreCal ((range.2 + 1 - range.1) * perToken) blockNum blockIdx
  (range' (split.1 + range.1 * perToken) split.2).map (tarRankId, ·)

namespace Load

variable (k : Load)

def handleAllRankToken (perToken blockNum epRankId blockIdx : Nat) : List (Nat × Nat) :=
  (range k.epWorldSize).flatMap fun i =>
    let tarRankId := (epRankId + i) % k.epWorldSize
    (k.buildBalanceMatrix epRankId tarRankId).elim []
      (forTargetRank perToken blockNum blockIdx tarRankId)

/-- Without balancing: `InputToDstOutput` and `ReadTokenFromRemote`. -/
def handleOwnToken (perToken blockNum epRankId blockIdx : Nat) : List (Nat × Nat) :=
  let split := splitCoreCal (k.bsPerRank epRankId * perToken) blockNum blockIdx
  (range' split.1 split.2).map (epRankId, ·)

def handledBy (blockNum : Nat) (handle : Nat → Nat → List (Nat × Nat)) : List (Nat × Nat) :=
  (range k.epWorldSize).flatMap fun rank => (range blockNum).flatMap (handle rank)

/-- Every entry of the first `counts i` tokens of each rank `i` is handled once, and no other. -/
structure HandlesOnce (counts : Nat → Nat) (perToken blockNum : Nat)
    (handle : Nat → Nat → List (Nat × Nat)) : Prop where
  nodup : (k.handledBy blockNum handle).Nodup
  mem_iff : ∀ e, e ∈ k.handledBy blockNum handle ↔
    e.1 < k.epWorldSize ∧ e.2 < counts e.1 * perToken

def Covers (range : Option (Nat × Nat)) (token : Nat) : Prop :=
  ∃ r ∈ range, r.1 ≤ token ∧ token ≤ r.2

/-- The ranges that the ranks have in a column tile the first `n` tokens. -/
structure Tiles (column : Nat → Option (Nat × Nat)) (n : Nat) : Prop where
  inside : ∀ src token, Covers (column src) token → src < k.epWorldSize ∧ token < n
  once : ∀ token < n, ∃! src, Covers (column src) token

variable {k}

/-- A rank that has no range yet takes the next one. -/
theorem Tiles.update {column : Nat → Option (Nat × Nat)} {n a src : Nat} (h : k.Tiles column n)
    (hsrc : src < k.epWorldSize) (hnone : column src = none) (ha : 0 < a) :
    k.Tiles (Function.update column src (some (n, n + a - 1))) (n + a) := by
  have hcovers : ∀ j token, Covers (Function.update column src (some (n, n + a - 1)) j) token ↔
      j = src ∧ n ≤ token ∧ token < n + a ∨ Covers (column j) token := by
    intro j token
    by_cases hj : j = src
    · subst hj
      simp only [Covers, hnone]
      simp
      omega
    · simp [hj]
  refine ⟨fun j token hj => ?_, fun token htoken => ?_⟩
  · rcases (hcovers j token).mp hj with ⟨rfl, -, hlt⟩ | hold
    · exact ⟨hsrc, hlt⟩
    · exact ⟨(h.inside j token hold).1, by have := (h.inside j token hold).2; omega⟩
  · by_cases hn : token < n
    · obtain ⟨j, hj, hunique⟩ := h.once token hn
      refine ⟨j, (hcovers j token).mpr (.inr hj), fun i hi => hunique i ?_⟩
      exact ((hcovers i token).mp hi).resolve_left fun hnew => by omega
    · refine ⟨src, (hcovers src token).mpr (.inl ⟨rfl, by omega, htoken⟩), fun i hi => ?_⟩
      rcases (hcovers i token).mp hi with ⟨rfl, -⟩ | hold
      · rfl
      · exact absurd (h.inside i token hold).2 hn

theorem Tiles.le {column : Nat → Option (Nat × Nat)} {m n : Nat} (hm : k.Tiles column m)
    (hn : k.Tiles column n) : m ≤ n := by
  by_contra hlt
  obtain ⟨src, hcover, -⟩ := hm.once n (not_le.mp hlt)
  exact lt_irrefl n (hn.inside src n hcover).2

theorem tiles_none : k.Tiles (fun _ => none) 0 where
  inside _ _ h := by simp [Covers] at h
  once token h := absurd h (not_lt_zero token)

theorem tiles_own {tar n : Nat} (htar : tar < k.epWorldSize) (hn : 0 < n ↔ 0 < k.bsPerRank tar) :
    k.Tiles (fun src => if src = tar ∧ 0 < k.bsPerRank src then some (0, n - 1) else none) n := by
  rcases Nat.eq_zero_or_pos n with rfl | hpos
  · convert tiles_none using 2 with src
    rw [if_neg]
    rintro ⟨rfl, h⟩
    exact lt_irrefl 0 (hn.mpr h)
  · convert tiles_none.update htar rfl hpos using 2 with src
    · by_cases hsrc : src = tar
      · subst hsrc
        rw [Function.update_self, if_pos ⟨rfl, hn.mp hpos⟩, zero_add]
      · rw [Function.update_of_ne hsrc, if_neg fun h => hsrc h.1]
    · rw [zero_add]

/-! ## The loops -/

theorem foldl_range_induct {σ : Type} {f : σ → Nat → σ} {n : Nat} {s : σ} (I : Nat → σ → Prop)
    (h0 : I 0 s) (hstep : ∀ i < n, ∀ s, I i s → I (i + 1) (f s i)) :
    I n ((range n).foldl f s) := by
  induction n with
  | zero => exact h0
  | succ n ih =>
    rw [range_succ, foldl_append]
    exact hstep n (lt_succ_self n) _ (ih fun i hi => hstep i (lt_succ_of_lt hi))

theorem sum_update_add {f : Nat → Nat} {n i v : Nat} (hi : i < n) :
    ∑ j ∈ Finset.range n, Function.update f i v j + f i = ∑ j ∈ Finset.range n, f j + v := by
  rw [Finset.sum_update_of_mem (Finset.mem_range.mpr hi),
    ← Finset.add_sum_erase _ f (Finset.mem_range.mpr hi), Finset.sdiff_singleton_eq_erase]
  omega

variable (k) in
/-- What the rounds for the first `h` ranks have done to `s0`, for `n` tokens of the rank. -/
structure Helped (n tar : Nat) (s0 : State) (h : Nat) (s : Helping) : Prop where
  tiles : k.Tiles (fun src => s.matrix src tar) s.curStart
  free : ∀ src, h ≤ src → src ≠ tar → s.matrix src tar = none
  other : ∀ src tar', tar' ≠ tar → s.matrix src tar' = s0.matrix src tar'
  total : s.curStart + s.remainTokens = n
  le : ∀ i, s.capacity i ≤ s0.capacity i
  moved : ∑ i ∈ Finset.range k.epWorldSize, s.capacity i + s.curStart =
    ∑ i ∈ Finset.range k.epWorldSize, s0.capacity i + k.processedCnt s0 tar
  used : s.remainTokens = 0 ∨ ∀ i < h, i ≠ tar → s.capacity i = 0

theorem Helped.round {n tar h : Nat} {s0 : State} {s : Helping} (hs : k.Helped n tar s0 h s)
    (hh : h < k.epWorldSize) : k.Helped n tar s0 (h + 1) (helpRound tar s h) := by
  have hfree : ∀ src, h + 1 ≤ src → src ≠ tar → s.matrix src tar = none := fun src hle =>
    hs.free src (le_of_succ_le hle)
  have htotal := hs.total
  rw [helpRound]
  split
  · next hhelps =>
    obtain ⟨hne, hcapacity, hremain⟩ := hhelps
    set alloc := min (s.capacity h) s.remainTokens
    constructor
    case tiles =>
      convert hs.tiles.update hh (hs.free h le_rfl hne) (lt_min hcapacity hremain) using 2 with src
      by_cases hsrc : src = h
      · subst hsrc
        simp [alloc]
      · simp [hsrc]
    case free =>
      intro src hsrc hne'
      dsimp only
      rw [Function.update_of_ne (by omega)]
      exact hfree src hsrc hne'
    case other =>
      intro src tar' htar
      rw [← hs.other src tar' htar]
      by_cases hsrc : src = h
      · subst hsrc
        simp [htar]
      · simp [hsrc]
    case total =>
      dsimp only
      omega
    case le =>
      intro i
      refine le_trans ?_ (hs.le i)
      by_cases hi : i = h
      · subst hi
        simp
      · simp [hi]
    case moved =>
      have hsum := sum_update_add (f := s.capacity) (v := s.capacity h - alloc) hh
      have := hs.moved
      dsimp only
      omega
    case used =>
      by_cases hmin : s.capacity h ≤ s.remainTokens
      · refine .inr fun i hi hne' => ?_
        dsimp only
        rw [Function.update_apply]
        split
        next => omega
        next => exact hs.used.resolve_left hremain.ne' i (by omega) hne'
      · exact .inl (by dsimp only; omega)
  · next hhelps =>
    refine ⟨hs.tiles, hfree, hs.other, htotal, hs.le, hs.moved, or_iff_not_imp_left.mpr ?_⟩
    intro hremain i hi hne
    rcases Nat.lt_succ_iff_lt_or_eq.mp hi with hlt | rfl
    · exact hs.used.resolve_left hremain i hlt hne
    · by_contra hcapacity
      exact hhelps ⟨hne, pos_of_ne_zero hcapacity, pos_of_ne_zero hremain⟩

variable (k) in
/-- The tokens of a rank that are left to others. -/
def surplus (tar : Nat) : Nat := k.bsPerRank tar - k.processCount tar

variable (k) in
/-- Before the loop turns to the rank `t`, when `counts` tokens of each rank have been given
to somebody. -/
structure Inv (counts : Nat → Nat) (t : Nat) (s : State) : Prop where
  tiled : ∀ tar < k.epWorldSize, k.Tiles (fun src => s.matrix src tar) (counts tar)
  own : ∀ tar, t ≤ tar → counts tar = k.processCount tar ∧ ∀ src, s.matrix src tar =
    if src = tar ∧ 0 < k.bsPerRank src then some (0, k.processCount tar - 1) else none
  le : ∀ tar, counts tar ≤ k.bsPerRank tar
  moved : ∑ i ∈ Finset.range k.epWorldSize, s.capacity i +
    ∑ tar ∈ Finset.range k.epWorldSize, counts tar =
      ∑ i ∈ Finset.range k.epWorldSize, k.processCapacity i
  spent : ∀ i, 0 < k.surplus i → s.capacity i = 0
  full : (∀ tar < t, counts tar = k.bsPerRank tar) ∨ ∀ i < k.epWorldSize, s.capacity i = 0

theorem ownTokens_matrix (src tar : Nat) : k.ownTokens.matrix src tar =
    if src = tar ∧ 0 < k.bsPerRank src then some (0, k.processCount tar - 1) else none := by
  rw [ownTokens]
  dsimp only
  split
  next heq => rw [heq.1]
  next => rfl

theorem toFloat_pos {n : Nat} (hn : 0 < n) : 0 < toFloat n := by
  have hle : 2 ^ (n.log2 - 23) ≤ n :=
    (Nat.pow_le_pow_right Nat.two_pos (Nat.sub_le _ _)).trans (Nat.log2_self_le hn.ne')
  have hpos : 0 < 2 ^ (n.log2 - 23) := Nat.two_pow_pos _
  rw [toFloat]
  split
  · exact Nat.mul_pos (Nat.succ_pos _) hpos
  · exact Nat.mul_pos (Nat.div_pos hle hpos) hpos

section

variable {t : Nat} {counts : Nat → Nat} {s : State} (hneed : k.isNeedBalance = true)

include hneed

theorem processCount_eq : k.processCount t = min (k.processCapacity t) (k.bsPerRank t) := by
  rw [processCount, if_pos hneed]

theorem processCount_pos_iff : 0 < k.processCount t ↔ 0 < k.bsPerRank t := by
  have havg : 128 < k.avgTokens := of_decide_eq_true hneed
  have hpos := toFloat_pos (Nat.zero_lt_of_lt havg)
  have hproduct := toFloat_pos (Nat.mul_pos hpos (by decide : 0 < factorHigh))
  have hcapacity : 0 < k.processCapacity t := by
    rw [processCapacity]
    split <;> omega
  rw [processCount_eq hneed]
  omega

theorem surplus_add : k.surplus t + k.processCount t = k.bsPerRank t := by
  rw [surplus, processCount_eq hneed]
  omega

/-- In a column that nobody has helped with, only the rank itself has a range. -/
theorem Inv.processedCnt_eq (h : k.Inv counts t s) (ht : t < k.epWorldSize)
    (hbs : 0 < k.bsPerRank t) : k.processedCnt s t = k.processCount t := by
  have hown := (h.own t le_rfl).2
  rw [processedCnt, Finset.sum_eq_single_of_mem t (Finset.mem_range.mpr ht)]
  · rw [hown, if_pos ⟨rfl, hbs⟩]
    exact Nat.sub_add_cancel ((processCount_pos_iff hneed).mpr hbs)
  · intro src _ hne
    rw [hown, if_neg fun heq => hne heq.1]
    rfl

theorem Inv.helpTarget (h : k.Inv counts t s) (ht : t < k.epWorldSize) :
    ∃ counts', k.Inv counts' (t + 1) (k.helpTarget s t) := by
  obtain ⟨hcounts, hown⟩ := h.own t le_rfl
  have hsurplus := surplus_add hneed (t := t)
  rw [Load.helpTarget]
  split
  · next hhelp =>
    have hprocessed := h.processedCnt_eq hneed ht (pos_of_ne_zero hhelp.2)
    have hstart : k.Helped (k.bsPerRank t) t s 0
        ⟨s, k.bsPerRank t - k.processedCnt s t, k.processedCnt s t⟩ := by
      refine ⟨hprocessed ▸ hcounts ▸ h.tiled t ht, fun src _ hne => ?_, fun _ _ _ => rfl, ?_,
        fun _ => le_rfl, rfl, .inr fun i hi => absurd hi (not_lt_zero i)⟩
      · exact (hown src).trans (if_neg fun heq => hne heq.1)
      · dsimp only
        omega
    have hr := foldl_range_induct (k.Helped (k.bsPerRank t) t s) hstart fun i hi r hr => hr.round hi
    dsimp only
    generalize (range k.epWorldSize).foldl (helpRound t) _ = r at hr ⊢
    have htotal := hr.total
    have hspent : ∀ i, s.capacity i = 0 → r.capacity i = 0 := fun i hi =>
      le_zero.mp (hi ▸ hr.le i)
    refine ⟨Function.update counts t r.curStart, fun tar htar => ?_, fun tar htar => ?_,
      fun tar => ?_, ?_, fun i hi => hspent i (h.spent i hi), ?_⟩
    · by_cases heq : tar = t
      · subst heq
        rw [Function.update_self]
        exact hr.tiles
      · simp only [hr.other _ tar heq, Function.update_of_ne heq]
        exact h.tiled tar htar
    · have hne : tar ≠ t := by omega
      simp only [hr.other _ tar hne, Function.update_of_ne hne]
      exact h.own tar (by omega)
    · rw [Function.update_apply]
      split
      next heq =>
        rw [heq]
        omega
      next => exact h.le tar
    · have hsum := sum_update_add (f := counts) (v := r.curStart) ht
      have hmoved := hr.moved
      have := h.moved
      omega
    · -- either nothing is left of the rank's tokens, or nobody has room
      by_cases hrest : r.remainTokens = 0
      · refine h.full.imp (fun hfull tar htar => ?_) fun hzero i hi => hspent i (hzero i hi)
        rw [Function.update_apply]
        split
        next heq =>
          rw [heq]
          omega
        next hne => exact hfull tar (by omega)
      · refine .inr fun i hi => ?_
        by_cases heq : i = t
        · have hmoved := hr.moved
          have hle := Finset.sum_le_sum fun i (_ : i ∈ Finset.range k.epWorldSize) => hr.le i
          rw [heq]
          exact hspent t (h.spent t (by omega))
        · exact hr.used.resolve_left hrest i hi heq
  · next hhelp =>
    have hbs : k.bsPerRank t = 0 := by
      by_contra hne
      exact hhelp ⟨hneed, hne⟩
    have hzero := h.le t
    refine ⟨counts, h.tiled, fun tar htar => h.own tar (by omega), h.le, h.moved, h.spent,
      h.full.imp_left fun hfull tar htar => ?_⟩
    rcases Nat.lt_succ_iff_lt_or_eq.mp htar with hlt | rfl
    · exact hfull tar hlt
    · omega

theorem inv_ownTokens : k.Inv k.processCount 0 k.ownTokens := by
  have hcapacity : ∀ i, k.ownTokens.capacity i = k.processCapacity i - k.processCount i :=
    fun _ => rfl
  refine ⟨fun tar htar => ?_, fun tar _ => ⟨rfl, fun src => ownTokens_matrix src tar⟩,
    fun tar => ?_, ?_, fun i hi => ?_, .inl fun tar htar => absurd htar (not_lt_zero tar)⟩
  · simp only [ownTokens_matrix]
    exact tiles_own htar (processCount_pos_iff hneed)
  · rw [processCount_eq hneed]
    exact min_le_right _ _
  · rw [← Finset.sum_add_distrib]
    refine Finset.sum_congr rfl fun i _ => ?_
    rw [hcapacity, processCount_eq hneed]
    omega
  · rw [surplus, processCount_eq hneed] at hi
    rw [hcapacity, processCount_eq hneed]
    omega

end

variable (k) in
/-- If there is a need for balancing, the ranks have room for all tokens. -/
def Suffices : Prop :=
  k.isNeedBalance = true → k.totalTokens ≤ ∑ i ∈ Finset.range k.epWorldSize, k.processCapacity i

/-- Where nobody helps, every rank has tokens of its own only. -/
theorem buildBalanceMatrix_eq (h : ∀ tar, k.helpTarget k.ownTokens tar = k.ownTokens) :
    k.buildBalanceMatrix = k.ownTokens.matrix := by
  have hloop : (range k.epWorldSize).foldl k.helpTarget k.ownTokens = k.ownTokens :=
    foldl_range_induct (fun _ s => s = k.ownTokens) rfl fun i _ s hs => hs ▸ h i
  rw [buildBalanceMatrix, hloop]

variable (k) in
/-- The matrix gives the first tokens of every rank to somebody, and all of them if and only
if the ranks have room for all. -/
theorem exists_tiles_buildBalanceMatrix : ∃ counts : Nat → Nat,
    (∀ tar < k.epWorldSize, k.Tiles (fun src => k.buildBalanceMatrix src tar) (counts tar)) ∧
      ((∀ tar < k.epWorldSize, counts tar = k.bsPerRank tar) ↔ k.Suffices) := by
  cases hneed : k.isNeedBalance with
  | true =>
    obtain ⟨counts, h⟩ := foldl_range_induct (fun t s => ∃ counts, k.Inv counts t s)
      ⟨_, inv_ownTokens hneed⟩ fun i hi s ⟨_, hs⟩ => hs.helpTarget hneed hi
    have hmoved := h.moved
    refine ⟨counts, h.tiled, fun hall _ => ?_, fun hsuffices => ?_⟩
    · have htotal : k.totalTokens = ∑ tar ∈ Finset.range k.epWorldSize, counts tar :=
        Finset.sum_congr rfl fun tar htar => (hall tar (Finset.mem_range.mp htar)).symm
      omega
    · rcases h.full with hfull | hzero
      · exact hfull
      · have hroom := Finset.sum_eq_zero fun i hi => hzero i (Finset.mem_range.mp hi)
        have hle := fun i (_ : i ∈ Finset.range k.epWorldSize) => h.le i
        have htotal := hsuffices hneed
        have hsum := le_antisymm (Finset.sum_le_sum hle) (by rw [totalTokens] at htotal; omega)
        intro tar htar
        exact (Finset.sum_eq_sum_iff_of_le hle).mp hsum tar (Finset.mem_range.mpr htar)
  | false =>
    have hcount : ∀ i, k.processCount i = k.bsPerRank i := by
      intro i
      rw [processCount, hneed, if_neg Bool.false_ne_true]
    refine ⟨k.bsPerRank, fun tar htar => ?_, fun _ h => absurd h (by simp [hneed]),
      fun _ _ _ => rfl⟩
    rw [buildBalanceMatrix_eq fun tar => by simp [helpTarget, hneed]]
    simp only [ownTokens_matrix, hcount]
    exact tiles_own htar Iff.rfl

end Load

/-! ## The entries -/

section Entries

variable {k : Load} {counts : Nat → Nat} {perToken blockNum core entry : Nat} {range : Nat × Nat}

theorem splitCoreCal_fst (totalNum blockNum blockIdx : Nat) :
    (splitCoreCal totalNum blockNum blockIdx).1 = evenLeft totalNum blockNum blockIdx := by
  rw [splitCoreCal, evenLeft, mul_comm]
  split <;> dsimp only <;> omega

theorem splitCoreCal_add (totalNum blockNum blockIdx : Nat) :
    (splitCoreCal totalNum blockNum blockIdx).1 + (splitCoreCal totalNum blockNum blockIdx).2 =
      evenLeft totalNum blockNum (blockIdx + 1) := by
  rw [splitCoreCal, evenLeft, add_mul, mul_comm]
  split <;> dsimp only <;> omega

def InShare (perToken blockNum core : Nat) (range : Nat × Nat) (entry : Nat) : Prop :=
  range.1 * perToken + evenLeft ((range.2 + 1 - range.1) * perToken) blockNum core ≤ entry ∧
    entry < range.1 * perToken + evenLeft ((range.2 + 1 - range.1) * perToken) blockNum (core + 1)

theorem mem_forTargetRank {rank : Nat} {e : Nat × Nat} :
    e ∈ forTargetRank perToken blockNum core rank range ↔
      e.1 = rank ∧ InShare perToken blockNum core range e.2 := by
  have hadd := splitCoreCal_add ((range.2 + 1 - range.1) * perToken) blockNum core
  rw [forTargetRank, mem_map, InShare, ← splitCoreCal_fst]
  simp only [mem_range'_1]
  constructor
  · rintro ⟨entry, hentry, rfl⟩
    exact ⟨rfl, by dsimp only; omega⟩
  · rintro ⟨rfl, hentry⟩
    exact ⟨e.2, by omega, rfl⟩

theorem token_mem_iff (hpos : 0 < perToken) :
    (range.1 ≤ entry / perToken ∧ entry / perToken ≤ range.2) ↔
      range.1 * perToken ≤ entry ∧ entry < (range.2 + 1) * perToken := by
  rw [Nat.le_div_iff_mul_le hpos, ← Nat.div_lt_iff_lt_mul hpos, Nat.lt_succ_iff]

theorem InShare.token_mem (h : InShare perToken blockNum core range entry)
    (hcore : core < blockNum) :
    0 < perToken ∧ range.1 ≤ entry / perToken ∧ entry / perToken ≤ range.2 := by
  obtain ⟨hle, hlt⟩ := h
  have hmono := evenLeft_mono ((range.2 + 1 - range.1) * perToken) blockNum
    (show core + 1 ≤ blockNum from hcore)
  rw [evenLeft_parts (Nat.zero_lt_of_lt hcore), Nat.sub_mul] at hmono
  rw [Nat.sub_mul] at hle hlt
  have hend : entry < (range.2 + 1) * perToken := by omega
  have hpos : 0 < perToken := pos_of_ne_zero fun hzero => by simp [hzero] at hend
  exact ⟨hpos, (token_mem_iff hpos).mpr ⟨by omega, hend⟩⟩

theorem exists_inShare (hblock : 0 < blockNum) (hpos : 0 < perToken)
    (h : range.1 ≤ entry / perToken ∧ entry / perToken ≤ range.2) :
    ∃ core < blockNum, InShare perToken blockNum core range entry := by
  rw [token_mem_iff hpos] at h
  have hsub := Nat.sub_mul (range.2 + 1) range.1 perToken
  obtain ⟨core, hcore, hle, hlt⟩ := exists_evenShare hblock
    (show entry - range.1 * perToken < (range.2 + 1 - range.1) * perToken by omega)
  exact ⟨core, hcore, by omega, by omega⟩

theorem InShare.core_eq {core' : Nat} (h : InShare perToken blockNum core range entry)
    (h' : InShare perToken blockNum core' range entry) : core = core' := by
  obtain ⟨hle, hlt⟩ := h
  obtain ⟨hle', hlt'⟩ := h'
  refine evenShare_unique (x := entry - range.1 * perToken) (Nat.le_sub_of_add_le' hle) ?_
    (Nat.le_sub_of_add_le' hle') ?_ <;> omega

/-- If the ranges tile the tokens and every core handles its shares of the ranges of its rank,
then every entry is handled once. -/
theorem handlesOnce_of_tiles {matrix : Nat → Nat → Option (Nat × Nat)}
    {handle : Nat → Nat → List (Nat × Nat)} (hblock : 0 < blockNum)
    (htiles : ∀ tar < k.epWorldSize, k.Tiles (fun src => matrix src tar) (counts tar))
    (hnodup : ∀ rank < k.epWorldSize, ∀ core, (handle rank core).Nodup)
    (hmem : ∀ rank < k.epWorldSize, ∀ core e, e ∈ handle rank core ↔ e.1 < k.epWorldSize ∧
      ∃ range ∈ matrix rank e.1, InShare perToken blockNum core range e.2) :
    k.HandlesOnce counts perToken blockNum handle := by
  have hcovers : ∀ rank < k.epWorldSize, ∀ core < blockNum, ∀ e ∈ handle rank core,
      (0 < perToken ∧ e.1 < k.epWorldSize) ∧ Load.Covers (matrix rank e.1) (e.2 / perToken) := by
    intro rank hrank core hcore e he
    obtain ⟨htar, range, hrange, hshare⟩ := (hmem rank hrank core e).mp he
    obtain ⟨hpos, hin⟩ := hshare.token_mem hcore
    exact ⟨⟨hpos, htar⟩, range, hrange, hin⟩
  constructor
  · refine nodup_flatMap.mpr ⟨fun rank hrank => nodup_flatMap.mpr ⟨fun core _ => ?_, ?_⟩,
      nodup_range.pairwise_of_forall_ne fun rank hrank rank' hrank' hne e he he' => hne ?_⟩
    · exact hnodup rank (mem_range.mp hrank) core
    · refine nodup_range.pairwise_of_forall_ne fun core _ core' _ hne e he he' => hne ?_
      obtain ⟨-, range, hrange, hshare⟩ := (hmem rank (mem_range.mp hrank) core e).mp he
      obtain ⟨-, range', hrange', hshare'⟩ := (hmem rank (mem_range.mp hrank) core' e).mp he'
      exact hshare.core_eq (Option.mem_unique hrange hrange' ▸ hshare')
    · obtain ⟨core, hcore, he⟩ := mem_flatMap.mp he
      obtain ⟨core', hcore', he'⟩ := mem_flatMap.mp he'
      rw [mem_range] at hrank hrank' hcore hcore'
      obtain ⟨⟨-, htar⟩, hcover⟩ := hcovers rank hrank core hcore e he
      obtain ⟨-, hcover'⟩ := hcovers rank' hrank' core' hcore' e he'
      have htoken := ((htiles e.1 htar).inside rank _ hcover).2
      exact ((htiles e.1 htar).once _ htoken).unique hcover hcover'
  · intro e
    simp only [Load.handledBy, mem_flatMap, mem_range]
    constructor
    · rintro ⟨rank, hrank, core, hcore, he⟩
      obtain ⟨⟨hpos, htar⟩, hcover⟩ := hcovers rank hrank core hcore e he
      have htoken := ((htiles e.1 htar).inside rank _ hcover).2
      exact ⟨htar, (Nat.div_lt_iff_lt_mul hpos).mp htoken⟩
    · rintro ⟨htar, hlt⟩
      have hpos : 0 < perToken := pos_of_ne_zero fun hzero => by simp [hzero] at hlt
      obtain ⟨rank, hcover, -⟩ :=
        (htiles e.1 htar).once _ ((Nat.div_lt_iff_lt_mul hpos).mpr hlt)
      have hrank := ((htiles e.1 htar).inside rank _ hcover).1
      obtain ⟨range, hrange, hin⟩ := hcover
      obtain ⟨core, hcore, hshare⟩ := exists_inShare hblock hpos hin
      exact ⟨rank, hrank, core, hcore, (hmem rank hrank core e).mpr ⟨htar, range, hrange, hshare⟩⟩

theorem nodup_forTargetRank (perToken blockNum core rank : Nat) (range : Nat × Nat) :
    (forTargetRank perToken blockNum core rank range).Nodup :=
  (nodup_range' ..).map fun _ _ h => (Prod.mk.inj h).2

theorem mem_elim_forTargetRank {column : Option (Nat × Nat)} {rank : Nat} {e : Nat × Nat} :
    e ∈ column.elim [] (forTargetRank perToken blockNum core rank) ↔
      e.1 = rank ∧ ∃ range ∈ column, InShare perToken blockNum core range e.2 := by
  cases column <;> simp [mem_forTargetRank]

theorem handlesOnce_handleAllRankToken (hblock : 0 < blockNum)
    (htiles : ∀ tar < k.epWorldSize,
      k.Tiles (fun src => k.buildBalanceMatrix src tar) (counts tar)) :
    k.HandlesOnce counts perToken blockNum (k.handleAllRankToken perToken blockNum) := by
  refine handlesOnce_of_tiles hblock htiles ?_ ?_
  · intro rank hrank core
    refine nodup_flatMap.mpr ⟨fun i _ => ?_, nodup_range.pairwise_of_forall_ne ?_⟩
    · dsimp only
      cases k.buildBalanceMatrix rank ((rank + i) % k.epWorldSize) with
      | none => exact nodup_nil
      | some range => exact nodup_forTargetRank _ _ _ _ range
    · intro i hi j hj hne e he he'
      have heq : rank + i ≡ rank + j [MOD k.epWorldSize] :=
        (mem_elim_forTargetRank.mp he).1.symm.trans (mem_elim_forTargetRank.mp he').1
      exact hne (heq.add_left_cancel'.eq_of_lt_of_lt (mem_range.mp hi) (mem_range.mp hj))
  · intro rank hrank core e
    simp only [Load.handleAllRankToken, mem_flatMap, mem_range, mem_elim_forTargetRank]
    constructor
    · rintro ⟨i, hi, htar, hshare⟩
      rw [htar]
      exact ⟨Nat.mod_lt _ (Nat.zero_lt_of_lt hi), hshare⟩
    · rintro ⟨htar, hshare⟩
      have hpos := Nat.zero_lt_of_lt htar
      have hround :
          (rank + (e.1 + k.epWorldSize - rank) % k.epWorldSize) % k.epWorldSize = e.1 := by
        rw [Nat.add_mod_mod, Nat.add_sub_cancel' (by omega), Nat.add_mod_right,
          Nat.mod_eq_of_lt htar]
      exact ⟨_, Nat.mod_lt _ hpos, hround.symm, hround.symm ▸ hshare⟩

theorem handlesOnce_handleOwnToken (hblock : 0 < blockNum) :
    k.HandlesOnce k.bsPerRank perToken blockNum (k.handleOwnToken perToken blockNum) := by
  have heq : ∀ rank core, k.handleOwnToken perToken blockNum rank core =
      (if rank = rank ∧ 0 < k.bsPerRank rank then some (0, k.bsPerRank rank - 1) else none).elim []
        (forTargetRank perToken blockNum core rank) := by
    intro rank core
    rw [Load.handleOwnToken]
    split
    next h => simp [forTargetRank, Nat.sub_add_cancel h.2]
    next h =>
      have hzero : k.bsPerRank rank = 0 := by omega
      simp [splitCoreCal, hzero]
  refine handlesOnce_of_tiles hblock (fun tar htar => Load.tiles_own htar Iff.rfl)
    (fun rank _ core => (nodup_range' ..).map fun _ _ h => (Prod.mk.inj h).2) ?_
  intro rank hrank core e
  rw [heq, mem_elim_forTargetRank]
  constructor
  · rintro ⟨rfl, hshare⟩
    exact ⟨hrank, hshare⟩
  · rintro ⟨-, range, hrange, hshare⟩
    split at hrange
    next h =>
      obtain ⟨rfl, hbs⟩ := h
      exact ⟨rfl, range, (if_pos ⟨rfl, hbs⟩).trans hrange, hshare⟩
    next => cases hrange

theorem Load.HandlesOnce.perm_iff {counts' : Nat → Nat}
    {handle handle' : Nat → Nat → List (Nat × Nat)}
    (h : k.HandlesOnce counts perToken blockNum handle)
    (h' : k.HandlesOnce counts' perToken blockNum handle') (hpos : 0 < perToken) :
    (k.handledBy blockNum handle).Perm (k.handledBy blockNum handle') ↔
      ∀ i < k.epWorldSize, counts i = counts' i := by
  rw [perm_ext_iff_of_nodup h.nodup h'.nodup]
  simp only [h.mem_iff, h'.mem_iff]
  constructor
  · intro hall i hi
    have heq : ∀ n, n < counts i * perToken ↔ n < counts' i * perToken := fun n => by
      simpa [hi] using hall (i, n)
    exact Nat.eq_of_mul_eq_mul_right hpos (eq_of_forall_lt_iff heq)
  · intro hall e
    refine and_congr_right fun hi => ?_
    rw [hall e.1 hi]

/-- The ranges tile the tokens of every rank, and dispatch and combine handle the same entries
as without balancing, each of them once, if and only if the ranks have room for all tokens or
there is no need for balancing. -/
theorem balance_covers_tokens (hblock : 0 < blockNum) (hpos : 0 < perToken) :
    ((∀ tar < k.epWorldSize,
      k.Tiles (fun src => k.buildBalanceMatrix src tar) (k.bsPerRank tar)) ↔ k.Suffices) ∧
      (k.HandlesOnce k.bsPerRank perToken blockNum (k.handleAllRankToken perToken blockNum) ↔
        k.Suffices) ∧
      ((k.handledBy blockNum (k.handleAllRankToken perToken blockNum)).Perm
        (k.handledBy blockNum (k.handleOwnToken perToken blockNum)) ↔ k.Suffices) := by
  obtain ⟨counts, htiles, hcounts⟩ := k.exists_tiles_buildBalanceMatrix
  have hall : k.HandlesOnce counts perToken blockNum (k.handleAllRankToken perToken blockNum) :=
    handlesOnce_handleAllRankToken hblock htiles
  have hown : k.HandlesOnce k.bsPerRank perToken blockNum (k.handleOwnToken perToken blockNum) :=
    handlesOnce_handleOwnToken hblock
  rw [← hcounts]
  refine ⟨⟨fun h tar htar => ?_, fun h tar htar => ?_⟩, ⟨fun h => ?_, fun h => ?_⟩,
    hall.perm_iff hown hpos⟩
  · exact le_antisymm ((htiles tar htar).le (h tar htar)) ((h tar htar).le (htiles tar htar))
  · exact h tar htar ▸ htiles tar htar
  · exact (hall.perm_iff h hpos).mp (Perm.refl _)
  · refine handlesOnce_handleAllRankToken hblock fun tar htar => ?_
    exact h tar htar ▸ htiles tar htar

end Entries

def oneSided : Load := ⟨2, fun i => if i = 0 then 300 else 0⟩

theorem balance_covers_tokens_oneSided :
    (oneSided.isNeedBalance = true ∧ oneSided.Suffices) ∧
      oneSided.Tiles (fun src => oneSided.buildBalanceMatrix src 0) 300 ∧
      oneSided.HandlesOnce oneSided.bsPerRank 8 48 (oneSided.handleAllRankToken 8 48) := by
  have hsuffices : oneSided.Suffices := fun _ => by decide +kernel
  have h := balance_covers_tokens (k := oneSided) (by decide : 0 < 48) (by decide : 0 < 8)
  exact ⟨⟨by decide +kernel, hsuffices⟩, h.1.mpr hsuffices 0 (by decide), h.2.1.mpr hsuffices⟩

def oneOver : Load := ⟨28, fun i => if i = 0 then 156 else 129⟩

/-- The average is truncated to the 129 tokens that the other ranks have themselves, so that
nobody is left to handle the last token of the first rank. -/
theorem balance_drops_token :
    ¬ oneOver.Tiles (fun src => oneOver.buildBalanceMatrix src 0) (oneOver.bsPerRank 0) ∧
      ∀ blockNum, (0, 155) ∉ oneOver.handledBy blockNum
        (oneOver.handleAllRankToken 1 blockNum) := by
  have hcapacity : ∀ i, oneOver.ownTokens.capacity i = 0 := by
    intro i
    by_cases hi : i = 0
    · subst hi
      decide +kernel
    · have hbs : oneOver.bsPerRank i = 129 := if_neg hi
      have hroom : oneOver.processCapacity i = 129 := by
        rw [Load.processCapacity, hbs]
        decide +kernel
      change oneOver.processCapacity i - oneOver.processCount i = 0
      rw [Load.processCount, hroom, hbs, min_self, ite_self]
  have hmatrix : oneOver.buildBalanceMatrix = oneOver.ownTokens.matrix := by
    refine Load.buildBalanceMatrix_eq fun tar => ?_
    rw [Load.helpTarget]
    split
    next =>
      refine congrArg Helping.toState (Load.foldl_range_induct (fun _ r => r = _) rfl ?_)
      rintro i - r rfl
      rw [helpRound, if_neg]
      rintro ⟨-, hpos, -⟩
      exact hpos.ne' (hcapacity i)
    next => rfl
  have hcolumn : ∀ src, ¬ Load.Covers (oneOver.buildBalanceMatrix src 0) 155 := by
    rintro src ⟨r, hr, -, hle⟩
    rw [hmatrix, Load.ownTokens_matrix] at hr
    have hlast : r = (0, 154) := by
      split at hr
      next => exact (Option.some.inj hr).symm.trans (by decide +kernel)
      next => cases hr
    subst hlast
    omega
  constructor
  · intro htiles
    obtain ⟨src, hcover, -⟩ := htiles.once 155 (by decide)
    exact hcolumn src hcover
  · intro blockNum hmem
    obtain ⟨rank, -, hmem⟩ := mem_flatMap.mp hmem
    obtain ⟨core, hcore, hmem⟩ := mem_flatMap.mp hmem
    obtain ⟨i, -, hmem⟩ := mem_flatMap.mp hmem
    obtain ⟨htar, range, hrange, hshare⟩ := mem_elim_forTargetRank.mp hmem
    rw [← htar] at hrange
    obtain ⟨-, hin⟩ := hshare.token_mem (mem_range.mp hcore)
    exact hcolumn rank ⟨range, hrange, by simpa using hin⟩

end MemFabric.Zbal.Balance
