import MemFabric.AccOffload.ResidentAddrs.Kernel

/-!
# What the row kernel packs

The valid misses of a call in row order, all K copies before all V copies.  The
misses of all rows are numbered through, miss `i` of row `r` as
`r * topk + i`, so that the packed index of a miss is its rank among the valid
ones.
-/

namespace MemFabric.AccOffload.ResidentAddrs

open Simt Int List

/-! ## The packed descriptors -/

structure Copy where
  gva : Int
  addr : Int
  size : Int
deriving DecidableEq

/-- Position `g` of the miss arrays is translated. -/
def isKept (c : Call) (g : Int) : Bool :=
  decide (g % c.topk < clampCount c (c.missCount (g / c.topk))) &&
    (item? c (g / c.topk) (g % c.topk)).isSome

def itemAt (c : Call) (g : Int) : Item := (item? c (g / c.topk) (g % c.topk)).getD ⟨0, 0, 0⟩

def kCopy (c : Call) (g : Int) : Copy where
  gva := gva c.gvasKBase c.blockSize c.tokenSizeBytesK (itemAt c g)
  addr := addr c c.addrKBase c.tokenSizeBytesK (g / c.topk) (itemAt c g)
  size := c.tokenSizeBytesK

def vCopy (c : Call) (g : Int) : Copy where
  gva := gva c.gvasVBase c.blockSize c.tokenSizeBytesV (itemAt c g)
  addr := addr c c.addrVBase c.tokenSizeBytesV (g / c.topk) (itemAt c g)
  size := c.tokenSizeBytesV

def kept (c : Call) : List Int :=
  if IsEmpty c then [] else (range 0 (c.numReqs * c.topk)).filter (isKept c)

def copies (c : Call) : List Copy := (kept c).map (kCopy c) ++ (kept c).map (vCopy c)

def Cells.put (d : Cells) (l : List Copy) : Cells where
  gvasBuffer := overlay d.gvasBuffer (l.map Copy.gva)
  addrBuffer := overlay d.addrBuffer (l.map Copy.addr)
  sizeBuffer := overlay d.sizeBuffer (l.map Copy.size)

def packed (c : Call) (d : Descriptors) : Descriptors where
  toCells := d.toCells.put (copies c)
  numTokens := int32 (copies c).length

@[simp] theorem packed_numTokens (c : Call) (d : Descriptors) :
    (packed c d).numTokens = int32 (copies c).length := by
  rw [packed]

theorem Descriptors.ext_cells {d d' : Descriptors} (hcells : d.toCells = d'.toCells)
    (hnum : d.numTokens = d'.numTokens) : d = d' := by
  cases d
  subst hcells
  subst hnum
  rfl

@[simp] theorem Cells.put_nil (d : Cells) : d.put [] = d := by
  simp [Cells.put]

/-- The descriptors behind the last copy, and those before the arrays, are kept. -/
theorem Cells.put_frame (d : Cells) (l : List Copy) {j : Int} (h : j < 0 ∨ (l.length : Int) ≤ j) :
    (d.put l).gvasBuffer j = d.gvasBuffer j ∧ (d.put l).addrBuffer j = d.addrBuffer j ∧
      (d.put l).sizeBuffer j = d.sizeBuffer j := by
  have hkeep : ∀ (b : Int → Int) (field : Copy → Int), overlay b (l.map field) j = b j := by
    intro b field
    rcases h with hneg | hle
    · exact overlay_of_neg b _ hneg
    · exact overlay_of_le b _ (by rw [length_map]; exact hle)
  exact ⟨hkeep _ _, hkeep _ _, hkeep _ _⟩

variable {c : Call} {r req : Int} {l : List Int}

theorem copies_of_isEmpty (h : IsEmpty c) : copies c = [] := by
  simp [copies, kept, h]

theorem length_copies (h : ¬ IsEmpty c) :
    ((copies c).length : Int) = rank (isKept c) (c.numReqs * c.topk) * 2 := by
  simp only [copies, kept, if_neg h, length_append, length_map, rank]
  omega

theorem length_copies_le (hreq : 0 ≤ c.numReqs) (htopk : 0 ≤ c.topk) :
    ((copies c).length : Int) ≤ c.numReqs * c.topk * 2 := by
  have hnn : 0 ≤ c.numReqs * c.topk := mul_nonneg hreq htopk
  by_cases h : IsEmpty c
  · rw [copies_of_isEmpty h, length_nil]
    omega
  · have hrank := rank_le (isKept c) hnn
    rw [length_copies h]
    omega

/-- The call of the stable filter test: a token twice, a hole, a token without a
block and one without a slot. -/
def filterCall : Call where
  missCount := fun _ => 6
  missTokens := fun i => [5, 5, -1, 20, 6, 9].getD i.toNat 0
  missSlots := fun i => [2, 3, 0, 1, -1, 1].getD i.toNat 0
  blockTable := fun i => [4, 7, -1, 3].getD i.toNat 0
  blockSize := 4
  tokenSizeBytesK := 8
  tokenSizeBytesV := 16
  gvasKBase := 1000
  gvasVBase := 5000
  addrKBase := 10000
  addrVBase := 20000
  residentCapacity := 4
  numReqs := 1
  topk := 6
  maxNumBlocks := 4

example : copies filterCall =
    [⟨1232, 10016, 8⟩, ⟨1232, 10024, 8⟩, ⟨5464, 20032, 16⟩, ⟨5464, 20048, 16⟩] := by
  decide

/-! ## Positions of the miss arrays -/

section

variable {c : Call} {r i : Int}

section

variable (h0 : 0 ≤ i) (h1 : i < c.topk)

include h0 h1

theorem position_div : (r * c.topk + i) / c.topk = r := by
  rw [add_comm, add_mul_ediv_right _ _ (by omega), ediv_eq_zero_of_lt h0 h1, zero_add]

theorem position_mod : (r * c.topk + i) % c.topk = i := by
  rw [add_comm, add_mul_emod_self_right, emod_eq_of_lt h0 h1]

theorem isKept_position :
    isKept c (r * c.topk + i) =
      (decide (i < clampCount c (c.missCount r)) && (item? c r i).isSome) := by
  rw [isKept, position_div h0 h1, position_mod h0 h1]

theorem itemAt_position :
    itemAt c (r * c.topk + i) = (item? c r i).getD ⟨0, 0, 0⟩ := by
  rw [itemAt, position_div h0 h1, position_mod h0 h1]

end

theorem clampCount_le (h : 0 < c.topk) (count : Int) : clampCount c count ≤ c.topk := by
  have hword : int32 c.topk ≤ c.topk := by
    simp only [int32, bmod_def]
    omega
  unfold clampCount
  split_ifs <;> omega

end

/-! ## Counting -/

/-- A loop over the misses of a row, as a loop over all positions of the row. -/
theorem forLoop_clampCount {σ : Type*} (h : 0 < c.topk) (r : Int) (body : Int → σ → σ) (s : σ) :
    forLoop 0 (clampCount c (c.missCount r)) body s =
      forLoop 0 c.topk (fun i s => if i < clampCount c (c.missCount r) then body i s else s) s :=
  forLoop_guard (clampCount_le h _) body s

theorem forLoop_countItem (h : 0 < c.topk) (hr : 0 ≤ r) (n : Int) :
    forLoop 0 (clampCount c (c.missCount r)) (countItem c r) n =
      n + (rank (isKept c) ((r + 1) * c.topk) - rank (isKept c) (r * c.topk)) := by
  rw [forLoop_clampCount h]
  have hpos : 0 ≤ r * c.topk := mul_nonneg hr h.le
  have hcount := forLoop_count (isKept c) hpos h.le n
  rw [add_mul, one_mul, ← hcount]
  refine forLoop_congr n fun i s h0 h1 => ?_
  rw [isKept_position h0 h1, countItem]
  by_cases hi : i < clampCount c (c.missCount r) <;> simp [hi]

theorem validCount_eq (h : 0 < c.topk) (hr : 0 ≤ r) :
    validCount c r = rank (isKept c) ((r + 1) * c.topk) - rank (isKept c) (r * c.topk) := by
  rw [validCount, forLoop_countItem h hr, zero_add]

theorem rowSums_eq (h : 0 < c.topk) (h0 : 0 ≤ req) (h1 : req < c.numReqs) :
    rowSums c req =
      ((rank (isKept c) (c.numReqs * c.topk) : Int), (rank (isKept c) (req * c.topk) : Int)) := by
  have hI : rowSums c req = ((rank (isKept c) (c.numReqs * c.topk) : Int),
      (rank (isKept c) (min c.numReqs req * c.topk) : Int)) := by
    refine forLoop_induct (by omega : 0 ≤ c.numReqs)
      (fun r (s : Int × Int) => s = ((rank (isKept c) (r * c.topk) : Int),
        (rank (isKept c) (min r req * c.topk) : Int))) (by simp [min_eq_left h0]) ?_
    rintro r s hr hlt rfl
    rw [sumRow, validCount_eq h hr]
    refine Prod.ext (by dsimp only; omega) ?_
    split_ifs with hreq
    · rw [min_eq_left hreq.le, min_eq_left (by omega)]
      omega
    · rw [min_eq_right (by omega), min_eq_right (by omega)]
  rwa [min_eq_right h1.le] at hI

theorem nextStart_eq (h : 0 < c.topk) {nextReq : Int} (h0 : 0 ≤ nextReq) :
    nextStart c nextReq = rank (isKept c) (nextReq * c.topk) := by
  refine forLoop_induct h0 (fun r (s : Int) => s = rank (isKept c) (r * c.topk)) (by simp) ?_
  rintro r s hr - rfl
  rw [forLoop_countItem h hr]
  omega

/-! ## Packing -/

def putKept (c : Call) (g : Int) (d : Cells) : Cells :=
  if isKept c g = true then
    putItem c (rank (isKept c) (c.numReqs * c.topk)) (g / c.topk) (rank (isKept c) g) (itemAt c g) d
  else d

section

variable (h : ¬ IsEmpty c) (hnd : l.Nodup)
  (hmem : ∀ g ∈ l, isKept c g = true → 0 ≤ g ∧ g < c.numReqs * c.topk)
  (hcover : ∀ g, 0 ≤ g → g < c.numReqs * c.topk → isKept c g = true → g ∈ l)

include h hnd hmem hcover

private theorem foldl_putKept_part (part : Cells → Int → Int) (field : Copy → Int)
    (hpart : ∀ d g, part (putKept c g d) = if isKept c g = true then
      Function.update (Function.update (part d) (rank (isKept c) g : Int) (field (kCopy c g)))
        (rank (isKept c) (c.numReqs * c.topk) + rank (isKept c) g : Int) (field (vCopy c g))
      else part d) (d : Cells) :
    part (l.foldl (fun d g => putKept c g d) d) = overlay (part d) ((copies c).map field) := by
  rw [show (copies c).map field = (kept c).map (fun g => field (kCopy c g)) ++
      (kept c).map (fun g => field (vCopy c g)) by simp [copies, Function.comp_def],
    show kept c = (range 0 (c.numReqs * c.topk)).filter (isKept c) from if_neg h]
  rw [← foldl_overlay_pair hnd hmem hcover _ _ (part d) fun _ _ => rfl]
  exact (foldl_hom part fun d g => (hpart d g).symm).symm

theorem foldl_putKept (d : Cells) :
    l.foldl (fun d g => putKept c g d) d = d.put (copies c) := by
  refine Cells.ext ?_ ?_ ?_
  · exact foldl_putKept_part h hnd hmem hcover Cells.gvasBuffer Copy.gva
      (fun d g => by unfold putKept; split_ifs <;> rfl) d
  · exact foldl_putKept_part h hnd hmem hcover Cells.addrBuffer Copy.addr
      (fun d g => by unfold putKept; split_ifs <;> rfl) d
  · exact foldl_putKept_part h hnd hmem hcover Cells.sizeBuffer Copy.size
      (fun d g => by unfold putKept; split_ifs <;> rfl) d

end

def putRow (c : Call) (r : Int) (d : Cells) : Cells :=
  forLoop 0 c.topk (fun i => putKept c (r * c.topk + i)) d

theorem forLoop_packItem (h : 0 < c.topk) (hr : 0 ≤ r) (d : Cells) :
    (forLoop 0 (clampCount c (c.missCount r))
      (packItem c (rank (isKept c) (c.numReqs * c.topk)) r)
      ((rank (isKept c) (r * c.topk) : Int), d)).2 = putRow c r d := by
  rw [forLoop_clampCount h]
  have hpos : 0 ≤ r * c.topk := mul_nonneg hr h.le
  refine (forLoop_rel h.le (fun i (s : Int × Cells) (d : Cells) =>
    s = ((rank (isKept c) (r * c.topk + i) : Int), d)) (by simp) ?_ |> congrArg Prod.snd)
  rintro i s d h0 h1 rfl
  have hkept := isKept_position (r := r) h0 h1
  rw [← add_assoc, rank_succ _ (by omega), putKept, itemAt_position h0 h1, position_div h0 h1,
    hkept]
  unfold packItem
  by_cases hi : i < clampCount c (c.missCount r) <;> cases hitem : item? c r i <;> simp [hi]

theorem packRow_eq (h : 0 < c.topk) {stride : Int} (hs : 0 < stride) (hr : 0 ≤ r) (d : Cells) :
    packRow c (rank (isKept c) (c.numReqs * c.topk)) stride r
        ((rank (isKept c) (r * c.topk) : Int), d) =
      (if r + stride < c.numReqs then (rank (isKept c) ((r + stride) * c.topk) : Int)
        else rank (isKept c) (r * c.topk), putRow c r d) := by
  rw [packRow, forLoop_packItem h hr, nextStart_eq h (by omega)]

/-! ## The kernel -/

theorem lanes_pos (c : Call) : 0 < lanes c := by
  unfold lanes gridDim maxGridDim
  split_ifs <;> omega

theorem lane_toCells (h : ¬ IsEmpty c) (h0 : 0 ≤ req) (d : Descriptors) :
    (lane c req d).toCells = forStride req c.numReqs (lanes c) (putRow c) d.toCells := by
  have hpos : 0 < c.topk := by unfold IsEmpty at h; omega
  have hlanes : (0 : Int) < lanes c := by exact_mod_cast lanes_pos c
  by_cases hreq : req ≥ c.numReqs
  · rw [lane, if_neg h, if_pos hreq, forStride_of_le hlanes hreq]
  · -- before row `r` the lane holds the packed index of its first miss
    obtain ⟨_, -, hcells⟩ := forStride_rel hlanes
      (f := packRow c (rank (isKept c) (c.numReqs * c.topk)) (lanes c)) (g := putRow c)
      (s := ((rank (isKept c) (req * c.topk) : Int), d.toCells))
      (fun r s d => (r < c.numReqs → s.1 = rank (isKept c) (r * c.topk)) ∧ s.2 = d)
      ⟨fun _ => rfl, rfl⟩ (by
        rintro r ⟨start, d⟩ _ hr hlt ⟨hstart, rfl⟩
        rw [show start = rank (isKept c) (r * c.topk) from hstart hlt,
          packRow_eq hpos hlanes (by omega)]
        exact ⟨fun hnext => if_pos hnext, rfl⟩)
    rw [lane, rowSums_eq hpos h0 (by omega)]
    split_ifs
    · exact hcells
    · exact hcells

theorem lane_numTokens (h : ¬ IsEmpty c) (h0 : 0 ≤ req) (d : Descriptors) :
    (lane c req d).numTokens = if req = 0 then int32 (copies c).length else d.numTokens := by
  have hpos : 0 < c.topk ∧ 0 < c.numReqs := by unfold IsEmpty at h; omega
  by_cases hreq : req ≥ c.numReqs
  · rw [lane, if_neg h, if_pos hreq, if_neg (by omega)]
  · rw [lane, rowSums_eq hpos.1 h0 (by omega), length_copies h]
    split_ifs <;> dsimp only

/-- The positions in the order in which the lanes come to them. -/
private def positions (c : Call) (o : LaneOrder (lanes c)) : List Int :=
  (o.items c.numReqs).flatMap fun r => (range 0 c.topk).map (r * c.topk + ·)

private theorem mem_positions (h : 0 < c.topk) (o : LaneOrder (lanes c)) {g : Int} :
    g ∈ positions c o ↔ 0 ≤ g ∧ g < c.numReqs * c.topk := by
  simp only [positions, mem_flatMap, mem_map, o.mem_items (lanes_pos c),
    mem_range_iff]
  constructor
  · rintro ⟨r, ⟨hr0, hr1⟩, i, ⟨hi0, hi1⟩, rfl⟩
    have hnn : 0 ≤ r * c.topk := mul_nonneg hr0 h.le
    have hle : (r + 1) * c.topk ≤ c.numReqs * c.topk := mul_le_mul_of_nonneg_right hr1 h.le
    rw [add_mul] at hle
    omega
  · rintro ⟨hg0, hg1⟩
    refine ⟨g / c.topk, ⟨Int.ediv_nonneg hg0 h.le, Int.ediv_lt_of_lt_mul h hg1⟩, g % c.topk,
      ⟨Int.emod_nonneg g h.ne', Int.emod_lt_of_pos g h⟩, ?_⟩
    rw [mul_comm]
    exact mul_ediv_add_emod g c.topk

private theorem nodup_positions (c : Call) (o : LaneOrder (lanes c)) : (positions c o).Nodup := by
  refine nodup_flatMap.mpr ⟨fun r _ => (nodup_range _ _).map (add_right_injective _), ?_⟩
  refine (o.nodup_items c.numReqs).imp fun {r r'} hne => disjoint_left.mpr fun g hg hg' => ?_
  obtain ⟨i, hi, rfl⟩ := mem_map.mp hg
  obtain ⟨i', hi', heq⟩ := mem_map.mp hg'
  have hb := mem_range_iff.mp hi
  have hb' := mem_range_iff.mp hi'
  exact row_disjoint hne hb.1 hb.2 (by omega)

theorem offloadComputeLruResidentAddrsSimtOps_eq_packed (c : Call) (o : LaneOrder (lanes c))
    (d : Descriptors) : offloadComputeLruResidentAddrsSimtOps c o d = packed c d := by
  unfold offloadComputeLruResidentAddrsSimtOps
  by_cases h : IsEmpty c
  · have hlane : lane c = fun req d => if req = 0 then { d with numTokens := 0 } else d := by
      funext req d
      rw [lane, if_pos h]
    rw [hlane, o.run_lane_zero (lanes_pos c), packed, copies_of_isEmpty h, Cells.put_nil]
    rfl
  · have hpos : 0 < c.topk := by unfold IsEmpty at h; omega
    refine Descriptors.ext_cells ?_ ?_
    · calc
        (o.run (lane c) d).toCells
            = o.run (fun req => forStride req c.numReqs (lanes c) (putRow c)) d.toCells :=
          o.run_rel (fun (d : Descriptors) d' => d.toCells = d') rfl fun req d _ h0 _ hd => by
            rw [lane_toCells h h0, hd]
        _ = (positions c o).foldl (fun d g => putKept c g d) d.toCells := by
          rw [o.run_stride, positions, foldl_flatMap]
          simp only [foldl_map]
          rfl
        _ = d.toCells.put (copies c) :=
          foldl_putKept h (nodup_positions c o) (fun g hg _ => (mem_positions hpos o).mp hg)
            (fun g h0 h1 _ => (mem_positions hpos o).mpr ⟨h0, h1⟩) d.toCells
    · rw [packed_numTokens]
      calc
        (o.run (lane c) d).numTokens
            = o.run (fun req n => if req = 0 then int32 (copies c).length else n) d.numTokens :=
          o.run_rel (fun (d : Descriptors) n => d.numTokens = n) rfl fun req d _ h0 _ hd => by
            rw [lane_numTokens h h0, hd]
        _ = int32 (copies c).length :=
          o.run_lane_zero (lanes_pos c) (fun _ => int32 (copies c).length) d.numTokens

end MemFabric.AccOffload.ResidentAddrs
