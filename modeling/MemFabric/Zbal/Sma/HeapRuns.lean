import MemFabric.Machine.Run
import MemFabric.Zbal.Sma.HeapBlocks

/-!
# Runs of the heap

What holds after any sequence of `alignedAllocate` and `release` calls, and what the next
call does.
-/

namespace MemFabric.Zbal.Sma.SplitMemoryHeap

open Machine Ordered Word64 List

/-! ## Requests and blocks -/

def Fits (alignment request : Nat) (block : Extent) : Prop :=
  ∃ a, alignment ∣ a ∧ block.offset ≤ a ∧ a + request ≤ block.stop

/-- A power of two that can be added to every address of the pool. -/
def Alignment (limit alignment : Nat) : Prop :=
  (∃ k, alignment = 2 ^ k) ∧ limit + alignment < 2 ^ 63

/-- A block of a pool that ends at `limit` and is not larger than the space in front of it. -/
structure InPool (limit : Nat) (block : Extent) : Prop where
  pos : 0 < block.size
  size_le : block.size ≤ block.offset
  stop_le : block.stop ≤ limit

section

variable {limit alignment request : Nat} {block : Extent}

theorem Alignment.pos (h : Alignment limit alignment) : 0 < alignment := by
  obtain ⟨⟨k, rfl⟩, -⟩ := h
  exact Nat.two_pow_pos k

theorem Alignment.and_compl (h : Alignment limit alignment) {n : Nat} (hn : n < 2 ^ 64) :
    n &&& compl (Word64.sub alignment 1) = alignDown alignment n := by
  have hpos := h.pos
  have hsub : Word64.sub alignment 1 = alignment - 1 := sub_eq hpos (by have := h.2; omega)
  obtain ⟨⟨k, rfl⟩, hlt⟩ := h
  have hk : k ≤ 64 := by
    have hlt : 2 ^ k < 2 ^ 64 := by omega
    exact ((Nat.pow_lt_pow_iff_right (by decide)).mp hlt).le
  rw [hsub, and_compl_eq hn hk, alignDown]

variable (ha : Alignment limit alignment) (hb : InPool limit block)

include ha hb

theorem alignedAddr_eq : alignedAddr alignment block = alignUp alignment block.offset := by
  have hpos := ha.pos
  have hlt := ha.2
  have hstop := hb.stop_le
  rw [Extent.stop] at hstop
  rw [alignedAddr, sub_eq hpos (by omega), add_eq (by omega),
    ← sub_eq hpos (by omega), ha.and_compl, sub_eq hpos (by omega)]
  · rfl
  · rw [sub_eq hpos (by omega)]
    omega

theorem padding_eq :
    padding alignment block = alignUp alignment block.offset - block.offset := by
  have hle := le_alignUp (n := block.offset) ha.pos
  have hlt := alignUp_lt (n := block.offset) ha.pos
  have hstop := hb.stop_le
  rw [Extent.stop] at hstop
  have := ha.2
  rw [padding, alignedAddr_eq ha hb, sub_eq hle (by omega)]

variable (hreq : request < 2 * block.size)

include hreq

theorem totalNeeded_eq :
    totalNeeded alignment request block =
      request + (alignUp alignment block.offset - block.offset) := by
  have hlt := alignUp_lt (n := block.offset) ha.pos
  have hstop := hb.stop_le
  rw [Extent.stop] at hstop
  have := ha.2
  rw [totalNeeded, padding_eq ha hb, add_eq (by omega)]

theorem fits_iff_totalNeeded_le :
    totalNeeded alignment request block ≤ block.size ↔ Fits alignment request block := by
  have hle := le_alignUp (n := block.offset) ha.pos
  rw [totalNeeded_eq ha hb hreq]
  constructor
  · intro h
    refine ⟨_, dvd_alignUp, hle, ?_⟩
    rw [Extent.stop]
    omega
  · rintro ⟨a, hdvd, hoffset, hstop⟩
    have hmin := alignUp_le hdvd hoffset
    rw [Extent.stop] at hstop
    omega

/-- The block is at such an address that the difference does not wrap. -/
theorem alignedStart_eq :
    alignedStart alignment request block = alignDown alignment (block.stop - request) := by
  have hstop := hb.stop_le
  have hsize := hb.size_le
  have := ha.2
  rw [Extent.stop] at hstop ⊢
  rw [alignedStart, add_eq (by omega), sub_eq (by omega) (by omega),
    ha.and_compl (by omega)]

theorem fits_iff_le_alignedStart :
    block.offset ≤ alignedStart alignment request block ↔ Fits alignment request block := by
  have hsize := hb.size_le
  have hle := alignDown_le (a := alignment) (n := block.stop - request)
  rw [alignedStart_eq ha hb hreq]
  constructor
  · intro h
    exact ⟨_, dvd_alignDown, h, by omega⟩
  · rintro ⟨a, hdvd, hoffset, hstop⟩
    exact hoffset.trans (le_alignDown hdvd (by omega))

end

/-! ## Taking a part of a block -/

section

variable {base threshold n : Nat} {h : SplitMemoryHeap} {p : Pool n 1} {lost : Set Extent}
  {e : Extent}

section

variable (hold : Holding base threshold h p lost e)

include hold

theorem Holding.front {a : Nat} (hle : e.offset ≤ a)
    (hlt : a < e.stop) (hprev : ∀ f ∈ p.idle, f.stop ≠ e.offset)
    (hnext : ∀ f ∈ p.idle, e.stop ≠ f.offset) :
    ∃ q : Pool n 1, Holding base threshold
        (if 0 < a - e.offset then h.addToFreeStructures ⟨e.offset, a - e.offset⟩ else h) q lost
        ⟨a, e.stop - a⟩ ∧ ∀ f ∈ q.idle, e.stop ≠ f.offset := by
  rw [Extent.stop] at hlt hnext ⊢
  split
  · rename_i hpos
    have hrest : e.rest (a - e.offset) = ⟨a, e.offset + e.size - a⟩ := by
      rw [Extent.rest, Extent.mk.injEq]
      omega
    refine ⟨_, hrest ▸ hold.addFront hpos (by omega) hprev, ?_⟩
    rintro f (rfl | hf)
    · show e.offset + e.size ≠ e.offset
      omega
    · exact hnext f hf
  · have heq : e = ⟨a, e.offset + e.size - a⟩ := by
      have ha : a = e.offset := by omega
      rw [ha, Nat.add_sub_cancel_left]
    refine ⟨p, ?_, hnext⟩
    rw [← heq]
    exact hold

theorem Holding.rest {request : Nat} (hpos : 0 < request)
    (hle : request ≤ e.size) (hnext : ∀ f ∈ p.idle, e.stop ≠ f.offset) :
    ∃ q : Pool n 1, Holding base threshold
      (if 0 < e.size - request then h.addToFreeStructures ⟨e.offset + request, e.size - request⟩
        else h) q lost ⟨e.offset, request⟩ := by
  split
  · exact ⟨_, hold.addRest hpos (by omega) hnext⟩
  · have heq : request = e.size := by omega
    rw [heq]
    exact ⟨p, hold⟩

theorem Holding.loseRest {request : Nat} (hpos : 0 < request) (hle : request ≤ e.size) :
    ∃ (q : Pool n 1) (lost' : Set Extent), Holding base threshold h q lost' ⟨e.offset, request⟩ ∧
      (request = e.size → lost' = lost) := by
  rcases hle.lt_or_eq with hlt | rfl
  · exact ⟨_, _, hold.discard hpos hlt, fun heq => absurd heq hlt.ne⟩
  · exact ⟨p, lost, hold, fun _ => rfl⟩

end

theorem takeLow_allocatedRecords (alignment request : Nat) (block : Extent) :
    (h.takeLow alignment request block).allocatedRecords =
      h.allocatedRecords.assign ⟨alignedAddr alignment block, request⟩ := by
  rw [takeLow, recordAllocation]
  split <;> split <;> simp

theorem takeHigh_allocatedRecords (alignment request : Nat) (block : Extent) :
    (h.takeHigh alignment request block).allocatedRecords =
      h.allocatedRecords.assign ⟨alignedStart alignment request block, request⟩ := by
  rw [takeHigh, recordAllocation]
  split <;> simp

variable {limit alignment request : Nat}

section

variable (hd : Describes base threshold h p lost) (hn : n < 2 ^ 64) (he : e ∈ p.idle)
  (ha : Alignment limit alignment) (hb : InPool limit e) (hpos : 0 < request)
  (hreq : request < 2 * e.size)

include hd hn he ha hb hpos hreq

theorem Describes.takeLow (hfits : totalNeeded alignment request e ≤ e.size) :
    ∃ q : Pool n 1, Describes base threshold (h.takeLow alignment request e) q lost := by
  have hle := le_alignUp (n := e.offset) ha.pos
  have hlim := ha.2
  have hstop := hb.stop_le
  have htotal := totalNeeded_eq ha hb hreq
  rw [htotal] at hfits
  rw [Extent.stop] at hstop
  obtain ⟨q, hold, hnext⟩ := (hd.claim he).front hle (by rw [Extent.stop]; omega)
    (fun f hf => p.coalesced f hf.1 e he) fun f hf => p.coalesced e he f hf.1
  have hend : (⟨alignUp alignment e.offset, e.stop - alignUp alignment e.offset⟩ :
      Extent).stop = e.stop := by
    simp only [Extent.stop]
    omega
  obtain ⟨q', hold'⟩ := hold.rest hpos (by rw [Extent.stop]; dsimp only; omega)
    (fun f hf => by rw [hend]; exact hnext f hf)
  refine ⟨q', ?_⟩
  have hremaining : Word64.sub e.size (totalNeeded alignment request e) =
      e.stop - alignUp alignment e.offset - request := by
    rw [htotal, sub_eq hfits (by omega), Extent.stop]
    omega
  have hsum : Word64.add (alignUp alignment e.offset) request =
      alignUp alignment e.offset + request := add_eq (by omega)
  rw [SplitMemoryHeap.takeLow, hremaining, padding_eq ha hb, alignedAddr_eq ha hb, hsum]
  exact hold'.recordAllocation hn

theorem Describes.takeHigh (hfits : e.offset ≤ alignedStart alignment request e) :
    ∃ (q : Pool n 1) (lost' : Set Extent),
      Describes base threshold (h.takeHigh alignment request e) q lost' ∧
        (alignedStart alignment request e + request = e.stop → lost' = lost) := by
  have hlim := ha.2
  have hstop := hb.stop_le
  have hsize := hb.size_le
  have hle := alignDown_le (a := alignment) (n := e.stop - request)
  rw [alignedStart_eq ha hb hreq] at hfits ⊢
  set a := alignDown alignment (e.stop - request) with haeq
  obtain ⟨q, hold, -⟩ := (hd.claim he).front hfits (by omega)
    (fun f hf => p.coalesced f hf.1 e he) fun f hf => p.coalesced e he f hf.1
  obtain ⟨q', lost', hold', hlost⟩ := hold.loseRest hpos (by dsimp only; omega)
  refine ⟨q', lost', ?_, fun heq => hlost (by dsimp only; omega)⟩
  have hremain : Word64.sub a e.offset = a - e.offset := sub_eq hfits (by omega)
  rw [SplitMemoryHeap.takeHigh, alignedStart_eq ha hb hreq, hremain]
  exact hold'.recordAllocation hn

end

end

/-! ## One call -/

section Calls

variable {base size threshold : Nat} {h : SplitMemoryHeap} {p : Pool (base + size) 1}
  {lost : Set Extent} {e : Extent} {alignment request : Nat}

section

variable (hd : Describes base threshold h p lost)

include hd

theorem Describes.inPool (hle : size ≤ base) (he : e ∈ p.idle) : InPool (base + size) e := by
  have hbase := hd.base_le (.inl he) (hd.notLost_of_idle he)
  have hstop := p.tiling.stop_le (.inl he)
  refine ⟨p.tiling.pos e (.inl he), ?_, hstop⟩
  rw [Extent.stop] at hstop
  omega

theorem Describes.base_pos : 0 < base :=
  p.tiling.pos _ (.inr ((hd.used _).mpr (.inr hd.below)))

theorem Describes.size_lt (hle : size ≤ base)
    (hlt : base + size < 2 ^ 63) (he : e ∈ p.idle) : e.size < 2 ^ 64 := by
  have hstop := (hd.inPool hle he).stop_le
  rw [Extent.stop] at hstop
  omega

end

variable {order : Ordered (id : Nat → Nat) → List Nat} {test : Extent → Bool}

section

variable (hd : Describes base threshold h p lost) (hle : size ≤ base) (hlt : base + size < 2 ^ 63)
  (horder : ∀ bucket x, x ∈ order bucket ↔ x ∈ bucket)

include hd hle hlt horder

/-- A block that passes the test is one that could be twice as large as the request needs. -/
theorem Describes.find_some (hreq : request < 2 ^ 64)
    (hfind : (h.blocksFrom (getBucketIndex request) order).find? test = some e) :
    e ∈ p.idle ∧ request < 2 * e.size ∧ test e = true := by
  have hsize : ∀ r ∈ p.idle, r.size < 2 ^ 64 := fun r hr => hd.size_lt hle hlt hr
  obtain ⟨he, hidx⟩ := (hd.free.mem_blocksFrom hsize horder).mp (mem_of_find?_eq_some hfind)
  refine ⟨he, ?_, find?_some hfind⟩
  exact lt_two_mul_of_getBucketIndex_le hreq (hsize e he) (p.tiling.pos e (.inl he)) hidx

/-- No block that fits is left out of the search. -/
theorem Describes.find_none (hpos : 0 < request)
    (htest : ∀ e ∈ p.idle, request < 2 * e.size → Fits alignment request e → test e = true)
    (hfind : (h.blocksFrom (getBucketIndex request) order).find? test = none) :
    ∀ e ∈ p.idle, ¬ Fits alignment request e := by
  intro e he hfits
  have hsize : ∀ r ∈ p.idle, r.size < 2 ^ 64 := fun r hr => hd.size_lt hle hlt hr
  have hreq : request ≤ e.size := by
    obtain ⟨a, -, hoffset, hstop⟩ := hfits
    rw [Extent.stop] at hstop
    omega
  have hmem : e ∈ h.blocksFrom (getBucketIndex request) order :=
    (hd.free.mem_blocksFrom hsize horder).mpr ⟨he, getBucketIndex_mono hpos hreq (hsize e he)⟩
  exact find?_eq_none.mp hfind e hmem (htest e he (by omega) hfits)

end

/-- The allocation takes the range from `a` on out of the free block `e`. -/
structure Taken (alignment request a : Nat) (e : Extent) : Prop where
  pos : 0 < request
  dvd : alignment ∣ a
  offset_le : e.offset ≤ a
  le_stop : a + request ≤ e.stop

/-- A request that is placed from above leaves no padding behind it in the block that the
search finds. -/
def NoPadding (alignment request : Nat) (h : SplitMemoryHeap) : Prop :=
  h.splitThreshold ≤ request →
    ∀ block, h.findHigh (getBucketIndex request) alignment request = some block →
      alignment ∣ block.stop - request

/-- `alignedAllocate` fails and changes nothing, or takes a range. -/
theorem Describes.alignedAllocate (hd : Describes base threshold h p lost) (hle : size ≤ base)
    (ha : Alignment (base + size) alignment) (hreq : request < 2 ^ 64) :
    (h.alignedAllocate alignment request = (none, h) ∧
        (request = 0 ∨ ∀ e ∈ p.idle, ¬ Fits alignment request e)) ∨
      ∃ a, ∃ e ∈ p.idle, Taken alignment request a e ∧
        (h.alignedAllocate alignment request).1 = some a ∧
        (h.alignedAllocate alignment request).2.allocatedRecords =
          h.allocatedRecords.assign ⟨a, request⟩ ∧
        ∃ (q : Pool (base + size) 1) (lost' : Set Extent),
          Describes base threshold (h.alignedAllocate alignment request).2 q lost' ∧
            (h.NoPadding alignment request → lost' = lost) := by
  have hlt : base + size < 2 ^ 63 := by
    have := ha.2
    omega
  have hinit : h.initialized = true := congrArg Prod.fst hd.settings
  have hthreshold : h.splitThreshold = threshold := congrArg Prod.snd hd.settings
  rw [SplitMemoryHeap.alignedAllocate, hinit]
  by_cases hzero : request = 0
  · rw [if_pos (.inr hzero)]
    exact .inl ⟨rfl, .inl hzero⟩
  have hpos := Nat.pos_of_ne_zero hzero
  have hguard : ¬ (true = false ∨ request = 0) := by simp [hzero]
  rw [if_neg hguard, if_neg ha.pos.ne']
  split
  · have horder : ∀ (bucket : Ordered (id : Nat → Nat)) x, x ∈ bucket.toList ↔ x ∈ bucket :=
      fun _ _ => Iff.rfl
    rw [allocateLowToHigh]
    split
    · rename_i hnone
      refine .inl ⟨rfl, .inr (hd.find_none hle hlt horder hpos (fun e he h2 hfits => ?_) hnone)⟩
      exact decide_eq_true ((fits_iff_totalNeeded_le ha (hd.inPool hle he) h2).mpr hfits)
    · rename_i e hsome
      obtain ⟨he, h2, htest⟩ := hd.find_some hle hlt horder hreq hsome
      have htest := of_decide_eq_true htest
      have hb := hd.inPool hle he
      have htotal := totalNeeded_eq ha hb h2
      have hup := le_alignUp (n := e.offset) ha.pos
      obtain ⟨q, hq⟩ := hd.takeLow (by omega) he ha hb hpos h2 htest
      refine .inr ⟨alignedAddr alignment e, e, he, ⟨hpos, ?_, ?_, ?_⟩, rfl,
        takeLow_allocatedRecords _ _ _, q, lost, hq, fun _ => rfl⟩
      · rw [alignedAddr_eq ha hb]
        exact dvd_alignUp
      · rw [alignedAddr_eq ha hb]
        exact hup
      · rw [alignedAddr_eq ha hb, Extent.stop]
        omega
  · have horder : ∀ (bucket : Ordered (id : Nat → Nat)) x, x ∈ bucket.toList.reverse ↔ x ∈ bucket :=
      fun _ _ => mem_reverse
    rw [allocateHighToLow]
    split
    · rename_i hnone
      refine .inl ⟨rfl, .inr (hd.find_none hle hlt horder hpos (fun e he h2 hfits => ?_) hnone)⟩
      exact decide_eq_true ((fits_iff_le_alignedStart ha (hd.inPool hle he) h2).mpr hfits)
    · rename_i e hsome
      obtain ⟨he, h2, htest⟩ := hd.find_some hle hlt horder hreq hsome
      have htest := of_decide_eq_true htest
      have hb := hd.inPool hle he
      have hdown := alignDown_le (a := alignment) (n := e.stop - request)
      have hwrap : request ≤ e.stop := by
        have := hb.size_le
        rw [Extent.stop]
        omega
      obtain ⟨q, lost', hq, hlost⟩ := hd.takeHigh (by omega) he ha hb hpos h2 htest
      refine .inr ⟨alignedStart alignment request e, e, he, ⟨hpos, ?_, htest, ?_⟩, rfl,
        takeHigh_allocatedRecords _ _ _, q, lost', hq, fun hnone => hlost ?_⟩
      · rw [alignedStart_eq ha hb h2]
        exact dvd_alignDown
      · rw [alignedStart_eq ha hb h2]
        omega
      · have hdvd := hnone (by omega) e hsome
        have hup := le_alignDown hdvd Nat.le.refl
        rw [alignedStart_eq ha hb h2]
        omega

/-- `release` fails and changes nothing, or gives back a live block. -/
theorem Describes.release (hd : Describes base threshold h p lost) (hlt : base + size < 2 ^ 63)
    (hbase : 0 < base) (address : Nat) :
    (h.release address = (-1, h) ∧ ∀ r ∈ h.allocatedRecords, r.offset ≠ address) ∨
      (h.release address).1 = 0 ∧ (∃ r ∈ h.allocatedRecords, r.offset = address) ∧
        (h.release address).2.allocatedRecords = h.allocatedRecords.erase address ∧
        ∃ q : Pool (base + size) 1, Describes base threshold (h.release address).2 q lost := by
  rw [SplitMemoryHeap.release]
  split
  · refine .inl ⟨rfl, fun r hr heq => ?_⟩
    have hle := hd.base_le (.inr ((hd.used r).mpr (.inl hr))) (hd.apart r hr)
    omega
  · split
    · rename_i hnone
      exact .inl ⟨rfl, find_eq_none.mp hnone⟩
    · rename_i block hsome
      obtain ⟨hmem, rfl⟩ := find_eq_some.mp hsome
      obtain ⟨q, hq, hrecords⟩ := (hd.unrecord (by omega) hmem).coalesceAndInsert (by omega)
      exact .inr ⟨rfl, ⟨block, hmem, rfl⟩, hrecords, q, hq⟩

end Calls

/-! ## Runs -/

/-- The calls with alignments that can be added to the addresses of the pool. -/
def Allowed (base size : Nat) (_ : SplitMemoryHeap) : Call → Prop
  | .alignedAllocate alignment request => Alignment (base + size) alignment ∧ request < 2 ^ 64
  | .release _ => True

section

variable {base size threshold : Nat} {h : SplitMemoryHeap}

theorem tiling_new (hbase : 0 < base) (hsize : 0 < size) :
    Tiling (base + size) ({⟨base, size⟩} ∪ {⟨0, base⟩}) := by
  refine ⟨?_, ?_, fun x => ?_⟩
  · rintro e (rfl | rfl)
    · exact hsize
    · exact hbase
  · rintro e (rfl | rfl) f (rfl | rfl) x hxe hxf
    all_goals
      simp only [Extent.mem_iff] at hxe hxf
      first
      | rfl
      | omega
  · simp only [Set.mem_union, Set.mem_singleton_iff, or_and_right, exists_or, exists_eq_left,
      Extent.mem_iff]
    omega

theorem disjoint_new (hbase : 0 < base) :
    ∀ e ∈ ({⟨base, size⟩} : Set Extent), e ∉ ({⟨0, base⟩} : Set Extent) := by
  rintro e rfl heq
  have hoffset := congrArg Extent.offset (Set.mem_singleton_iff.mp heq)
  dsimp only at hoffset
  omega

theorem coalesced_new (hsize : 0 < size) :
    ∀ e ∈ ({⟨base, size⟩} : Set Extent), ∀ f ∈ ({⟨base, size⟩} : Set Extent),
      e.stop ≠ f.offset := by
  rintro e rfl f rfl
  simp only [Extent.stop]
  omega

def newPool (hbase : 0 < base) (hsize : 0 < size) : Pool (base + size) 1 where
  idle := {⟨base, size⟩}
  used := {⟨0, base⟩}
  tiling := tiling_new hbase hsize
  disjoint := disjoint_new hbase
  coalesced := coalesced_new hsize
  aligned := fun _ _ => ⟨Nat.one_dvd _, Nat.one_dvd _⟩

theorem free_new (settings : Bool × Nat) :
    Free { initialized := settings.1, splitThreshold := settings.2, usedBytes := 0,
           globalFreeMap := ∅, sizeBuckets := replicate align64 ∅,
           allocatedRecords := ∅ } ∅ := by
  refine ⟨fun r => ?_, length_replicate, fun i bucket hbucket x => ?_⟩
  · exact iff_of_false (notMem_empty r) (Set.notMem_empty r)
  · obtain rfl : bucket = ∅ := eq_of_mem_replicate (mem_of_getElem? hbucket)
    refine iff_of_false (notMem_empty x) ?_
    rintro ⟨r, hr, -⟩
    exact hr

theorem describes_start (hbase : 0 < base) (hsize : 0 < size) :
    Describes base threshold (start base size threshold) (newPool hbase hsize) {⟨0, base⟩} := by
  have hfree := (free_new (false, threshold)).addToFreeStructures (r := ⟨base, size⟩) hsize
    fun s hs => absurd hs (Set.notMem_empty s)
  rw [start, if_pos ⟨hbase.ne', hsize⟩]
  have hrecords : ∀ h' : SplitMemoryHeap, h'.allocatedRecords = ∅ →
      (h'.addToFreeStructures ⟨base, size⟩).allocatedRecords = ∅ := by
    intro h' hempty
    rw [addToFreeStructures_allocatedRecords, hempty]
  refine ⟨?_, ⟨?_, hfree.length, ?_⟩, fun r => ?_, fun r hr => ?_, rfl, ?_⟩
  · rw [settings, addToFreeStructures, if_neg hsize.ne']
  · intro r
    rw [hfree.map, insert_empty_eq]
    rfl
  · intro i bucket hbucket x
    rw [hfree.buckets i bucket hbucket, insert_empty_eq]
    rfl
  · rw [hrecords _ rfl]
    exact (or_iff_right (notMem_empty r)).symm
  · rw [hrecords _ rfl] at hr
    exact absurd hr (notMem_empty r)
  · rw [hrecords _ rfl, addToFreeStructures_usedBytes]
    rfl

theorem start_zero (base threshold : Nat) :
    start base 0 threshold = ⟨false, threshold, 0, ∅, replicate align64 ∅, ∅⟩ := by
  rw [start, if_neg (by simp)]

theorem alignedAllocate_start_zero (base threshold alignment request : Nat) :
    (start base 0 threshold).alignedAllocate alignment request =
      (none, start base 0 threshold) := by
  rw [alignedAllocate, start_zero]
  simp

theorem step_start_zero (base threshold : Nat) (call : Call) :
    (step (start base 0 threshold) call).1 = start base 0 threshold := by
  cases call with
  | alignedAllocate alignment request => rw [step, alignedAllocate_start_zero]
  | release address =>
    rw [step, release, start_zero]
    split <;> rfl

theorem exists_describes (hle : size ≤ base) (hlt : base + size < 2 ^ 63) {log : List Result}
    (htrace : Trace step (Allowed base size) (start base size threshold) log h) :
    (size = 0 ∧ h = start base size threshold) ∨
      ∃ (p : Pool (base + size) 1) (lost : Set Extent), Describes base threshold h p lost := by
  rcases Nat.eq_zero_or_pos size with rfl | hsize
  · refine .inl ⟨rfl, ?_⟩
    refine htrace.invariant (P := fun _ h => h = start base 0 threshold) rfl ?_
    rintro log h call rfl -
    exact step_start_zero base threshold call
  have hbase : 0 < base := by omega
  refine .inr (htrace.invariant (P := fun _ h => ∃ (p : Pool (base + size) 1) (lost : Set Extent),
    Describes base threshold h p lost) ⟨_, _, describes_start hbase hsize⟩ ?_)
  rintro log h call ⟨p, lost, hd⟩ hallowed
  cases call with
  | alignedAllocate alignment request =>
    rcases hd.alignedAllocate hle hallowed.1 hallowed.2 with ⟨heq, -⟩ | htaken
    · rw [step, heq]
      exact ⟨p, lost, hd⟩
    · obtain ⟨a, e, -, -, -, -, q, lost', hq, -⟩ := htaken
      exact ⟨q, lost', hq⟩
  | release address =>
    rcases hd.release hlt hbase address with ⟨heq, -⟩ | ⟨-, -, -, q, hq⟩
    · rw [step, heq]
      exact ⟨p, lost, hd⟩
    · exact ⟨q, lost, hq⟩

end

/-! ## Correctness -/

/-- The free and the live blocks lie in the pool and do not overlap, no two free ones are
adjacent, every bucket holds the free blocks of its logarithm, and the live bytes are
counted. -/
structure Divided (base size : Nat) (h : SplitMemoryHeap) : Prop where
  inside : ∀ r, r ∈ h.globalFreeMap ∨ r ∈ h.allocatedRecords →
    0 < r.size ∧ base ≤ r.offset ∧ r.stop ≤ base + size
  disjoint : (h.globalFreeMap.toList ++ h.allocatedRecords.toList).Pairwise fun r s =>
    ∀ x, x ∈ r → x ∉ s
  buckets : ∀ i, i < 64 → ∃ bucket, h.sizeBuckets[i]? = some bucket ∧
    ∀ x, x ∈ bucket ↔ ∃ r ∈ h.globalFreeMap, r.offset = x ∧ Nat.log2 r.size = i
  coalesced : ∀ r ∈ h.globalFreeMap, ∀ s ∈ h.globalFreeMap, r.stop ≠ s.offset
  usedBytes : h.usedBytes = (h.allocatedRecords.toList.map Extent.size).sum

section

variable {base size threshold : Nat} {h : SplitMemoryHeap} {p : Pool (base + size) 1}
  {lost : Set Extent}

/-- In a map of tiles, extents with different offsets are disjoint. -/
theorem pairwise_apart (p : Pool (base + size) 1) {t : Ordered Extent.offset}
    (ht : ∀ r ∈ t, r ∈ p.idle ∪ p.used) : t.toList.Pairwise fun r s => ∀ x, x ∈ r → x ∉ s := by
  refine t.sorted.imp_of_mem fun {r s} hr hs hlt x hxr hxs => ?_
  have heq := p.tiling.unique r (ht r hr) s (ht s hs) x hxr hxs
  rw [heq] at hlt
  exact lt_irrefl _ hlt

theorem Describes.divided (hd : Describes base threshold h p lost) (hle : size ≤ base)
    (hlt : base + size < 2 ^ 63) : Divided base size h := by
  have hlive : ∀ r ∈ h.allocatedRecords, r ∈ p.used := fun r hr => (hd.used r).mpr (.inl hr)
  refine ⟨?_, ?_, fun i hi => ?_, fun r hr s hs => ?_, hd.usedBytes⟩
  · rintro r (hr | hr)
    · have hr := (hd.free.map r).mp hr
      exact ⟨p.tiling.pos r (.inl hr), hd.base_le (.inl hr) (hd.notLost_of_idle hr),
        p.tiling.stop_le (.inl hr)⟩
    · have hused := hlive r hr
      exact ⟨p.tiling.pos r (.inr hused), hd.base_le (.inr hused) (hd.apart r hr),
        p.tiling.stop_le (.inr hused)⟩
  · refine pairwise_append.mpr ⟨pairwise_apart p fun r hr => .inl ((hd.free.map r).mp hr),
      pairwise_apart p fun r hr => .inr (hlive r hr), fun r hr s hs x hxr hxs => ?_⟩
    have hr := (hd.free.map r).mp hr
    have hs := hlive s hs
    have heq := p.tiling.unique r (.inl hr) s (.inr hs) x hxr hxs
    exact p.disjoint r hr (heq ▸ hs)
  · have hlen : i < h.sizeBuckets.length := by
      rw [hd.free.length]
      exact hi
    refine ⟨_, getElem?_eq_getElem hlen, fun x => ?_⟩
    rw [hd.free.buckets i _ (getElem?_eq_getElem hlen)]
    refine exists_congr fun r => ?_
    rw [hd.free.map]
    refine and_congr_right fun hr => and_congr_right fun _ => ?_
    rw [getBucketIndex_eq (hd.size_lt hle hlt hr)]
  · exact p.coalesced r ((hd.free.map r).mp hr) s ((hd.free.map s).mp hs)

theorem divided_start_zero (base threshold : Nat) : Divided base 0 (start base 0 threshold) := by
  rw [start_zero]
  refine ⟨?_, .nil, fun i hi => ⟨∅, ?_, fun x => ?_⟩, fun r hr => ?_, rfl⟩
  · rintro r (hr | hr)
    all_goals exact absurd hr (notMem_empty r)
  · exact getElem?_replicate_of_lt hi
  · refine iff_of_false (notMem_empty x) ?_
    rintro ⟨r, hr, -⟩
    exact notMem_empty r hr
  · exact absurd hr (notMem_empty r)

end

/-- After any sequence of calls the heap is divided.  An allocation of a positive size fails
exactly when no free block contains an aligned range of that size, and one of size zero
always fails; the address of one that succeeds is aligned and recorded with the requested
size; and a call that fails changes nothing. -/
theorem splitMemoryHeap_correct {base size threshold : Nat} (hle : size ≤ base)
    (hlt : base + size < 2 ^ 63) {log : List Result} {h : SplitMemoryHeap}
    (htrace : Trace step (Allowed base size) (start base size threshold) log h) :
    Divided base size h ∧
      (∀ alignment request, Alignment (base + size) alignment → request < 2 ^ 64 →
        ((h.alignedAllocate alignment request).1 = none ↔
          request = 0 ∨ ∀ block ∈ h.globalFreeMap, ¬ Fits alignment request block) ∧
        ((h.alignedAllocate alignment request).1 = none →
          (h.alignedAllocate alignment request).2 = h) ∧
        ∀ address, (h.alignedAllocate alignment request).1 = some address →
          alignment ∣ address ∧
          (h.alignedAllocate alignment request).2.allocatedSize address = some request) ∧
      ∀ address, (h.release address).1 ≠ 0 → (h.release address).2 = h := by
  rcases exists_describes hle hlt htrace with ⟨rfl, rfl⟩ | ⟨p, lost, hd⟩
  · refine ⟨divided_start_zero base threshold, fun alignment request _ _ => ⟨?_, ?_, ?_⟩, ?_⟩
    · rw [alignedAllocate_start_zero]
      refine iff_of_true rfl (.inr fun block hblock => ?_)
      rw [start_zero] at hblock
      exact absurd hblock (notMem_empty block)
    · rw [alignedAllocate_start_zero]
      exact fun _ => rfl
    · intro address hsome
      rw [alignedAllocate_start_zero] at hsome
      cases hsome
    · intro address _
      exact step_start_zero base threshold (.release address)
  · refine ⟨hd.divided hle hlt, fun alignment request ha hreq => ?_, fun address hret => ?_⟩
    · rcases hd.alignedAllocate hle ha hreq with ⟨heq, hfail⟩ | htaken
      · rw [heq]
        refine ⟨iff_of_true rfl ?_, fun _ => rfl, fun address hsome => ?_⟩
        · exact hfail.imp_right fun hno block hblock => hno block ((hd.free.map block).mp hblock)
        · cases hsome
      · obtain ⟨a, e, he, htaken, hsome, hrecords, -⟩ := htaken
        rw [hsome]
        refine ⟨iff_of_false (Option.some_ne_none a) ?_, fun hnone => ?_, fun address heq => ?_⟩
        · rintro (hzero | hno)
          · exact htaken.pos.ne' hzero
          · exact hno e ((hd.free.map e).mpr he) ⟨a, htaken.dvd, htaken.offset_le, htaken.le_stop⟩
        · cases hnone
        · obtain rfl : a = address := Option.some.inj heq
          refine ⟨htaken.dvd, ?_⟩
          have hfind : (h.allocatedRecords.assign ⟨a, request⟩).find a = some ⟨a, request⟩ :=
            find_eq_some.mpr ⟨mem_assign.mpr (.inl rfl), rfl⟩
          rw [allocatedSize, hrecords, hfind]
          rfl
    · rcases hd.release hlt hd.base_pos address with ⟨heq, -⟩ | ⟨hzero, -⟩
      · rw [heq]
      · exact absurd hzero hret

/-- Two blocks of a pool of 512 bytes, one from below and one from above. -/
theorem splitMemoryHeap_correct_twoBlocks :
    Divided 4096 512 (run step (start 4096 512 100)
      [.alignedAllocate 32 40, .alignedAllocate 64 128, .release 4096]).1 ∧
    (run step (start 4096 512 100)
      [.alignedAllocate 32 40, .alignedAllocate 64 128, .release 4096]).2 =
        [.allocated 32 40 (some 4096), .allocated 64 128 (some 4480), .released 4096 0] := by
  refine ⟨?_, by decide +kernel⟩
  have hallowed : AllAllowed step (Allowed 4096 512) (start 4096 512 100)
      [.alignedAllocate 32 40, .alignedAllocate 64 128, .release 4096] :=
    ⟨⟨⟨⟨5, rfl⟩, by decide⟩, by decide⟩, ⟨⟨⟨6, rfl⟩, by decide⟩, by decide⟩, trivial, trivial⟩
  exact (splitMemoryHeap_correct (by decide) (by decide) (trace_run_of_allowed hallowed)).1

/-- A request of no bytes fails although the free block contains an aligned range of no bytes. -/
theorem empty_request_fails :
    ((start 4096 512 100).alignedAllocate 32 0).1 = none ∧
      ∃ block ∈ (start 4096 512 100).globalFreeMap, Fits 32 0 block := by
  refine ⟨rfl, ⟨4096, 512⟩, ?_, 4096, ⟨128, rfl⟩, le_rfl, Nat.le_add_right 4096 512⟩
  rw [mem_def]
  decide +kernel

end MemFabric.Zbal.Sma.SplitMemoryHeap
