import MemFabric.Zbal.Sma.Heap

/-!
# The heap keeps a divided pool

The free structures and the records describe the addresses from `0` to the end of the pool,
divided into extents.  The used ones are the live blocks and the lost ones: the addresses in
front of the pool and the padding that was discarded.
-/

namespace MemFabric.Zbal.Sma.SplitMemoryHeap

open Machine Ordered Extent List Word64 Set

/-! ## Buckets -/

theorem getBucketIndex_eq {size : Nat} (hlt : size < 2 ^ 64) :
    getBucketIndex size = Nat.log2 size := by
  rw [getBucketIndex, builtinClzll, align64]
  split
  · rename_i hzero
    subst hzero
    decide
  · rename_i hne
    have hlog := (Nat.log2_lt hne).mpr hlt
    omega

theorem getBucketIndex_lt {size : Nat} (hlt : size < 2 ^ 64) : getBucketIndex size < 64 := by
  rw [getBucketIndex_eq hlt]
  rcases Nat.eq_zero_or_pos size with rfl | hpos
  · decide
  · exact (Nat.log2_lt hpos.ne').mpr hlt

theorem getBucketIndex_mono {m n : Nat} (hm : 0 < m) (hle : m ≤ n) (hlt : n < 2 ^ 64) :
    getBucketIndex m ≤ getBucketIndex n := by
  rw [getBucketIndex_eq (hle.trans_lt hlt), getBucketIndex_eq hlt]
  exact (Nat.le_log2 (hm.trans_le hle).ne').mpr ((Nat.log2_self_le hm.ne').trans hle)

/-- A block in the bucket of a request or a later one has more than half its size. -/
theorem lt_two_mul_of_getBucketIndex_le {m n : Nat} (hm : m < 2 ^ 64) (hn : n < 2 ^ 64)
    (hpos : 0 < n) (hle : getBucketIndex m ≤ getBucketIndex n) : m < 2 * n := by
  rw [getBucketIndex_eq hm, getBucketIndex_eq hn] at hle
  calc m < 2 ^ (Nat.log2 m + 1) := Nat.lt_log2_self
    _ ≤ 2 ^ (Nat.log2 n + 1) := Nat.pow_le_pow_right (by decide) (Nat.succ_le_succ hle)
    _ = 2 * 2 ^ Nat.log2 n := by rw [pow_succ, Nat.mul_comm]
    _ ≤ 2 * n := Nat.mul_le_mul_left 2 (Nat.log2_self_le hpos.ne')

/-! ## The free structures -/

structure Free (h : SplitMemoryHeap) (idle : Set Extent) : Prop where
  map : ∀ r, r ∈ h.globalFreeMap ↔ r ∈ idle
  length : h.sizeBuckets.length = align64
  buckets : ∀ i bucket, h.sizeBuckets[i]? = some bucket →
    ∀ x, x ∈ bucket ↔ ∃ r ∈ idle, r.offset = x ∧ getBucketIndex r.size = i

namespace Free

variable {h : SplitMemoryHeap} {idle : Set Extent} {r : Extent}

variable (hfree : Free h idle)

include hfree

theorem eq_of_offset {s : Extent} (hr : r ∈ idle) (hs : s ∈ idle)
    (heq : r.offset = s.offset) : r = s :=
  eq_of_key ((hfree.map r).mpr hr) ((hfree.map s).mpr hs) heq

theorem freeBlock_eq (hr : r ∈ idle) : h.freeBlock r.offset = r := by
  rw [freeBlock, find_eq_some.mpr ⟨(hfree.map r).mpr hr, rfl⟩, Option.getD_some]

theorem unique {h' : SplitMemoryHeap} (hfree' : Free h' idle) :
    h.globalFreeMap = h'.globalFreeMap ∧ h.sizeBuckets = h'.sizeBuckets := by
  refine ⟨Ordered.ext fun r => (hfree.map r).trans (hfree'.map r).symm, ?_⟩
  refine ext_getElem (hfree.length.trans hfree'.length.symm) fun i hi hi' => ?_
  refine Ordered.ext fun x => ?_
  rw [hfree.buckets i _ (getElem?_eq_getElem hi),
    hfree'.buckets i _ (getElem?_eq_getElem hi')]

theorem removeFromFreeStructures (hr : r ∈ idle) :
    Free (h.removeFromFreeStructures r) (idle \ {r}) := by
  refine ⟨fun s => ?_, ?_, fun i bucket hbucket x => ?_⟩
  · rw [SplitMemoryHeap.removeFromFreeStructures, mem_erase, hfree.map, mem_sdiff,
      mem_singleton_iff]
    refine and_congr_right fun hs => not_congr ⟨hfree.eq_of_offset hs hr, fun heq => heq ▸ rfl⟩
  · rw [SplitMemoryHeap.removeFromFreeStructures, length_modify, hfree.length]
  · rw [SplitMemoryHeap.removeFromFreeStructures, getElem?_modify] at hbucket
    obtain ⟨old, hold, rfl⟩ := Option.map_eq_some_iff.mp hbucket
    have hmem := hfree.buckets i old hold
    split
    · rw [mem_erase, hmem]
      constructor
      · rintro ⟨⟨s, hs, rfl, hidx⟩, hne⟩
        exact ⟨s, ⟨hs, fun heq => hne (heq ▸ rfl)⟩, rfl, hidx⟩
      · rintro ⟨s, ⟨hs, hne⟩, rfl, hidx⟩
        exact ⟨⟨s, hs, rfl, hidx⟩, fun heq => hne (hfree.eq_of_offset hs hr heq)⟩
    · rename_i hi
      rw [hmem]
      refine exists_congr fun s => ?_
      constructor
      · rintro ⟨hs, rfl, hidx⟩
        exact ⟨⟨hs, fun heq => hi (heq ▸ hidx)⟩, rfl, hidx⟩
      · rintro ⟨⟨hs, -⟩, rfl, hidx⟩
        exact ⟨hs, rfl, hidx⟩

theorem addToFreeStructures (hpos : 0 < r.size) (hnew : ∀ s ∈ idle, s.offset ≠ r.offset) :
    Free (h.addToFreeStructures r) (insert r idle) := by
  rw [SplitMemoryHeap.addToFreeStructures, if_neg hpos.ne']
  refine ⟨fun s => ?_, ?_, fun i bucket hbucket x => ?_⟩
  · rw [mem_assign, hfree.map]
    exact or_congr_right (and_iff_left_of_imp (hnew s))
  · rw [length_modify, hfree.length]
  · rw [getElem?_modify] at hbucket
    obtain ⟨old, hold, rfl⟩ := Option.map_eq_some_iff.mp hbucket
    have hmem := hfree.buckets i old hold
    split
    · rename_i hi
      rw [mem_emplace_id, hmem]
      constructor
      · rintro (⟨s, hs, rfl, hidx⟩ | rfl)
        · exact ⟨s, .inr hs, rfl, hidx⟩
        · exact ⟨r, .inl rfl, rfl, hi⟩
      · rintro ⟨s, rfl | hs, rfl, hidx⟩
        · exact .inr rfl
        · exact .inl ⟨s, hs, rfl, hidx⟩
    · rename_i hi
      rw [hmem]
      constructor
      · rintro ⟨s, hs, rfl, hidx⟩
        exact ⟨s, .inr hs, rfl, hidx⟩
      · rintro ⟨s, rfl | hs, rfl, hidx⟩
        · exact absurd hidx hi
        · exact ⟨s, hs, rfl, hidx⟩

theorem mem_blocksFrom (hlt : ∀ r ∈ idle, r.size < 2 ^ 64) {startIdx : Nat}
    {order : Ordered (id : Nat → Nat) → List Nat}
    (horder : ∀ bucket x, x ∈ order bucket ↔ x ∈ bucket) :
    r ∈ h.blocksFrom startIdx order ↔ r ∈ idle ∧ startIdx ≤ getBucketIndex r.size := by
  rw [blocksFrom, mem_flatMap]
  constructor
  · rintro ⟨bucket, hbucket, hr⟩
    obtain ⟨j, hj⟩ := mem_iff_getElem?.mp hbucket
    rw [getElem?_drop] at hj
    obtain ⟨x, hx, rfl⟩ := mem_map.mp hr
    obtain ⟨s, hs, rfl, hidx⟩ := (hfree.buckets _ bucket hj x).mp ((horder bucket x).mp hx)
    rw [hfree.freeBlock_eq hs]
    exact ⟨hs, hidx ▸ Nat.le_add_right startIdx j⟩
  · rintro ⟨hr, hle⟩
    have hlen : getBucketIndex r.size < h.sizeBuckets.length := by
      rw [hfree.length]
      exact getBucketIndex_lt (hlt r hr)
    have hbucket := getElem?_eq_getElem hlen
    refine ⟨h.sizeBuckets[getBucketIndex r.size], ?_, ?_⟩
    · refine mem_iff_getElem?.mpr ⟨getBucketIndex r.size - startIdx, ?_⟩
      rw [getElem?_drop, Nat.add_sub_cancel' hle]
      exact hbucket
    · refine mem_map.mpr ⟨r.offset, (horder _ _).mpr ?_, hfree.freeBlock_eq hr⟩
      exact (hfree.buckets _ _ hbucket r.offset).mpr ⟨r, hr, rfl, rfl⟩

end Free

/-! ## The pool behind the structures -/

def bytes (t : Ordered offset) : Nat := (t.toList.map size).sum

def settings (h : SplitMemoryHeap) : Bool × Nat := (h.initialized, h.splitThreshold)

variable {base threshold n : Nat} {h : SplitMemoryHeap} {p : Pool n 1} {lost : Set Extent}
  {e : Extent}

/-- The heap describes the pool, with these extents lost. -/
structure Describes (base threshold : Nat) (h : SplitMemoryHeap) (p : Pool n 1)
    (lost : Set Extent) : Prop where
  settings : h.settings = (true, threshold)
  free : Free h p.idle
  used : ∀ r, r ∈ p.used ↔ r ∈ h.allocatedRecords ∨ r ∈ lost
  apart : ∀ r ∈ h.allocatedRecords, r ∉ lost
  below : (⟨0, base⟩ : Extent) ∈ lost
  usedBytes : h.usedBytes = bytes h.allocatedRecords

/-- The heap describes the pool except for the used extent `e`. -/
structure Holding (base threshold : Nat) (h : SplitMemoryHeap) (p : Pool n 1) (lost : Set Extent)
    (e : Extent) : Prop where
  settings : h.settings = (true, threshold)
  free : Free h p.idle
  used : ∀ r, r ∈ p.used ↔ r = e ∨ r ∈ h.allocatedRecords ∨ r ∈ lost
  notMem : e ∉ h.allocatedRecords
  notLost : e ∉ lost
  apart : ∀ r ∈ h.allocatedRecords, r ∉ lost
  below : (⟨0, base⟩ : Extent) ∈ lost
  usedBytes : h.usedBytes = bytes h.allocatedRecords

section

variable (hold : Holding base threshold h p lost e)

include hold

theorem Holding.mem : e ∈ p.used :=
  (hold.used e).mpr (.inl rfl)

theorem Holding.notMem_of_mem {f : Extent} {x : Nat}
    (hx : x ∈ e) (hxf : x ∈ f) : f ∉ h.allocatedRecords ∧ f ∉ lost := by
  constructor
  · intro hf
    have heq := p.eq_of_mem_used hold.mem (.inr ((hold.used f).mpr (.inr (.inl hf)))) hx hxf
    exact hold.notMem (heq ▸ hf)
  · intro hf
    have heq := p.eq_of_mem_used hold.mem (.inr ((hold.used f).mpr (.inr (.inr hf)))) hx hxf
    exact hold.notLost (heq ▸ hf)

theorem Holding.used_diff (r : Extent) : r ∈ p.used \ {e} ↔ r ∈ h.allocatedRecords ∨ r ∈ lost := by
  rw [mem_sdiff, hold.used]
  constructor
  · rintro ⟨rfl | hr, hne⟩
    · exact absurd rfl hne
    · exact hr
  · rintro (hr | hr)
    · exact ⟨.inr (.inl hr), fun heq => hold.notMem (heq ▸ hr)⟩
    · exact ⟨.inr (.inr hr), fun heq => hold.notLost (heq ▸ hr)⟩

/-- The extent and the structures change, the records and what is lost do not. -/
theorem Holding.change {h' : SplitMemoryHeap}
    {q : Pool n 1} {g : Extent} (hsettings : h'.settings = h.settings)
    (hrecords : h'.allocatedRecords = h.allocatedRecords) (hbytes : h'.usedBytes = h.usedBytes)
    (hfree : Free h' q.idle) (hused : q.used = insert g (p.used \ {e})) {x : Nat} (hxe : x ∈ e)
    (hxg : x ∈ g) : Holding base threshold h' q lost g := by
  obtain ⟨hnotMem, hnotLost⟩ := hold.notMem_of_mem hxe hxg
  refine ⟨hsettings.trans hold.settings, hfree, fun r => ?_, hrecords ▸ hnotMem, hnotLost, ?_,
    hold.below, ?_⟩
  · rw [hused, mem_insert_iff, hold.used_diff, hrecords]
  · rw [hrecords]
    exact hold.apart
  · rw [hbytes, hrecords]
    exact hold.usedBytes

end

theorem Describes.base_le (hd : Describes base threshold h p lost) (he : e ∈ p.idle ∪ p.used)
    (hne : e ∉ lost) : base ≤ e.offset := by
  by_contra hlt
  have hmem : e.offset ∈ (⟨0, base⟩ : Extent) := by
    simp only [mem_iff]
    omega
  have hbelow := (hd.used _).mpr (.inr hd.below)
  have heq := p.eq_of_mem_used hbelow he hmem (p.tiling.offset_mem he)
  exact hne (heq ▸ hd.below)

theorem Describes.notLost_of_idle (hd : Describes base threshold h p lost) (he : e ∈ p.idle) :
    e ∉ lost :=
  fun hlost => p.disjoint e he ((hd.used e).mpr (.inr hlost))

section

variable (r : Extent)

@[simp] theorem removeFromFreeStructures_allocatedRecords :
    (h.removeFromFreeStructures r).allocatedRecords = h.allocatedRecords := rfl

@[simp] theorem removeFromFreeStructures_usedBytes :
    (h.removeFromFreeStructures r).usedBytes = h.usedBytes := rfl

@[simp] theorem addToFreeStructures_settings :
    (h.addToFreeStructures r).settings = h.settings := by
  rw [addToFreeStructures]
  split <;> rfl

@[simp] theorem addToFreeStructures_allocatedRecords :
    (h.addToFreeStructures r).allocatedRecords = h.allocatedRecords := by
  rw [addToFreeStructures]
  split <;> rfl

@[simp] theorem addToFreeStructures_usedBytes :
    (h.addToFreeStructures r).usedBytes = h.usedBytes := by
  rw [addToFreeStructures]
  split <;> rfl

end

/-! ## Taking a block -/

theorem Describes.claim (hd : Describes base threshold h p lost) (he : e ∈ p.idle) :
    Holding base threshold (h.removeFromFreeStructures e) (p.claim he) lost e where
  settings := hd.settings
  free := hd.free.removeFromFreeStructures he
  used r := by
    rw [Pool.claim, mem_insert_iff, hd.used]
    rfl
  notMem hmem := p.disjoint e he ((hd.used e).mpr (.inl hmem))
  notLost := hd.notLost_of_idle he
  apart := hd.apart
  below := hd.below
  usedBytes := hd.usedBytes

section

variable (hold : Holding base threshold h p lost e)

include hold

theorem Holding.addFront {a : Nat} (ha : 0 < a)
    (hlt : a < e.size) (hprev : ∀ f ∈ p.idle, f.stop ≠ e.offset) :
    Holding base threshold (h.addToFreeStructures (e.front a))
      (p.trimFront hold.mem ha hlt (Nat.one_dvd a) hprev) lost (e.rest a) := by
  have hmem : e.offset + a ∈ e := by
    rw [mem_iff]
    omega
  have hrest : e.offset + a ∈ e.rest a := by
    simp only [mem_iff, rest]
    omega
  refine hold.change (by simp) (by simp) (by simp) ?_ rfl hmem hrest
  exact hold.free.addToFreeStructures ha fun s hs heq => p.offset_ne_of_mem_used hold.mem hs heq

theorem Holding.addRest {a : Nat} (ha : 0 < a)
    (hlt : a < e.size) (hnext : ∀ f ∈ p.idle, e.stop ≠ f.offset) :
    Holding base threshold (h.addToFreeStructures (e.rest a))
      (p.trim hold.mem ha hlt (Nat.one_dvd a) hnext) lost (e.front a) := by
  have hfront : e.offset ∈ e.front a := by
    simp only [mem_iff, front]
    omega
  refine hold.change (by simp) (by simp) (by simp) ?_ rfl
    (p.tiling.offset_mem (.inr hold.mem)) hfront
  refine hold.free.addToFreeStructures (Nat.sub_pos_of_lt hlt) fun s hs heq => ?_
  have hmem : (e.rest a).offset ∈ e := by
    simp only [mem_iff, rest]
    omega
  rw [← heq] at hmem
  exact p.notMem_of_mem_used hold.mem hs hmem (p.tiling.offset_mem (.inl hs))

theorem Holding.discard {a : Nat} (ha : 0 < a) (hlt : a < e.size) :
    Holding base threshold h (p.cut hold.mem ha hlt (Nat.one_dvd a))
      (insert (e.rest a) lost) (e.front a) := by
  have hoffset : e.offset ∈ e := p.tiling.offset_mem (.inr hold.mem)
  have hmem : e.offset + a ∈ e := by
    rw [mem_iff]
    omega
  have hfront : e.offset ∈ e.front a := by
    simp only [mem_iff, front]
    omega
  have hrest : e.offset + a ∈ e.rest a := by
    simp only [mem_iff, rest]
    omega
  obtain ⟨hnotMem, hnotLost⟩ := hold.notMem_of_mem hoffset hfront
  have hrestMem := (hold.notMem_of_mem hmem hrest).1
  refine ⟨hold.settings, hold.free, fun r => ?_, hnotMem, ?_, ?_, .inr hold.below, hold.usedBytes⟩
  · rw [Pool.cut, mem_union, hold.used_diff, mem_insert_iff, mem_insert_iff,
      mem_singleton_iff]
    tauto
  · rintro (heq | hmem)
    · have hoffset := congrArg offset heq
      simp only [front, rest] at hoffset
      omega
    · exact hnotLost hmem
  · rintro r hr (rfl | hmem)
    · exact hrestMem hr
    · exact hold.apart r hr hmem

theorem Holding.recordAllocation (hn : n < 2 ^ 64) :
    Describes base threshold (h.recordAllocation e.offset e.size) p lost := by
  have hnew : ∀ r ∈ h.allocatedRecords, r.offset ≠ e.offset := by
    intro r hr heq
    have hused := (hold.used r).mpr (.inr (.inl hr))
    exact hold.notMem (p.tiling.eq_of_offset (.inr hused) (.inr hold.mem) heq ▸ hr)
  have herase : h.allocatedRecords.erase e.offset = h.allocatedRecords := Ordered.ext fun r => by
    rw [mem_erase]
    exact and_iff_left_of_imp (hnew r)
  have hassign : h.allocatedRecords.assign e = h.allocatedRecords.emplace e := by
    rw [assign, herase]
  have hperm := perm_emplace (t := h.allocatedRecords) (a := e) hnew
  have hsum : bytes (h.allocatedRecords.emplace e) = e.size + bytes h.allocatedRecords := by
    rw [bytes, (hperm.map size).sum_eq, map_cons, sum_cons, bytes]
  have hle : bytes (h.allocatedRecords.emplace e) ≤ n := by
    refine p.tiling.sum_size_le (h.allocatedRecords.emplace e).nodup fun r hr => .inr ?_
    rcases (mem_emplace hnew).mp hr with rfl | hr
    · exact hold.mem
    · exact (hold.used r).mpr (.inr (.inl hr))
  refine ⟨hold.settings, ⟨hold.free.map, hold.free.length, hold.free.buckets⟩, fun r => ?_, ?_,
    hold.below, ?_⟩
  · rw [hold.used, SplitMemoryHeap.recordAllocation, hassign, mem_emplace hnew, or_assoc]
  · intro r hr
    rw [SplitMemoryHeap.recordAllocation, hassign, mem_emplace hnew] at hr
    rcases hr with rfl | hr
    · exact hold.notLost
    · exact hold.apart r hr
  · rw [SplitMemoryHeap.recordAllocation, hassign, hsum, hold.usedBytes, add_eq,
      Nat.add_comm]
    omega

end

/-! ## Giving back -/

theorem Describes.unrecord (hd : Describes base threshold h p lost) (hn : n < 2 ^ 64)
    (he : e ∈ h.allocatedRecords) :
    Holding base threshold { h with
      allocatedRecords := h.allocatedRecords.erase e.offset
      usedBytes := sub h.usedBytes e.size } p lost e := by
  have hperm := perm_erase he
  have hsum : bytes h.allocatedRecords = e.size + bytes (h.allocatedRecords.erase e.offset) := by
    rw [bytes, (hperm.map size).sum_eq, map_cons, sum_cons, bytes]
  have hle : bytes h.allocatedRecords ≤ n :=
    p.tiling.sum_size_le h.allocatedRecords.nodup fun r hr => .inr ((hd.used r).mpr (.inl hr))
  have hiff : ∀ r, r ∈ h.allocatedRecords ↔ r = e ∨ r ∈ h.allocatedRecords.erase e.offset := by
    intro r
    rw [mem_def, hperm.mem_iff, mem_cons, mem_def]
  refine ⟨hd.settings, ⟨hd.free.map, hd.free.length, hd.free.buckets⟩, fun r => ?_, fun hmem => ?_,
    hd.apart e he, fun r hr => hd.apart r (mem_erase.mp hr).1, hd.below, ?_⟩
  · rw [hd.used, hiff, or_assoc]
  · exact (mem_erase.mp hmem).2 rfl
  · rw [hd.usedBytes, sub_eq (by omega) (by omega), hsum, Nat.add_sub_cancel_left]

section

variable (hold : Holding base threshold h p lost e)

include hold

theorem Holding.add_eq_stop (hn : n < 2 ^ 64) : add e.offset e.size = e.stop :=
  add_eq ((p.tiling.stop_le (.inr hold.mem)).trans_lt hn)

theorem Holding.mergeRight (hn : n < 2 ^ 64) :
    ∃ q : Pool n 1, Holding base threshold (h.mergeRight e).2 q lost (h.mergeRight e).1 ∧
      (h.mergeRight e).1.offset = e.offset ∧ ∀ f ∈ q.idle, (h.mergeRight e).1.stop ≠ f.offset := by
  have hstop := hold.add_eq_stop hn
  rw [SplitMemoryHeap.mergeRight, hstop]
  cases hnext : h.globalFreeMap.lowerBound e.stop with
  | none =>
    refine ⟨p, hold, rfl, fun f hf hadj => ?_⟩
    have hlt := lowerBound_eq_none.mp hnext f ((hold.free.map f).mpr hf)
    have hadj : e.stop = f.offset := hadj
    omega
  | some next =>
    obtain ⟨hmem, hle, hmin⟩ := of_lowerBound_eq_some hnext
    have hidle := (hold.free.map next).mp hmem
    dsimp only
    split
    · rename_i hadj
      have hadj : e.stop = next.offset := hadj.symm
      have hsum : add e.size next.size = e.size + next.size := by
        have hstop := p.tiling.stop_le (.inl hidle)
        simp only [stop] at hstop hadj
        exact add_eq (by omega)
      rw [hsum]
      refine ⟨p.absorbRight hold.mem hidle hadj, ?_, rfl, fun f hf => ?_⟩
      · have hjoin : e.offset ∈ e.join next := by
          have hpos := p.tiling.pos e (.inr hold.mem)
          simp only [mem_iff, join]
          omega
        exact hold.change rfl rfl rfl (hold.free.removeFromFreeStructures hidle) rfl
          (p.tiling.offset_mem (.inr hold.mem)) hjoin
      · have hend : (e.join next).stop = next.stop := by
          simp only [stop, join] at hadj ⊢
          omega
        show (e.join next).stop ≠ f.offset
        rw [hend]
        exact p.coalesced next hidle f hf.1
    · rename_i hne
      refine ⟨p, hold, rfl, fun f hf hadj => hne ?_⟩
      have hadj : e.stop = f.offset := hadj
      have hfirst := hmin f ((hold.free.map f).mpr hf) hadj.le
      omega

theorem Holding.mergeLeft (hn : n < 2 ^ 64) (hnext : ∀ f ∈ p.idle, e.stop ≠ f.offset) :
    ∃ q : Pool n 1, Holding base threshold (h.mergeLeft e).2 q lost (h.mergeLeft e).1 ∧
      ∀ f ∈ q.idle, f.stop ≠ (h.mergeLeft e).1.offset ∧ (h.mergeLeft e).1.stop ≠ f.offset := by
  rw [SplitMemoryHeap.mergeLeft]
  have hbefore : ∀ f ∈ p.idle, f.stop = e.offset → h.globalFreeMap.before e.offset = some f :=
    fun f hf hadj => hadj ▸ p.before_stop (fun _ => rfl) hold.free.map hf
  cases hprev : h.globalFreeMap.before e.offset with
  | none =>
    refine ⟨p, hold, fun f hf => ⟨fun hadj => ?_, hnext f hf⟩⟩
    rw [hbefore f hf hadj] at hprev
    cases hprev
  | some prev =>
    obtain ⟨hmem, -, -⟩ := of_before_eq_some hprev
    have hidle := (hold.free.map prev).mp hmem
    have hstop := p.tiling.stop_le (.inl hidle)
    have hprevStop : add prev.offset prev.size = prev.stop :=
      add_eq (hstop.trans_lt hn)
    dsimp only
    rw [hprevStop]
    split
    · rename_i hadj
      have hsum : add e.size prev.size = prev.size + e.size := by
        have hstop := p.tiling.stop_le (.inr hold.mem)
        simp only [stop] at hstop hadj
        rw [add_eq (by omega), Nat.add_comm]
      rw [hsum]
      refine ⟨p.absorbLeft hold.mem hidle hadj, ?_, fun f hf => ⟨?_, ?_⟩⟩
      · have hjoin : e.offset ∈ prev.join e := by
          have hpos := p.tiling.pos e (.inr hold.mem)
          simp only [stop] at hadj
          simp only [mem_iff, join]
          omega
        exact hold.change rfl rfl rfl (hold.free.removeFromFreeStructures hidle) rfl
          (p.tiling.offset_mem (.inr hold.mem)) hjoin
      · exact p.coalesced f hf.1 prev hidle
      · have hend : (prev.join e).stop = e.stop := by
          simp only [stop, join] at hadj ⊢
          omega
        show (prev.join e).stop ≠ f.offset
        rw [hend]
        exact hnext f hf.1
    · rename_i hne
      refine ⟨p, hold, fun f hf => ⟨fun hadj => ?_, hnext f hf⟩⟩
      rw [hbefore f hf hadj] at hprev
      cases hprev
      exact hne hadj

theorem Holding.addToFreeStructures (hno : ∀ f ∈ p.idle, f.stop ≠ e.offset ∧ e.stop ≠ f.offset) :
    Describes base threshold (h.addToFreeStructures e) (p.free hold.mem hno) lost := by
  refine ⟨?_, ?_, fun r => ?_, ?_, hold.below, ?_⟩
  · rw [addToFreeStructures_settings]
    exact hold.settings
  · exact hold.free.addToFreeStructures (p.tiling.pos e (.inr hold.mem)) fun s hs =>
      p.offset_ne_of_mem_used hold.mem hs
  · rw [addToFreeStructures_allocatedRecords]
    exact hold.used_diff r
  · rw [addToFreeStructures_allocatedRecords]
    exact hold.apart
  · rw [addToFreeStructures_allocatedRecords, addToFreeStructures_usedBytes]
    exact hold.usedBytes

end

@[simp] theorem mergeRight_allocatedRecords (r : Extent) :
    (h.mergeRight r).2.allocatedRecords = h.allocatedRecords := by
  rw [mergeRight]
  split
  · rfl
  · split <;> rfl

@[simp] theorem mergeLeft_allocatedRecords (r : Extent) :
    (h.mergeLeft r).2.allocatedRecords = h.allocatedRecords := by
  rw [mergeLeft]
  split
  · rfl
  · split <;> rfl

theorem Holding.coalesceAndInsert (hold : Holding base threshold h p lost e) (hn : n < 2 ^ 64) :
    ∃ q : Pool n 1, Describes base threshold (h.coalesceAndInsert e) q lost ∧
      (h.coalesceAndInsert e).allocatedRecords = h.allocatedRecords := by
  obtain ⟨q1, hold1, hoffset, hnext⟩ := hold.mergeRight hn
  obtain ⟨q2, hold2, hno⟩ := hold1.mergeLeft hn hnext
  refine ⟨_, hold2.addToFreeStructures hno, ?_⟩
  rw [SplitMemoryHeap.coalesceAndInsert]
  simp

end MemFabric.Zbal.Sma.SplitMemoryHeap
