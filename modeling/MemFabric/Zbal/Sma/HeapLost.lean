import MemFabric.Zbal.Sma.HeapRuns

/-!
# What the heap loses

The padding behind a block that is placed from above is discarded.  As long as there is no
such padding, the free and the live blocks make up the whole pool.
-/

namespace MemFabric.Zbal.Sma.SplitMemoryHeap

open Machine List Ordered

/-! ## Calls that lose nothing -/

/-- The calls that discard no padding. -/
def KeepsEnd (h : SplitMemoryHeap) : Call → Prop
  | .alignedAllocate alignment request => h.NoPadding alignment request
  | .release _ => True

def liveAddresses (h : SplitMemoryHeap) : List Nat := h.allocatedRecords.toList.map Extent.offset

section

variable {base size threshold : Nat} {h : SplitMemoryHeap} {p : Pool (base + size) 1}

theorem Describes.step_keepsEnd (hd : Describes base threshold h p {⟨0, base⟩}) (hle : size ≤ base)
    (hlt : base + size < 2 ^ 63) {call : Call} (hallowed : Allowed base size h call)
    (hkeeps : KeepsEnd h call) :
    ∃ q : Pool (base + size) 1, Describes base threshold (step h call).1 q {⟨0, base⟩} := by
  cases call with
  | alignedAllocate alignment request =>
    rcases hd.alignedAllocate hle hallowed.1 hallowed.2 with ⟨heq, -⟩ | htaken
    · rw [step, heq]
      exact ⟨p, hd⟩
    · obtain ⟨a, e, -, -, -, -, q, lost', hq, hlost⟩ := htaken
      rw [hlost hkeeps] at hq
      exact ⟨q, hq⟩
  | release address =>
    rcases hd.release hlt hd.base_pos address with ⟨heq, -⟩ | ⟨-, -, -, q, hq⟩
    · rw [step, heq]
      exact ⟨p, hd⟩
    · exact ⟨q, hq⟩

theorem Describes.bytes_eq (hd : Describes base threshold h p {⟨0, base⟩}) :
    bytes h.globalFreeMap + bytes h.allocatedRecords = size := by
  have hlive : ∀ r ∈ h.allocatedRecords, r ∈ p.used := fun r hr => (hd.used r).mpr (.inl hr)
  have hnodup : ((⟨0, base⟩ : Extent) ::
      (h.globalFreeMap.toList ++ h.allocatedRecords.toList)).Nodup := by
    refine nodup_cons.mpr ⟨fun hmem => ?_, nodup_append.mpr
      ⟨h.globalFreeMap.nodup, h.allocatedRecords.nodup, fun r hr s hs heq => ?_⟩⟩
    · rcases mem_append.mp hmem with hmem | hmem
      · exact hd.notLost_of_idle ((hd.free.map _).mp hmem) rfl
      · exact hd.apart _ hmem rfl
    · exact p.disjoint r ((hd.free.map r).mp hr) (heq ▸ hlive s hs)
  have hsum := p.tiling.sum_size hnodup fun r => by
    rw [mem_cons, mem_append, Set.mem_union, hd.used, ← hd.free.map,
      Set.mem_singleton_iff, mem_def, mem_def]
    tauto
  simp only [map_cons, sum_cons, map_append, sum_append] at hsum
  rw [bytes, bytes]
  omega

theorem nodup_liveAddresses (h : SplitMemoryHeap) : h.liveAddresses.Nodup :=
  h.allocatedRecords.nodup_keys

theorem mem_liveAddresses {a : Nat} :
    a ∈ h.liveAddresses ↔ ∃ r ∈ h.allocatedRecords, r.offset = a := mem_map

theorem Describes.eq_start (hd : Describes base threshold h p {⟨0, base⟩}) (hsize : 0 < size)
    (hempty : h.liveAddresses = []) : h = start base size threshold := by
  have hnew : Describes base threshold (start base size threshold) (newPool hd.base_pos hsize)
      {⟨0, base⟩} := describes_start hd.base_pos hsize
  have hno : ∀ r, r ∉ h.allocatedRecords := by
    intro r hr
    have hmem := mem_liveAddresses.mpr ⟨r, hr, rfl⟩
    rw [hempty] at hmem
    exact not_mem_nil hmem
  have hused : p.used = {⟨0, base⟩} := by
    ext r
    rw [hd.used]
    exact or_iff_right (hno r)
  have hno' : ∀ r, r ∉ (start base size threshold).allocatedRecords := fun r hr =>
    hnew.apart r hr ((hnew.used r).mpr (.inl hr))
  have hrecords : h.allocatedRecords = (start base size threshold).allocatedRecords :=
    ext fun r => iff_of_false (hno r) (hno' r)
  have hfree : Free h (newPool hd.base_pos hsize).idle := by
    have hidle : p.idle = {⟨base, size⟩} := p.idle_eq_of_used_eq_front hsize hused
    show Free h {⟨base, size⟩}
    rw [← hidle]
    exact hd.free
  obtain ⟨hmap, hbuckets⟩ := hfree.unique hnew.free
  have hsettings := hd.settings.trans hnew.settings.symm
  have hbytes : h.usedBytes = (start base size threshold).usedBytes := by
    rw [hd.usedBytes, hnew.usedBytes, hrecords]
  exact SplitMemoryHeap.ext (congrArg Prod.fst hsettings) (congrArg Prod.snd hsettings) hbytes hmap
    hbuckets hrecords

/-- Releasing all that is live, in any order, succeeds each time and restores the heap. -/
theorem Describes.run_release (hd : Describes base threshold h p {⟨0, base⟩})
    (hlt : base + size < 2 ^ 63) (hsize : 0 < size) {order : List Nat}
    (hperm : order.Perm h.liveAddresses) :
    run step h (order.map .release) =
      (start base size threshold, order.map fun a => .released a 0) := by
  have hstep : ∀ h a, (∃ q : Pool (base + size) 1, Describes base threshold h q {⟨0, base⟩}) →
      a ∈ h.liveAddresses →
      (∃ q : Pool (base + size) 1, Describes base threshold (step h (.release a)).1 q {⟨0, base⟩}) ∧
      (step h (.release a)).2 = [.released a 0] ∧
      ∀ b, b ∈ (step h (.release a)).1.liveAddresses ↔ b ∈ h.liveAddresses ∧ b ≠ a := by
    rintro h a ⟨q, hq⟩ ha
    obtain ⟨r, hr, hra⟩ := mem_liveAddresses.mp ha
    rcases hq.release hlt hq.base_pos a with ⟨-, hno⟩ | ⟨hret, -, hrecords, hnext⟩
    · exact absurd hra (hno r hr)
    · refine ⟨hnext, ?_, fun b => ?_⟩
      · rw [step, hret]
      · rw [mem_liveAddresses, mem_liveAddresses, step, hrecords]
        constructor
        · rintro ⟨s, hs, rfl⟩
          obtain ⟨hs, hne⟩ := mem_erase.mp hs
          exact ⟨⟨s, hs, rfl⟩, hne⟩
        · rintro ⟨⟨s, hs, rfl⟩, hne⟩
          exact ⟨s, mem_erase.mpr ⟨hs, hne⟩, rfl⟩
  obtain ⟨⟨q, hq⟩, hempty, hlog⟩ :=
    Machine.run_release (fun h _ => nodup_liveAddresses h) hstep hperm ⟨p, hd⟩
  exact Prod.ext (hq.eq_start hsize hempty) hlog

end

/-- If every request that is placed from above leaves no padding in the block that the search
finds for it, the free and the live bytes always add up to the pool, and releasing the live
blocks in any order restores the heap. -/
theorem splitMemoryHeap_loses_nothing {base size threshold : Nat} (hle : size ≤ base)
    (hlt : base + size < 2 ^ 63) {log : List Result} {h : SplitMemoryHeap}
    (htrace : Trace step (fun h call => Allowed base size h call ∧ KeepsEnd h call)
      (start base size threshold) log h) :
    bytes h.globalFreeMap + bytes h.allocatedRecords = size ∧
      ∀ order : List Nat, order.Perm h.liveAddresses →
        run step h (order.map .release) =
          (start base size threshold, order.map fun a => .released a 0) := by
  rcases Nat.eq_zero_or_pos size with rfl | hsize
  · have hstart : h = start base 0 threshold := by
      refine htrace.invariant (P := fun _ h => h = start base 0 threshold) rfl ?_
      rintro log h call rfl -
      exact step_start_zero base threshold call
    subst hstart
    rw [start_zero]
    refine ⟨rfl, fun order hperm => ?_⟩
    rw [hperm.eq_nil]
    rfl
  · have hbase : 0 < base := by omega
    obtain ⟨p, hd⟩ : ∃ p : Pool (base + size) 1, Describes base threshold h p {⟨0, base⟩} := by
      refine htrace.invariant (P := fun _ h => ∃ p : Pool (base + size) 1,
        Describes base threshold h p {⟨0, base⟩}) ⟨_, describes_start hbase hsize⟩ ?_
      rintro log h call ⟨p, hd⟩ ⟨hallowed, hkeeps⟩
      exact hd.step_keepsEnd hle hlt hallowed hkeeps
    exact ⟨hd.bytes_eq, fun order hperm => hd.run_release hlt hsize hperm⟩

/-- A block from below and one from above that ends with the pool are given back. -/
theorem splitMemoryHeap_loses_nothing_twoBlocks :
    run step (run step (start 4096 512 100) [.alignedAllocate 32 40, .alignedAllocate 64 128]).1
        [.release 4480, .release 4096] =
      (start 4096 512 100, [.released 4480 0, .released 4096 0]) := by
  have hallowed : AllAllowed step (fun h call => Allowed 4096 512 h call ∧ KeepsEnd h call)
      (start 4096 512 100) [.alignedAllocate 32 40, .alignedAllocate 64 128] := by
    refine ⟨⟨⟨⟨⟨5, rfl⟩, by decide⟩, by decide⟩, fun hle => absurd hle (by decide)⟩,
      ⟨⟨⟨⟨6, rfl⟩, by decide⟩, by decide⟩, fun _ block hblock => ?_⟩, trivial⟩
    have hfound : (step (start 4096 512 100) (.alignedAllocate 32 40)).1.findHigh
        (getBucketIndex 128) 64 128 = some ⟨4136, 472⟩ := by decide +kernel
    obtain rfl : ⟨4136, 472⟩ = block := Option.some.inj (hfound.symm.trans hblock)
    decide
  exact (splitMemoryHeap_loses_nothing (by decide) (by decide) (trace_run_of_allowed hallowed)).2
    [4480, 4096] (by decide +kernel)

/-- A block that is placed from above at a multiple of 64 loses the 28 bytes behind it: they
are neither free nor live, and stay so after its release. -/
theorem upper_padding_is_lost :
    AllAllowed step (Allowed 4096 512) (start 4096 512 0) [.alignedAllocate 64 100, .release 4480] ∧
      (bytes (run step (start 4096 512 0) [.alignedAllocate 64 100]).1.globalFreeMap +
        bytes (run step (start 4096 512 0) [.alignedAllocate 64 100]).1.allocatedRecords = 484) ∧
      (run step (start 4096 512 0) [.alignedAllocate 64 100, .release 4480]).2 =
        [.allocated 64 100 (some 4480), .released 4480 0] ∧
      (run step (start 4096 512 0)
        [.alignedAllocate 64 100, .release 4480]).1.globalFreeMap.toList = [⟨4096, 484⟩] :=
  ⟨⟨⟨⟨⟨6, rfl⟩, by decide⟩, by decide⟩, trivial, trivial⟩, by decide +kernel, by decide +kernel,
    by decide +kernel⟩

end MemFabric.Zbal.Sma.SplitMemoryHeap
