import MemFabric.AccOffload.MemManager.Blocks

/-!
# Runs of the memory manager

What holds after any sequence of `Allocate` and `Release` calls, and what the next call does.
-/

namespace MemFabric.AccOffload.MemManager

open Machine Ordered

/-! ## The specification -/

/-- The trees agree, and the ranges in them are aligned, tile the pool and are coalesced. -/
structure Divided (m : MemManager) : Prop where
  trees : ∀ r, r ∈ m.addressIdleTree ↔ r ∈ m.sizeIdleTree
  ranges : ∀ r, r ∈ m.addressIdleTree ∨ r ∈ m.addressUsedTree →
    0 < r.size ∧ 16 ∣ r.offset ∧ 16 ∣ r.size
  disjoint : (m.addressIdleTree.toList ++ m.addressUsedTree.toList).Pairwise fun r s =>
    ∀ x, x ∈ r → x ∉ s
  covers : ∀ x, x < m.size ↔ ∃ r, (r ∈ m.addressIdleTree ∨ r ∈ m.addressUsedTree) ∧ x ∈ r
  coalesced : ∀ r ∈ m.addressIdleTree, ∀ s ∈ m.addressIdleTree, r.stop ≠ s.offset

/-- A new block lies in a smallest idle range that is large enough, and in no live block. -/
structure BestFit (m : MemManager) (size address : Nat) (m' : MemManager)
    (block target : MemoryRange) : Prop where
  address_eq : address = m.base + block.offset
  size_le : size ≤ block.size
  used : ∀ r, r ∈ m'.addressUsedTree ↔ r = block ∨ r ∈ m.addressUsedTree
  disjoint : ∀ r ∈ m.addressUsedTree, ∀ x, x ∈ block → x ∉ r
  idle : target ∈ m.addressIdleTree
  subset : ∀ x, x ∈ block → x ∈ target
  smallest : ∀ r ∈ m.addressIdleTree, size ≤ r.size → target.size ≤ r.size

def Exhausted (m : MemManager) (size : Nat) : Prop :=
  size = 0 ∨ m.size < size ∨ ∀ r ∈ m.addressIdleTree, r.size < size

def liveAddresses (m : MemManager) : List Nat :=
  m.addressUsedTree.toList.map fun r => m.base + r.offset

/-! ## One call -/

section Calls

variable {m : MemManager} {base size : Nat} {p : Pool size 16}

variable (h : Describes base m p)

include h

theorem Describes.divided : Divided m := by
  have hmem : ∀ r, r ∈ m.addressIdleTree ∨ r ∈ m.addressUsedTree ↔ r ∈ p.idle ∪ p.used :=
    fun r => or_congr (h.idle.address r) (h.used r)
  -- in one tree, ranges with different offsets are disjoint
  have hapart : ∀ t : Ordered byAddress, (∀ r ∈ t, r ∈ p.idle ∪ p.used) →
      t.toList.Pairwise fun r s => ∀ x, x ∈ r → x ∉ s := by
    intro t ht
    refine t.sorted.imp_of_mem fun {r s} hr hs hlt x hxr hxs => ?_
    have heq := p.tiling.unique r (ht r hr) s (ht s hs) x hxr hxs
    rw [heq] at hlt
    exact lt_irrefl _ hlt
  refine ⟨fun r => ?_, fun r hr => ?_, ?_, fun x => ?_, fun r hr s hs => ?_⟩
  · rw [h.idle.address, h.idle.bySize]
  · have hr := (hmem r).mp hr
    exact ⟨p.tiling.pos r hr, p.aligned r hr⟩
  · refine List.pairwise_append.mpr ⟨hapart _ fun r hr => (hmem r).mp (.inl hr),
      hapart _ fun r hr => (hmem r).mp (.inr hr), fun r hr s hs x hxr hxs => ?_⟩
    have hr := (h.idle.address r).mp hr
    have hs := (h.used s).mp hs
    have heq := p.tiling.unique r (.inl hr) s (.inr hs) x hxr hxs
    exact p.disjoint r hr (heq ▸ hs)
  · rw [h.size_eq, p.tiling.covers]
    exact exists_congr fun r => and_congr_left fun _ => (hmem r).symm
  · exact p.coalesced r ((h.idle.address r).mp hr) s ((h.idle.address s).mp hs)

/-- `Allocate` fails and changes nothing, or takes the front of an idle range. -/
theorem Describes.allocate (hunit : 16 ∣ size) (hlt : size < 2 ^ 64)
    (hbase : base ≠ 0) (request : Nat) :
    m.allocate request = (none, m) ∧ Exhausted m request ∨
      ∃ r ∈ p.idle, ∃ a, 0 < request ∧ request ≤ size ∧ request ≤ a ∧ a ≤ r.size ∧
        (∀ s ∈ p.idle, request ≤ s.size → r.size ≤ s.size) ∧
        (m.allocate request).1 = some (base + r.offset) ∧
        ∃ p' : Pool size 16, Describes base (m.allocate request).2 p' ∧
          p'.used = insert (r.front a) p.used := by
  rw [MemManager.allocate]
  split
  · rename_i hfail
    refine .inl ⟨rfl, ?_⟩
    rcases hfail with hzero | hlarge | hnull
    · exact .inl hzero
    · exact .inr (.inl hlarge)
    · exact absurd (h.base_eq.symm.trans hnull) hbase
  rename_i hok
  obtain ⟨hzero, hle, -⟩ : request ≠ 0 ∧ request ≤ m.size ∧ m.base ≠ 0 := by
    simpa only [not_or, not_lt] using hok
  rw [h.size_eq] at hle
  have halign := allocatedSizeAlignUp_eq hle hunit hlt
  set a := allocatedSizeAlignUp request with ha
  have hge : request ≤ a := by omega
  -- sizes of ranges are aligned, so they suffice for `a` if they do for the request
  have hfits : ∀ s ∈ p.idle, request ≤ s.size → a ≤ s.size := by
    intro s hs hreq
    have hdvd := (p.aligned s (.inl hs)).2
    omega
  dsimp only
  split
  · rename_i hnone
    refine .inl ⟨rfl, .inr (.inr fun r hr => not_le.mp fun hreq => ?_)⟩
    have hsize := hfits r ((h.idle.address r).mp hr) hreq
    have hlt := lowerBound_eq_none.mp hnone r
      ((h.idle.bySize r).mpr ((h.idle.address r).mp hr))
    rw [bySize, bySize, Prod.Lex.toLex_lt_toLex] at hlt
    dsimp only at hlt
    omega
  · rename_i target hsome
    obtain ⟨hmem, hbound, hmin⟩ := of_lowerBound_eq_some hsome
    have hidle := (h.idle.bySize target).mp hmem
    rw [bySize, bySize, Prod.Lex.toLex_le_toLex] at hbound
    have hsize : a ≤ target.size := by
      dsimp only at hbound
      omega
    have hfind : m.addressIdleTree.find target.offset = some target :=
      find_eq_some.mpr ⟨(h.idle.address target).mpr hidle, rfl⟩
    rw [hfind]
    refine .inr ⟨target, hidle, a, Nat.pos_of_ne_zero hzero, hle, hge, hsize, fun s hs hreq => ?_,
      h.base_eq ▸ rfl, h.take hlt hidle (by omega) hsize (by omega)⟩
    have hkey : bySize ⟨0, a⟩ ≤ bySize s := by
      have := hfits s hs hreq
      rw [bySize, bySize, Prod.Lex.toLex_le_toLex]
      dsimp only
      omega
    have hle := hmin s ((h.idle.bySize s).mpr hs) hkey
    rw [bySize, bySize, Prod.Lex.toLex_le_toLex] at hle
    omega

/-- `Release` fails and changes nothing, or gives back a used range. -/
theorem Describes.release (hlt : size < 2 ^ 64) (address : Nat) :
    m.release address = (-1, m) ∧ (∀ e ∈ p.used, address ≠ base + e.offset) ∨
      ∃ e ∈ p.used, address = base + e.offset ∧ (m.release address).1 = 0 ∧
        ∃ p' : Pool size 16, Describes base (m.release address).2 p' ∧ p'.used = p.used \ {e} := by
  rw [MemManager.release, h.size_eq, h.base_eq]
  split
  · refine .inl ⟨rfl, fun e he heq => ?_⟩
    have hpos := p.tiling.pos e (.inr he)
    have hstop := p.tiling.stop_le (.inr he)
    rw [Extent.stop] at hstop
    omega
  · split
    · rename_i hnone
      refine .inl ⟨rfl, fun e he heq => ?_⟩
      refine find_eq_none.mp hnone e ((h.used e).mpr he) ?_
      rw [heq, Nat.add_sub_cancel_left, byAddress]
    · rename_i pos hsome
      obtain ⟨hmem, hoffset⟩ := find_eq_some.mp hsome
      have hused := (h.used pos).mp hmem
      refine .inr ⟨pos, hused, ?_, rfl, h.give hlt hused⟩
      rw [byAddress] at hoffset
      omega

theorem Describes.exhausted_iff (hunit : 16 ∣ size) (hlt : size < 2 ^ 64)
    (hbase : base ≠ 0) (request : Nat) :
    (m.allocate request).1 = none ↔ Exhausted m request := by
  rcases h.allocate hunit hlt hbase request with ⟨heq, hfail⟩ | hok
  · rw [heq]
    exact iff_of_true rfl hfail
  · obtain ⟨r, hr, a, hpos, hle, hreq, ha, -, hsome, -⟩ := hok
    rw [hsome]
    refine iff_of_false (Option.some_ne_none _) ?_
    rintro (hzero | hlarge | hnone)
    · omega
    · rw [h.size_eq] at hlarge
      omega
    · have := hnone r ((h.idle.address r).mpr hr)
      omega

theorem Describes.bestFit (hunit : 16 ∣ size) (hlt : size < 2 ^ 64)
    (hbase : base ≠ 0) {request address : Nat} (hok : (m.allocate request).1 = some address) :
    ∃ block target, BestFit m request address (m.allocate request).2 block target := by
  rcases h.allocate hunit hlt hbase request with ⟨heq, -⟩ | hnew
  · rw [heq] at hok
    cases hok
  · obtain ⟨r, hr, a, -, -, hreq, ha, hmin, hsome, p', h', hused⟩ := hnew
    have hsub : ∀ x, x ∈ r.front a → x ∈ r := by
      intro x hx
      simp only [Extent.mem_iff, Extent.front] at hx ⊢
      omega
    have hidle := (h.idle.address r).mpr hr
    refine ⟨r.front a, r, ?_, hreq, fun s => ?_, fun s hs x hx hxs => ?_, hidle, hsub,
      fun s hs => hmin s ((h.idle.address s).mp hs)⟩
    · rw [h.base_eq]
      exact (Option.some.inj (hsome.symm.trans hok)).symm
    · rw [h'.used, hused, Set.mem_insert_iff, h.used]
    · have hs := (h.used s).mp hs
      have heq := p.tiling.unique r (.inl hr) s (.inr hs) x (hsub x hx) hxs
      exact p.disjoint r hr (heq ▸ hs)

end Calls

/-! ## Runs -/

section

variable {base size : Nat} {m : MemManager}

theorem exists_describes (hsize : 0 < size) (hunit : 16 ∣ size) (hlt : size < 2 ^ 64)
    (hbase : base ≠ 0) {log : List Event}
    (h : Trace step (fun _ _ => True) (start base size) log m) :
    ∃ p : Pool size 16, Describes base m p := by
  refine h.invariant (P := fun _ m => ∃ p : Pool size 16, Describes base m p)
    ⟨_, describes_start base hsize hunit⟩ ?_
  rintro _ m input ⟨p, hm⟩ -
  cases input with
  | allocate request =>
    rcases hm.allocate hunit hlt hbase request with ⟨heq, -⟩ | hok
    · rw [step, heq]
      exact ⟨p, hm⟩
    · obtain ⟨r, -, a, -, -, -, -, -, -, p', h', -⟩ := hok
      exact ⟨p', h'⟩
  | release address =>
    rcases hm.release hlt address with ⟨heq, -⟩ | hok
    · rw [step, heq]
      exact ⟨p, hm⟩
    · obtain ⟨e, -, -, -, p', h', -⟩ := hok
      exact ⟨p', h'⟩

variable {p : Pool size 16}

theorem Describes.mem_liveAddresses (h : Describes base m p) {address : Nat} :
    address ∈ m.liveAddresses ↔ ∃ e ∈ p.used, address = base + e.offset := by
  rw [liveAddresses, List.mem_map, h.base_eq]
  exact exists_congr fun e => and_congr (h.used e) eq_comm

theorem nodup_liveAddresses (m : MemManager) : m.liveAddresses.Nodup := by
  refine List.pairwise_map.mpr (m.addressUsedTree.sorted.imp fun {r s} hlt heq => ?_)
  rw [byAddress, byAddress] at hlt
  omega

theorem Describes.eq_start (h : Describes base m p) (hsize : 0 < size) (hunit : 16 ∣ size)
    (hempty : p.used = ∅) : m = start base size := by
  have hstart := describes_start base hsize hunit
  have hidle : p.idle = (Pool.start hsize hunit).idle := p.idle_eq_of_used_eq_empty hsize hempty
  have haddress : m.addressIdleTree = (start base size).addressIdleTree := ext fun r => by
    rw [h.idle.address, hstart.idle.address, hidle]
  have hbySize : m.sizeIdleTree = (start base size).sizeIdleTree := ext fun r => by
    rw [h.idle.bySize, hstart.idle.bySize, hidle]
  have hused : m.addressUsedTree = (start base size).addressUsedTree := ext fun r => by
    rw [h.used, hstart.used, hempty]
    rfl
  exact MemManager.ext h.base_eq h.size_eq haddress hused hbySize

/-- Releasing all that is live succeeds each time and restores the pool. -/
theorem Describes.run_release (h : Describes base m p) (hsize : 0 < size) (hunit : 16 ∣ size)
    (hlt : size < 2 ^ 64) {order : List Nat} (hperm : order.Perm m.liveAddresses) :
    run step m (order.map .release) = (start base size, order.map fun a => .released a 0) := by
  have hstep : ∀ m a, (∃ p : Pool size 16, Describes base m p) → a ∈ m.liveAddresses →
      (∃ p : Pool size 16, Describes base (step m (.release a)).1 p) ∧
      (step m (.release a)).2 = [.released a 0] ∧
      ∀ b, b ∈ (step m (.release a)).1.liveAddresses ↔ b ∈ m.liveAddresses ∧ b ≠ a := by
    rintro m a ⟨p, h⟩ ha
    rcases h.release hlt a with ⟨-, hno⟩ | ⟨e, he, hae, hret, p', h', hused⟩
    · obtain ⟨e, he, heq⟩ := h.mem_liveAddresses.mp ha
      exact absurd heq (hno e he)
    · refine ⟨⟨p', h'⟩, ?_, fun b => ?_⟩
      · rw [step, hret]
      · rw [h.mem_liveAddresses, step, h'.mem_liveAddresses, hused]
        constructor
        · rintro ⟨f, ⟨hf, hne⟩, rfl⟩
          refine ⟨⟨f, hf, rfl⟩, fun heq => hne (p.tiling.eq_of_offset (.inr hf) (.inr he) ?_)⟩
          omega
        · rintro ⟨⟨f, hf, rfl⟩, hne⟩
          exact ⟨f, ⟨hf, fun hfe => hne (hae ▸ hfe ▸ rfl)⟩, rfl⟩
  obtain ⟨⟨p', h'⟩, hempty, hlog⟩ :=
    Machine.run_release (fun m _ => nodup_liveAddresses m) hstep hperm ⟨p, h⟩
  have hused : p'.used = ∅ := Set.eq_empty_of_forall_notMem fun e he => by
    have hmem := h'.mem_liveAddresses.mpr ⟨e, he, rfl⟩
    rw [hempty] at hmem
    exact List.not_mem_nil hmem
  exact Prod.ext (h'.eq_start hsize hunit hused) hlog

end

/-- After any sequence of calls: the trees divide the pool; `Allocate` fails exactly when
nothing fits and takes a block of the best fit otherwise; a call that fails changes nothing;
and releasing the live blocks in any order restores the pool. -/
theorem memManager_correct {base size : Nat} (hbase : base ≠ 0) (hsize : 0 < size)
    (hunit : 16 ∣ size) (hlt : size < 2 ^ 64) {log : List Event} {m : MemManager}
    (h : Trace step (fun _ _ => True) (start base size) log m) :
    Divided m ∧
      (∀ request, ((m.allocate request).1 = none ↔ Exhausted m request) ∧
        ((m.allocate request).1 = none → (m.allocate request).2 = m) ∧
        ∀ address, (m.allocate request).1 = some address →
          ∃ block target, BestFit m request address (m.allocate request).2 block target) ∧
      (∀ address, (m.release address).1 ≠ 0 → (m.release address).2 = m) ∧
      ∀ order : List Nat, order.Perm m.liveAddresses →
        run step m (order.map .release) = (start base size, order.map fun a => .released a 0) := by
  obtain ⟨p, hp⟩ := exists_describes hsize hunit hlt hbase h
  refine ⟨hp.divided, fun request => ⟨hp.exhausted_iff hunit hlt hbase request, fun hnone => ?_,
    fun address hok => hp.bestFit hunit hlt hbase hok⟩, fun address hret => ?_,
    fun order hperm => hp.run_release hsize hunit hlt hperm⟩
  · rcases hp.allocate hunit hlt hbase request with ⟨heq, -⟩ | ⟨r, -, a, -, -, -, -, -, hsome, -⟩
    · rw [heq]
    · rw [hnone] at hsome
      cases hsome
  · rcases hp.release hlt address with ⟨heq, -⟩ | ⟨e, -, -, hzero, -⟩
    · rw [heq]
    · exact absurd hzero hret

/-- Two blocks of a pool of 64 bytes are released in the order in which they came. -/
theorem memManager_correct_twoBlocks :
    run step (run step (start 4096 64) [.allocate 10, .allocate 20]).1
        [.release 4096, .release 4112] =
      (start 4096 64, [.released 4096 0, .released 4112 0]) := by
  have htrace : Trace step (fun _ _ => True) (start 4096 64) _
      (run step (start 4096 64) [.allocate 10, .allocate 20]).1 :=
    trace_run (fun _ _ => trivial) _ _
  exact (memManager_correct (by decide) (by decide) (by decide) (by decide) htrace).2.2.2
    [4096, 4112] (by decide +kernel)

end MemFabric.AccOffload.MemManager
