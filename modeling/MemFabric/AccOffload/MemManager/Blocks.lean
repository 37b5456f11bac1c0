import MemFabric.Machine.Run
import MemFabric.Machine.Word64
import MemFabric.AccOffload.MemManager.Manager

/-!
# The memory manager keeps a divided pool

The trees always describe a pool whose idle and used ranges tile the memory and whose idle
ranges are coalesced.
-/

namespace MemFabric.AccOffload.MemManager

open Machine Ordered Extent

/-! ## Sizes -/

theorem allocatedSizeAlignUp_eq {size limit : Nat} (hle : size ≤ limit) (hunit : 16 ∣ limit)
    (hlt : limit < 2 ^ 64) : allocatedSizeAlignUp size = (size + 15) / 16 * 16 := by
  have hsum : size + 15 < 2 ^ 64 := by omega
  rw [allocatedSizeAlignUp, add64, Nat.mod_eq_of_lt hsum]
  exact Word64.and_compl_eq (k := 4) hsum (by decide)

/-! ## The idle trees -/

structure Idle (m : MemManager) (idle : Set MemoryRange) : Prop where
  address : ∀ r, r ∈ m.addressIdleTree ↔ r ∈ idle
  bySize : ∀ r, r ∈ m.sizeIdleTree ↔ r ∈ idle

theorem eq_of_bySize {r s : MemoryRange} (h : bySize r = bySize s) : r = s := by
  have hpair : (r.size, r.offset) = (s.size, s.offset) := h
  cases s
  cases hpair
  rfl

variable {m : MemManager} {idle : Set MemoryRange} {r : MemoryRange}

theorem Idle.eraseIdle (h : Idle m idle) (hr : r ∈ idle) : Idle (m.eraseIdle r) (idle \ {r}) := by
  constructor
  · intro s
    rw [MemManager.eraseIdle, mem_erase, h.address]
    refine and_congr_right fun hs => not_congr ⟨fun heq => ?_, fun heq => heq ▸ rfl⟩
    exact eq_of_key ((h.address s).mpr hs) ((h.address r).mpr hr) heq
  · intro s
    rw [MemManager.eraseIdle, mem_erase, h.bySize]
    exact and_congr_right fun hs => not_congr ⟨eq_of_bySize, fun heq => heq ▸ rfl⟩

theorem Idle.insertIdle (h : Idle m idle) (hr : ∀ s ∈ idle, s.offset ≠ r.offset) :
    Idle (m.insertIdle r) (insert r idle) := by
  constructor
  · intro s
    have hkey : ∀ s ∈ m.addressIdleTree, byAddress s ≠ byAddress r := fun s hs =>
      hr s ((h.address s).mp hs)
    rw [MemManager.insertIdle, mem_emplace hkey, h.address, Set.mem_insert_iff]
  · intro s
    have hkey : ∀ s ∈ m.sizeIdleTree, MemFabric.AccOffload.bySize s ≠
        MemFabric.AccOffload.bySize r := fun s hs heq =>
      hr s ((h.bySize s).mp hs) (eq_of_bySize heq ▸ rfl)
    rw [MemManager.insertIdle, mem_emplace hkey, h.bySize, Set.mem_insert_iff]

/-! ## The pool behind the trees -/

variable {base size : Nat} {p : Pool size 16} {e : MemoryRange}

/-- The trees describe the pool. -/
structure Describes (base : Nat) (m : MemManager) (p : Pool size 16) : Prop where
  base_eq : m.base = base
  size_eq : m.size = size
  idle : Idle m p.idle
  used : ∀ r, r ∈ m.addressUsedTree ↔ r ∈ p.used

theorem add64_eq_stop (p : Pool size 16) (hlt : size < 2 ^ 64) (he : e ∈ p.idle ∪ p.used) :
    add64 e.offset e.size = e.stop :=
  Nat.mod_eq_of_lt ((p.tiling.stop_le he).trans_lt hlt)

theorem describes_start (base : Nat) (hsize : 0 < size) (hunit : 16 ∣ size) :
    Describes base (start base size) (Pool.start hsize hunit) := by
  refine ⟨rfl, rfl, ⟨fun r => ?_, fun r => ?_⟩, fun r => ?_⟩
  · rw [start, mem_emplace fun s hs => absurd hs (notMem_empty s)]
    simp [Pool.start]
  · rw [start, mem_emplace fun s hs => absurd hs (notMem_empty s)]
    simp [Pool.start]
  · simp [start, Pool.start]

theorem Describes.take (h : Describes base m p) (hlt : size < 2 ^ 64) (he : e ∈ p.idle) {a : Nat}
    (ha : 0 < a) (hle : a ≤ e.size) (hunit : 16 ∣ a) :
    ∃ p' : Pool size 16, Describes base (m.take e a) p' ∧ p'.used = insert (e.front a) p.used := by
  have hnotMem : e ∉ p.used := p.disjoint e he
  have hused : ∀ r,
      r ∈ m.addressUsedTree.emplace ⟨e.offset, a⟩ ↔ r ∈ insert (e.front a) p.used := by
    intro r
    rw [mem_emplace, h.used]
    · rfl
    · intro s hs heq
      exact p.offset_ne_of_mem_used ((h.used s).mp hs) he heq.symm
  have herase := h.idle.eraseIdle he
  rcases hle.lt_or_eq with hlt' | rfl
  · have hmem : e ∈ (p.claim he).used := Set.mem_insert e p.used
    have hnext : ∀ f ∈ (p.claim he).idle, e.stop ≠ f.offset := fun f hf =>
      p.coalesced e he f hf.1
    have hsum : add64 e.offset a = e.offset + a := by
      have := p.tiling.stop_le (.inl he)
      rw [stop] at this
      exact Nat.mod_eq_of_lt (by omega)
    have hdiff : insert e p.used \ {e} = p.used := Set.insert_sdiff_self_of_notMem hnotMem
    refine ⟨(p.claim he).trim hmem ha hlt' hunit hnext, ?_, ?_⟩
    · rw [MemManager.take, if_pos hlt', hsum]
      refine ⟨h.base_eq, h.size_eq, Idle.insertIdle ⟨herase.address, herase.bySize⟩ ?_, ?_⟩
      · rintro s ⟨hs, hne⟩ heq
        have hmem : e.offset + a ∈ e := by
          rw [mem_iff]
          omega
        have hoffset := p.tiling.offset_mem (.inl hs)
        rw [heq] at hoffset
        exact hne (p.tiling.unique s (.inl hs) e (.inl he) _ hoffset hmem)
      · intro r
        show _ ↔ r ∈ insert (e.front a) (insert e p.used \ {e})
        rw [hdiff]
        exact hused r
    · show insert (e.front a) (insert e p.used \ {e}) = _
      rw [hdiff]
  · refine ⟨p.claim he, ?_, rfl⟩
    rw [MemManager.take, if_neg (lt_irrefl _)]
    exact ⟨h.base_eq, h.size_eq, ⟨herase.address, herase.bySize⟩, hused⟩

/-! ## Giving back -/

/-- The trees describe the pool except for the used range `e`. -/
structure Holding (base : Nat) (m : MemManager) (p : Pool size 16) (e : MemoryRange) : Prop where
  base_eq : m.base = base
  size_eq : m.size = size
  idle : Idle m p.idle
  mem : e ∈ p.used
  used : ∀ r, r ∈ m.addressUsedTree ↔ r ∈ p.used \ {e}

theorem Holding.absorb (h : Holding base m p e) {f g : MemoryRange} (hf : f ∈ p.idle)
    {q : Pool size 16} (hidle : q.idle = p.idle \ {f})
    (hused : q.used = insert g (p.used \ {e})) (hmem : e.offset ∈ g) :
    Holding base (m.eraseIdle f) q g ∧ q.used \ {g} = p.used \ {e} := by
  have hnotMem : g ∉ p.used \ {e} := fun hg =>
    hg.2 (p.eq_of_mem_used h.mem (.inr hg.1) (p.tiling.offset_mem (.inr h.mem)) hmem)
  have hdiff : q.used \ {g} = p.used \ {e} := by
    rw [hused, Set.insert_sdiff_self_of_notMem hnotMem]
  refine ⟨⟨h.base_eq, h.size_eq, ?_, ?_, fun r => ?_⟩, hdiff⟩
  · rw [hidle]
    exact h.idle.eraseIdle hf
  · rw [hused]
    exact Set.mem_insert _ _
  · rw [hdiff]
    exact h.used r

theorem Holding.mergePrev (h : Holding base m p e) (hlt : size < 2 ^ 64) :
    ∃ p' : Pool size 16, Holding base (m.mergePrev e.offset e).2 p' (m.mergePrev e.offset e).1 ∧
      p'.used \ {(m.mergePrev e.offset e).1} = p.used \ {e} ∧
      (m.mergePrev e.offset e).1.stop = e.stop ∧
      ∀ f ∈ p'.idle, f.stop ≠ (m.mergePrev e.offset e).1.offset := by
  have hpos := p.tiling.pos e (.inr h.mem)
  have hbefore : ∀ f ∈ p.idle, f.stop = e.offset → m.addressIdleTree.before e.offset = some f :=
    fun f hf hadj => hadj ▸ p.before_stop (fun _ => rfl) h.idle.address hf
  rw [MemManager.mergePrev]
  cases hprev : m.addressIdleTree.before e.offset with
  | none =>
    refine ⟨p, h, rfl, rfl, fun f hf hadj => ?_⟩
    rw [hbefore f hf hadj] at hprev
    cases hprev
  | some prev =>
    obtain ⟨hmem, -, -⟩ := of_before_eq_some hprev
    have hidle := (h.idle.address prev).mp hmem
    dsimp only
    rw [add64_eq_stop p hlt (.inl hidle)]
    split
    · rename_i hadj
      have hadj' : prev.offset + prev.size = e.offset := hadj
      have hstop := p.tiling.stop_le (.inr h.mem)
      have hsum : add64 e.size prev.size = prev.size + e.size := by
        rw [stop] at hstop
        rw [add64, Nat.mod_eq_of_lt (by omega), Nat.add_comm]
      rw [hsum]
      obtain ⟨hhold, hused⟩ := h.absorb hidle
        (q := p.absorbLeft h.mem hidle hadj) rfl rfl (by
          simp only [mem_iff, join]
          omega)
      refine ⟨_, hhold, hused, ?_, fun f hf => ?_⟩
      · simp only [stop]
        omega
      · exact p.coalesced f hf.1 prev hidle
    · rename_i hadj
      refine ⟨p, h, rfl, rfl, fun f hf hadj' => ?_⟩
      rw [hbefore f hf hadj'] at hprev
      cases hprev
      exact hadj hadj'

theorem Holding.mergeNext (h : Holding base m p e) (hlt : size < 2 ^ 64)
    (hprev : ∀ f ∈ p.idle, f.stop ≠ e.offset) :
    ∃ p' : Pool size 16, Holding base (m.mergeNext e.stop e).2 p' (m.mergeNext e.stop e).1 ∧
      p'.used \ {(m.mergeNext e.stop e).1} = p.used \ {e} ∧
      ∀ f ∈ p'.idle, f.stop ≠ (m.mergeNext e.stop e).1.offset ∧
        (m.mergeNext e.stop e).1.stop ≠ f.offset := by
  have hpos := p.tiling.pos e (.inr h.mem)
  rw [MemManager.mergeNext]
  cases hnext : m.addressIdleTree.find e.stop with
  | none =>
    refine ⟨p, h, rfl, fun f hf => ⟨hprev f hf, fun hadj => ?_⟩⟩
    exact find_eq_none.mp hnext f ((h.idle.address f).mpr hf) hadj.symm
  | some next =>
    obtain ⟨hmem, hoffset⟩ := find_eq_some.mp hnext
    have hidle := (h.idle.address next).mp hmem
    have hadj : e.stop = next.offset := hoffset.symm
    have hstop := p.tiling.stop_le (.inl hidle)
    have hsum : add64 e.size next.size = e.size + next.size := by
      simp only [stop] at hstop hadj
      exact Nat.mod_eq_of_lt (by omega)
    dsimp only
    rw [hsum]
    obtain ⟨hhold, hused⟩ := h.absorb hidle
      (q := p.absorbRight h.mem hidle hadj) rfl rfl (by
        simp only [mem_iff, join]
        omega)
    refine ⟨_, hhold, hused, fun f hf => ⟨hprev f hf.1, ?_⟩⟩
    have hend : (e.join next).stop = next.stop := by
      simp only [stop, join] at hadj ⊢
      omega
    show (e.join next).stop ≠ f.offset
    rw [hend]
    exact p.coalesced next hidle f hf.1

theorem Describes.give (h : Describes base m p) (hlt : size < 2 ^ 64) (he : e ∈ p.used) :
    ∃ p' : Pool size 16, Describes base (m.give e) p' ∧ p'.used = p.used \ {e} := by
  have hhold : Holding base { m with addressUsedTree := m.addressUsedTree.erase e.offset } p e := by
    refine ⟨h.base_eq, h.size_eq, ⟨h.idle.address, h.idle.bySize⟩, he, fun r => ?_⟩
    rw [mem_erase, h.used]
    refine and_congr_right fun hr => not_congr ⟨fun heq => ?_, fun heq => heq ▸ rfl⟩
    exact p.tiling.eq_of_offset (.inr hr) (.inr he) heq
  obtain ⟨p1, hhold1, hused1, hstop, hprev⟩ := hhold.mergePrev hlt
  obtain ⟨p2, hhold2, hused2, hno⟩ := hhold1.mergeNext hlt hprev
  rw [hstop] at hhold2 hused2 hno
  rw [MemManager.give, add64_eq_stop p hlt (.inr he)]
  refine ⟨p2.free hhold2.mem hno, ⟨hhold2.base_eq, hhold2.size_eq, ?_, hhold2.used⟩,
    hused2.trans hused1⟩
  exact hhold2.idle.insertIdle fun f hf => p2.offset_ne_of_mem_used hhold2.mem hf

end MemFabric.AccOffload.MemManager
