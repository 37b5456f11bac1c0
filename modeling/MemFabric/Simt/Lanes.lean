import Mathlib.Data.List.Induction
import Mathlib.Data.List.Perm.Basic
import MemFabric.Simt.Loop

/-!
# Lanes between two barriers

A phase of a SIMT kernel is the code its lanes execute between two barriers.
The hardware may run the lanes of a phase in any order, so a phase is run along
a `LaneOrder`: a list that visits every lane exactly once.  Statements about a
kernel quantify over the orders of all its phases.

The rules below carry the list of lanes (or of strided iterations) already run,
so an invariant speaks about finished work without fixing the order it was
finished in.
-/

namespace MemFabric.Simt

open Function List Int

variable {σ τ α : Type*} {n : Nat}

structure LaneOrder (n : Nat) where
  lanes : List Int
  perm : lanes.Perm (range 0 n)

namespace LaneOrder

/-- Lane `0` first, then lane `1`, and so on. -/
def ascending (n : Nat) : LaneOrder n := ⟨range 0 n, Perm.refl _⟩

def run (o : LaneOrder n) (lane : Int → σ → σ) (s : σ) : σ :=
  o.lanes.foldl (fun s t => lane t s) s

theorem mem_lanes (o : LaneOrder n) {t : Int} : t ∈ o.lanes ↔ 0 ≤ t ∧ t < n := by
  rw [o.perm.mem_iff, mem_range_iff]

theorem nodup (o : LaneOrder n) : o.lanes.Nodup :=
  o.perm.nodup_iff.mpr (nodup_range _ _)

end LaneOrder

variable {s s' : σ} {ι : Type*} {m i start step : Int} {body : Int → σ → σ}

/-- The rule of a fold over distinct items: the invariant carries the items
already done, latest first. -/
theorem foldl_done_induct {l : List α} (hnd : l.Nodup) {f : σ → α → σ} (I : List α → σ → Prop)
    (base : I [] s) (step : ∀ done a s, a ∈ l → a ∉ done → I done s → I (a :: done) (f s a)) :
    I l.reverse (l.foldl f s) := by
  induction l using reverseRecOn with
  | nil => simpa using base
  | append_singleton l a ih =>
    have hnd' := nodup_append.mp hnd
    have ha : a ∉ l := fun h => hnd'.2.2 a h a (by simp) rfl
    rw [foldl_append, reverse_append]
    refine step l.reverse a _ (by simp) (by simpa using ha) (ih hnd'.1 ?_)
    intro done b s hb
    exact step done b s (by simp [hb])

/-- Guarded writes to distinct cells.  Each guarded item finds its own value in
its cell, and a cell no guarded item writes keeps its content. -/
theorem foldl_scatter {l : List ι} (hnd : l.Nodup) (guard : ι → Prop) [DecidablePred guard]
    (addr : ι → Int) (val : ι → α)
    (hinj : ∀ i ∈ l, ∀ j ∈ l, guard i → guard j → addr i = addr j → i = j) (b : Int → α) :
    (∀ i ∈ l, guard i →
      l.foldl (fun b i => if guard i then update b (addr i) (val i) else b) b (addr i) =
        val i) ∧
    (∀ j, (∀ i ∈ l, guard i → addr i ≠ j) →
      l.foldl (fun b i => if guard i then update b (addr i) (val i) else b) b j = b j) := by
  have hI := foldl_done_induct hnd
    (f := fun b i => if guard i then update b (addr i) (val i) else b) (s := b)
    (fun done b' => (∀ i ∈ done, i ∈ l) ∧ (∀ i ∈ done, guard i → b' (addr i) = val i) ∧
      ∀ j, (∀ i ∈ done, guard i → addr i ≠ j) → b' j = b j) (by simp) ?_
  · refine ⟨fun i hi hg => hI.2.1 i (by simpa using hi) hg, fun j hj => hI.2.2 j ?_⟩
    intro i hi hg
    exact hj i (by simpa using hi) hg
  · rintro done a b' ha hnot ⟨hsub, hval, hframe⟩
    refine ⟨by simpa [ha] using hsub, ?_, ?_⟩
    · intro i hi hg
      by_cases hga : guard a
      · rcases mem_cons.mp hi with rfl | hid
        · simp [hg]
        · have hne : addr i ≠ addr a := fun he =>
            hnot (hinj i (hsub i hid) a ha hg hga he ▸ hid)
          simp [hga, hne, hval i hid hg]
      · rcases mem_cons.mp hi with rfl | hid
        · exact absurd hg hga
        · simp [hga, hval i hid hg]
    · intro j hj
      by_cases hga : guard a
      · have hne : j ≠ addr a := fun he => hj a (by simp) hga he.symm
        simp only [hga, if_true, update_of_ne hne]
        exact hframe j fun i hi hg => hj i (by simp [hi]) hg
      · simp only [hga]
        exact hframe j fun i hi hg => hj i (by simp [hi]) hg

theorem foldl_scatter₂ {l : List ι} (hnd : l.Nodup) (guard : ι → Prop) [DecidablePred guard]
    (addr1 addr2 : ι → Int) (val1 val2 : ι → α)
    (hinj1 : ∀ i ∈ l, ∀ j ∈ l, guard i → guard j → addr1 i = addr1 j → i = j)
    (hinj2 : ∀ i ∈ l, ∀ j ∈ l, guard i → guard j → addr2 i = addr2 j → i = j)
    (hne : ∀ i ∈ l, ∀ j ∈ l, guard i → guard j → addr1 i ≠ addr2 j) (b : Int → α)
    {f : (Int → α) → ι → Int → α} (hf : ∀ b i, f b i = if guard i then
      update (update b (addr1 i) (val1 i)) (addr2 i) (val2 i) else b) :
    (∀ i ∈ l, guard i → l.foldl f b (addr1 i) = val1 i) ∧
    (∀ i ∈ l, guard i → l.foldl f b (addr2 i) = val2 i) ∧
    (∀ j, (∀ i ∈ l, guard i → addr1 i ≠ j ∧ addr2 i ≠ j) → l.foldl f b j = b j) := by
  -- the two writes of an item are the writes of two items
  let pairs := l.flatMap fun i => [(i, true), (i, false)]
  let cell : ι × Bool → Int := fun q => if q.2 then addr1 q.1 else addr2 q.1
  let val : ι × Bool → α := fun q => if q.2 then val1 q.1 else val2 q.1
  have hmem : ∀ q, q ∈ pairs ↔ q.1 ∈ l := by
    rintro ⟨i, s⟩
    cases s <;> simp [pairs]
  have hnodup : pairs.Nodup := by
    refine nodup_flatMap.mpr ⟨fun i _ => by simp, hnd.imp fun {i j} hij => ?_⟩
    simp [disjoint_left, hij]
  obtain ⟨hval, hkeep⟩ := foldl_scatter hnodup (fun q => guard q.1) cell val
    (by
      rintro ⟨i, s⟩ hi ⟨j, t⟩ hj hgi hgj hcell
      rw [hmem] at hi hj
      cases s <;> cases t <;> simp only [cell] at hcell
      · rw [hinj2 i hi j hj hgi hgj hcell]
      · exact absurd hcell.symm (hne j hj i hi hgj hgi)
      · exact absurd hcell (hne i hi j hj hgi hgj)
      · rw [hinj1 i hi j hj hgi hgj hcell]) b
  have hfold : pairs.foldl (fun b q => if guard q.1 then update b (cell q) (val q) else b)
      b = l.foldl f b := by
    rw [foldl_flatMap]
    refine foldl_ext _ _ _ fun b i _ => ?_
    rw [hf]
    by_cases hg : guard i <;> simp [cell, val, hg]
  rw [hfold] at hval hkeep
  refine ⟨fun i hi hg => hval (i, true) ((hmem _).mpr hi) hg,
    fun i hi hg => hval (i, false) ((hmem _).mpr hi) hg, fun j hj => hkeep j ?_⟩
  rintro ⟨i, s⟩ hi hg
  rw [hmem] at hi
  cases s
  · exact (hj i hi hg).2
  · exact (hj i hi hg).1

namespace LaneOrder

variable {f lane : Int → σ → σ} {s : σ}

section

variable (o : LaneOrder n)

/-- The rule of a phase: `I done` holds once the lanes in `done` have run. -/
theorem run_induct (I : List Int → σ → Prop) (base : I [] s)
    (step : ∀ done (t : Int) s, 0 ≤ t → t < n → t ∉ done → I done s → I (t :: done) (f t s)) :
    ∃ done, (∀ t : Int, t ∈ done ↔ 0 ≤ t ∧ t < n) ∧ I done (o.run f s) := by
  refine ⟨o.lanes.reverse, fun t => by rw [mem_reverse, o.mem_lanes], ?_⟩
  refine foldl_done_induct o.nodup I base ?_
  intro done t s ht hnot hI
  have hb := o.mem_lanes.mp ht
  exact step done t s hb.1 hb.2 hnot hI

theorem run_hom (π : σ → τ) {lane' : Int → τ → τ} (s : σ)
    (h : ∀ t s, π (lane t s) = lane' t (π s)) : π (o.run lane s) = o.run lane' (π s) :=
  (foldl_hom π (fun s t => (h t s).symm)).symm

theorem run_rel {g : Int → τ → τ} {t : τ} (R : σ → τ → Prop) (base : R s t)
    (step : ∀ (i : Int) s t, 0 ≤ i → i < n → R s t → R (f i s) (g i t)) :
    R (o.run f s) (o.run g t) :=
  foldl_rel base fun i hi s t hR =>
    step i s t (o.mem_lanes.mp hi).1 (o.mem_lanes.mp hi).2 hR

/-- A projection no lane changes is unchanged by the phase. -/
theorem run_frame (π : σ → τ) (s : σ) (h : ∀ t s, π (lane t s) = π s) : π (o.run lane s) = π s := by
  obtain ⟨_, _, hI⟩ := o.run_induct
    (fun _ s' => π s' = π s) rfl (fun _ t s' _ _ _ hs => by rw [h, hs])
  exact hI

theorem run_lane {u : Int} (h0 : 0 ≤ u) (h1 : u < n) (act : σ → σ) (s : σ) :
    o.run (fun t s => if t = u then act s else s) s = act s := by
  obtain ⟨done, hdone, hI⟩ := o.run_induct
    (f := fun t s => if t = u then act s else s) (s := s)
    (fun done s' => s' = if u ∈ done then act s else s) (by simp)
    (fun done t s' _ _ hnot hs => by
      by_cases ht : t = u
      · subst ht
        simp [hs, hnot]
      · have : u ≠ t := fun h => ht h.symm
        simp [hs, ht, this])
  rw [hI, if_pos ((hdone u).mpr ⟨h0, h1⟩)]

theorem run_lane_zero (hn : 0 < n) (act : σ → σ) (s : σ) :
    o.run (fun t s => if t = 0 then act s else s) s = act s :=
  o.run_lane le_rfl (by exact_mod_cast hn) act s

theorem run_scatter (guard : Int → Prop) [DecidablePred guard] (addr : Int → Int) (val : Int → α)
    (hinj : ∀ t u : Int, 0 ≤ t → t < n → 0 ≤ u → u < n → guard t → guard u →
      addr t = addr u → t = u) (b : Int → α) :
    (∀ t : Int, 0 ≤ t → t < n → guard t →
      o.run (fun t b => if guard t then update b (addr t) (val t) else b) b (addr t) =
        val t) ∧
    (∀ j, (∀ t : Int, 0 ≤ t → t < n → guard t → addr t ≠ j) →
      o.run (fun t b => if guard t then update b (addr t) (val t) else b) b j = b j) := by
  obtain ⟨hval, hframe⟩ := foldl_scatter o.nodup guard addr val
    (fun t ht u hu => by
      have hb := o.mem_lanes.mp ht
      have hb' := o.mem_lanes.mp hu
      exact hinj t u hb.1 hb.2 hb'.1 hb'.2) b
  refine ⟨fun t h0 h1 => hval t (o.mem_lanes.mpr ⟨h0, h1⟩), fun j hj => hframe j ?_⟩
  intro t ht
  have hb := o.mem_lanes.mp ht
  exact hj t hb.1 hb.2

theorem run_map (f : Int → α → α) (b : Int → α) :
    o.run (fun t b => update b t (f t (b t))) b =
      fun i : Int => if 0 ≤ i ∧ i < n then f i (b i) else b i := by
  obtain ⟨done, hdone, hI⟩ := o.run_induct
    (f := fun t b => update b t (f t (b t))) (s := b)
    (fun done b' => ∀ i, b' i = if i ∈ done then f i (b i) else b i) (by simp)
    (fun done t b' _ _ hnot hb i => by
      by_cases hi : i = t
      · subst hi
        simp [hb, hnot]
      · simp [hb, hi])
  funext i
  simp only [hI, hdone]

end

end LaneOrder

/-! ## Strided phases -/

def LaneOrder.items (o : LaneOrder n) (m : Int) : List Int :=
  o.lanes.flatMap fun t => strideRange t m n

section

variable (o : LaneOrder n)

theorem LaneOrder.mem_items (hn : 0 < n) : i ∈ o.items m ↔ 0 ≤ i ∧ i < m := by
  have hn' : (0 : Int) < n := by exact_mod_cast hn
  simp only [LaneOrder.items, mem_flatMap]
  constructor
  · rintro ⟨t, ht, hi⟩
    have hb := o.mem_lanes.mp ht
    have := (mem_strideRange hb.1 hb.2).mp hi
    exact ⟨this.1, this.2.1⟩
  · rintro ⟨h0, h1⟩
    have hm0 := emod_nonneg i hn'.ne'
    have hm1 := emod_lt_of_pos i hn'
    exact ⟨i % n, o.mem_lanes.mpr ⟨hm0, hm1⟩, (mem_strideRange hm0 hm1).mpr ⟨h0, h1, rfl⟩⟩

theorem LaneOrder.nodup_items (m : Int) : (o.items m).Nodup := by
  rw [LaneOrder.items, nodup_flatMap]
  constructor
  · intro t ht
    have hb := o.mem_lanes.mp ht
    exact nodup_strideRange (by omega)
  · refine Pairwise.imp_of_mem ?_ o.nodup
    intro t u ht hu hne i hit hiu
    have hb := o.mem_lanes.mp ht
    have hb' := o.mem_lanes.mp hu
    have h1 := ((mem_strideRange hb.1 hb.2).mp hit).2.2
    have h2 := ((mem_strideRange hb'.1 hb'.2).mp hiu).2.2
    exact hne (h1.symm.trans h2)

theorem LaneOrder.run_stride (m : Int) (body : Int → σ → σ) (s : σ) :
    o.run (fun t s => forStride t m n body s) s = (o.items m).foldl (fun s i => body i s) s := by
  simp only [LaneOrder.run, LaneOrder.items, forStride, foldl_flatMap]

/-- The rule of a strided phase: `I done` holds once the iterations in `done`
have run, whichever lanes ran them. -/
theorem LaneOrder.run_stride_induct (hn : 0 < n) {f : Int → σ → σ}
    (I : List Int → σ → Prop) (base : I [] s)
    (step : ∀ done i s, 0 ≤ i → i < m → i ∉ done → I done s → I (i :: done) (f i s)) :
    ∃ done, (∀ i, i ∈ done ↔ 0 ≤ i ∧ i < m) ∧
      I done (o.run (fun t s => forStride t m n f s) s) := by
  refine ⟨(o.items m).reverse, fun i => by rw [mem_reverse, o.mem_items hn], ?_⟩
  rw [o.run_stride]
  refine foldl_done_induct (o.nodup_items m) I base ?_
  intro done i s hi hnot hI
  have hb := (o.mem_items hn).mp hi
  exact step done i s hb.1 hb.2 hnot hI

theorem LaneOrder.run_stride_hom (π : σ → τ) {body' : Int → τ → τ} (s : σ)
    (h : ∀ i s, π (body i s) = body' i (π s)) :
    π (o.run (fun t s => forStride t m n body s) s) =
      o.run (fun t s => forStride t m n body' s) (π s) :=
  o.run_hom π s fun _ s => forStride_hom π s h

theorem LaneOrder.run_stride_frame (π : σ → τ) (s : σ)
    (h : ∀ i s, π (body i s) = π s) : π (o.run (fun t s => forStride t m n body s) s) = π s :=
  o.run_frame π s fun _ s => forStride_frame π s h

theorem LaneOrder.run_stride_scatter (hn : 0 < n) (m : Int)
    (guard : Int → Prop) [DecidablePred guard] (addr : Int → Int) (val : Int → α)
    (hinj : ∀ i j, 0 ≤ i → i < m → 0 ≤ j → j < m → guard i → guard j →
      addr i = addr j → i = j) (b : Int → α) :
    (∀ i, 0 ≤ i → i < m → guard i →
      o.run (fun t b => forStride t m n
        (fun i b => if guard i then update b (addr i) (val i) else b) b) b (addr i) =
        val i) ∧
    (∀ j, (∀ i, 0 ≤ i → i < m → guard i → addr i ≠ j) →
      o.run (fun t b => forStride t m n
        (fun i b => if guard i then update b (addr i) (val i) else b) b) b j = b j) := by
  rw [o.run_stride]
  obtain ⟨hval, hframe⟩ := foldl_scatter (o.nodup_items m) guard addr val
    (fun i hi j hj => by
      have hb := (o.mem_items hn).mp hi
      have hb' := (o.mem_items hn).mp hj
      exact hinj i j hb.1 hb.2 hb'.1 hb'.2) b
  refine ⟨fun i h0 h1 => hval i ((o.mem_items hn).mpr ⟨h0, h1⟩), fun j hj => hframe j ?_⟩
  intro i hi
  have hb := (o.mem_items hn).mp hi
  exact hj i hb.1 hb.2

theorem LaneOrder.run_stride_map (hn : 0 < n) (m : Int) (f : Int → α → α) (b : Int → α) :
    o.run (fun t b => forStride t m n (fun i b => update b i (f i (b i))) b) b =
      fun i => if 0 ≤ i ∧ i < m then f i (b i) else b i := by
  obtain ⟨done, hdone, hI⟩ := o.run_stride_induct hn (m := m)
    (f := fun i b => update b i (f i (b i))) (s := b)
    (fun done b' => ∀ i, b' i = if i ∈ done then f i (b i) else b i) (by simp)
    (fun done t b' _ _ hnot hb i => by
      by_cases hi : i = t
      · subst hi
        simp [hb, hnot]
      · simp [hb, hi])
  funext i
  simp only [hI, hdone]

end

/-! ## Phases that write some tables of a larger state

`put` puts tables back into the state; a lane that only rewrites those tables
runs on them alone, and the rest of the state is unchanged. -/

section

variable {β : Type*} (o : LaneOrder n)

theorem LaneOrder.run_put (put : α → σ) (lane : Int → σ → σ) (f : Int → α → α)
    (h : ∀ t a, lane t (put a) = put (f t a)) (a : α) :
    o.run lane (put a) = put (o.run f a) :=
  (o.run_hom put a fun t a => (h t a).symm).symm

theorem LaneOrder.run_stride_put (m : Int) (put : α → σ) (body : Int → σ → σ) (f : Int → α → α)
    (h : ∀ i a, body i (put a) = put (f i a)) (a : α) :
    o.run (fun t s => forStride t m n body s) (put a) =
      put (o.run (fun t a => forStride t m n f a) a) :=
  (o.run_stride_hom put a fun i a => (h i a).symm).symm

/-- Two tables written side by side are written independently. -/
theorem LaneOrder.run_put₂ (put : α → β → σ) (lane : Int → σ → σ) (f : Int → α → α)
    (g : Int → β → β) (h : ∀ t a b, lane t (put a b) = put (f t a) (g t b)) (a : α) (b : β) :
    o.run lane (put a b) = put (o.run f a) (o.run g b) := by
  have hpair : o.run lane (put a b) = _ := o.run_put (fun p : α × β => put p.1 p.2) lane
    (fun t p => (f t p.1, g t p.2)) (fun t p => h t p.1 p.2) (a, b)
  have hfst : (o.run (fun t (p : α × β) => (f t p.1, g t p.2)) (a, b)).1 = o.run f a :=
    o.run_hom Prod.fst (a, b) fun _ _ => rfl
  have hsnd : (o.run (fun t (p : α × β) => (f t p.1, g t p.2)) (a, b)).2 = o.run g b :=
    o.run_hom Prod.snd (a, b) fun _ _ => rfl
  rw [hfst, hsnd] at hpair
  exact hpair

theorem LaneOrder.run_put₄ (put : α → α → α → α → σ) (lane : Int → σ → σ) (f g h k : Int → α → α)
    (hlane : ∀ t a b c d, lane t (put a b c d) = put (f t a) (g t b) (h t c) (k t d))
    (a b c d : α) :
    o.run lane (put a b c d) = put (o.run f a) (o.run g b) (o.run h c) (o.run k d) := by
  have hpairs := o.run_put₂ (fun p q : α × α => put p.1 p.2 q.1 q.2) lane
    (fun t p => (f t p.1, g t p.2)) (fun t q => (h t q.1, k t q.2))
    (fun t p q => hlane t p.1 p.2 q.1 q.2) (a, b) (c, d)
  rw [o.run_put₂ Prod.mk _ f g (fun _ _ _ => rfl) a b,
    o.run_put₂ Prod.mk _ h k (fun _ _ _ => rfl) c d] at hpairs
  exact hpairs

theorem LaneOrder.run_stride_put₂ (m : Int) (put : α → β → σ) (body : Int → σ → σ)
    (f : Int → α → α) (g : Int → β → β)
    (h : ∀ i a b, body i (put a b) = put (f i a) (g i b)) (a : α) (b : β) :
    o.run (fun t s => forStride t m n body s) (put a b) =
      put (o.run (fun t a => forStride t m n f a) a)
        (o.run (fun t b => forStride t m n g b) b) := by
  have hpair : o.run (fun t s => forStride t m n body s) (put a b) = _ :=
    o.run_stride_put m (fun p : α × β => put p.1 p.2) body (fun i p => (f i p.1, g i p.2))
      (fun i p => h i p.1 p.2) (a, b)
  have hfst : (o.run (fun t (p : α × β) => forStride t m n (fun i p => (f i p.1, g i p.2)) p)
      (a, b)).1 = o.run (fun t a => forStride t m n f a) a :=
    o.run_stride_hom Prod.fst (a, b) fun _ _ => rfl
  have hsnd : (o.run (fun t (p : α × β) => forStride t m n (fun i p => (f i p.1, g i p.2)) p)
      (a, b)).2 = o.run (fun t b => forStride t m n g b) b :=
    o.run_stride_hom Prod.snd (a, b) fun _ _ => rfl
  rw [hfst, hsnd] at hpair
  exact hpair

end

/-! ## Loops with a 32-bit counter

The counter of `for (int32_t i = start; i < n; i += step)` is stepped once more
after the last iteration, and the loop has no result when that step overflows. -/

/-- `for (int32_t i = start; i < n; i += step) body`. -/
def forStride32 (start n step : Int) (body : Int → σ → σ) (s : σ) : Option σ :=
  (strideRange start n step).foldlM
    (fun s i => if i + step < 2 ^ 31 then some (body i s) else none) s

theorem forStride32_eq_some (hs : 0 ≤ start) (hlt : start < step) (hm : m + step ≤ 2 ^ 31)
    (body : Int → σ → σ) (s : σ) :
    forStride32 start m step body s = some (forStride start m step body s) := by
  have hmem : ∀ i ∈ strideRange start m step, i + step < 2 ^ 31 := fun i hi => by
    have := ((mem_strideRange hs hlt).mp hi).2.1
    omega
  unfold forStride32 forStride
  generalize strideRange start m step = l at hmem ⊢
  induction l generalizing s with
  | nil => rfl
  | cons i l ih =>
    rw [foldlM_cons, if_pos (hmem i (by simp))]
    exact ih (body i s) fun j hj => hmem j (by simp [hj])

theorem forStride32_eq_none (hi : i ∈ strideRange start m step) (hover : 2 ^ 31 ≤ i + step)
    (body : Int → σ → σ) (s : σ) : forStride32 start m step body s = none := by
  unfold forStride32
  generalize strideRange start m step = l at hi ⊢
  induction l generalizing s with
  | nil => cases hi
  | cons j l ih =>
    rw [foldlM_cons]
    rcases mem_cons.mp hi with rfl | hl
    · rw [if_neg (by omega)]
      rfl
    · split_ifs
      · exact ih (body j s) hl
      · rfl

/-- A result is the result of the exact loop. -/
theorem forStride32_sound
    (h : forStride32 start m step body s = some s') : s' = forStride start m step body s := by
  unfold forStride32 at h
  unfold forStride
  generalize strideRange start m step = l at h ⊢
  induction l generalizing s with
  | nil => exact (Option.some.inj h).symm
  | cons i l ih =>
    rw [foldlM_cons] at h
    split_ifs at h
    · exact ih h
    · cases h

theorem LaneOrder.run_stride32_sound (o : LaneOrder n)
    (h : o.run (fun t acc => acc.bind (forStride32 t m n body)) (some s) = some s') :
    s' = o.run (fun t s => forStride t m n body s) s := by
  obtain ⟨_, _, hI⟩ := o.run_induct
    (f := fun t (p : Option σ × σ) =>
      (p.1.bind (forStride32 t m n body), forStride t m n body p.2)) (s := (some s, s))
    (fun _ p => ∀ s', p.1 = some s' → s' = p.2) (fun s' h => (Option.some.inj h).symm)
    (fun _ t p _ _ _ hp s' h => by
      obtain ⟨s1, hs1, hlane⟩ := Option.bind_eq_some_iff.mp h
      rw [forStride32_sound hlane, hp s1 hs1])
  have hfst : (o.run (fun t (p : Option σ × σ) =>
      (p.1.bind (forStride32 t m n body), forStride t m n body p.2)) (some s, s)).1 =
      o.run (fun t acc => acc.bind (forStride32 t m n body)) (some s) :=
    o.run_hom Prod.fst (some s, s) fun _ _ => rfl
  have hsnd : (o.run (fun t (p : Option σ × σ) =>
      (p.1.bind (forStride32 t m n body), forStride t m n body p.2)) (some s, s)).2 =
      o.run (fun t s => forStride t m n body s) s :=
    o.run_hom Prod.snd (some s, s) fun _ _ => rfl
  rw [hfst, hsnd] at hI
  exact hI s' h

/-- No lane overflows when the bound leaves room for one more step. -/
theorem LaneOrder.run_stride32_eq_some (o : LaneOrder n) (hm : m + n ≤ 2 ^ 31) (body : Int → σ → σ)
    (s : σ) :
    o.run (fun t acc => acc.bind (forStride32 t m n body)) (some s) =
      some (o.run (fun t s => forStride t m n body s) s) := by
  have hmem : ∀ t ∈ o.lanes, 0 ≤ t ∧ t < n := fun t ht => o.mem_lanes.mp ht
  unfold LaneOrder.run
  generalize o.lanes = l at hmem ⊢
  induction l generalizing s with
  | nil => rfl
  | cons t l ih =>
    have hb := hmem t (by simp)
    simp only [foldl_cons, forStride32_eq_some hb.1 hb.2 hm]
    exact ih _ fun u hu => hmem u (by simp [hu])

/-- Without that room the lane of the last index overflows. -/
theorem LaneOrder.run_stride32_eq_none (o : LaneOrder n) (hn : 0 < n) (h0 : 0 < m)
    (hm : 2 ^ 31 < m + n) (body : Int → σ → σ) (s : σ) :
    o.run (fun t acc => acc.bind (forStride32 t m n body)) (some s) = none := by
  have hn' : (0 : Int) < n := by exact_mod_cast hn
  have hlane : ∀ s : σ, forStride32 ((m - 1) % n) m n body s = none := fun s =>
    forStride32_eq_none ((mem_strideRange (emod_nonneg _ hn'.ne')
      (emod_lt_of_pos _ hn')).mpr ⟨by omega, by omega, rfl⟩) (by omega) body s
  obtain ⟨done, hdone, hI⟩ := o.run_induct
    (f := fun t acc => acc.bind (forStride32 t m n body))
    (fun done acc => (m - 1) % n ∈ done → acc = none) (by simp)
    (fun done t acc _ _ _ hI hmem => by
      rcases mem_cons.mp hmem with rfl | hin
      · cases acc with
        | none => rfl
        | some s' => exact hlane s'
      · rw [hI hin]
        rfl)
  exact hI ((hdone _).mpr ⟨emod_nonneg _ hn'.ne', emod_lt_of_pos _ hn'⟩)

end MemFabric.Simt

/-! ## Atomic minimum and maximum -/

namespace MemFabric.Simt

open Function

variable {α : Type*} [LinearOrder α] {n : Nat}

def atomicMin (guard : Int → Prop) [DecidablePred guard] (addr : Int → Int) (val : Int → α)
    (i : Int) (b : Int → α) : Int → α :=
  if guard i then update b (addr i) (min (b (addr i)) (val i)) else b

def atomicMax (guard : Int → Prop) [DecidablePred guard] (addr : Int → Int) (val : Int → α)
    (i : Int) (b : Int → α) : Int → α :=
  if guard i then update b (addr i) (max (b (addr i)) (val i)) else b

variable (guard : Int → Prop) [DecidablePred guard] (addr : Int → Int) (val : Int → α) (b : Int → α)

/-- What is known of the table once the iterations in `done` have run. -/
private def Least (done : List Int) (b' : Int → α) : Prop :=
  (∀ i ∈ done, guard i → b' (addr i) ≤ val i) ∧
    ∀ j, b' j = b j ∨ ∃ i ∈ done, guard i ∧ addr i = j ∧ b' j = val i

private theorem Least.step {done : List Int} {b' : Int → α} (i : Int)
    (h : Least guard addr val b done b') :
    Least guard addr val b (i :: done) (atomicMin guard addr val i b') := by
  obtain ⟨hle, hatt⟩ := h
  have hold : ∀ j, (b' j = b j ∨ ∃ k ∈ i :: done, guard k ∧ addr k = j ∧ b' j = val k) :=
    fun j => (hatt j).imp_right fun ⟨k, hk, h⟩ => ⟨k, List.mem_cons_of_mem _ hk, h⟩
  unfold atomicMin
  by_cases hg : guard i
  · rw [if_pos hg]
    refine ⟨fun k hk hgk => ?_, fun j => ?_⟩
    · by_cases heq : addr k = addr i
      · rw [heq, update_self]
        rcases List.mem_cons.mp hk with rfl | hk'
        · exact min_le_right _ _
        · exact (min_le_left _ _).trans (heq ▸ hle k hk' hgk)
      · rw [update_of_ne heq]
        refine hle k ((List.mem_cons.mp hk).resolve_left ?_) hgk
        rintro rfl
        exact heq rfl
    · by_cases heq : j = addr i
      · subst heq
        rw [update_self]
        rcases le_total (b' (addr i)) (val i) with hmin | hmin
        · rw [min_eq_left hmin]
          exact hold (addr i)
        · rw [min_eq_right hmin]
          exact .inr ⟨i, List.mem_cons_self, hg, rfl, rfl⟩
      · rw [update_of_ne heq]
        exact hold j
  · rw [if_neg hg]
    refine ⟨fun k hk hgk => hle k ((List.mem_cons.mp hk).resolve_left ?_) hgk, hold⟩
    rintro rfl
    exact hg hgk

theorem LaneOrder.run_atomicMin (o : LaneOrder n) (hn : 0 < n) (m : Int) :
    (∀ i, 0 ≤ i → i < m → guard i →
      o.run (fun t b => forStride t m n (atomicMin guard addr val) b) b (addr i) ≤ val i) ∧
    (∀ j, o.run (fun t b => forStride t m n (atomicMin guard addr val) b) b j = b j ∨
      ∃ i, 0 ≤ i ∧ i < m ∧ guard i ∧ addr i = j ∧
        o.run (fun t b => forStride t m n (atomicMin guard addr val) b) b j = val i) := by
  obtain ⟨done, hdone, hle, hatt⟩ := o.run_stride_induct hn
    (Least guard addr val b) ⟨by simp, fun j => .inl rfl⟩
    (fun _ i _ _ _ _ h => h.step guard addr val b i)
  refine ⟨fun i h0 h1 => hle i ((hdone i).mpr ⟨h0, h1⟩), fun j => (hatt j).imp_right ?_⟩
  rintro ⟨i, hi, h⟩
  have hb := (hdone i).mp hi
  exact ⟨i, hb.1, hb.2, h⟩

/-- The maximum is the minimum of the dual order. -/
theorem LaneOrder.run_atomicMax (o : LaneOrder n) (hn : 0 < n) (m : Int) :
    (∀ i, 0 ≤ i → i < m → guard i →
      val i ≤ o.run (fun t b => forStride t m n (atomicMax guard addr val) b) b (addr i)) ∧
    (∀ j, o.run (fun t b => forStride t m n (atomicMax guard addr val) b) b j = b j ∨
      ∃ i, 0 ≤ i ∧ i < m ∧ guard i ∧ addr i = j ∧
        o.run (fun t b => forStride t m n (atomicMax guard addr val) b) b j = val i) :=
  LaneOrder.run_atomicMin (α := αᵒᵈ) guard addr val b o hn m

/-! ## Flat buffers

A work item owns a part of each. -/

section

variable {α : Type*}

def viewAt (base : Int) (buffer : Int → α) : Int → α := fun i => buffer (base + i)

/-- The buffer with the given contents behind the pointer `buffer + base`. -/
def storeAt (base : Int) (contents : Int → α) : Int → α := fun i => contents (i - base)

@[simp] theorem viewAt_zero (buffer : Int → α) : viewAt 0 buffer = buffer := by
  funext i
  simp [viewAt]

@[simp] theorem viewAt_storeAt (base : Int) (contents : Int → α) :
    viewAt base (storeAt base contents) = contents := by
  funext i
  simp [viewAt, storeAt]

@[simp] theorem storeAt_viewAt (base : Int) (buffer : Int → α) :
    storeAt base (viewAt base buffer) = buffer := by
  funext i
  simp [viewAt, storeAt]

/-- A cell of the buffer that is not behind the pointer. -/
theorem viewAt_storeAt_of_not_mem {base base' w i : Int} {contents buffer : Int → α}
    (hkeep : ∀ j, ¬ (0 ≤ j ∧ j < w) → contents j = viewAt base buffer j)
    (hi : ¬ (base ≤ base' + i ∧ base' + i < base + w)) :
    viewAt base' (storeAt base contents) i = viewAt base' buffer i := by
  have hcell := hkeep (base' + i - base) (by omega)
  simp only [viewAt, storeAt] at hcell ⊢
  rw [hcell]
  congr 1
  omega

theorem row_disjoint {w j k i : Int} (hjk : j ≠ k) (h0 : 0 ≤ i) (h1 : i < w) :
    ¬ (k * w ≤ j * w + i ∧ j * w + i < k * w + w) := by
  rcases lt_or_gt_of_ne hjk with hlt | hlt
  · have : (j + 1) * w ≤ k * w := mul_le_mul_of_nonneg_right (by omega) (by omega)
    rw [add_mul] at this
    omega
  · have : (k + 1) * w ≤ j * w := mul_le_mul_of_nonneg_right (by omega) (by omega)
    rw [add_mul] at this
    omega

theorem viewAt_storeAt_row {w j k i : Int} {contents buffer : Int → α} (hjk : j ≠ k)
    (hkeep : ∀ i, ¬ (0 ≤ i ∧ i < w) → contents i = viewAt (k * w) buffer i)
    (h0 : 0 ≤ i) (h1 : i < w) :
    viewAt (j * w) (storeAt (k * w) contents) i = viewAt (j * w) buffer i :=
  viewAt_storeAt_of_not_mem hkeep (row_disjoint hjk h0 h1)

end

end MemFabric.Simt
