import MemFabric.Smem.Store.Leaks
import MemFabric.Smem.Store.Ranks

/-!
# Broken links

What the break of a link does to the other links.  The handler takes an empty
`aliveRankSet_` for the end of the last link and clears the server, also if links
without a rank are still connected.  As long as some rank is left, the break concerns
the broken link alone.
-/

namespace MemFabric.Smem.Store

open Machine Wire

namespace Server

def watchOf (s : Server) (key : Bytes) (link : Nat) : Option StoreWaitContext :=
  ((s.watchWaiters.lookup key).getD ∅).lookup link

/-- Stored keys, blocked GETs and watches of all links but one are as before. -/
structure SparesOthers (link : Nat) (s s' : Server) : Prop where
  lookup : ∀ key, key ≠ rankKey link → s'.backend.kvStore.lookup key = s.backend.kvStore.lookup key
  waiter : ∀ id c, c.reqCtx.link ≠ link →
    (s'.waiters.waitCtx.lookup id = some c ↔ s.waiters.waitCtx.lookup id = some c)
  watch : ∀ key other, other ≠ link → s'.watchOf key other = s.watchOf key other
  rankWatch : ∀ other, other ≠ link →
    s'.rankStateWaiters.lookup other = s.rankStateWaiters.lookup other

variable {s : Server} {link : Nat}

theorem watchOf_unwatch {key : Bytes} {other : Nat} (hne : other ≠ link) :
    (unwatch link s).watchOf key other = s.watchOf key other :=
  (Table.lookup_foldl_erase _ _ link key other).trans (if_neg fun h => hne h.2)

theorem SparesOthers.unwatch (s1 : Server) (hkv : ∀ key, key ≠ rankKey link →
      s1.backend.kvStore.lookup key = s.backend.kvStore.lookup key)
    (hw : s1.waiters = s.waiters) (hwatch : s1.watchWaiters = s.watchWaiters)
    (hrank : s1.rankStateWaiters = s.rankStateWaiters) (queue : List Nat) :
    SparesOthers link s { Server.unwatch link s1 with rankStateTaskQueue := queue } where
  lookup := hkv
  waiter := by
    intro id c _
    change s1.waiters.waitCtx.lookup id = _ ↔ _
    rw [hw]
  watch := by
    intro key other hne
    have hsame : s1.watchOf key other = s.watchOf key other := by
      rw [watchOf, hwatch, watchOf]
    exact (watchOf_unwatch hne).trans hsame
  rankWatch := by
    intro other hne
    change (s1.rankStateWaiters.erase link).lookup other = _
    rw [AList.lookup_erase_ne hne, hrank]

/-- The other links have nothing that could be lost. -/
structure NothingElse (link : Nat) (s : Server) : Prop where
  lookup : ∀ key, key ≠ rankKey link → s.backend.kvStore.lookup key = none
  waiter : ∀ id c, s.waiters.waitCtx.lookup id = some c → c.reqCtx.link = link
  watch : ∀ key other, other ≠ link → s.watchOf key other = none
  rankWatch : ∀ other, other ≠ link → s.rankStateWaiters.lookup other = none

/-- Once everything is cleared, the other links are spared if they had nothing. -/
theorem sparesOthers_cleared_iff (s1 : Server) (queue : List Nat) :
    SparesOthers link s { Server.unwatch link s1.cleared with rankStateTaskQueue := queue } ↔
      NothingElse link s := by
  have hkv : ∀ key, s1.cleared.backend.kvStore.lookup key = none := fun key =>
    AList.lookup_eq_none.mpr fun hmem => absurd (Backend.mem_delete hmem) (AList.notMem_empty _)
  have hwatch : ∀ key other, other ≠ link →
      (Server.unwatch link s1.cleared).watchOf key other = none :=
    fun key other hne => (watchOf_unwatch hne).trans rfl
  have hrank : ∀ other, other ≠ link →
      (Server.unwatch link s1.cleared).rankStateWaiters.lookup other = none := fun other hne =>
    (AList.lookup_erase_ne hne).trans rfl
  constructor
  · intro h
    constructor
    · exact fun key hkey => (h.lookup key hkey).symm.trans (hkv key)
    · intro id c hc
      by_contra hne
      have hmissing := (h.waiter id c hne).mpr hc
      cases hmissing
    · exact fun key other hne => (h.watch key other hne).symm.trans (hwatch key other hne)
    · exact fun other hne => (h.rankWatch other hne).symm.trans (hrank other hne)
  · intro h
    constructor
    · exact fun key hkey => (hkv key).trans (h.lookup key hkey).symm
    · exact fun id c hne => iff_of_false (fun hc => nomatch hc) fun hc => hne (h.waiter id c hc)
    · exact fun key other hne => (hwatch key other hne).trans (h.watch key other hne).symm
    · exact fun other hne => (hrank other hne).trans (h.rankWatch other hne).symm

theorem sparesOthers_iff (link : Nat) (s : Server) :
    SparesOthers link s (linkBrokenHandler link s) ↔ (Clears link s → NothingElse link s) := by
  obtain ⟨b, alive, queue, hkv, ⟨hclears, heq⟩ | ⟨hnot, heq | heq⟩⟩ :=
    linkBrokenHandler_cases link s
  · rw [heq, imp_iff_right hclears]
    exact sparesOthers_cleared_iff _ queue
  · refine iff_of_true ?_ fun h => absurd h hnot
    rw [heq]
    exact ⟨hkv, fun _ _ _ => .rfl, fun _ _ _ => rfl, fun _ _ => rfl⟩
  · refine iff_of_true ?_ fun h => absurd h hnot
    rw [heq]
    exact .unwatch { s with backend := b, aliveRankSet := alive } hkv rfl rfl rfl queue

end Server

open Server

namespace Links

/-- Where the ranks agree with the links, everything is cleared exactly if no other link has a
rank. -/
theorem clears_iff {t : Links} (h : RanksAgree t) (link : Nat) :
    Clears link t.server ↔ ∀ other, other ≠ link → t.rankOf other = none := by
  -- every rank that is alive is the link's own
  have hclears : Clears link t.server ↔
      ∀ rank ∈ t.server.aliveRankSet, t.rankOf link = some rank := by
    have hentry := h.entry link
    unfold Clears
    cases hrank : t.rankOf link with
    | none =>
      rw [h.inMemory 0, hentry, hrank]
      simp [List.eq_nil_iff_forall_not_mem]
    | some own =>
      have hvalue : leValue ((leBytes 4 own).take 4) = own := by
        have hlt := h.lt link own hrank
        rw [List.take_of_length_le (by simp), leValue_leBytes]
        simp only [uint32Max] at hlt
        omega
      rw [h.inMemory 0, hentry, hrank, Option.map_some, h.inMemory 1]
      simp [hvalue, eq_comm]
  rw [hclears]
  constructor
  · intro hall other hne
    by_contra hsome
    obtain ⟨rank, hother⟩ := Option.ne_none_iff_exists'.mp hsome
    have hrank := hall rank ((h.alive rank).mpr ⟨other, hother⟩)
    exact hne (h.inj other link rank hother hrank)
  · intro hnone rank hmem
    obtain ⟨other, hother⟩ := (h.alive rank).mp hmem
    by_cases hne : other = link
    · exact hne ▸ hother
    · rw [hnone other hne] at hother
      cases hother

/-- The break of a link concerns no other link, in any state of the server, unless it clears
everything and the others have something to lose.  In the states that links reach without
touching the entries of the ranks it clears everything exactly if no other link has a rank. -/
theorem break_spares_others (link : Nat) (s : Server) :
    (SparesOthers link s (linkBrokenHandler link s) ↔ (Clears link s → NothingElse link s)) ∧
      ∀ t, RanksAgree t → t.server = s →
        (Clears link s ↔ ∀ other, other ≠ link → t.rankOf other = none) := by
  refine ⟨sparesOthers_iff link s, ?_⟩
  rintro t h rfl
  exact clears_iff h link

/-- Two links have a rank, and one of them breaks. -/
theorem break_spares_others_two :
    SparesOthers 1
      (linkConnectedHandler ⟨2, 1, false, true⟩ 2
        (linkConnectedHandler ⟨2, 0, false, true⟩ 1 (Server.start 2 {})))
      (linkBrokenHandler 1 (linkConnectedHandler ⟨2, 1, false, true⟩ 2
        (linkConnectedHandler ⟨2, 0, false, true⟩ 1 (Server.start 2 {})))) := by
  refine (break_spares_others 1 _).1.mpr fun hclears => ?_
  exact absurd (hclears.2 1 (by decide)) (by decide)

/-! ### A link with a rank and one without -/

def secondUnranked : Links :=
  (step (step (start 2 {}) (.connected ⟨2, 0, false, true⟩ 1)).1
    (.connected ⟨2, uint32Max, false, true⟩ 2)).1

def unrankedStores : Links := (step secondUnranked (.request openEnv 2 0 (pack setByte))).1

theorem reachable_unrankedStores : Reachable step RanksAllowed (start 2 {}) unrankedStores := by
  have hfirst : RanksAllowed (start 2 {}) (.connected ⟨2, 0, false, true⟩ 1) :=
    ⟨AList.notMem_empty 1, by decide, by decide⟩
  have hnew : 2 ∉ (step (start 2 {}) (.connected ⟨2, 0, false, true⟩ 1)).1.held := by decide
  have hsecond : RanksAllowed (step (start 2 {}) (.connected ⟨2, 0, false, true⟩ 1)).1
      (.connected ⟨2, uint32Max, false, true⟩ 2) :=
    ⟨hnew, by decide, by decide⟩
  have hlink : 2 ∈ secondUnranked.held := by decide
  have hset : RanksAllowed secondUnranked (.request openEnv 2 0 (pack setByte)) := by
    refine ⟨hlink, fun n m hm => .inr ?_⟩
    rw [unpack_pack withinLimits_setByte] at hm
    rw [← (Prod.mk.inj (Except.ok.inj hm)).2]
    decide
  exact .next (.next (.next ⟨[], .nil⟩ _ hfirst) _ hsecond) _ hset

/-- The break of link 1 takes the key of link 2 away. -/
theorem break_clears_unranked :
    ∃ t, Reachable step RanksAllowed (start 2 {}) t ∧ 2 ∈ t.held ∧
      ¬ SparesOthers 1 t.server (linkBrokenHandler 1 t.server) := by
  have hheld : 2 ∈ secondUnranked.held := by decide
  refine ⟨unrankedStores, reachable_unrankedStores, mem_held_step hheld (by simp),
    fun hspares => ?_⟩
  have hkey := hspares.lookup [107] (by decide)
  revert hkey
  decide

end Links

end MemFabric.Smem.Store
