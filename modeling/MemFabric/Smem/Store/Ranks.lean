import MemFabric.Smem.Store.Links
import MemFabric.Smem.Store.Wakeup

/-!
# The ranks of the links

The rank of a link is kept under the ranking key of the link and in `aliveRankSet_`, and
a free one is searched from a cursor on.  On the in-memory backend the entries and the
set follow the connected links as long as no client writes to the ranking keys.
-/

namespace MemFabric.Smem.Store

open Function Machine Wire Backend List AList

namespace Server

/-! ## The search -/

/-- The loop of `FindOrInsertRank` from an index on, for at most `fuel` rounds. -/
def searchRank (s : Server) : Nat → Nat → Option Nat
  | 0, _ => none
  | fuel + 1, rankIndex =>
    let rank := rankIndex % s.worldSize
    if rank ∉ s.aliveRankSet then some rank else searchRank s fuel (rank + 1)

section

variable {s : Server}

theorem searchRank_eq_find (fuel rankIndex : Nat) :
    searchRank s fuel rankIndex =
      ((range fuel).map fun k => (rankIndex + k) % s.worldSize).find? fun rank =>
        rank ∉ s.aliveRankSet := by
  induction fuel generalizing rankIndex with
  | zero => rfl
  | succ fuel ih =>
    have hnext : (range fuel).map (fun k => (rankIndex + (k + 1)) % s.worldSize) =
        (range fuel).map fun k => (rankIndex % s.worldSize + 1 + k) % s.worldSize := by
      refine map_congr_left fun k _ => ?_
      rw [show rankIndex + (k + 1) = rankIndex + (1 + k) by omega,
        show rankIndex % s.worldSize + 1 + k = rankIndex % s.worldSize + (1 + k) by omega,
        Nat.mod_add_mod]
    rw [searchRank, range_succ_eq_map]
    by_cases hfree : rankIndex % s.worldSize ∉ s.aliveRankSet
    · simp [hfree]
    · have hrest := ih (rankIndex % s.worldSize + 1)
      rw [← hnext] at hrest
      simpa [hfree, Function.comp_def] using hrest

theorem exists_free (h : s.aliveRankSet.length < s.worldSize) :
    ∃ rank < s.worldSize, rank ∉ s.aliveRankSet := by
  by_contra hall
  push Not at hall
  have hsub : range s.worldSize ⊆ s.aliveRankSet := fun r hr => hall r (mem_range.mp hr)
  have hle := (subperm_of_subset nodup_range hsub).length_le
  rw [length_range] at hle
  omega

/-- The search finds a rank within one round over the world. -/
theorem searchRank_of_free {fuel : Nat} (h : s.aliveRankSet.length < s.worldSize)
    (hfuel : s.worldSize ≤ fuel) (rankIndex : Nat) :
    ∃ rank, searchRank s fuel rankIndex = some rank ∧ rank < s.worldSize ∧
      rank ∉ s.aliveRankSet := by
  obtain ⟨free, hlt, hfree⟩ := exists_free h
  have hpos : 0 < s.worldSize := by omega
  have hround : (rankIndex + (free + (s.worldSize - rankIndex % s.worldSize)) % s.worldSize) %
      s.worldSize = free := by
    have hmod := Nat.mod_lt rankIndex hpos
    have hsum : rankIndex % s.worldSize + (free + (s.worldSize - rankIndex % s.worldSize)) =
        free + s.worldSize := by omega
    rw [Nat.add_mod_mod, ← Nat.mod_add_mod, hsum, Nat.add_mod_right, Nat.mod_eq_of_lt hlt]
  have hsome : (searchRank s fuel rankIndex).isSome = true := by
    rw [searchRank_eq_find, find?_isSome]
    refine ⟨free, mem_map.mpr ⟨_, mem_range.mpr ?_, hround⟩, by simpa using hfree⟩
    exact (Nat.mod_lt _ hpos).trans_le hfuel
  obtain ⟨rank, hrank⟩ := Option.isSome_iff_exists.mp hsome
  refine ⟨rank, hrank, ?_, ?_⟩
  · rw [searchRank_eq_find] at hrank
    obtain ⟨k, -, rfl⟩ := mem_map.mp (mem_of_find?_eq_some hrank)
    exact Nat.mod_lt _ hpos
  · rw [searchRank_eq_find] at hrank
    simpa using find?_some hrank

theorem freeRank_eq (s : Server) : s.freeRank = searchRank s s.worldSize s.rankIndex :=
  (searchRank_eq_find _ _).symm

/-- More rounds do not change what the search finds. -/
theorem searchRank_mono {fuel rankIndex rank : Nat} (h : searchRank s fuel rankIndex = some rank)
    {fuel' : Nat} (hle : fuel ≤ fuel') : searchRank s fuel' rankIndex = some rank := by
  induction fuel generalizing rankIndex fuel' with
  | zero => cases h
  | succ fuel ih =>
    obtain ⟨fuel', rfl⟩ : ∃ n, fuel' = n + 1 := ⟨fuel' - 1, by omega⟩
    unfold searchRank at h ⊢
    by_cases hfree : rankIndex % s.worldSize ∉ s.aliveRankSet
    · rw [if_pos hfree] at h ⊢
      exact h
    · rw [if_neg hfree] at h ⊢
      exact ih h (by omega)

end

/-! ## Requests for a rank -/

section

variable {ctx : Context} {mt : MessageType} {key : Bytes} {s : Server} {rank : Nat}

theorem findOrInsertRank_of_held {value : Bytes} (hb : s.backend.InMemory)
    (hv : s.backend.kvStore.lookup (key ++ decimal ctx.link) = some value) :
    findOrInsertRank ctx mt key s =
      ({ s with backend := s.backend.called },
        [⟨ctx, .success, .packed { mt, values := [value] }⟩]) := by
  unfold findOrInsertRank
  dsimp only
  rw [get_of_found (hb 0) hv]
  simp

section

variable (hb : s.backend.InMemory) (hv : s.backend.kvStore.lookup (key ++ decimal ctx.link) = none)

include hb hv

theorem findOrInsertRank_of_full (hfull : s.worldSize ≤ s.aliveRankSet.length) :
    findOrInsertRank ctx mt key s =
      ({ s with backend := s.backend.called },
        [⟨ctx, .error, .text "error: worldSize rankSize bigger than worldSize."⟩]) := by
  unfold findOrInsertRank
  dsimp only
  rw [get_of_inMemory hb, if_neg (lookup_eq_none.mp hv)]
  simp [hfull]

theorem findOrInsertRank_of_free (hfree : s.aliveRankSet.length < s.worldSize)
    (hrank : s.freeRank = some rank) :
    findOrInsertRank ctx mt key s =
      ({ s with
          backend := (s.backend.called.put (key ++ decimal ctx.link) (leBytes 4 rank)).backend
          rankIndex := rank, aliveRankSet := s.aliveRankSet.insert rank },
        [⟨ctx, .success, .packed { mt, values := [leBytes 4 rank] }⟩]) := by
  have hput : s.backend.called.put (key ++ decimal ctx.link) (leBytes 4 rank) = _ :=
    put_of_ok (hb.called 0)
  have hcalled : ({ s with backend := s.backend.called } : Server).freeRank = some rank := hrank
  unfold findOrInsertRank
  dsimp only
  rw [get_of_inMemory hb, if_neg (lookup_eq_none.mp hv)]
  rw [if_neg (by simp), if_neg (by omega), hcalled]
  dsimp only
  rw [hput]

end

theorem handler_of_asksRank {env : Env} {request : SmemMessage} (h : AsksRank request) :
    handler env ctx request s = findOrInsertRank ctx .get autoRankingStr s := by
  obtain ⟨mt, userDef, keys, values⟩ := request
  obtain ⟨rfl, rfl, rfl⟩ := h
  have hlen : ¬ maxKeyLenServer < autoRankingStr.length := by decide
  simp only [handler, getHandler, onlyKey, checked]
  rw [if_neg hlen, get, if_pos (by simp)]

end

/-! ## Connections -/

section

variable {req : ConnReq} {link : Nat} {s : Server}

/-- A connection is accepted with a new rank, or no rank changes. -/
theorem linkConnectedHandler_cases (req : ConnReq) (link : Nat) (hb : s.backend.InMemory) :
    ((accepts req link s = false ∨ uint32Max ≤ req.rankId) ∧
      ∃ worldSize, (worldSize = s.worldSize ∨ worldSize = req.worldSize) ∧
        linkConnectedHandler req link s = { s with worldSize }) ∨
    (accepts req link s = true ∧ req.rankId < uint32Max ∧ req.rankId ∉ s.aliveRankSet ∧
      linkConnectedHandler req link s = { s with
        worldSize := req.worldSize
        backend := (s.backend.put (rankKey link) (leBytes 4 req.rankId)).backend
        aliveRankSet := s.aliveRankSet.insert req.rankId }) := by
  have hret : (s.backend.put (rankKey link) (leBytes 4 req.rankId)).ret = .success :=
    put_ret_eq_success_iff.mpr (hb 0)
  unfold linkConnectedHandler accepts
  dsimp only
  split_ifs with hworld hrecover hauto halive
  · exact .inl ⟨.inl rfl, s.worldSize, .inl rfl, rfl⟩
  · exact .inl ⟨.inl rfl, req.worldSize, .inr rfl, rfl⟩
  · exact .inl ⟨.inr hauto, req.worldSize, .inr rfl, rfl⟩
  · exact .inl ⟨.inl rfl, req.worldSize, .inr rfl, rfl⟩
  · exact .inr ⟨by simpa using hret, by omega, halive, rfl⟩
  · exact absurd hret ‹_›

/-- The end of `LinkBrokenHandler`, where everything is cleared if no rank is left. -/
def dropLink (link : Nat) (s : Server) : Server :=
  unwatch link (if s.aliveRankSet.isEmpty then s.cleared else s)

theorem lookup_dropLink (s : Server) (link l : Nat) :
    (dropLink link s).backend.kvStore.lookup (rankKey l) =
      if s.aliveRankSet = [] then none else s.backend.kvStore.lookup (rankKey l) := by
  unfold dropLink unwatch
  by_cases hnil : s.aliveRankSet = []
  · rw [if_pos (by simpa using hnil), if_pos hnil]
    refine lookup_eq_none.mpr fun hmem => ?_
    exact absurd (mem_delete hmem) (notMem_empty _)
  · rw [if_neg (by simpa using hnil), if_neg hnil]

theorem dropLink_ranks (s : Server) (link : Nat) :
    (dropLink link s).aliveRankSet = s.aliveRankSet ∧
      (dropLink link s).worldSize = s.worldSize := by
  unfold dropLink unwatch
  split_ifs
  · exact ⟨rfl, rfl⟩
  · exact ⟨rfl, rfl⟩

theorem linkBrokenHandler_of_ranked {rank : Nat} (hb : s.backend.InMemory)
    (hv : s.backend.kvStore.lookup (rankKey link) = some (leBytes 4 rank))
    (hrank : rank < uint32Max) :
    ∃ queue, linkBrokenHandler link s = { dropLink link { s with
      backend := (s.backend.called.delete (rankKey link)).backend
      aliveRankSet := s.aliveRankSet.filter (· ≠ rank) } with rankStateTaskQueue := queue } := by
  have hmem : rankKey link ∈ s.backend.kvStore := lookup_isSome.mp (by rw [hv]; rfl)
  have hvalue : leValue ((leBytes 4 rank).take 4) = rank := by
    rw [take_of_length_le (by simp), leValue_leBytes]
    simp only [uint32Max] at hrank
    omega
  have hdelete : (s.backend.called.delete (rankKey link)).ret = .success := by
    rw [delete, hb.called 0]
    exact if_pos hmem
  unfold linkBrokenHandler dropLink
  dsimp only
  rw [show autoRankingStr ++ decimal link = rankKey link from rfl, get_of_found (hb 0) hv]
  rw [hvalue, if_neg (not_not.mpr hdelete), if_neg hrank.ne]
  exact ⟨_, rfl⟩

theorem linkBrokenHandler_of_unranked (hb : s.backend.InMemory)
    (hv : s.backend.kvStore.lookup (rankKey link) = none) :
    linkBrokenHandler link s = dropLink link { s with backend := s.backend.called } := by
  unfold linkBrokenHandler dropLink
  dsimp only
  rw [show autoRankingStr ++ decimal link = rankKey link from rfl, get_of_inMemory hb,
    if_neg (lookup_eq_none.mp hv)]
  simp

end

/-! ## Entries, set and links agree -/

/-- The entries of the ranking keys and `aliveRankSet_` are the ranks `rankOf`. -/
structure Ranked (rankOf : Nat → Option Nat) (s : Server) : Prop where
  inMemory : s.backend.InMemory
  worldSize_le : s.worldSize ≤ uint32Max
  nodup : s.aliveRankSet.Nodup
  entry : ∀ link, s.backend.kvStore.lookup (rankKey link) = (rankOf link).map (leBytes 4)
  lt : ∀ link rank, rankOf link = some rank → rank < uint32Max
  inj : ∀ link link' rank, rankOf link = some rank → rankOf link' = some rank → link = link'
  alive : ∀ rank, rank ∈ s.aliveRankSet ↔ ∃ link, rankOf link = some rank

section

variable {rankOf : Nat → Option Nat} {s s' : Server} {link rank : Nat}

theorem lookup_put_rankKey {b : Backend} (hb : b.InMemory) {value : Bytes} (l : Nat) :
    (b.put (rankKey link) value).backend.kvStore.lookup (rankKey l) =
      if l = link then some value else b.kvStore.lookup (rankKey l) := by
  split_ifs with hl
  · subst hl
    exact hb.lookup_put
  · exact lookup_put_ne fun heq => hl (rankKey_inj heq)

section

variable (h : Ranked rankOf s) (hb : s'.backend.InMemory) (hworld : s'.worldSize ≤ uint32Max)

include h hb hworld

theorem Ranked.same (halive : s'.aliveRankSet = s.aliveRankSet)
    (hkv : ∀ l, s'.backend.kvStore.lookup (rankKey l) = s.backend.kvStore.lookup (rankKey l)) :
    Ranked rankOf s' where
  inMemory := hb
  worldSize_le := hworld
  nodup := halive ▸ h.nodup
  entry := fun l => (hkv l).trans (h.entry l)
  lt := h.lt
  inj := h.inj
  alive := halive ▸ h.alive

theorem Ranked.assign (halive : s'.aliveRankSet = s.aliveRankSet.insert rank)
    (hkv : ∀ l, s'.backend.kvStore.lookup (rankKey l) =
      if l = link then some (leBytes 4 rank) else s.backend.kvStore.lookup (rankKey l))
    (hlink : rankOf link = none) (hrank : rank ∉ s.aliveRankSet) (hlt : rank < uint32Max) :
    Ranked (update rankOf link (some rank)) s' where
  inMemory := hb
  worldSize_le := hworld
  nodup := by
    rw [halive]
    exact h.nodup.insert
  entry := by
    intro l
    rw [hkv l, update_apply]
    split_ifs
    · rfl
    · exact h.entry l
  lt := by
    intro l r hr
    rw [update_apply] at hr
    split_ifs at hr
    · obtain rfl := Option.some.inj hr
      exact hlt
    · exact h.lt l r hr
  inj := by
    have hnew : ∀ l, rankOf l ≠ some rank := fun l hl => hrank ((h.alive rank).mpr ⟨l, hl⟩)
    intro l l' r hr hr'
    rw [update_apply] at hr hr'
    split_ifs at hr hr' with hl hl' hl'
    · rw [hl, hl']
    · rw [← hr] at hr'
      exact absurd hr' (hnew l')
    · rw [← hr'] at hr
      exact absurd hr (hnew l)
    · exact h.inj l l' r hr hr'
  alive := by
    intro r
    rw [halive, mem_insert_iff, h.alive]
    constructor
    · rintro (rfl | ⟨l, hl⟩)
      · exact ⟨link, update_self ..⟩
      · refine ⟨l, ?_⟩
        rw [update_of_ne]
        · exact hl
        · rintro rfl
          rw [hlink] at hl
          cases hl
    · rintro ⟨l, hl⟩
      rw [update_apply] at hl
      split_ifs at hl
      · exact .inl (Option.some.inj hl).symm
      · exact .inr ⟨l, hl⟩

theorem Ranked.release
    (halive : ∀ r, r ∈ s'.aliveRankSet ↔ r ∈ s.aliveRankSet ∧ rankOf link ≠ some r)
    (hnodup : s'.aliveRankSet.Nodup) (hkv : ∀ l, s'.backend.kvStore.lookup (rankKey l) =
      if l = link ∨ s'.aliveRankSet = [] then none else s.backend.kvStore.lookup (rankKey l)) :
    Ranked (update rankOf link none) s' := by
  have hleft : ∀ r, r ∈ s'.aliveRankSet ↔ ∃ l, update rankOf link none l = some r := by
    intro r
    rw [halive, h.alive]
    constructor
    · rintro ⟨⟨l, hl⟩, hne⟩
      refine ⟨l, ?_⟩
      rw [update_of_ne]
      · exact hl
      · rintro rfl
        exact hne hl
    · rintro ⟨l, hl⟩
      rw [update_apply] at hl
      split_ifs at hl with hne
      exact ⟨⟨l, hl⟩, fun hlink => hne (h.inj l link r hl hlink)⟩
  refine ⟨hb, hworld, hnodup, ?_, ?_, ?_, hleft⟩
  · intro l
    rw [hkv l]
    split_ifs with hcase
    · rcases hcase with rfl | hnil
      · rw [update_self]
        rfl
      · have hnone : update rankOf link none l = none := by
          cases hl : update rankOf link none l with
          | none => rfl
          | some r =>
            have hmem := (hleft r).mpr ⟨l, hl⟩
            rw [hnil] at hmem
            exact absurd hmem (not_mem_nil)
        rw [hnone]
        rfl
    · rw [update_of_ne (fun hl => hcase (.inl hl))]
      exact h.entry l
  · intro l r hr
    rw [update_apply] at hr
    split_ifs at hr
    exact h.lt l r hr
  · intro l l' r hr hr'
    rw [update_apply] at hr hr'
    split_ifs at hr hr'
    exact h.inj l l' r hr hr'

end

end

end Server

open Server

namespace Links

/-! ## Runs -/

/-- Beside requests for a rank, clients name no key with the beginning of the ranking
keys; world sizes and ranks are `uint32_t`. -/
def KeepsRankKeys : Event → Prop
  | .request _ _ _ body => ∀ n m, unpack body = .ok (n, m) →
      AsksRank m ∨ ∀ key ∈ m.keys, ¬ autoRankingStr <+: key
  | .connected req _ => req.worldSize ≤ uint32Max ∧ req.rankId ≤ uint32Max
  | _ => True

def RanksAllowed (t : Links) (e : Event) : Prop := t.OnLinks e ∧ KeepsRankKeys e

/-- Every link has the rank it was told, and `aliveRankSet_` has these ranks. -/
abbrev RanksAgree (t : Links) : Prop := Ranked t.rankOf t.server

section

variable {t : Links} {s : Server} {link : Nat}

theorem rankOf_insert (rank : Option Nat) :
    rankOf ⟨s, t.held.insert link rank⟩ = update t.rankOf link rank := by
  funext l
  simp only [rankOf, Table.lookup_insert_eq, update_apply]
  split_ifs
  · rfl
  · rfl

theorem rankOf_erase : rankOf ⟨s, t.held.erase link⟩ = update t.rankOf link none := by
  funext l
  simp only [rankOf, Table.lookup_erase_eq, update_apply]
  split_ifs
  · rfl
  · rfl

theorem rankOf_of_notMem (h : link ∉ t.held) : t.rankOf link = none := by
  rw [rankOf, lookup_eq_none.mpr h]
  rfl

end

def rankReply (ctx : Context) (rank : Nat) : Reply :=
  ⟨ctx, .success, .packed { mt := .get, values := [leBytes 4 rank] }⟩

theorem told_rankReply {ctx : Context} {rank : Nat} (h : rank < uint32Max) :
    told [rankReply ctx rank] = some rank := by
  simp only [uint32Max] at h
  simp only [rankReply, told, leValue_leBytes]
  rw [Nat.mod_eq_of_lt (by omega)]

structure RankAnswer (t t' : Links) (ctx : Context) (out : List Reply) : Prop where
  again : ∀ rank, t.rankOf ctx.link = some rank → out = [rankReply ctx rank] ∧ t'.rankOf = t.rankOf
  new : t.rankOf ctx.link = none → t.server.aliveRankSet.length < t.server.worldSize →
    ∃ rank, (∀ fuel, t.server.worldSize ≤ fuel →
        searchRank t.server fuel t.server.rankIndex = some rank) ∧
      rank < t.server.worldSize ∧ rank ∉ t.server.aliveRankSet ∧ out = [rankReply ctx rank] ∧
      t'.rankOf = update t.rankOf ctx.link (some rank)
  full : t.rankOf ctx.link = none → t.server.worldSize ≤ t.server.aliveRankSet.length →
    out = [⟨ctx, .error, .text "error: worldSize rankSize bigger than worldSize."⟩] ∧
      t'.rankOf = t.rankOf

def counted (s : Server) : Server := { s with received := s.received + 1 }

section Request

variable {t : Links} {env : Env} {link seqNo : Nat} {body : Bytes} {n : Int} {m : SmemMessage}

theorem step_asksRank (hm : unpack body = .ok (n, m)) (hask : AsksRank m) {s' : Server}
    {out : List Reply} {r : Option Nat}
    (hfind : findOrInsertRank ⟨link, seqNo, t.server.received, some m⟩ .get autoRankingStr
      (counted t.server) = (s', out)) (htold : told out = r) :
    step t (.request env link seqNo body) = (⟨s', tell t.held link r⟩, out) := by
  have hserver : Server.step t.server (.request env link seqNo body) = (s', out) := by
    rw [Server.step, receiveMessageHandler, hm, ← hfind]
    exact handler_of_asksRank hask
  have hheld : t.heldAfter out (.request env link seqNo body) = tell t.held link r := by
    rw [heldAfter, hm, ← htold]
    exact if_pos hask
  rw [step, hserver, hheld]

theorem RanksAgree.lookup (h : RanksAgree t) {rank : Option Nat} (hrank : t.rankOf link = rank) :
    (counted t.server).backend.kvStore.lookup (rankKey link) = rank.map (leBytes 4) :=
  hrank ▸ h.entry link

/-- A request for a rank is answered, and the ranks still agree. -/
theorem RanksAgree.request (h : RanksAgree t) (hm : unpack body = .ok (n, m)) (hask : AsksRank m) :
    RanksAgree (step t (.request env link seqNo body)).1 ∧
      RankAnswer t (step t (.request env link seqNo body)).1
        ⟨link, seqNo, t.server.received, some m⟩ (step t (.request env link seqNo body)).2 := by
  cases hrank : t.rankOf link with
  | some rank =>
    have hstep : step t (.request env link seqNo body) = (_, [rankReply _ rank]) :=
      step_asksRank hm hask (findOrInsertRank_of_held h.inMemory (h.lookup hrank))
        (told_rankReply (h.lt link rank hrank))
    have hsame : update t.rankOf link (some rank) = t.rankOf :=
      update_eq_self_iff.mpr hrank.symm
    rw [hstep]
    refine ⟨?_, ?_, ?_, ?_⟩
    · rw [RanksAgree, tell, rankOf_insert, hsame]
      exact h.same h.inMemory.called h.worldSize_le rfl fun _ => rfl
    · intro rank' hrank'
      obtain rfl := Option.some.inj (hrank.symm.trans hrank')
      exact ⟨rfl, (rankOf_insert _).trans hsame⟩
    all_goals exact fun hnone => absurd (hrank.symm.trans hnone) (by simp)
  | none =>
    have hagain : ∀ rank, t.rankOf link ≠ some rank := by simp [hrank]
    by_cases hfree : t.server.aliveRankSet.length < t.server.worldSize
    · obtain ⟨rank, hfound, hlt, hnew⟩ := searchRank_of_free hfree le_rfl t.server.rankIndex
      have hmax : rank < uint32Max := lt_of_lt_of_le hlt h.worldSize_le
      have hnext : (counted t.server).freeRank = some rank := (freeRank_eq t.server).trans hfound
      rw [step_asksRank hm hask
        (findOrInsertRank_of_free h.inMemory (h.lookup hrank) hfree hnext) (told_rankReply hmax)]
      refine ⟨?_, ?_, ?_, ?_⟩
      · rw [RanksAgree, tell, rankOf_insert]
        exact h.assign h.inMemory.called.put h.worldSize_le rfl
          (lookup_put_rankKey h.inMemory.called) hrank hnew hmax
      · exact fun rank' hrank' => absurd hrank' (hagain rank')
      · intro _ _
        exact ⟨rank, fun fuel hfuel => searchRank_mono hfound hfuel, hlt, hnew, rfl,
          rankOf_insert _⟩
      · exact fun _ hfull => absurd hfree (not_lt.mpr hfull)
    · rw [step_asksRank hm hask
        (findOrInsertRank_of_full h.inMemory (h.lookup hrank) (not_lt.mp hfree)) rfl]
      refine ⟨?_, ?_, ?_, ?_⟩
      · exact h.same h.inMemory.called h.worldSize_le rfl fun _ => rfl
      · exact fun rank' hrank' => absurd hrank' (hagain rank')
      · exact fun _ hlt => absurd hlt hfree
      · exact fun _ _ => ⟨rfl, rfl⟩

theorem rankOf_step_other (h : ∀ n m, unpack body = .ok (n, m) → ¬ AsksRank m) :
    (step t (.request env link seqNo body)).1.rankOf = t.rankOf := by
  have hheld : (step t (.request env link seqNo body)).1.held = t.held := by
    simp only [step, heldAfter]
    cases hbody : unpack body with
    | error e => rfl
    | ok r => exact if_neg (h r.1 r.2 hbody)
  funext l
  rw [rankOf, hheld, rankOf]

/-- A request that names no ranking key leaves the ranks alone. -/
theorem RanksAgree.other (h : RanksAgree t)
    (hkeys : ∀ n m, unpack body = .ok (n, m) → ¬ AsksRank m ∧
      ∀ key ∈ m.keys, ¬ autoRankingStr <+: key) :
    RanksAgree (step t (.request env link seqNo body)).1 := by
  have hb := inMemory_step h.inMemory (.request env link seqNo body)
  rw [RanksAgree, rankOf_step_other fun n m hm => (hkeys n m hm).1, server_step]
  simp only [Server.step, receiveMessageHandler] at hb ⊢
  cases hbody : unpack body with
  | error e => exact h.same h.inMemory h.worldSize_le rfl fun _ => rfl
  | ok r =>
    obtain ⟨n, m⟩ := r
    obtain ⟨-, hkeys⟩ := hkeys n m hbody
    have hconfined : Confined m.keys (counted t.server)
        (handler env ⟨link, seqNo, t.server.received, some m⟩ m (counted t.server)).1 :=
      confined_handler fun _ => hkeys
    rw [hbody] at hb
    refine h.same hb (hconfined.worldSize.le.trans h.worldSize_le) hconfined.aliveRankSet ?_
    exact fun l => hconfined.lookup _ fun hmem => hkeys _ hmem (prefix_rankKey l)

end Request

section Step

variable {t : Links}

theorem RanksAgree.connected (h : RanksAgree t) {req : ConnReq} {link : Nat}
    (hlink : link ∉ t.held) (hworld : req.worldSize ≤ uint32Max) :
    RanksAgree (step t (.connected req link)).1 := by
  have hnone := rankOf_of_notMem hlink
  have hheld : (step t (.connected req link)).1.rankOf =
      if t.server.accepts req link ∧ req.rankId < uint32Max then
        update t.rankOf link (some req.rankId) else t.rankOf := by
    have hself : update t.rankOf link none = t.rankOf :=
      update_eq_self_iff.mpr hnone.symm
    simp only [step, heldAfter]
    split_ifs with haccept hauto hboth hboth hboth
    · exact rankOf_insert _
    · exact absurd ⟨haccept, hauto⟩ hboth
    · exact absurd hboth.2 hauto
    · exact (rankOf_insert none).trans hself
    · exact absurd hboth.1 haccept
    · rfl
  rw [RanksAgree, hheld]
  rcases linkConnectedHandler_cases req link h.inMemory with
    ⟨hno, worldSize, hsize, heq⟩ | ⟨haccept, hauto, hnew, heq⟩
  · have hcond : ¬ (t.server.accepts req link = true ∧ req.rankId < uint32Max) := by
      rintro ⟨haccept, hauto⟩
      rcases hno with hno | hno
      · rw [haccept] at hno
        cases hno
      · omega
    rw [if_neg hcond, server_step, Server.step, heq]
    refine h.same h.inMemory ?_ rfl fun _ => rfl
    rcases hsize with rfl | rfl
    · exact h.worldSize_le
    · exact hworld
  · rw [if_pos ⟨haccept, hauto⟩, server_step, Server.step, heq]
    exact h.assign h.inMemory.put hworld rfl (lookup_put_rankKey h.inMemory) hnone hnew hauto

/-- The handler of a broken link takes its rank away and drops the link. -/
theorem linkBrokenHandler_ranked {rankOf : Nat → Option Nat} {s : Server} (h : Ranked rankOf s)
    (link : Nat) :
    ∃ s1 queue, linkBrokenHandler link s = { dropLink link s1 with rankStateTaskQueue := queue } ∧
      (∀ r, r ∈ s1.aliveRankSet ↔ r ∈ s.aliveRankSet ∧ rankOf link ≠ some r) ∧
      s1.aliveRankSet.Nodup ∧ s1.worldSize = s.worldSize ∧
      ∀ l, s1.backend.kvStore.lookup (rankKey l) =
        if l = link then none else s.backend.kvStore.lookup (rankKey l) := by
  cases hrank : rankOf link with
  | none =>
    have hentry : s.backend.kvStore.lookup (rankKey link) = none := by
      rw [h.entry, hrank]
      rfl
    refine ⟨{ s with backend := s.backend.called },
      (dropLink link { s with backend := s.backend.called }).rankStateTaskQueue,
      linkBrokenHandler_of_unranked h.inMemory hentry, by simp, h.nodup, rfl, fun l => ?_⟩
    split_ifs with hl
    · rw [hl]
      exact hentry
    · rfl
  | some rank =>
    have hentry : s.backend.kvStore.lookup (rankKey link) = some (leBytes 4 rank) := by
      rw [h.entry, hrank]
      rfl
    obtain ⟨queue, heq⟩ :=
      linkBrokenHandler_of_ranked h.inMemory hentry (h.lt link rank hrank)
    refine ⟨_, queue, heq, fun r => ?_, h.nodup.filter _, rfl, fun l => ?_⟩
    · simp only [mem_filter, decide_eq_true_eq, ne_eq, Option.some.injEq]
      rw [eq_comm]
    · split_ifs with hl
      · rw [hl, delete, h.inMemory.called 0]
        exact lookup_erase _ _
      · exact lookup_delete_ne fun heq => hl (rankKey_inj heq)

theorem RanksAgree.broken (h : RanksAgree t) (link : Nat) :
    RanksAgree (step t (.broken link)).1 := by
  have hb : (linkBrokenHandler link t.server).backend.InMemory :=
    inMemory_step h.inMemory (.broken link)
  have hheld : (step t (.broken link)).1.rankOf = update t.rankOf link none :=
    rankOf_erase
  obtain ⟨s1, queue, heq, halive, hnodup, hworld, hkv⟩ := linkBrokenHandler_ranked h link
  obtain ⟨hdrop, hsize⟩ := dropLink_ranks s1 link
  rw [RanksAgree, hheld, server_step, Server.step]
  rw [heq] at hb ⊢
  refine h.release hb ((hsize.trans hworld).le.trans h.worldSize_le) ?_ ?_ ?_
  · intro r
    rw [hdrop]
    exact halive r
  · rw [hdrop]
    exact hnodup
  · intro l
    rw [lookup_dropLink, hdrop, hkv]
    by_cases hnil : s1.aliveRankSet = [] <;> by_cases hl : l = link <;> simp [hl]

theorem RanksAgree.step (h : RanksAgree t) {e : Event} (he : RanksAllowed t e) :
    RanksAgree (step t e).1 := by
  cases e with
  | request env link seqNo body =>
    by_cases hask : ∃ n m, unpack body = .ok (n, m) ∧ AsksRank m
    · obtain ⟨n, m, hm, hask⟩ := hask
      exact (h.request hm hask).1
    · refine h.other fun n m hm => ?_
      have hnot : ¬ AsksRank m := fun hm' => hask ⟨n, m, hm, hm'⟩
      exact ⟨hnot, (he.2 n m hm).resolve_left hnot⟩
  | connected req link => exact h.connected he.1 he.2.1
  | broken link => exact h.broken link
  | timer env timestamp order =>
    have hserver : ∃ waiters, (Server.step t.server (.timer env timestamp order)).1 =
        { t.server with waiters } := by
      unfold Server.step
      dsimp only
      split_ifs
      · exact ⟨_, rfl⟩
      · exact ⟨_, rfl⟩
    obtain ⟨waiters, hserver⟩ := hserver
    change Ranked t.rankOf (Server.step t.server (.timer env timestamp order)).1
    rw [hserver]
    exact h.same h.inMemory h.worldSize_le rfl fun _ => rfl
  | rankState env =>
    have hserver : ∃ queue, (rankStateTask env t.server).1 =
        { t.server with rankStateTaskQueue := queue } := by
      unfold rankStateTask
      split
      · exact ⟨_, rfl⟩
      · exact ⟨_, rfl⟩
    obtain ⟨queue, hserver⟩ := hserver
    change Ranked t.rankOf (rankStateTask env t.server).1
    rw [hserver]
    exact h.same h.inMemory h.worldSize_le rfl fun _ => rfl

theorem ranksAgree_start {worldSize : Nat} {backend : Backend} (hb : backend.InMemory)
    (hnew : ∀ key ∈ backend.kvStore, ¬ autoRankingStr <+: key) (hworld : worldSize ≤ uint32Max) :
    RanksAgree (start worldSize backend) where
  inMemory := hb
  worldSize_le := hworld
  nodup := nodup_nil
  entry := by
    intro link
    have hnone : backend.kvStore.lookup (rankKey link) = none :=
      lookup_eq_none.mpr fun hmem => hnew _ hmem (prefix_rankKey link)
    exact hnone
  lt := by simp [rankOf, start]
  inj := by simp [rankOf, start]
  alive := by simp [rankOf, start, Server.start]

theorem rankOf_step (h : RanksAgree t) {e : Event} (he : RanksAllowed t e) {link rank : Nat}
    (hrank : t.rankOf link = some rank) (hne : e ≠ .broken link) :
    (step t e).1.rankOf link = some rank := by
  have hmem : link ∈ t.held := by
    by_contra hmem
    rw [rankOf_of_notMem hmem] at hrank
    cases hrank
  cases e with
  | request env l seqNo body =>
    by_cases hask : ∃ n m, unpack body = .ok (n, m) ∧ AsksRank m
    · obtain ⟨n, m, hm, hask⟩ := hask
      have hanswer : RankAnswer t (step t (.request env l seqNo body)).1
          ⟨l, seqNo, t.server.received, some m⟩ _ := (h.request hm hask).2
      cases hl : t.rankOf l with
      | some r => rw [(hanswer.again r hl).2, hrank]
      | none =>
        have hlink : link ≠ l := by
          rintro rfl
          rw [hrank] at hl
          cases hl
        rcases lt_or_ge t.server.aliveRankSet.length t.server.worldSize with hlt | hge
        · obtain ⟨r, -, -, -, -, heq⟩ := hanswer.new hl hlt
          rw [heq, update_of_ne hlink, hrank]
        · rw [(hanswer.full hl hge).2, hrank]
    · rw [rankOf_step_other fun n m hm hask' => hask ⟨n, m, hm, hask'⟩, hrank]
  | connected req l =>
    have hlink : link ≠ l := by
      rintro rfl
      exact he.1 hmem
    simp only [step, heldAfter]
    split_ifs
    · rw [rankOf_insert, update_of_ne hlink]
      exact hrank
    · rw [rankOf_insert, update_of_ne hlink]
      exact hrank
    · exact hrank
  | broken l =>
    have hlink : link ≠ l := by
      rintro rfl
      exact hne rfl
    have heq : (step t (.broken l)).1.rankOf = update t.rankOf l none := rankOf_erase
    rw [heq, update_of_ne hlink, hrank]
  | timer env timestamp order => exact hrank
  | rankState env => exact hrank

end Step

/-- How ranks are assigned: no two links have one rank, `aliveRankSet_` has the ranks of
the links, requests for a rank are answered, and a link keeps its rank. -/
structure RankAssignment (t : Links) : Prop where
  unique : ∀ link link' rank, t.rankOf link = some rank → t.rankOf link' = some rank → link = link'
  nodup : t.server.aliveRankSet.Nodup
  alive : ∀ rank, rank ∈ t.server.aliveRankSet ↔ ∃ link, t.rankOf link = some rank
  answer : ∀ env link seqNo body n m, unpack body = .ok (n, m) → AsksRank m →
    RankAnswer t (step t (.request env link seqNo body)).1
      ⟨link, seqNo, t.server.received, some m⟩ (step t (.request env link seqNo body)).2
  stable : ∀ e link rank, RanksAllowed t e → t.rankOf link = some rank → e ≠ .broken link →
    (step t e).1.rankOf link = some rank

/-- On the in-memory backend ranks are assigned correctly in every run. -/
theorem rank_assignment {worldSize : Nat} {backend : Backend} {t : Links} (hb : backend.InMemory)
    (hnew : ∀ key ∈ backend.kvStore, ¬ autoRankingStr <+: key) (hworld : worldSize ≤ uint32Max)
    (h : Reachable step RanksAllowed (start worldSize backend) t) : RankAssignment t := by
  have hagree : RanksAgree t :=
    h.invariant (ranksAgree_start hb hnew hworld) fun _ _ ht he => ht.step he
  exact
    { unique := hagree.inj
      nodup := hagree.nodup
      alive := hagree.alive
      answer := fun _ _ _ _ _ _ hm hask => (hagree.request hm hask).2
      stable := fun _ _ _ he hrank hne => rankOf_step hagree he hrank hne }

/-- A world of two: link 5 comes with the rank 0, and link 6 asks for one. -/
theorem rank_assignment_twoLinks :
    let ask := pack { mt := .get, keys := [autoRankingStr] }
    let events := [.connected ⟨2, 0, false, true⟩ 5, .connected ⟨2, uint32Max, false, true⟩ 6,
      .request ⟨0, fun _ => true⟩ 6 0 ask]
    let t := (run step (start 2 {}) events).1
    t.rankOf 5 = some 0 ∧ t.rankOf 6 = some 1 ∧ RankAssignment t := by
  intro ask events t
  have hempty : ∀ key ∈ ({} : Backend).kvStore, ¬ autoRankingStr <+: key := fun key hkey =>
    absurd hkey (notMem_empty key)
  have hallowed : AllAllowed step RanksAllowed (start 2 {}) events := by
    refine ⟨⟨notMem_empty 5, by decide, by decide⟩, ⟨?_, by decide, by decide⟩, ⟨?_, ?_⟩, trivial⟩
    · show 6 ∉ Links.held _
      decide +kernel
    · show 6 ∈ Links.held _
      decide +kernel
    · intro n m hm
      cases (unpack_pack ⟨by decide, by decide, by decide, by decide⟩).symm.trans hm
      exact .inl ⟨rfl, rfl, rfl⟩
  refine ⟨by decide +kernel, by decide +kernel, ?_⟩
  exact rank_assignment (fun _ => rfl) hempty (by decide) (trace_run_of_allowed hallowed).reachable

end Links

end MemFabric.Smem.Store
