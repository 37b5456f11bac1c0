import MemFabric.Smem.Store.Effect

/-!
# What a request leaves alone

A request changes no key but those it names, and the ranks only if it asks for one:
a GET of a key that begins like the ranking keys.
-/

namespace MemFabric.Smem.Store

open Wire Backend

namespace Backend

variable {b : Backend} {key value k : Bytes}

theorem lookup_put_ne (h : k ≠ key) :
    (b.put key value).backend.kvStore.lookup k = b.kvStore.lookup k := by
  rw [kvStore_put]
  split_ifs
  · exact AList.lookup_insert_ne h
  · rfl

theorem lookup_delete_ne (h : k ≠ key) :
    (b.delete key).backend.kvStore.lookup k = b.kvStore.lookup k := by
  unfold delete
  split
  · rfl
  · exact AList.lookup_erase_ne h

end Backend

namespace Server

/-- The ranks, the queued tasks and all keys but the given ones are as before. -/
structure Confined (keys : List Bytes) (s s' : Server) : Prop where
  lookup : ∀ k, k ∉ keys → s'.backend.kvStore.lookup k = s.backend.kvStore.lookup k
  aliveRankSet : s'.aliveRankSet = s.aliveRankSet
  rankIndex : s'.rankIndex = s.rankIndex
  worldSize : s'.worldSize = s.worldSize
  rankStateTaskQueue : s'.rankStateTaskQueue = s.rankStateTaskQueue

variable {env : Env} {ctx : Context} {s : Server} {key value : Bytes} {keys : List Bytes}
  {request : SmemMessage}

theorem Confined.refl (s : Server) : Confined keys s s := ⟨fun _ _ => rfl, rfl, rfl, rfl, rfl⟩

theorem Confined.of_backend {s' : Server} {b : Backend} (hs : s' = { s with
      backend := b, waiters := s'.waiters, watchWaiters := s'.watchWaiters
      linkWatchList := s'.linkWatchList, nextId := s'.nextId })
    (hb : ∀ k, k ≠ key → b.kvStore.lookup k = s.backend.kvStore.lookup k) :
    Confined [key] s s' := by
  rw [hs]
  exact ⟨fun k hk => hb k (by simpa using hk), rfl, rfl, rfl, rfl⟩

theorem confined_set : Confined [key] s (set env ctx key value s).1 := by
  unfold set
  dsimp only
  rw [get_backend]
  split_ifs
  · exact .of_backend rfl fun _ hk => lookup_put_ne hk
  · exact .of_backend rfl fun _ hk => lookup_put_ne hk

theorem confined_get (hkey : ¬ autoRankingStr <+: key) :
    Confined [key] s (get env ctx request key s).1 := by
  unfold get
  dsimp only
  rw [get_backend, if_neg (by simpa using hkey)]
  split_ifs
  all_goals exact .of_backend rfl fun _ _ => rfl

theorem confined_prefixGet {mt : MessageType} : Confined [key] s (prefixGet ctx mt key s).1 := by
  unfold prefixGet
  dsimp only
  rw [prefixGet_backend]
  split_ifs
  all_goals exact .of_backend rfl fun _ _ => rfl

theorem confined_watch {mt : MessageType} : Confined [key] s (watch ctx mt key s).1 := by
  unfold watch
  dsimp only
  rw [get_backend]
  exact .of_backend rfl fun _ _ => rfl

theorem confined_add : Confined [key] s (add env ctx key value s).1 := by
  unfold add
  split
  · exact .refl s
  · split_ifs
    · exact .refl s
    · dsimp only
      rw [get_backend]
      split_ifs
      · exact .of_backend rfl fun _ hk => lookup_put_ne hk
      · split
        · exact .of_backend rfl fun _ _ => rfl
        · split_ifs
          · exact .of_backend rfl fun _ _ => rfl
          · exact .of_backend rfl fun _ _ => rfl
          · exact .of_backend rfl fun _ hk => lookup_put_ne hk

theorem confined_remove : Confined [key] s (remove ctx key s).1 := by
  unfold remove
  dsimp only
  rw [exist_backend]
  split_ifs
  · exact .of_backend rfl fun _ hk => lookup_delete_ne hk
  · exact .of_backend rfl fun _ _ => rfl

theorem confined_append : Confined [key] s (append env ctx key value s).1 := by
  unfold append
  dsimp only
  rw [get_backend]
  exact .of_backend rfl fun _ hk => lookup_put_ne hk

theorem confined_writeAt {offset : Nat} {data : Bytes} :
    Confined [key] s (writeAt ctx key offset data s).1 := by
  unfold writeAt
  dsimp only
  rw [get_backend]
  split
  · exact .of_backend rfl fun _ hk => lookup_put_ne hk
  · rw [get_backend]
    refine .of_backend rfl fun k hk => (lookup_put_ne hk).trans ?_
    split_ifs
    · exact lookup_put_ne hk
    · rfl

theorem confined_write : Confined [key] s (write ctx key value s).1 := by
  unfold write
  dsimp only
  split_ifs
  · exact .refl s
  · exact .refl s
  · exact .refl s
  · exact .refl s
  · exact confined_writeAt
  · exact .refl s

theorem confined_cas {mt : MessageType} {expected exchange : Bytes} :
    Confined [key] s (cas env ctx mt key expected exchange s).1 := by
  unfold cas
  dsimp only
  rw [get_backend]
  split_ifs
  · exact .of_backend rfl fun _ hk => lookup_put_ne hk
  · exact .of_backend rfl fun _ _ => rfl
  · exact .of_backend rfl fun _ hk => lookup_put_ne hk

theorem confined_checked {α : Type} {args : Option (Bytes × α)} {text : String}
    {handle : Bytes → α → Server × List Reply} (hargs : ∀ a ∈ args, keys = [a.1])
    (h : ∀ key a, (key, a) ∈ args → Confined [key] s (handle key a).1) :
    Confined keys s (checked ctx args text s handle).1 := by
  unfold checked
  split
  · exact .refl s
  · next key a =>
    split_ifs
    · exact .refl s
    · rw [hargs _ rfl]
      exact h key a rfl

theorem confined_queryAliveHandler : Confined keys s (queryAliveHandler ctx request s).1 := by
  unfold queryAliveHandler
  split
  · exact .refl s
  · split
    · exact .refl s
    · exact .refl s

theorem confined_watchRankStateHandler :
    Confined keys s (watchRankStateHandler ctx request s).1 := by
  unfold watchRankStateHandler
  split_ifs
  · exact .refl s
  · exact ⟨fun _ _ => rfl, rfl, rfl, rfl, rfl⟩

def NoRankRequest (request : SmemMessage) : Prop :=
  request.mt = .get → ∀ key ∈ request.keys, ¬ autoRankingStr <+: key

theorem confined_handler (hrank : NoRankRequest request) :
    Confined request.keys s (handler env ctx request s).1 := by
  have honly : ∀ a ∈ onlyKey request, request.keys = [a.1] := fun _ ha => onlyKey_eq_some ha
  have hvalue : ∀ a ∈ keyValue request, request.keys = [a.1] := fun _ ha => (keyValue_eq_some ha).1
  have htwo : ∀ a ∈ keyTwoValues request, request.keys = [a.1] := fun _ ha =>
    keyTwoValues_eq_some ha
  unfold handler
  cases hmt : request.mt with
  | set => exact confined_checked hvalue fun _ _ _ => confined_set
  | get =>
    refine confined_checked honly fun key a ha => confined_get (hrank hmt key ?_)
    rw [honly _ ha]
    exact List.mem_singleton_self key
  | prefixGet => exact confined_checked honly fun _ _ _ => confined_prefixGet
  | watch => exact confined_checked honly fun _ _ _ => confined_watch
  | add => exact confined_checked hvalue fun _ _ _ => confined_add
  | remove => exact confined_checked honly fun _ _ _ => confined_remove
  | append => exact confined_checked hvalue fun _ _ _ => confined_append
  | cas => exact confined_checked htwo fun _ _ _ => confined_cas
  | write => exact confined_checked hvalue fun _ _ _ => confined_write
  | queryAlive => exact confined_queryAliveHandler
  | watchRankState => exact confined_watchRankStateHandler
  | heartbeat => exact .refl s
  | invalidMsg => exact .refl s

end Server

end MemFabric.Smem.Store
