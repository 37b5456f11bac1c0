import MemFabric.Machine.Table
import MemFabric.Smem.Store.Message

/-!
# Blocked GET requests

`waitCtx_`, `keyWaiters_` and `timedWaiters_` of `AccStoreServer`: a blocked GET
is registered under its id, its id is listed under its key, and, if the request
has a timeout, under its deadline.  `GetOutWaitersInLock` takes waiters out of
the first and the third index; the index by key loses ids only as a whole, so
it may keep the ids of waiters that have timed out.
-/

namespace MemFabric.Smem.Store

open Machine Wire List Option

/-! ## Contexts -/

/-- `AccTcpRequestContext`.  `serial` tells the requests of a run apart; `request`
is the body as `Unpack` reads it. -/
structure Context where
  link : Nat
  seqNo : Nat
  serial : Nat
  request : Option SmemMessage
deriving DecidableEq

structure StoreWaitContext where
  id : Nat
  timeoutMs : Int
  key : Bytes
  reqCtx : Context
deriving DecidableEq

def StoreWaitContext.timed (c : StoreWaitContext) : Bool :=
  c.reqCtx.request.any fun m => decide (0 < m.userDef)

/-! ## The three indices -/

structure Waiters where
  waitCtx : Table Nat StoreWaitContext := ∅
  keyWaiters : Table Bytes (List Nat) := ∅
  timedWaiters : Table Int (List Nat) := ∅
deriving DecidableEq

namespace Waiters

/-- The end of `GetHandler`. -/
def register (w : Waiters) (c : StoreWaitContext) : Waiters where
  waitCtx := Table.emplace w.waitCtx c.id c
  keyWaiters := w.keyWaiters.insert c.key ((Table.get w.keyWaiters c.key).insert c.id)
  timedWaiters :=
    if c.timed then
      w.timedWaiters.insert c.timeoutMs ((Table.get w.timedWaiters c.timeoutMs).insert c.id)
    else w.timedWaiters

/-- `timedWaiters_` without the waiter, and without its deadline if no id is left. -/
def untime (w : Waiters) (c : StoreWaitContext) : Table Int (List Nat) :=
  match w.timedWaiters.lookup c.timeoutMs with
  | none => w.timedWaiters
  | some ids =>
    let ids := ids.filter (· ≠ c.id)
    if ids.isEmpty then w.timedWaiters.erase c.timeoutMs
    else w.timedWaiters.insert c.timeoutMs ids

def remove (w : Waiters) (id : Nat) (c : StoreWaitContext) : Waiters :=
  { w with waitCtx := w.waitCtx.erase id, timedWaiters := w.untime c }

def getOutWaitersInLock : List Nat → Waiters → List Context × Waiters
  | [], w => ([], w)
  | id :: ids, w =>
    match w.waitCtx.lookup id with
    | none => getOutWaitersInLock ids w
    | some c => (c.reqCtx :: (getOutWaitersInLock ids (w.remove id c)).1,
        (getOutWaitersInLock ids (w.remove id c)).2)

/-- The first part of `GetWakeupList`. -/
def takeKey (w : Waiters) (key : Bytes) : List Context × Waiters :=
  match w.keyWaiters.lookup key with
  | none => ([], w)
  | some ids =>
    let out := getOutWaitersInLock ids w
    (out.1, { out.2 with keyWaiters := out.2.keyWaiters.erase key })

/-- The inner loop of `TimerThreadTask` over the deadlines in the order of the
container: the ids that are due, and the entries that are left. -/
def collect (timestamp : Int) : List Int → Table Int (List Nat) → List Nat × Table Int (List Nat)
  | [], timed => ([], timed)
  | deadline :: order, timed =>
    if timestamp < deadline then ([], timed)
    else (Table.get timed deadline ++ (collect timestamp order (timed.erase deadline)).1,
      (collect timestamp order (timed.erase deadline)).2)

def timerPass (w : Waiters) (timestamp : Int) (order : List Int) : List Context × Waiters :=
  getOutWaitersInLock (collect timestamp order w.timedWaiters).1
    { w with timedWaiters := (collect timestamp order w.timedWaiters).2 }

/-! ## What the operations do to an entry -/

section Spec

variable {w : Waiters} {id : Nat} {c : StoreWaitContext} {d : Int}

theorem mem_untime : id ∈ Table.get (w.untime c) d ↔
    id ∈ Table.get w.timedWaiters d ∧ ¬ (id = c.id ∧ d = c.timeoutMs) := by
  unfold untime Table.get
  cases hids : w.timedWaiters.lookup c.timeoutMs with
  | none =>
    by_cases hd : d = c.timeoutMs
    · subst hd
      simp [hids]
    · simp [hd]
  | some ids =>
    dsimp only
    split_ifs with hempty
    · by_cases hd : d = c.timeoutMs
      · subst hd
        have hall : ∀ i ∈ ids, i = c.id := by simpa using hempty
        simp [hids]
        exact hall id
      · simp [hd]
    · by_cases hd : d = c.timeoutMs
      · subst hd
        simp [hids]
      · simp [hd]

theorem untime_ne_nil (h : ∀ d, w.timedWaiters.lookup d ≠ some []) :
    (w.untime c).lookup d ≠ some [] := by
  unfold untime
  cases hids : w.timedWaiters.lookup c.timeoutMs with
  | none => exact h d
  | some ids =>
    dsimp only
    split_ifs with hempty
    · rw [Table.lookup_erase_eq]
      split_ifs
      · simp
      · exact h d
    · rw [Table.lookup_insert_eq]
      split_ifs
      · simpa using hempty
      · exact h d

section

variable (ids : List Nat)

@[simp] theorem keyWaiters_getOut (w : Waiters) :
    (getOutWaitersInLock ids w).2.keyWaiters = w.keyWaiters := by
  fun_induction getOutWaitersInLock ids w with
  | case1 => rfl
  | case2 id ids w hnone ih => exact ih
  | case3 id ids w c hsome ih => exact ih

theorem lookup_getOut (w : Waiters) (id : Nat) :
    (getOutWaitersInLock ids w).2.waitCtx.lookup id =
      if id ∈ ids then none else w.waitCtx.lookup id := by
  fun_induction getOutWaitersInLock ids w with
  | case1 => simp
  | case2 i ids w hi ih =>
    rw [ih]
    by_cases hid : id = i
    · subst hid
      simp [hi]
    · simp [hid]
  | case3 i ids w c hi ih =>
    dsimp only
    rw [ih, remove, Table.lookup_erase_eq]
    by_cases hid : id = i
    · simp [hid]
    · simp [hid]

/-- A waiter leaves the index by deadline together with its registration. -/
theorem mem_timed_getOut {w : Waiters} (hid : ∀ id c, w.waitCtx.lookup id = some c → c.id = id) :
    id ∈ Table.get (getOutWaitersInLock ids w).2.timedWaiters d ↔
      id ∈ Table.get w.timedWaiters d ∧
        ¬ (id ∈ ids ∧ ∃ c, w.waitCtx.lookup id = some c ∧ c.timeoutMs = d) := by
  fun_induction getOutWaitersInLock ids w with
  | case1 => simp
  | case2 i ids w hi ih =>
    rw [ih hid]
    by_cases heq : id = i
    · subst heq
      simp [hi]
    · simp [heq]
  | case3 i ids w c hi ih =>
    have hci := hid i c hi
    have hid' : ∀ id c', (w.remove i c).waitCtx.lookup id = some c' → c'.id = id := by
      intro id c' h
      rw [remove, Table.lookup_erase_eq] at h
      split_ifs at h
      exact hid id c' h
    dsimp only
    rw [ih hid']
    simp only [remove, mem_untime, hci]
    by_cases heq : id = i
    · subst heq
      simp [hi, eq_comm]
    · simp [heq]

theorem getOut_ne_nil {w : Waiters} (h : ∀ d, w.timedWaiters.lookup d ≠ some []) :
    (getOutWaitersInLock ids w).2.timedWaiters.lookup d ≠ some [] := by
  fun_induction getOutWaitersInLock ids w with
  | case1 => exact h d
  | case2 id ids w hnone ih => exact ih h
  | case3 id ids w c hsome ih => exact ih fun d => untime_ne_nil h

end

variable {ids : List Nat} {timestamp : Int} {order : List Int} {timed : Table Int (List Nat)}

theorem mem_getOut {w : Waiters} {ctx : Context} :
    ctx ∈ (getOutWaitersInLock ids w).1 ↔
      ∃ id ∈ ids, ∃ c, w.waitCtx.lookup id = some c ∧ c.reqCtx = ctx := by
  fun_induction getOutWaitersInLock ids w with
  | case1 => simp
  | case2 i ids w hi ih => simp [ih, hi]
  | case3 i ids w c hi ih =>
    rw [mem_cons, ih]
    simp only [remove, Table.lookup_erase_eq, mem_cons]
    constructor
    · rintro (rfl | ⟨id, hmem, c', hc', rfl⟩)
      · exact ⟨i, .inl rfl, c, hi, rfl⟩
      · split_ifs at hc' with heq
        exact ⟨id, .inr hmem, c', hc', rfl⟩
    · rintro ⟨id, hmem, c', hc', rfl⟩
      by_cases heq : id = i
      · subst heq
        rw [hi] at hc'
        exact .inl (by rw [some.inj hc'])
      · exact .inr ⟨id, hmem.resolve_left heq, c', by rw [if_neg heq]; exact hc', rfl⟩

theorem nodup_getOut {w : Waiters}
    (hinj : ∀ i j c c', w.waitCtx.lookup i = some c → w.waitCtx.lookup j = some c' →
      c.reqCtx.serial = c'.reqCtx.serial → i = j) :
    ((getOutWaitersInLock ids w).1.map (·.serial)).Nodup := by
  fun_induction getOutWaitersInLock ids w with
  | case1 => simp
  | case2 i ids w hi ih => exact ih hinj
  | case3 i ids w c hi ih =>
    rw [map_cons, nodup_cons]
    constructor
    · intro hmem
      obtain ⟨ctx, hctx, hserial⟩ := mem_map.mp hmem
      obtain ⟨j, -, c', hj, rfl⟩ := mem_getOut.mp hctx
      rw [remove, Table.lookup_erase_eq] at hj
      split_ifs at hj with heq
      exact heq (hinj j i c' c hj hi hserial)
    · apply ih
      intro j k c1 c2 hj hk
      rw [remove, Table.lookup_erase_eq] at hj hk
      split_ifs at hj hk
      exact hinj j k c1 c2 hj hk

theorem mem_collect (hnodup : order.Nodup) :
    id ∈ (collect timestamp order timed).1 ↔
      ∃ d ∈ order.takeWhile (· ≤ timestamp), id ∈ Table.get timed d := by
  induction order generalizing timed with
  | nil => simp [collect]
  | cons d order ih =>
    rw [nodup_cons] at hnodup
    unfold collect
    split_ifs with hd
    · rw [takeWhile_cons_of_neg (by simpa using hd)]
      simp
    · rw [takeWhile_cons_of_pos (by simpa using hd), mem_append, ih hnodup.2]
      simp only [mem_cons, exists_eq_or_imp]
      refine or_congr_right (exists_congr fun e => and_congr_right fun he => ?_)
      have hne : e ≠ d := fun heq => hnodup.1 (heq ▸ (List.takeWhile_prefix _).subset he)
      rw [Table.get, Table.lookup_erase_eq, if_neg hne, Table.get]

theorem lookup_collect :
    (collect timestamp order timed).2.lookup d =
      if d ∈ order.takeWhile (· ≤ timestamp) then none else timed.lookup d := by
  induction order generalizing timed with
  | nil => simp [collect]
  | cons e order ih =>
    unfold collect
    split_ifs with he hmem hmem
    · rw [takeWhile_cons_of_neg (by simpa using he)] at hmem
      exact absurd hmem (by simp)
    · rfl
    · rw [ih, Table.lookup_erase_eq]
      split_ifs <;> simp_all
    · rw [takeWhile_cons_of_pos (by simpa using he), mem_cons, not_or] at hmem
      rw [ih, if_neg hmem.2, Table.lookup_erase_eq, if_neg hmem.1]

/-- A scan that stops at the first deadline that is not due sees all that are due
exactly if these stand in front. -/
theorem forall_mem_takeWhile_iff (hnodup : order.Nodup) :
    (∀ d ∈ order, d ≤ timestamp → d ∈ order.takeWhile (· ≤ timestamp)) ↔
      order.Pairwise fun d e => timestamp < d → timestamp < e := by
  induction order with
  | nil => simp
  | cons d order ih =>
    rw [nodup_cons] at hnodup
    rw [pairwise_cons]
    by_cases hd : d ≤ timestamp
    · rw [takeWhile_cons_of_pos (by simpa using hd), ← ih hnodup.2]
      constructor
      · intro h
        refine ⟨fun e _ hlt => absurd hd hlt.not_ge, fun e he hdue => ?_⟩
        rcases mem_cons.mp (h e (mem_cons_of_mem d he) hdue) with rfl | hmem
        · exact absurd he hnodup.1
        · exact hmem
      · rintro ⟨-, h⟩ e he hdue
        rcases mem_cons.mp he with rfl | he
        · exact mem_cons_self
        · exact mem_cons_of_mem d (h e he hdue)
    · rw [takeWhile_cons_of_neg (by simpa using hd)]
      rw [not_le] at hd
      constructor
      · intro h
        have hlate : ∀ e ∈ order, timestamp < e := by
          intro e he
          by_contra hdue
          exact absurd (h e (mem_cons_of_mem d he) (not_lt.mp hdue)) (by simp)
        exact ⟨fun e he _ => hlate e he,
          pairwise_of_forall_mem_list fun _ _ e he _ => hlate e he⟩
      · rintro ⟨hlate, -⟩ e he hdue
        rcases mem_cons.mp he with rfl | he
        · exact absurd hd hdue.not_gt
        · exact absurd (hlate e he hd) hdue.not_gt

end Spec

/-! ## Consistency of the indices -/

/-- The three indices agree; ids below `nextId` have been given out. -/
structure Wf (w : Waiters) (nextId : Nat) : Prop where
  id_eq : ∀ id c, w.waitCtx.lookup id = some c → c.id = id
  indexed : ∀ id c, w.waitCtx.lookup id = some c → id ∈ Table.get w.keyWaiters c.key
  id_lt : ∀ id key, id ∈ Table.get w.keyWaiters key → id < nextId
  key_eq : ∀ id key c, id ∈ Table.get w.keyWaiters key → w.waitCtx.lookup id = some c → c.key = key
  timed_iff : ∀ id d, id ∈ Table.get w.timedWaiters d ↔
    ∃ c, w.waitCtx.lookup id = some c ∧ c.timed = true ∧ c.timeoutMs = d
  timed_ne : ∀ d, w.timedWaiters.lookup d ≠ some []

theorem wf_empty (nextId : Nat) : Wf {} nextId where
  id_eq := by simp
  indexed := by simp
  id_lt := by simp [Table.get]
  key_eq := by simp
  timed_iff := by simp [Table.get]
  timed_ne := by simp

variable {w : Waiters} {n id : Nat} {c : StoreWaitContext} {key : Bytes}

theorem Wf.mono {n' : Nat} (h : Wf w n) (hn : n ≤ n') : Wf w n' :=
  { h with id_lt := fun id key hid => (h.id_lt id key hid).trans_le hn }

theorem Wf.lt (h : Wf w n) (hc : w.waitCtx.lookup id = some c) : id < n :=
  h.id_lt id c.key (h.indexed id c hc)

theorem Wf.lookup_nextId (h : Wf w n) : w.waitCtx.lookup n = none := by
  cases hn : w.waitCtx.lookup n with
  | none => rfl
  | some c => exact absurd (h.lt hn) (lt_irrefl n)

theorem Wf.lookup_register (h : Wf w c.id) (id : Nat) :
    (w.register c).waitCtx.lookup id = if id = c.id then some c else w.waitCtx.lookup id := by
  rw [register, Table.lookup_emplace_eq, h.lookup_nextId, getD_none]

theorem mem_keyWaiters_register :
    id ∈ Table.get (w.register c).keyWaiters key ↔
      id ∈ Table.get w.keyWaiters key ∨ id = c.id ∧ key = c.key := by
  rw [Table.get, register, Table.lookup_insert_eq]
  split_ifs with hkey
  · subst hkey
    rw [getD_some, mem_insert_iff]
    tauto
  · simp [Table.get, hkey]

theorem mem_timedWaiters_register {d : Int} :
    id ∈ Table.get (w.register c).timedWaiters d ↔
      id ∈ Table.get w.timedWaiters d ∨ id = c.id ∧ c.timed = true ∧ d = c.timeoutMs := by
  rw [Table.get, register]
  split_ifs with htimed
  · rw [Table.lookup_insert_eq]
    split_ifs with hd
    · subst hd
      rw [getD_some, mem_insert_iff]
      tauto
    · simp [Table.get, hd]
  · simp [Table.get, htimed]

theorem Wf.register (h : Wf w c.id) : Wf (w.register c) (c.id + 1) where
  id_eq := by
    intro id c' hc'
    rw [h.lookup_register] at hc'
    split_ifs at hc' with hid
    · rw [← some.inj hc', hid]
    · exact h.id_eq id c' hc'
  indexed := by
    intro id c' hc'
    rw [h.lookup_register] at hc'
    rw [mem_keyWaiters_register]
    split_ifs at hc' with hid
    · rw [← some.inj hc']
      exact .inr ⟨hid, rfl⟩
    · exact .inl (h.indexed id c' hc')
  id_lt := by
    intro id key hid
    rcases mem_keyWaiters_register.mp hid with hid | ⟨rfl, -⟩
    · exact (h.id_lt id key hid).trans (Nat.lt_succ_self _)
    · exact Nat.lt_succ_self _
  key_eq := by
    intro id key c' hid hc'
    rw [h.lookup_register] at hc'
    rcases mem_keyWaiters_register.mp hid with hid | ⟨rfl, rfl⟩
    · rw [if_neg (h.id_lt id key hid).ne] at hc'
      exact h.key_eq id key c' hid hc'
    · rw [if_pos rfl] at hc'
      rw [← some.inj hc']
  timed_iff := by
    intro id d
    rw [mem_timedWaiters_register, h.timed_iff]
    simp only [h.lookup_register]
    by_cases hid : id = c.id
    · subst hid
      rw [h.lookup_nextId, if_pos rfl]
      constructor
      · rintro (⟨c', hc', -⟩ | ⟨-, htimed, rfl⟩)
        · cases hc'
        · exact ⟨c, rfl, htimed, rfl⟩
      · rintro ⟨c', hc', htimed, rfl⟩
        obtain rfl := some.inj hc'
        exact .inr ⟨rfl, htimed, rfl⟩
    · simp [hid]
  timed_ne := by
    intro d
    rw [Waiters.register]
    split_ifs with htimed
    · rw [Table.lookup_insert_eq]
      split_ifs
      · intro hnil
        have := mem_insert_self (a := c.id) (l := Table.get w.timedWaiters c.timeoutMs)
        rw [some.inj hnil] at this
        exact absurd this (by simp)
      · exact h.timed_ne d
    · exact h.timed_ne d

theorem Wf.mem_keyWaiters_iff (h : Wf w n) (hc : w.waitCtx.lookup id = some c) :
    id ∈ Table.get w.keyWaiters key ↔ c.key = key := by
  constructor
  · exact fun hid => h.key_eq id key c hid hc
  · rintro rfl
    exact h.indexed id c hc

theorem takeKey_eq (w : Waiters) (key : Bytes) :
    w.takeKey key = ((getOutWaitersInLock (Table.get w.keyWaiters key) w).1,
      { (getOutWaitersInLock (Table.get w.keyWaiters key) w).2 with
        keyWaiters := w.keyWaiters.erase key }) := by
  unfold takeKey Table.get
  cases hids : w.keyWaiters.lookup key with
  | none =>
    have herase : w.keyWaiters.erase key = w.keyWaiters := by
      apply AList.ext
      exact kerase_of_notMem_keys (AList.lookup_eq_none.mp hids)
    rw [herase]
    rfl
  | some ids =>
    dsimp only
    rw [keyWaiters_getOut]
    rfl

theorem Wf.lookup_takeKey (h : Wf w n) :
    (w.takeKey key).2.waitCtx.lookup id = some c ↔ w.waitCtx.lookup id = some c ∧ c.key ≠ key := by
  rw [takeKey_eq]
  rw [lookup_getOut]
  constructor
  · intro hc
    split_ifs at hc with hid
    exact ⟨hc, fun hkey => hid ((h.mem_keyWaiters_iff hc).mpr hkey)⟩
  · rintro ⟨hc, hkey⟩
    rw [if_neg fun hid => hkey ((h.mem_keyWaiters_iff hc).mp hid), hc]

theorem Wf.mem_takeKey {ctx : Context} (h : Wf w n) :
    ctx ∈ (w.takeKey key).1 ↔
      ∃ id c, w.waitCtx.lookup id = some c ∧ c.key = key ∧ c.reqCtx = ctx := by
  rw [takeKey_eq, mem_getOut]
  constructor
  · rintro ⟨id, hid, c, hc, rfl⟩
    exact ⟨id, c, hc, h.key_eq id key c hid hc, rfl⟩
  · rintro ⟨id, c, hc, rfl, rfl⟩
    exact ⟨id, h.indexed id c hc, c, hc, rfl⟩

theorem Wf.takeKey (h : Wf w n) (key : Bytes) : Wf (w.takeKey key).2 n where
  id_eq := fun id c hc => h.id_eq id c (h.lookup_takeKey.mp hc).1
  indexed := by
    intro id c hc
    obtain ⟨hc, hkey⟩ := h.lookup_takeKey.mp hc
    rw [takeKey_eq, Table.get, Table.lookup_erase_eq, if_neg hkey]
    exact h.indexed id c hc
  id_lt := by
    intro id k hid
    rw [takeKey_eq, Table.get, Table.lookup_erase_eq] at hid
    split_ifs at hid
    · exact absurd hid (by simp)
    · exact h.id_lt id k hid
  key_eq := by
    intro id k c hid hc
    rw [takeKey_eq, Table.get, Table.lookup_erase_eq] at hid
    split_ifs at hid
    · exact absurd hid (by simp)
    · exact h.key_eq id k c hid (h.lookup_takeKey.mp hc).1
  timed_iff := by
    intro id d
    simp only [h.lookup_takeKey]
    rw [takeKey_eq, mem_timed_getOut _ h.id_eq, h.timed_iff]
    constructor
    · rintro ⟨⟨c, hc, htimed, rfl⟩, hnot⟩
      refine ⟨c, ⟨hc, fun hkey => hnot ⟨?_, c, hc, rfl⟩⟩, htimed, rfl⟩
      exact (h.mem_keyWaiters_iff hc).mpr hkey
    · rintro ⟨c, ⟨hc, hkey⟩, htimed, rfl⟩
      exact ⟨⟨c, hc, htimed, rfl⟩, fun hid => hkey ((h.mem_keyWaiters_iff hc).mp hid.1)⟩
  timed_ne := by
    intro d
    rw [takeKey_eq]
    exact getOut_ne_nil _ h.timed_ne

/-! ## The timer -/

section

variable {w : Waiters} {n id : Nat} {c : StoreWaitContext} {timestamp : Int} {order : List Int}

section

variable (h : Wf w n) (hnodup : order.Nodup)

include h hnodup

theorem Wf.mem_collect_iff :
    id ∈ (collect timestamp order w.timedWaiters).1 ↔
      ∃ c, w.waitCtx.lookup id = some c ∧ c.timed = true ∧
        c.timeoutMs ∈ order.takeWhile (· ≤ timestamp) := by
  simp only [mem_collect hnodup, h.timed_iff]
  constructor
  · rintro ⟨d, hd, c, hc, htimed, rfl⟩
    exact ⟨c, hc, htimed, hd⟩
  · rintro ⟨c, hc, htimed, hd⟩
    exact ⟨c.timeoutMs, hd, c, hc, htimed, rfl⟩

/-- The pass takes out the waiters whose deadline is reached before one that is
not due. -/
theorem Wf.lookup_timerPass :
    (w.timerPass timestamp order).2.waitCtx.lookup id = some c ↔
      w.waitCtx.lookup id = some c ∧
        ¬ (c.timed = true ∧ c.timeoutMs ∈ order.takeWhile (· ≤ timestamp)) := by
  rw [timerPass, lookup_getOut]
  constructor
  · intro hc
    split_ifs at hc with hid
    refine ⟨hc, fun hdue => hid ((h.mem_collect_iff hnodup).mpr ⟨c, hc, hdue⟩)⟩
  · rintro ⟨hc, hdue⟩
    rw [if_neg, hc]
    intro hid
    obtain ⟨c', hc', hdue'⟩ := (h.mem_collect_iff hnodup).mp hid
    obtain rfl := some.inj (hc.symm.trans hc')
    exact hdue hdue'

theorem Wf.mem_timerPass {ctx : Context} :
    ctx ∈ (w.timerPass timestamp order).1 ↔
      ∃ id c, w.waitCtx.lookup id = some c ∧ c.timed = true ∧
        c.timeoutMs ∈ order.takeWhile (· ≤ timestamp) ∧ c.reqCtx = ctx := by
  rw [timerPass, mem_getOut]
  constructor
  · rintro ⟨id, hid, c, hc, rfl⟩
    obtain ⟨c', hc', htimed, hdue⟩ := (h.mem_collect_iff hnodup).mp hid
    obtain rfl := some.inj (hc.symm.trans hc')
    exact ⟨id, c, hc, htimed, hdue, rfl⟩
  · rintro ⟨id, c, hc, htimed, hdue, rfl⟩
    exact ⟨id, (h.mem_collect_iff hnodup).mpr ⟨c, hc, htimed, hdue⟩, c, hc, rfl⟩

theorem Wf.timerPass (timestamp : Int) :
    Wf (w.timerPass timestamp order).2 n where
  id_eq := fun id c hc => h.id_eq id c ((h.lookup_timerPass hnodup).mp hc).1
  indexed := by
    intro id c hc
    rw [Waiters.timerPass, keyWaiters_getOut]
    exact h.indexed id c ((h.lookup_timerPass hnodup).mp hc).1
  id_lt := by
    intro id key hid
    rw [Waiters.timerPass, keyWaiters_getOut] at hid
    exact h.id_lt id key hid
  key_eq := by
    intro id key c hid hc
    rw [Waiters.timerPass, keyWaiters_getOut] at hid
    exact h.key_eq id key c hid ((h.lookup_timerPass hnodup).mp hc).1
  timed_iff := by
    intro id d
    simp only [h.lookup_timerPass hnodup]
    rw [Waiters.timerPass, mem_timed_getOut _ (by exact h.id_eq), Table.get, lookup_collect]
    constructor
    · rintro ⟨hid, hnot⟩
      split_ifs at hid with hd
      · exact absurd hid (by simp)
      · obtain ⟨c, hc, htimed, rfl⟩ := (h.timed_iff id d).mp hid
        exact ⟨c, ⟨hc, fun hdue => hd hdue.2⟩, htimed, rfl⟩
    · rintro ⟨c, ⟨hc, hnot⟩, htimed, rfl⟩
      have hd : c.timeoutMs ∉ order.takeWhile (· ≤ timestamp) := fun hd => hnot ⟨htimed, hd⟩
      rw [if_neg hd]
      refine ⟨(h.timed_iff id _).mpr ⟨c, hc, htimed, rfl⟩, ?_⟩
      rintro ⟨hid, -⟩
      obtain ⟨c', hc', -, hd'⟩ := (h.mem_collect_iff hnodup).mp hid
      obtain rfl := some.inj (hc.symm.trans hc')
      exact hd hd'
  timed_ne := by
    intro d
    apply getOut_ne_nil
    intro e
    rw [lookup_collect]
    split_ifs
    · simp
    · exact h.timed_ne e

end

/-- A deadline in the container is the deadline of a registered waiter. -/
theorem Wf.exists_of_mem_keys (h : Wf w n) {d : Int} (hd : d ∈ w.timedWaiters.keys) :
    ∃ id c, w.waitCtx.lookup id = some c ∧ c.timed = true ∧ c.timeoutMs = d := by
  obtain ⟨ids, hids⟩ := isSome_iff_exists.mp (AList.lookup_isSome.mpr hd)
  cases ids with
  | nil => exact absurd hids (h.timed_ne d)
  | cons id ids =>
    have hmem : id ∈ Table.get w.timedWaiters d := by simp [Table.get, hids]
    exact ⟨id, (h.timed_iff id d).mp hmem⟩

/-- The pass leaves no overdue waiter exactly if the container lists every due
deadline before every one that is not due. -/
theorem Wf.timerPass_no_overdue_iff (h : Wf w n) (horder : order.Perm w.timedWaiters.keys) :
    (∀ id c, (w.timerPass timestamp order).2.waitCtx.lookup id = some c → c.timed = true →
      timestamp < c.timeoutMs) ↔
      order.Pairwise fun d e => timestamp < d → timestamp < e := by
  have hnodup : order.Nodup := horder.nodup_iff.mpr w.timedWaiters.keys_nodup
  rw [← forall_mem_takeWhile_iff hnodup]
  constructor
  · intro hpass d hd hdue
    by_contra hnot
    obtain ⟨id, c, hc, htimed, rfl⟩ := h.exists_of_mem_keys (horder.mem_iff.mp hd)
    have hc' : (w.timerPass timestamp order).2.waitCtx.lookup id = some c :=
      (h.lookup_timerPass hnodup).mpr ⟨hc, fun hd => hnot hd.2⟩
    exact absurd (hpass id c hc' htimed) hdue.not_gt
  · intro hlist id c hc htimed
    obtain ⟨hc, hnot⟩ := (h.lookup_timerPass hnodup).mp hc
    by_contra hdue
    have hmem : c.timeoutMs ∈ w.timedWaiters.keys := by
      have hid := (h.timed_iff id c.timeoutMs).mpr ⟨c, hc, htimed, rfl⟩
      by_contra hkey
      rw [Table.get, AList.lookup_eq_none.mpr hkey] at hid
      exact absurd hid (by simp)
    exact hnot ⟨htimed, hlist _ (horder.mem_iff.mpr hmem) (not_lt.mp hdue)⟩

end

end Waiters

end MemFabric.Smem.Store
