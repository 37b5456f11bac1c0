import MemFabric.Smem.Store.Links
import MemFabric.Smem.Store.Replies

/-!
# What is left of blocked GETs

A GET that is woken leaves all three indices.  One that times out leaves the index by
key as it is, and one whose link breaks leaves all three, unless the break clears the
server.  Without these two the indices hold the blocked GETs of connected links and
nothing else.
-/

namespace MemFabric.Smem.Store

open Machine Wire AList List

namespace Waiters

structure Exact (w : Waiters) : Prop where
  key : ∀ key ids, w.keyWaiters.lookup key = some ids → ids ≠ [] ∧
    ∀ id ∈ ids, ∃ c, w.waitCtx.lookup id = some c ∧ c.key = key
  timed : ∀ d ids, w.timedWaiters.lookup d = some ids → ids ≠ [] ∧
    ∀ id ∈ ids, ∃ c, w.waitCtx.lookup id = some c ∧ c.timeoutMs = d

variable {w : Waiters} {n : Nat}

theorem Wf.timed_exact (h : Wf w n) {d : Int} {ids : List Nat}
    (hids : w.timedWaiters.lookup d = some ids) :
    ids ≠ [] ∧ ∀ id ∈ ids, ∃ c, w.waitCtx.lookup id = some c ∧ c.timeoutMs = d := by
  refine ⟨fun hnil => h.timed_ne d (hnil ▸ hids), fun id hid => ?_⟩
  have hmem : id ∈ Table.get w.timedWaiters d := by
    rw [Table.get, hids]
    exact hid
  obtain ⟨c, hc, -, hd⟩ := (h.timed_iff id d).mp hmem
  exact ⟨c, hc, hd⟩

theorem exact_empty : Exact {} := ⟨by simp, by simp⟩

theorem Exact.register {c : StoreWaitContext} (h : Exact w) (hwf : Wf w c.id) :
    Exact (w.register c) := by
  have hkeep : ∀ id c', w.waitCtx.lookup id = some c' →
      (w.register c).waitCtx.lookup id = some c' := by
    intro id c' hc'
    rw [hwf.lookup_register, if_neg]
    · exact hc'
    · rintro rfl
      rw [hwf.lookup_nextId] at hc'
      cases hc'
  refine ⟨fun key ids hids => ?_, fun d ids hids => hwf.register.timed_exact hids⟩
  have hget : Table.get (w.register c).keyWaiters key = ids := by rw [Table.get, hids]; rfl
  rw [Waiters.register, Table.lookup_insert_eq] at hids
  split_ifs at hids with hkey
  · refine ⟨?_, fun id hid => ?_⟩
    · rw [← Option.some.inj hids]
      exact ne_nil_of_mem (mem_insert_self ..)
    · rw [← hget, mem_keyWaiters_register] at hid
      rcases hid with hid | ⟨rfl, rfl⟩
      · rw [Table.get] at hid
        cases hold : w.keyWaiters.lookup key with
        | none =>
          rw [hold] at hid
          exact absurd hid not_mem_nil
        | some old =>
          rw [hold] at hid
          obtain ⟨c', hc', hkey'⟩ := (h.key key old hold).2 id hid
          exact ⟨c', hkeep id c' hc', hkey'⟩
      · exact ⟨c, by rw [hwf.lookup_register, if_pos rfl], rfl⟩
  · obtain ⟨hne, hall⟩ := h.key key ids hids
    refine ⟨hne, fun id hid => ?_⟩
    obtain ⟨c', hc', hkey'⟩ := hall id hid
    exact ⟨c', hkeep id c' hc', hkey'⟩

theorem Exact.takeKey (h : Exact w) (hwf : Wf w n) (key : Bytes) : Exact (w.takeKey key).2 := by
  refine ⟨fun k ids hids => ?_, fun d ids hids => (hwf.takeKey key).timed_exact hids⟩
  rw [takeKey_eq, Table.lookup_erase_eq] at hids
  split_ifs at hids with hk
  obtain ⟨hne, hall⟩ := h.key k ids hids
  refine ⟨hne, fun id hid => ?_⟩
  obtain ⟨c, hc, hkey⟩ := hall id hid
  exact ⟨c, hwf.lookup_takeKey.mpr ⟨hc, by rwa [hkey]⟩, hkey⟩

theorem Exact.eq_empty (h : Exact w) (hnone : ∀ id, w.waitCtx.lookup id = none) : w = {} := by
  have hids : ∀ ids : List Nat, (∀ id ∈ ids, ∃ c, w.waitCtx.lookup id = some c) → ids = [] := by
    intro ids hall
    refine eq_nil_iff_forall_not_mem.mpr fun id hid => ?_
    obtain ⟨c, hc⟩ := hall id hid
    rw [hnone] at hc
    cases hc
  obtain ⟨waitCtx, keyWaiters, timedWaiters⟩ := w
  have hkey : keyWaiters = ∅ := by
    refine Table.eq_empty fun key => ?_
    cases hlookup : keyWaiters.lookup key with
    | none => rfl
    | some ids =>
      obtain ⟨hne, hall⟩ := h.key key ids hlookup
      exact absurd (hids ids fun id hid => ⟨_, (hall id hid).choose_spec.1⟩) hne
  have htimed : timedWaiters = ∅ := by
    refine Table.eq_empty fun d => ?_
    cases hlookup : timedWaiters.lookup d with
    | none => rfl
    | some ids =>
      obtain ⟨hne, hall⟩ := h.timed d ids hlookup
      exact absurd (hids ids fun id hid => ⟨_, (hall id hid).choose_spec.1⟩) hne
  have hctx : waitCtx = ∅ := Table.eq_empty hnone
  rw [hkey, htimed, hctx]

end Waiters

namespace Server

/-- What a received request does, with the link it came on. -/
theorem receive_effect (env : Env) (link seqNo : Nat) (body : Bytes) (s : Server) :
    ∃ ctx, ctx.link = link ∧ Effect env ctx { s with received := s.received + 1 }
      (receiveMessageHandler env link seqNo body s).1
      (receiveMessageHandler env link seqNo body s).2 := by
  unfold receiveMessageHandler
  cases unpack body with
  | error e => exact ⟨⟨link, seqNo, s.received, none⟩, rfl, .reply (.single fun _ => by decide)⟩
  | ok r => exact ⟨⟨link, seqNo, s.received, some r.2⟩, rfl, effect_handler rfl⟩

/-! ## Broken links -/

/-- The break of the link takes the last rank away, or finds none: the entry of the link can be
read and deleted and no other rank is alive, or it cannot be read and none is. -/
def Clears (link : Nat) (s : Server) : Prop :=
  match s.backend.fault 0, s.backend.kvStore.lookup (rankKey link) with
  | none, some value =>
    s.backend.fault 1 = none ∧ ∀ rank ∈ s.aliveRankSet, rank = leValue (value.take 4)
  | _, _ => s.aliveRankSet = []

/-- The rank of the link is taken away; then the link is dropped, unless the backend has
failed to delete the entry. -/
theorem linkBrokenHandler_cases (link : Nat) (s : Server) :
    ∃ b alive queue,
      (∀ key, key ≠ rankKey link → b.kvStore.lookup key = s.backend.kvStore.lookup key) ∧
      (Clears link s ∧ linkBrokenHandler link s =
          { Server.unwatch link (cleared { s with backend := b, aliveRankSet := alive }) with
            rankStateTaskQueue := queue } ∨
        ¬ Clears link s ∧
          (linkBrokenHandler link s = { s with backend := b, aliveRankSet := alive } ∨
            linkBrokenHandler link s =
              { Server.unwatch link { s with backend := b, aliveRankSet := alive } with
                rankStateTaskQueue := queue })) := by
  unfold linkBrokenHandler
  dsimp only
  rw [show autoRankingStr ++ decimal link = rankKey link from rfl]
  by_cases hret : (s.backend.get (rankKey link) []).ret = .success
  · obtain ⟨h0, hvalue⟩ := Backend.get_ret_eq_success_iff.mp hret
    rw [if_pos hret, Backend.get_backend]
    generalize (s.backend.get (rankKey link) []).value = value at hvalue
    have hmem : rankKey link ∈ s.backend.kvStore := AList.lookup_isSome.mp (by rw [hvalue]; rfl)
    have hnil : (s.aliveRankSet.filter (· ≠ leValue (value.take 4))).isEmpty = true ↔
        ∀ rank ∈ s.aliveRankSet, rank = leValue (value.take 4) := by simp
    refine ⟨(s.backend.called.delete (rankKey link)).backend,
      s.aliveRankSet.filter (· ≠ leValue (value.take 4)), ?_⟩
    have hkv : ∀ key, key ≠ rankKey link →
        (s.backend.called.delete (rankKey link)).backend.kvStore.lookup key =
          s.backend.kvStore.lookup key := fun key hkey => Backend.lookup_delete_ne hkey
    cases h1 : s.backend.fault 1 with
    | some failure =>
      have hfails : (s.backend.called.delete (rankKey link)).ret ≠ .success := by
        rw [Backend.delete, show s.backend.called.fault 0 = some failure from h1]
        exact failure.2
      rw [if_pos hfails]
      refine ⟨[], hkv, .inr ⟨?_, .inl rfl⟩⟩
      simp [Clears, h0, hvalue, h1]
    | none =>
      have hdeleted : (s.backend.called.delete (rankKey link)).ret = .success := by
        rw [Backend.delete, show s.backend.called.fault 0 = none from h1]
        exact if_pos hmem
      have hclears : Clears link s ↔ ∀ rank ∈ s.aliveRankSet, rank = leValue (value.take 4) := by
        simp [Clears, h0, hvalue, h1]
      rw [if_neg (not_not.mpr hdeleted), hclears, ← hnil]
      by_cases hlast : (s.aliveRankSet.filter (· ≠ leValue (value.take 4))).isEmpty = true
      · rw [if_pos hlast]
        split <;> exact ⟨_, hkv, .inl ⟨hlast, rfl⟩⟩
      · rw [if_neg hlast]
        split <;> exact ⟨_, hkv, .inr ⟨hlast, .inr rfl⟩⟩
  · -- without an entry the ranks stay as they are
    have hclears : Clears link s ↔ s.aliveRankSet = [] := by
      rw [Clears]
      split
      next h0 hvalue => exact absurd (by rw [Backend.get_of_found h0 hvalue]) hret
      next => rfl
    rw [if_neg hret, Backend.get_backend, hclears]
    refine ⟨s.backend.called, s.aliveRankSet, ?_⟩
    by_cases hnil : s.aliveRankSet = []
    · rw [if_pos (by simpa using hnil)]
      exact ⟨_, fun _ _ => rfl, .inl ⟨hnil, rfl⟩⟩
    · rw [if_neg (by simpa using hnil)]
      exact ⟨_, fun _ _ => rfl, .inr ⟨hnil, .inr rfl⟩⟩

theorem waiters_linkBrokenHandler (link : Nat) (s : Server) :
    Clears link s ∧ (linkBrokenHandler link s).waiters = {} ∨
      ¬ Clears link s ∧ (linkBrokenHandler link s).waiters = s.waiters := by
  obtain ⟨b, alive, queue, -, h⟩ := linkBrokenHandler_cases link s
  refine h.imp (fun h => ⟨h.1, by rw [h.2]; rfl⟩) ?_
  rintro ⟨hnot, heq | heq⟩
  · exact ⟨hnot, by rw [heq]⟩
  · exact ⟨hnot, by rw [heq]; rfl⟩

end Server

open Server

namespace Links

variable {t : Links}

/-- The indices are exact, and every blocked GET is one of a connected link. -/
structure NoLeak (t : Links) : Prop where
  exact : t.server.waiters.Exact
  linked : ∀ id c, t.server.waiters.waitCtx.lookup id = some c → c.reqCtx.link ∈ t.held

/-- When the timer passes, no blocked GET has a deadline that it comes to; and a link with a
blocked GET breaks only when no other rank is left. -/
def LosesNoGet (t : Links) : Event → Prop
  | .timer _ timestamp order => order.Perm t.server.waiters.timedWaiters.keys →
      ∀ id c, t.server.waiters.waitCtx.lookup id = some c → c.timed = true →
        c.timeoutMs ∉ order.takeWhile (· ≤ timestamp)
  | .broken link => ∀ id c, t.server.waiters.waitCtx.lookup id = some c → c.reqCtx.link = link →
      Clears link t.server
  | _ => True

theorem mem_held_step {e : Event} {link : Nat} (h : link ∈ t.held) (hne : e ≠ .broken link) :
    link ∈ (step t e).1.held := by
  cases e with
  | request env l seqNo body =>
    simp only [step, heldAfter]
    split
    · exact h
    · split_ifs
      · unfold tell
        split
        · exact (mem_insert _).mpr (.inr h)
        · exact h
      · exact h
  | connected req l =>
    simp only [step, heldAfter]
    split_ifs
    · exact (mem_insert _).mpr (.inr h)
    · exact (mem_insert _).mpr (.inr h)
    · exact h
  | broken l => exact mem_erase.mpr ⟨fun heq => hne (by rw [heq]), h⟩
  | timer env timestamp order => exact h
  | rankState env => exact h

theorem NoLeak.of_silent {s' : Server} {held : Table Nat (Option Nat)} (h : NoLeak t)
    (hw : s'.waiters = t.server.waiters ∨ s'.waiters = {})
    (hheld : s'.waiters = {} ∨ ∀ id c, t.server.waiters.waitCtx.lookup id = some c →
      c.reqCtx.link ∈ t.held → c.reqCtx.link ∈ held) : NoLeak ⟨s', held⟩ := by
  have hempty : s'.waiters = {} → NoLeak ⟨s', held⟩ := by
    intro hw
    refine ⟨hw ▸ Waiters.exact_empty, fun id c hc => ?_⟩
    rw [hw] at hc
    cases hc
  rcases hw with hw | hw
  · rcases hheld with hnil | hheld
    · exact hempty hnil
    · refine ⟨hw ▸ h.exact, fun id c hc => ?_⟩
      rw [hw] at hc
      exact hheld id c hc (h.linked id c hc)
  · exact hempty hw

theorem NoLeak.request (h : NoLeak t) (hinv : Inv t.server) {env : Env} {link seqNo : Nat}
    {body : Bytes} (hlink : link ∈ t.held) : NoLeak (step t (.request env link seqNo body)).1 := by
  have hheld : ∀ l ∈ t.held, l ∈ (step t (.request env link seqNo body)).1.held := fun l hl =>
    mem_held_step hl (by simp)
  obtain ⟨ctx, hctx, heffect⟩ := receive_effect env link seqNo body t.server
  have hquiet : ∀ s1, Quiet s1 (receiveMessageHandler env link seqNo body t.server).1 →
      s1.waiters = t.server.waiters → NoLeak (step t (.request env link seqNo body)).1 := by
    intro s1 hs hw
    exact h.of_silent (.inl (hs.waiters.trans hw)) (.inr fun _ c _ hc => hheld _ hc)
  cases heffect with
  | quiet hs => exact hquiet _ hs rfl
  | wake key sent r hs =>
    have hw : (step t (.request env link seqNo body)).1.server.waiters =
        (t.server.waiters.takeKey key).2 := hs.waiters
    refine ⟨hw ▸ h.exact.takeKey hinv.wf key, fun id c hc => ?_⟩
    rw [hw] at hc
    exact hheld _ (h.linked id c (hinv.wf.lookup_takeKey.mp hc).1)
  | wait c hs hid hreq =>
    have hwf : t.server.waiters.Wf c.id := by
      rw [hid]
      exact hinv.wf
    have hw : (step t (.request env link seqNo body)).1.server.waiters =
        t.server.waiters.register c := hs.waiters
    refine ⟨hw ▸ h.exact.register hwf, fun id c' hc' => ?_⟩
    rw [hw, hwf.lookup_register] at hc'
    split_ifs at hc'
    · obtain rfl := Option.some.inj hc'
      rw [hreq, hctx]
      exact hheld link hlink
    · exact hheld _ (h.linked id c' hc')
  | watch key hask hs => exact hquiet _ hs rfl
  | watchRank hask hs => exact hquiet _ hs rfl

/-- A timer pass leaks exactly if it comes to a deadline of a blocked GET. -/
theorem NoLeak.timer_iff (h : NoLeak t) (hinv : Inv t.server) {env : Env} {timestamp : Int}
    {order : List Int} (horder : order.Perm t.server.waiters.timedWaiters.keys) :
    NoLeak (step t (.timer env timestamp order)).1 ↔
      ∀ id c, t.server.waiters.waitCtx.lookup id = some c → c.timed = true →
        c.timeoutMs ∉ order.takeWhile (· ≤ timestamp) := by
  have hnodup : order.Nodup := horder.nodup_iff.mpr (keys_nodup _)
  have hw : (step t (.timer env timestamp order)).1.server.waiters =
      (t.server.waiters.timerPass timestamp order).2 := by
    rw [server_step, Server.step, if_pos horder]
    rfl
  have hkeys : (t.server.waiters.timerPass timestamp order).2.keyWaiters =
      t.server.waiters.keyWaiters := by
    rw [Waiters.timerPass, Waiters.keyWaiters_getOut]
  constructor
  · intro hleft id c hc htimed hdue
    have hid := hinv.wf.indexed id c hc
    rw [Table.get] at hid
    cases hids : t.server.waiters.keyWaiters.lookup c.key with
    | none =>
      rw [hids] at hid
      exact absurd hid not_mem_nil
    | some ids =>
      rw [hids] at hid
      -- the id is still listed under its key, but its waiter is gone
      obtain ⟨c', hc', -⟩ := (hleft.exact.key c.key ids (by rw [hw, hkeys, hids])).2 id hid
      rw [hw, hinv.wf.lookup_timerPass hnodup] at hc'
      obtain rfl := Option.some.inj (hc.symm.trans hc'.1)
      exact hc'.2 ⟨htimed, hdue⟩
  · intro hundue
    have hsame : ∀ id c, t.server.waiters.waitCtx.lookup id = some c →
        (t.server.waiters.timerPass timestamp order).2.waitCtx.lookup id = some c := fun id c hc =>
      (hinv.wf.lookup_timerPass hnodup).mpr ⟨hc, fun hdue => hundue id c hc hdue.1 hdue.2⟩
    refine ⟨⟨fun key ids hids => ?_, fun d ids hids => ?_⟩, fun id c hc => ?_⟩
    · rw [hw, hkeys] at hids
      obtain ⟨hne, hall⟩ := h.exact.key key ids hids
      refine ⟨hne, fun id hid => ?_⟩
      obtain ⟨c, hc, hkey⟩ := hall id hid
      exact ⟨c, by rw [hw]; exact hsame id c hc, hkey⟩
    · rw [hw] at hids ⊢
      exact (hinv.wf.timerPass hnodup timestamp).timed_exact hids
    · rw [hw, hinv.wf.lookup_timerPass hnodup] at hc
      exact h.linked id c hc.1

/-- The break of a link leaks exactly if it leaves a blocked GET of the link. -/
theorem NoLeak.broken_iff (h : NoLeak t) {link : Nat} :
    NoLeak (step t (.broken link)).1 ↔ LosesNoGet t (.broken link) := by
  rcases waiters_linkBrokenHandler link t.server with ⟨hclears, hw⟩ | ⟨hnot, hw⟩
  · exact iff_of_true (h.of_silent (.inr hw) (.inl hw)) fun _ _ _ _ => hclears
  · constructor
    · intro hleft id c hc hlink
      have hmem := hleft.linked id c (hw ▸ hc)
      rw [hlink] at hmem
      exact absurd rfl (mem_erase.mp hmem).1
    · intro hloses
      exact h.of_silent (.inl hw) (.inr fun id c hc hmem =>
        mem_erase.mpr ⟨fun hlink => hnot (hloses id c hc hlink), hmem⟩)

/-- A step leaks exactly if it loses a GET. -/
theorem NoLeak.step_iff (h : NoLeak t) (hinv : Inv t.server) {e : Event} (he : t.OnLinks e) :
    NoLeak (step t e).1 ↔ LosesNoGet t e := by
  cases e with
  | request env link seqNo body => exact iff_of_true (h.request hinv he) trivial
  | connected req link =>
    refine iff_of_true (h.of_silent silent_linkConnectedHandler.waiters (.inr ?_)) trivial
    exact fun _ c _ hc => mem_held_step hc (by simp)
  | broken link => exact h.broken_iff
  | timer env timestamp order =>
    by_cases horder : order.Perm t.server.waiters.timedWaiters.keys
    · exact (h.timer_iff hinv horder).trans (imp_iff_right horder).symm
    · refine iff_of_true ?_ fun hperm => absurd hperm horder
      have hserver : (Server.step t.server (.timer env timestamp order)).1 = t.server := by
        rw [Server.step, if_neg horder]
      refine h.of_silent (.inl ?_) (.inr fun _ _ _ hc => hc)
      rw [hserver]
  | rankState env =>
    exact iff_of_true (h.of_silent silent_rankStateTask.waiters (.inr fun _ _ _ hc => hc)) trivial

theorem trace_server {allowed : Links → Event → Prop} {start : Links} {log : List Reply}
    (h : Trace step allowed start log t) :
    Trace Server.step (fun _ _ => True) start.server log t.server := by
  induction h with
  | nil => exact .nil
  | snoc e _ _ ih => exact .snoc e ih trivial

/-- No GET that is blocked has been answered or has lost its link; when there is none, all
three indices are empty. -/
structure WaitersTidy (log : List Reply) (t : Links) : Prop where
  key : ∀ key ids, t.server.waiters.keyWaiters.lookup key = some ids → ids ≠ [] ∧
    ∀ id ∈ ids, ∃ c, t.server.waiters.waitCtx.lookup id = some c ∧ c.key = key
  timed : ∀ d ids, t.server.waiters.timedWaiters.lookup d = some ids → ids ≠ [] ∧
    ∀ id ∈ ids, ∃ c, t.server.waiters.waitCtx.lookup id = some c ∧ c.timeoutMs = d
  linked : ∀ id c, t.server.waiters.waitCtx.lookup id = some c → c.reqCtx.link ∈ t.held
  empty : (∀ id c, t.server.waiters.waitCtx.lookup id = some c →
      c.reqCtx.serial ∈ getSerials log ∨ c.reqCtx.link ∉ t.held) →
    t.server.waiters = {}

/-- In a run in which no GET times out and no link breaks with a blocked GET while another rank
is alive, nothing is left of a GET that is over. -/
theorem waiters_tidy {worldSize : Nat} {backend : Backend} {log : List Reply}
    (h : Trace step (fun t e => t.OnLinks e ∧ t.LosesNoGet e) (start worldSize backend) log t) :
    WaitersTidy log t := by
  have hlog := logInv_of_trace (trace_server h)
  have hleak : NoLeak t := by
    have hboth : Inv t.server ∧ NoLeak t := by
      refine Reachable.invariant (P := fun t => Inv t.server ∧ NoLeak t) ⟨log, h⟩ ?_ ?_
      · exact ⟨inv_start _ _, Waiters.exact_empty, fun id c hc => by cases hc⟩
      · rintro t e ⟨hinv, hleak⟩ ⟨hon, hloses⟩
        exact ⟨hinv.step e, (hleak.step_iff hinv hon).mpr hloses⟩
    exact hboth.2
  refine ⟨hleak.exact.key, hleak.exact.timed, hleak.linked, fun hover => ?_⟩
  refine hleak.exact.eq_empty fun id => ?_
  cases hc : t.server.waiters.waitCtx.lookup id with
  | none => rfl
  | some c =>
    rcases hover id c hc with hanswered | hgone
    · exact absurd hanswered (hlog.waiting id c hc)
    · exact absurd (hleak.linked id c hc) hgone

/-! ### A GET that times out -/

def oneLink : Links := (step (start 1 {}) (.connected ⟨1, 0, false, true⟩ 7)).1

def oneWaiting : Links := (step oneLink (.request openEnv 7 0 (pack (getWithin 10)))).1

theorem mem_oneLink : 7 ∈ oneLink.held := by decide

theorem trace_oneWaiting (allowed : Links → Event → Prop)
    (hconnect : allowed (start 1 {}) (.connected ⟨1, 0, false, true⟩ 7))
    (hget : allowed oneLink (.request openEnv 7 0 (pack (getWithin 10)))) :
    ∃ log, Trace step allowed (start 1 {}) log oneWaiting :=
  ⟨_, .snoc _ (.snoc _ .nil hconnect) hget⟩

/-- The timer passes before the deadline of the GET, and then the last link breaks. -/
theorem waiters_tidy_oneWaiting :
    ∃ log, WaitersTidy log (step (step oneWaiting (.timer openEnv 5 [10])).1 (.broken 7)).1 ∧
      oneWaiting.server.waiters.keyWaiters.keys = [[107]] := by
  obtain ⟨log, htrace⟩ := trace_oneWaiting (fun t e => t.OnLinks e ∧ t.LosesNoGet e)
    ⟨notMem_empty 7, trivial⟩ ⟨mem_oneLink, trivial⟩
  have htimer : oneWaiting.LosesNoGet (.timer openEnv 5 [10]) := fun _ _ _ _ _ => not_mem_nil
  have hbroken : (step oneWaiting (.timer openEnv 5 [10])).1.LosesNoGet (.broken 7) :=
    fun _ _ _ _ => ⟨rfl, by decide⟩
  refine ⟨_, waiters_tidy (.snoc _ (.snoc _ htrace ⟨trivial, htimer⟩) ⟨trivial, hbroken⟩), ?_⟩
  decide

/-- The GET is answered with a timeout, and its id stays in the index by key. -/
theorem timeout_leaks : ∃ log t, Trace step OnLinks (start 1 {}) log t ∧ ¬ WaitersTidy log t := by
  obtain ⟨log, htrace⟩ := trace_oneWaiting OnLinks (notMem_empty 7) mem_oneLink
  have htimer : oneWaiting.OnLinks (.timer openEnv 20 [10]) := trivial
  refine ⟨_, _, .snoc (.timer openEnv 20 [10]) htrace htimer, fun htidy => ?_⟩
  have hkey := htidy.key [107] [1]
  obtain ⟨c, hc, -⟩ := (hkey (by decide)).2 1 (by decide)
  cases hc

end Links

end MemFabric.Smem.Store
