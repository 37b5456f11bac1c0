import MemFabric.Smem.Group.Numbers
import MemFabric.Smem.Store.Cas

/-!
# Numbers are exclusive

Whatever fails and however the calls of the engines are interleaved, a number is in the
hands of one engine at most.
-/

namespace MemFabric.Smem.Group

open Machine Wire

namespace Numbers

section Exclusion

variable {s : Numbers} {i : Input}

theorem mem_goOn {thread engine : Nat} {call : Option Call} {ended o : Output}
    (h : o ∈ (s.goOn thread engine call ended).2) : o = ended := by
  unfold goOn at h
  split at h
  · exact List.mem_singleton.mp h
  · cases h

theorem kept_step {e n : Nat} (h : n ∈ s.allocedSet e)
    (hi : ∀ thread, i ≠ .releaseNumber thread e n) : n ∈ (step s i).1.allocedSet e := by
  cases i with
  | allocNumber thread engine =>
    unfold step
    dsimp only
    split_ifs
    · rwa [goOn_eq]
    · exact h
  | releaseNumber thread engine val =>
    unfold step
    dsimp only
    split_ifs
    · split
      · split_ifs
        · rw [beginRelease, goOn_eq]
          dsimp only
          rw [Function.update_apply]
          split_ifs with he
          · subst he
            refine Finset.mem_erase.mpr ⟨fun hm => hi thread ?_, h⟩
            rw [hm]
            rfl
          · exact h
        · exact h
      · exact h
    · exact h
  | cas thread fails =>
    change n ∈ (s.cas thread fails).1.allocedSet e
    unfold cas
    split
    · exact h
    · split_ifs
      · rwa [goOn_eq]
      · split
        · rwa [goOn_eq]
        · dsimp only
          rw [Function.update_apply]
          split_ifs with he
          · subst he
            exact Finset.mem_insert_of_mem h
          · exact h
    · split_ifs
      · rwa [goOn_eq]
      · split
        · rwa [goOn_eq]
        · exact h

theorem Inv.fresh (h : Inv s) {e n : Nat} (ho : .allocated e n ∈ (Numbers.step s i).2) :
    n < allocNumSize ∧ ∀ o, ¬ s.owns o n := by
  cases i with
  | allocNumber thread engine =>
    unfold Numbers.step at ho
    dsimp only at ho
    split_ifs at ho
    · cases mem_goOn ho
    · cases ho
  | releaseNumber thread engine val =>
    unfold Numbers.step at ho
    dsimp only at ho
    split_ifs at ho
    · split at ho
      · split_ifs at ho
        · cases mem_goOn ho
        · cases List.mem_singleton.mp ho
      · cases List.mem_singleton.mp ho
    · cases ho
  | cas thread fails =>
    change _ ∈ (s.cas thread fails).2 at ho
    unfold Numbers.cas at ho
    split at ho
    · cases ho
    · next engine expect value now num hcall =>
      split_ifs at ho
      · cases mem_goOn ho
      · split at ho
        · cases mem_goOn ho
        · next hmatch =>
          obtain ⟨-, rfl⟩ := Output.allocated.inj (List.mem_singleton.mp ho)
          exact ⟨(h.ok _ _ _ hcall).2.2.1, h.free hcall hmatch⟩
    · split_ifs at ho
      · cases mem_goOn ho
      · split at ho
        · cases mem_goOn ho
        · cases List.mem_singleton.mp ho

theorem releaseNumber_cell (thread engine : Nat) (val : Int) :
    (step s (.releaseNumber thread engine val)).1.cell = s.cell := by
  unfold step
  dsimp only
  split_ifs
  · split
    · split_ifs
      · rw [beginRelease, goOn_eq]
      · rfl
    · rfl
  · rfl

/-- Numbers are exclusive: a number is held by one engine at most, is handed out only if
no engine holds it, and is freed only if no engine holds it any more. -/
structure Exclusive (s : Numbers) : Prop where
  one_engine : ∀ e e' n, n ∈ s.allocedSet e → n ∈ s.allocedSet e' → e = e'
  in_range : ∀ e, ∀ n ∈ s.allocedSet e, n < allocNumSize
  handed_out : ∀ i e n, .allocated e n ∈ (step s i).2 → n < allocNumSize ∧ ∀ e', n ∉ s.allocedSet e'
  kept : ∀ i e, ∀ n ∈ s.allocedSet e, (∀ thread, i ≠ .releaseNumber thread e n) →
    n ∈ (step s i).1.allocedSet e
  not_freed : ∀ i e, ∀ n ∈ s.allocedSet e, (step s i).1.marked n = true

theorem numbers_exclusive (h : Reachable step (fun _ _ => True) {} s) : Exclusive s := by
  have hinv := inv_of_reachable h
  refine ⟨?_, fun e n hn => (hinv.marked (.engine e) n hn).1, ?_, fun i e n => kept_step, ?_⟩
  · intro e e' n hn hn'
    exact Owner.engine.inj (hinv.unique (.engine e) (.engine e') n hn hn')
  · intro i e n ho
    obtain ⟨hlt, hfree⟩ := hinv.fresh ho
    exact ⟨hlt, fun e' => hfree (.engine e')⟩
  · intro i e n hn
    by_cases hi : ∃ thread, i = .releaseNumber thread e n
    · obtain ⟨thread, rfl⟩ := hi
      rw [marked, releaseNumber_cell]
      exact (hinv.marked (.engine e) n hn).2
    · rw [not_exists] at hi
      exact ((hinv.step i).marked (.engine e) n (kept_step hn hi)).2

/-- Two engines allocate at the same time; the second one finds the first one's number. -/
theorem numbers_exclusive_two :
    Exclusive (run step {} [.allocNumber 0 0, .allocNumber 1 1, .cas 0 false, .cas 1 false,
      .cas 1 false]).1 :=
  numbers_exclusive (trace_run (fun _ _ => trivial) _ _).reachable

end Exclusion

/-! ## The store -/

def allocNumKey : Bytes := Store.ascii "AT_NUM"

theorem cas_of_server {env : Store.Env} {link seqNo : Nat} {expect value : Bytes}
    {server : Store.Server} (hb : server.backend.InMemory)
    (hexpect : expect.length ≤ allocNumBufLen) (hvalue : value.length = allocNumBufLen)
    (hcell : ∀ old, server.backend.kvStore.lookup allocNumKey = some old →
      old.length = allocNumBufLen) :
    match mismatch (server.backend.kvStore.lookup allocNumKey) expect with
    | some old => (Store.Client.cas env link seqNo allocNumKey expect value server).2 =
          some (.restore, old) ∧
        (Store.Client.cas env link seqNo allocNumKey expect value server).1.backend.kvStore =
          server.backend.kvStore
    | none => (Store.Client.cas env link seqNo allocNumKey expect value server).2 =
          some (.success, value) ∧
        (Store.Client.cas env link seqNo allocNumKey expect value server).1.backend.kvStore =
          server.backend.kvStore.insert allocNumKey value := by
  have houtcome := (Store.Client.cas_outcome env link seqNo allocNumKey expect value hb).1
  generalize (Store.Client.cas env link seqNo allocNumKey expect value server).2 = out
    at houtcome ⊢
  have hkey : allocNumKey.length = 6 := by decide
  have hmax : allocNumBufLen = 128 := by decide
  have hbody : Store.Client.maxRecvBodyLen = 64 * 1024 * 1024 := rfl
  cases houtcome with
  | applied hsend hmatch hkv =>
    have hnone : mismatch (server.backend.kvStore.lookup allocNumKey) expect = none := by
      cases hold : server.backend.kvStore.lookup allocNumKey with
      | none => rfl
      | some old => simp [mismatch, Option.filter_some, hmatch old hold]
    rw [hnone]
    exact ⟨rfl, hkv⟩
  | mismatch hsend hold hne hlen hkv =>
    rw [hold, Numbers.mismatch, Option.filter_some, if_pos (by simpa using Ne.symm hne)]
    exact ⟨rfl, hkv⟩
  | lost hold hne hlen =>
    have := hcell _ hold
    omega
  | unsent hsend =>
    refine absurd ⟨⟨by decide, by decide⟩, ?_⟩ hsend
    omega

theorem cas_of_server_first :
    (Store.Client.cas ⟨0, fun _ => true⟩ 0 0 allocNumKey [] zeros { worldSize := 1 }).2 =
      some (.success, zeros) :=
  (@cas_of_server _ _ _ [] zeros { worldSize := 1 } (fun _ => rfl) (by decide) length_zeros
    fun _ h => by cases h).1

end Numbers

end MemFabric.Smem.Group
