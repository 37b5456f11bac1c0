import MemFabric.Smem.Store.Faults
import Mathlib.Data.List.GetD

/-!
# Writing into a value

A WRITE carries its offset in the first four bytes of the value, and the rest of the value is
laid over what the key has.
-/

namespace MemFabric.Smem.Store.Server

open Wire List

theorem length_overwrite (old : Bytes) (offset : Nat) (data : Bytes) :
    (overwrite old offset data).length = max old.length (offset + data.length) := by
  simp only [overwrite, length_append, length_take, length_drop, length_replicate]
  omega

theorem getD_append_replicate (l : Bytes) (n i : Nat) :
    (l ++ replicate n 0).getD i 0 = l.getD i 0 := by
  rcases lt_or_ge i l.length with hi | hi
  · rw [getD_append _ _ _ _ hi]
  · rw [getD_append_right _ _ _ _ hi, getD_eq_default l 0 hi]
    simp

theorem getD_overwrite (old : Bytes) (offset : Nat) (data : Bytes) (i : Nat) :
    (overwrite old offset data).getD i 0 =
      if offset ≤ i ∧ i < offset + data.length then data.getD (i - offset) 0 else old.getD i 0 := by
  rw [← getD_append_replicate old (offset + data.length - old.length) i, overwrite]
  generalize hvalue : old ++ replicate (offset + data.length - old.length) 0 = value
  have hlen : offset + data.length ≤ value.length := by
    rw [← hvalue, length_append, length_replicate]
    omega
  have htake : (value.take offset).length = offset := length_take_of_le (by omega)
  rw [append_assoc]
  rcases lt_or_ge i offset with hi | hi
  · rw [if_neg (by omega), getD_append _ _ _ _ (by omega)]
    simp [getElem?_take_of_lt hi]
  · rw [getD_append_right _ _ _ _ (by omega), htake]
    split_ifs with hdata
    · rw [getD_append _ _ _ _ (by omega)]
    · rw [getD_append_right _ _ _ _ (by omega)]
      simp only [getD_eq_getElem?_getD, getElem?_drop]
      congr 2
      omega

/-- `new` is `old` with `data` laid over it: it is as long as both need, and zero where neither
has a byte. -/
def Overlaid (old : Bytes) (offset : Nat) (data new : Bytes) : Prop :=
  new.length = max old.length (offset + data.length) ∧
    ∀ i, new.getD i 0 =
      if offset ≤ i ∧ i < offset + data.length then data.getD (i - offset) 0 else old.getD i 0

theorem overlaid_overwrite (old : Bytes) (offset : Nat) (data : Bytes) :
    Overlaid old offset data (overwrite old offset data) :=
  ⟨length_overwrite _ _ _, getD_overwrite _ _ _⟩

/-- The old value has nothing outside of the range that is written. -/
def Covered (old : Bytes) (offset : Nat) (data : Bytes) : Prop :=
  old.length ≤ offset + data.length ∧
    ∀ i, ¬ (offset ≤ i ∧ i < offset + data.length) → old.getD i 0 = 0

/-- Data that is laid over nothing is laid over the old value if that is covered, and then only. -/
theorem overlaid_nil_iff (old : Bytes) (offset : Nat) (data : Bytes) :
    Overlaid old offset data (overwrite [] offset data) ↔ Covered old offset data := by
  unfold Overlaid Covered
  rw [length_overwrite, length_nil, Nat.zero_max, eq_comm, max_eq_right_iff]
  refine and_congr_right fun _ => forall_congr' fun i => ?_
  rw [getD_overwrite, getD_nil]
  split_ifs with hi
  · exact iff_of_true rfl fun hout => absurd hi hout
  · rw [eq_comm, imp_iff_right hi]

/-- What a success answer leaves: the first `Get` decides what is laid over. -/
theorem writeAt_success {ctx : Context} {s : Server} {key data : Bytes} {offset : Nat}
    (h : (writeAt ctx key offset data s).2 = [⟨ctx, .success, .text "success"⟩]) :
    (writeAt ctx key offset data s).1.backend.kvStore.lookup key =
      some (overwrite (if s.backend.fault 0 = none then (s.backend.kvStore.lookup key).getD []
        else []) offset data) := by
  have hput : ∀ {b : Backend} {value : Bytes}, (b.put key value).ret = .success →
      (b.put key value).backend.kvStore.lookup key = some value := by
    intro b value hret
    cases hf : b.fault 0 with
    | none => rw [Backend.put_of_ok hf, AList.lookup_insert]
    | some f =>
      rw [Backend.put_of_fault hf] at hret
      exact absurd hret f.2
  have hok : ∀ {b : Backend} {value : Bytes},
      [if (b.put key value).ret ≠ .success then (⟨ctx, .error, .text "failed"⟩ : Reply)
        else ⟨ctx, .success, .text "success"⟩] = [⟨ctx, .success, .text "success"⟩] →
      (b.put key value).backend.kvStore.lookup key = some value := by
    intro b value hreply
    split_ifs at hreply with hret
    · simp at hreply
    · exact hput (not_not.mp hret)
  unfold writeAt at h ⊢
  dsimp only at h ⊢
  by_cases hgot : (s.backend.get key []).ret = .success
  · obtain ⟨h0, hold⟩ := Backend.get_ret_eq_success_iff.mp hgot
    rw [if_neg fun hfailed => hfailed.1 hgot, if_neg (not_not.mpr hgot)] at h ⊢
    have hagain : (s.backend.called.get key (s.backend.get key []).value).value =
        (s.backend.get key []).value := get_value_again hold
    rw [hok h, if_pos h0, Backend.get_backend, hagain, hold, Option.getD_some]
  · -- the key is not there, or could not be read
    have halloc : ((s.backend.get key []).backend.put key
        (replicate (offset + data.length) 0)).ret = .success := by
      by_contra hne
      rw [if_pos ⟨hgot, hne⟩] at h
      simp at h
    rw [if_neg fun hfailed => hfailed.2 halloc, if_pos hgot] at h ⊢
    rw [hok h, Backend.get_value_of_ne hgot, overwrite_get_zeros (hput halloc)]
    split_ifs with h0
    · cases hold : s.backend.kvStore.lookup key with
      | none => rfl
      | some old => exact absurd (by rw [Backend.get_of_found h0 hold]) hgot
    · rfl

/-- A success answer means that the value is laid over the old one, unless the first `Get` has
failed: then the old bytes outside of the range are lost, if there are any.  A request that is
too large changes nothing, and no sum or product of sizes leaves 64 bits. -/
theorem write_overlay (env : Env) (ctx : Context) (request : SmemMessage) (key value : Bytes)
    (s : Server) :
    let out := handler env ctx { request with mt := .write, keys := [key], values := [value] } s
    let old := (s.backend.kvStore.lookup key).getD []
    let offset := leValue (value.take 4)
    let data := value.drop 4
    (out.2 = [⟨ctx, .success, .text "success"⟩] →
      ∃ new, out.1.backend.kvStore.lookup key = some new ∧
        (Overlaid old offset data new ↔ s.backend.fault 0 = none ∨ Covered old offset data)) ∧
      (2 ^ 30 < offset + data.length ∨ 65535 * data.length < offset →
        out.1 = s ∧ ∀ reply ∈ out.2, reply.code ≠ .success) ∧
      (data.length ≤ (2 ^ 64 - 1) / 65535 →
        65535 * data.length < 2 ^ 64 ∧ offset + data.length < 2 ^ 64) := by
  intro out old offset data
  have hout : out = if maxKeyLenServer < key.length then (s, []) else write ctx key value s := rfl
  refine ⟨fun hsuccess => ?_, fun hlarge => ?_, fun hsize => ?_⟩
  · have happly : out = writeAt ctx key offset data s := by
      rw [hout] at hsuccess ⊢
      unfold write at hsuccess ⊢
      dsimp only at hsuccess ⊢
      split_ifs at hsuccess ⊢
      all_goals first | rfl | simp at hsuccess
    rw [happly] at hsuccess ⊢
    refine ⟨_, writeAt_success hsuccess, ?_⟩
    split_ifs with h0
    · exact iff_of_true (overlaid_overwrite _ _ _) (.inl h0)
    · exact (overlaid_nil_iff _ _ _).trans (or_iff_right h0).symm
  · rw [hout]
    split_ifs with hkey
    · exact ⟨rfl, fun _ h => nomatch h⟩
    unfold write
    dsimp only
    split_ifs with hshort hwide hoffset hwrap htotal
    · simp
    · simp
    · simp
    · simp
    · simp only [maxWriteTotalSize, maxValueSize, maxU16Index, data] at *
      omega
    · simp
  · have hoffset : offset < 2 ^ 32 :=
      (leValue_lt _).trans_le (Nat.pow_le_pow_right (by decide) (length_take_le 4 value))
    omega

/-- One byte is written behind a value of two bytes. -/
theorem write_overlay_behind :
    let b : Backend := { kvStore := AList.insert [107] [1, 2] ∅ }
    ∃ new, Overlaid [1, 2] 3 [9] new ∧
      (handler openEnv ⟨6, 0, 0, none⟩
        { mt := .write, keys := [[107]], values := [[3, 0, 0, 0, 9]] }
        (start 1 b)).1.backend.kvStore.lookup [107] = some new := by
  intro b
  obtain ⟨new, hnew, hiff⟩ := (write_overlay openEnv ⟨6, 0, 0, none⟩ { mt := .write } [107]
    [3, 0, 0, 0, 9] (start 1 b)).1 (by decide +kernel)
  exact ⟨new, hiff.mpr (.inl rfl), hnew⟩

/-- The first `Get` fails although the key has a value of two bytes.  The first byte is written
with success, and the second one is lost. -/
theorem write_drops_old :
    let b : Backend :=
      { kvStore := AList.insert [107] [1, 2] ∅
        fault := fun n => if n = 0 then some ⟨.error, by decide⟩ else none }
    let out := handler openEnv ⟨6, 0, 0, none⟩
      { mt := .write, keys := [[107]], values := [[0, 0, 0, 0, 9]] } (start 1 b)
    out.2 = [⟨⟨6, 0, 0, none⟩, .success, .text "success"⟩] ∧
      out.1.backend.kvStore.lookup [107] = some [9] := by
  decide +kernel

end MemFabric.Smem.Store.Server
