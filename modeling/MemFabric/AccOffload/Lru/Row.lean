import MemFabric.Simt.Word
import MemFabric.Simt.Loop

/-!
# Row state of the resident LRU cache

One request row of `offload_lru_resident_compact`, seen through its row
pointers: `slot_to_token + row * capacity`, `topk_indices + row * topk` and so
on.  A buffer is a function of the element index, so reading or writing outside
the row is still a read or write of the same array.

`LRU_INVALID_TOKEN` is `-1`; it marks a free slot, an unresolved position and
the padding of every output array.
-/

namespace MemFabric.AccOffload.Lru

structure Shape where
  topk : Int
  capacity : Int
  maxToken : Int
deriving DecidableEq

def Shape.IsToken (sh : Shape) (token : Int) : Prop := 0 ≤ token ∧ token < sh.maxToken

def Shape.IsSlot (sh : Shape) (slot : Int) : Prop := 0 ≤ slot ∧ slot < sh.capacity

instance (sh : Shape) : DecidablePred sh.IsToken := fun token =>
  inferInstanceAs (Decidable (0 ≤ token ∧ token < sh.maxToken))

instance (sh : Shape) : DecidablePred sh.IsSlot := fun slot =>
  inferInstanceAs (Decidable (0 ≤ slot ∧ slot < sh.capacity))

@[simp] theorem Shape.not_isToken_neg_one (sh : Shape) : ¬ sh.IsToken (-1) := by
  simp [Shape.IsToken]

structure RowInput where
  /-- `req_ids[row]` -/
  reqId : Int
  topkIndices : Int → Int
  /-- `stable_prefix_lens[row]` -/
  stablePrefixLen : Int

/-- Persistent state and outputs of one row. -/
@[ext] structure Row where
  /-- `last_req_ids[row]` -/
  lastReqId : Int
  slotToToken : Int → Int
  lruSlots : Int → Int
  currentSlots : Int → Int
  /-- `miss_count[row]` -/
  missCount : Int
  missTokens : Int → Int
  missSlots : Int → Int

/-- One workspace slice: `token_mark`, `token_pos` and the slice's epoch cell. -/
@[ext] structure Workspace where
  tokenMark : Int → Int
  tokenPos : Int → Int
  epoch : Int

def clampPrefix (sh : Shape) (stablePrefixLen : Int) : Int :=
  if stablePrefixLen < 0 then 0
  else if stablePrefixLen > sh.maxToken then sh.maxToken
  else stablePrefixLen

end MemFabric.AccOffload.Lru
