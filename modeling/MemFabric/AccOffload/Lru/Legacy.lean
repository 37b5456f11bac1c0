import MemFabric.AccOffload.Lru.Phased

/-!
# The legacy compact kernel

`OffloadLruCompactLegacySimtOps`: every lane compacts whole rows by itself.  The
hits are found by searching the requested positions for every resident token,
and the evictable slots are kept in the lane's part of `token_mark` when a row
of them fits there (`capacity <= max_token`).  Otherwise the oldest unprotected
slot is searched again for every miss, and the new use order is an insertion
sort of the old one.

Loops without side effects that end with `break` are written as the search they
perform.
-/

namespace MemFabric.AccOffload.Lru.Legacy

open Simt Phased Function

def HasScratch (sh : Shape) : Prop := sh.capacity ≤ sh.maxToken

instance (sh : Shape) : Decidable (HasScratch sh) :=
  inferInstanceAs (Decidable (sh.capacity ≤ sh.maxToken))

/-! ## Hits -/

/-- The tables written while the old use order is scanned. -/
structure Scan where
  currentSlots : Int → Int
  scratch : Int → Int
  evictableCount : Int

/-- Every position that requests the resident token takes its slot. -/
def resolvePositions (sh : Shape) (topkIndices : Int → Int) (residentToken slot : Int)
    (currentSlots : Int → Int) : Bool × (Int → Int) :=
  forLoop 0 sh.topk (fun pos st =>
    if topkIndices pos = residentToken then (true, update st.2 pos slot) else st)
    (false, currentSlots)

def scanEntry (sh : Shape) (topkIndices slotToToken lruSlots : Int → Int) (order : Int)
    (st : Scan) : Scan :=
  let slot := lruSlots order
  if ¬ sh.IsSlot slot then st
  else
    let residentToken := slotToToken slot
    let hit := if sh.IsToken residentToken then
        resolvePositions sh topkIndices residentToken slot st.currentSlots
      else (false, st.currentSlots)
    if hit.1 then { st with currentSlots := hit.2 }
    else
      { currentSlots := hit.2
        scratch := if HasScratch sh then update st.scratch st.evictableCount slot
          else st.scratch
        evictableCount := int32 (st.evictableCount + 1) }

def scanHits (sh : Shape) (topkIndices slotToToken lruSlots currentSlots scratch : Int → Int) :
    Scan :=
  forLoop 0 sh.capacity (scanEntry sh topkIndices slotToToken lruSlots) ⟨currentSlots, scratch, 0⟩

/-! ## Misses -/

/-- The tables written while the misses are collected; `missSlots` holds the
position of every miss. -/
structure MissScan where
  missTokens : Int → Int
  missSlots : Int → Int
  localMissCount : Int

def Duplicate (topkIndices : Int → Int) (pos : Int) : Prop :=
  ∃ prior ∈ Int.range 0 pos, topkIndices prior = topkIndices pos

instance (topkIndices : Int → Int) : DecidablePred (Duplicate topkIndices) := fun pos =>
  inferInstanceAs (Decidable (∃ prior ∈ Int.range 0 pos, topkIndices prior = topkIndices pos))

def collectMiss (sh : Shape) (topkIndices currentSlots : Int → Int) (pos : Int) (st : MissScan) :
    MissScan :=
  let token := topkIndices pos
  if ¬ sh.IsToken token ∨ 0 ≤ currentSlots pos then st
  else if Duplicate topkIndices pos then st
  else
    { missTokens := update st.missTokens st.localMissCount token
      missSlots := update st.missSlots st.localMissCount (int32 pos)
      localMissCount := int32 (st.localMissCount + 1) }

def collectUniqueMisses (sh : Shape) (topkIndices currentSlots missTokens missSlots : Int → Int) :
    MissScan :=
  forLoop 0 sh.topk (collectMiss sh topkIndices currentSlots) ⟨missTokens, missSlots, 0⟩

/-! ## Assignment -/

structure Assigned where
  currentSlots : Int → Int
  missSlots : Int → Int
  assignCount : Int

def Protected (sh : Shape) (currentSlots : Int → Int) (slot : Int) : Prop :=
  ∃ pos ∈ Int.range 0 sh.topk, currentSlots pos = slot

instance (sh : Shape) (currentSlots : Int → Int) : DecidablePred (Protected sh currentSlots) :=
  fun slot => inferInstanceAs (Decidable (∃ pos ∈ Int.range 0 sh.topk, currentSlots pos = slot))

/-- The oldest slot no position uses, or `-1`. -/
def oldestUnprotected (sh : Shape) (lruSlots currentSlots : Int → Int) : Int :=
  match (Int.range 0 sh.capacity).find? fun order =>
      sh.IsSlot (lruSlots order) ∧ ¬ Protected sh currentSlots (lruSlots order) with
  | some order => lruSlots order
  | none => -1

def chosenSlot (sh : Shape) (lruSlots : Int → Int) (scan : Scan) (missIdx : Int) (st : Assigned) :
    Int :=
  if HasScratch sh then
    if missIdx < scan.evictableCount then scan.scratch missIdx else -1
  else oldestUnprotected sh lruSlots st.currentSlots

def assignOne (sh : Shape) (lruSlots : Int → Int) (scan : Scan) (missIdx : Int) (st : Assigned) :
    Option Assigned :=
  let chosen := chosenSlot sh lruSlots scan missIdx st
  if chosen < 0 then none
  else
    let pos := st.missSlots missIdx
    some
      { currentSlots := update st.currentSlots pos chosen
        missSlots := update st.missSlots missIdx chosen
        assignCount := st.assignCount + 1 }

def assignMisses (sh : Shape) (lruSlots : Int → Int) (scan : Scan) (ms : MissScan) : Assigned :=
  forBreak 0 ms.localMissCount (assignOne sh lruSlots scan) ⟨scan.currentSlots, ms.missSlots, 0⟩

/-- An unresolved position takes the slot of an earlier position with the same
token. -/
def propagatePos (topkIndices : Int → Int) (pos : Int) (currentSlots : Int → Int) : Int → Int :=
  if 0 ≤ currentSlots pos then currentSlots
  else
    match (Int.range 0 pos).find? fun prior =>
        topkIndices prior = topkIndices pos ∧ 0 ≤ currentSlots prior with
    | some prior => update currentSlots pos (currentSlots prior)
    | none => currentSlots

/-! ## The new use order -/

/-- The scan that moves the hit slots to the tail. -/
structure Tail where
  lruSlots : Int → Int
  writePos : Int

def HitToken (sh : Shape) (topkIndices : Int → Int) (token : Int) : Prop :=
  ∃ pos ∈ Int.range 0 sh.topk, 0 ≤ token ∧ token = topkIndices pos

instance (sh : Shape) (topkIndices : Int → Int) : DecidablePred (HitToken sh topkIndices) :=
  fun token =>
    inferInstanceAs (Decidable (∃ pos ∈ Int.range 0 sh.topk, 0 ≤ token ∧ token = topkIndices pos))

def tailEntry (sh : Shape) (topkIndices slotToToken : Int → Int) (order : Int) (st : Tail) : Tail :=
  let slot := st.lruSlots order
  if sh.IsSlot slot ∧ HitToken sh topkIndices (slotToToken slot) then
    { lruSlots := update st.lruSlots st.writePos slot
      writePos := st.writePos - 1 }
  else st

def appendEntry (source : Int → Int) (i : Int) (st : (Int → Int) × Int) : (Int → Int) × Int :=
  (update st.1 st.2 (source i), st.2 + 1)

def rebuildFromScratch (sh : Shape) (topkIndices slotToToken lruSlots : Int → Int) (scan : Scan)
    (asg : Assigned) : Int → Int :=
  let tail := forDown 0 sh.capacity (tailEntry sh topkIndices slotToToken)
    ⟨lruSlots, sh.capacity - 1⟩
  let out := forLoop asg.assignCount scan.evictableCount (appendEntry scan.scratch)
    (tail.lruSlots, 0)
  (forLoop 0 asg.assignCount (appendEntry asg.missSlots) out).1

/-- `key_category` and `prior_category`: `1` for an assigned slot, `2` for a slot
in use otherwise, `0` for the rest. -/
def category (sh : Shape) (asg : Assigned) (slot : Int) : Int :=
  if ∃ m ∈ Int.range 0 asg.assignCount, asg.missSlots m = slot then 1
  else if Protected sh asg.currentSlots slot then 2
  else 0

/-- The inner loop of the insertion sort; the argument is `j + 1`. -/
def insertDown (cat : Int → Int) (key : Int) : Nat → (Int → Int) → (Int → Int)
  | 0, lru => update lru 0 key
  | j + 1, lru =>
    if cat (lru j) ≤ cat key then update lru (j + 1) key
    else insertDown cat key j (update lru (j + 1) (lru j))

def sortByCategory (sh : Shape) (cat : Int → Int) (lruSlots : Int → Int) : Int → Int :=
  forLoop 1 sh.capacity (fun i lru => insertDown cat (lru i) i.toNat lru) lruSlots

/-! ## One row -/

/-- The clearing, the request check and the prefix invalidation. -/
def startLegacy (sh : Shape) (inp : RowInput) (row : Row) : Row :=
  let row := forLoop 0 sh.topk clearOutputs row
  let row := offloadLruCompactResetPhasedSimtOps sh inp row
  forLoop 0 sh.capacity (invalidateSlot sh (clampPrefix sh inp.stablePrefixLen)) row

def legacyRow (sh : Shape) (inp : RowInput) (row : Row) (scratch : Int → Int) : Row × (Int → Int) :=
  let row := startLegacy sh inp row
  let scan := scanHits sh inp.topkIndices row.slotToToken row.lruSlots row.currentSlots scratch
  let ms := collectUniqueMisses sh inp.topkIndices scan.currentSlots row.missTokens row.missSlots
  let asg := assignMisses sh row.lruSlots scan ms
  let currentSlots := forLoop 0 sh.topk (propagatePos inp.topkIndices) asg.currentSlots
  let missTokens := forLoop asg.assignCount sh.topk
    (fun i a => update a i (-1)) ms.missTokens
  let missSlots := forLoop asg.assignCount sh.topk
    (fun i a => update a i (-1)) asg.missSlots
  let asg : Assigned := ⟨currentSlots, missSlots, asg.assignCount⟩
  let lruSlots := if HasScratch sh then
      rebuildFromScratch sh inp.topkIndices row.slotToToken row.lruSlots scan asg
    else sortByCategory sh (category sh asg) row.lruSlots
  ({ row with
      slotToToken := forLoop 0 asg.assignCount
        (fun i a => update a (missSlots i) (missTokens i)) row.slotToToken
      lruSlots := lruSlots
      currentSlots := currentSlots
      missCount := asg.assignCount
      missTokens := missTokens
      missSlots := missSlots }, scan.scratch)

end MemFabric.AccOffload.Lru.Legacy
