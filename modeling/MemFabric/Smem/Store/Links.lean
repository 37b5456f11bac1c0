import MemFabric.Smem.Store.Frame
import MemFabric.Smem.Store.Number

/-!
# The server and its links

The server together with the links that are connected.  The server keeps no list of its
links; what is recorded here beside it is what the other side of a link knows: whether
the connection was accepted, and the rank that the link came with or was told.
-/

namespace MemFabric.Smem.Store

open Machine Wire

namespace Server

def rankKey (link : Nat) : Bytes := autoRankingStr ++ decimal link

theorem rankKey_inj {link link' : Nat} (h : rankKey link = rankKey link') : link = link' :=
  decimal_inj (List.append_cancel_left h)

theorem prefix_rankKey (link : Nat) : autoRankingStr <+: rankKey link := List.prefix_append _ _

def accepts (req : ConnReq) (link : Nat) (s : Server) : Bool :=
  if s.worldSize ≠ uint32Max ∧ s.worldSize ≠ req.worldSize then false
  else if ¬ req.canReceive ∧ ¬ req.reconnect then false
  else if uint32Max ≤ req.rankId then true
  else if req.rankId ∈ s.aliveRankSet then false
  else (s.backend.put (rankKey link) (leBytes 4 req.rankId)).ret = .success

def AsksRank (m : SmemMessage) : Prop := m.mt = .get ∧ m.keys = [autoRankingStr] ∧ m.values = []

instance (m : SmemMessage) : Decidable (AsksRank m) := by
  unfold AsksRank
  infer_instance

def told : List Reply → Option Nat
  | [⟨_, .success, .packed ⟨_, _, _, [value]⟩⟩] => some (leValue value)
  | _ => none

end Server

open Server

/-- `held` has the connected links, with the rank of each that has one. -/
structure Links where
  server : Server
  held : Table Nat (Option Nat) := ∅

namespace Links

def start (worldSize : Nat) (backend : Backend) : Links := { server := .start worldSize backend }

def rankOf (t : Links) (link : Nat) : Option Nat := (t.held.lookup link).join

def tell (held : Table Nat (Option Nat)) (link : Nat) : Option Nat → Table Nat (Option Nat)
  | some rank => held.insert link (some rank)
  | none => held

def heldAfter (t : Links) (out : List Reply) : Event → Table Nat (Option Nat)
  | .request _ link _ body =>
    match unpack body with
    | .error _ => t.held
    | .ok (_, m) =>
      if AsksRank m then tell t.held link (told out) else t.held
  | .connected req link =>
    if t.server.accepts req link then
      t.held.insert link (if req.rankId < uint32Max then some req.rankId else none)
    else t.held
  | .broken link => t.held.erase link
  | .timer _ _ _ | .rankState _ => t.held

def step (t : Links) (e : Event) : Links × List Reply :=
  let out := Server.step t.server e
  (⟨out.1, t.heldAfter out.2 e⟩, out.2)

/-- Requests come on connected links, and a new link has an id that no connected link
has. -/
def OnLinks (t : Links) : Event → Prop
  | .request _ link _ _ => link ∈ t.held
  | .connected _ link => link ∉ t.held
  | _ => True

theorem server_step (t : Links) (e : Event) :
    (step t e).1.server = (Server.step t.server e).1 := rfl

end Links

end MemFabric.Smem.Store
