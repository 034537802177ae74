import BalanceAttack.Network.Latencies
import BalanceAttack.Random.Uniform
import Std.Data.HashSet.Lemmas

/-!
# BalanceAttack.Network.Connectivity

Which nodes are linked.  `reachesAll` searches a table breadth first from node
`0`; `draft` links every node to random peers under a bound on the number of
links, and `connectivity` drafts until all nodes hang together.
-/

namespace BalanceAttack

open BalanceAttack.Random

namespace Latencies

/-! ## the search -/

/-- A breadth-first search under way: the nodes found, in order, and a mark for each. -/
structure Search where
  found : Array Nat
  seen : Array Bool

/-- Node `0` has been found. -/
def Search.start (n : Nat) : Search :=
  { found := #[0], seen := (Array.replicate n false).setIfInBounds 0 true }

/-- Finds a peer of a node, if there is a link and the peer is new. -/
def Search.look (m : Latencies) (node : Nat) (s : Search) (peer : Nat) : Except Fault Search :=
  if s.seen.getD peer true then .ok s
  else do
    if reaches (← m.entry node peer) then
      return { found := s.found.push peer, seen := s.seen.setIfInBounds peer true }
    else
      return s

/-- Finds the peers of the node that was found at a place of the order. -/
def Search.visit (m : Latencies) (s : Search) (place : Nat) : Except Fault Search :=
  match s.found[place]? with
  | none => .ok s
  | some node => (List.range m.size).foldlM (Search.look m node) s

/-- Is every node reached from node `0`? -/
def reachesAll (m : Latencies) : Except Fault Bool :=
  if m.size = 0 then .ok true
  else do
    let s ← (List.range m.size).foldlM (Search.visit m) (Search.start m.size)
    return s.found.size = m.size

end Latencies

/-! ## random links -/

/-- A network under construction: its links, and the number of links of each node. -/
structure Wiring where
  links : Latencies
  degrees : Array Nat

namespace Wiring

/-- A number of nodes without links. -/
def bare (n : Nat) : Wiring :=
  { links := Latencies.uniform n Latencies.unreachable, degrees := Array.replicate n 0 }

/-- The number of links of a node. -/
def degree (w : Wiring) (i : Nat) : Nat := w.degrees.getD i 0

/-- Can a node link to a peer, under a bound on the links of the peer? -/
def accepts (w : Wiring) (bound i peer : Nat) : Bool :=
  peer ≠ i && w.degree peer ≠ bound && !Latencies.reaches (w.links.look i peer)

/-- Links two nodes. -/
def link (w : Wiring) (i peer : Nat) : Wiring :=
  { links := (w.links.set i peer Latencies.linked).set peer i Latencies.linked
    degrees := (w.degrees.modify i (· + 1)).modify peer (· + 1) }

variable {σ : Type} [WordSource σ]

/-- One try of node `i` for a peer.  The node is done when it has tried every
node or has its full number of links. -/
def tryPeer (n bound i : Nat) (state : Std.HashSet Nat × Wiring) :
    Draw σ ((Std.HashSet Nat × Wiring) ⊕ Wiring) := do
  let (tried, w) := state
  if tried.size < n && w.degree i < bound then
    let peer ← Draw.index n
    return .inl (tried.insert peer, if w.accepts bound i peer then w.link i peer else w)
  else
    return .inr w

/-- Links node `i` to random peers. -/
def fill (n bound : Nat) (w : Wiring) (i : Nat) : Draw σ Wiring :=
  Draw.settle (tryPeer n bound i) (∅, w)

/-- Links all nodes to random peers, in their order. -/
def draft (n bound : Nat) : Draw σ Wiring :=
  (List.range n).foldlM (fill n bound) (bare n)

end Wiring

namespace Latencies

variable {σ : Type} [WordSource σ]

/-- One draft of the links of a network, kept if all nodes hang together. -/
def connectivityTurn (n bound : Nat) : Draw σ (Unit ⊕ Latencies) := do
  let w ← Wiring.draft n bound
  if ← w.links.reachesAll then return .inr w.links else return .inl ()

/-- Random links between `n` nodes that hang together, with at most `bound`
links to a node. -/
def connectivity (n bound : Nat) : Draw σ Latencies :=
  Draw.settle (fun () => connectivityTurn n bound) ()

end Latencies

end BalanceAttack
