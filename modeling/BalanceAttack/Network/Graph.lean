import BalanceAttack.Network.Connectivity
import BalanceAttack.Network.LinkDelay
import BalanceAttack.Network.ShortestPath

/-!
# BalanceAttack.Network.Graph

Networks: the latencies of the shortest paths between all pairs of nodes, and
the largest of them.
-/

namespace BalanceAttack

open BalanceAttack.Random

/-- A network of nodes. -/
structure Network where
  distances : Latencies
  diameter : Int

namespace Network

/-- The number of nodes. -/
def size (net : Network) : Nat := net.distances.size

/-- The network with the given links. -/
def ofLinks (links : Latencies) : Except Fault Network := do
  let distances ← links.shortestPaths
  return { distances, diameter := distances.diameter }

/-- The latencies from a node to all others. -/
def row (net : Network) (node : Nat) : Except Fault (Array Int) :=
  Fault.read net.distances node

/-- Draws a network that hangs together. -/
def draw {σ : Type} [WordSource σ] (topology : Topology) (nodes degree : Nat) (base : Int) :
    Draw σ Network := do
  let links ← Latencies.connectivity nodes degree
  let links ← links.drawLatencies topology base
  ofLinks links

theorem ofLinks_eq_ok_iff {links : Latencies} {net : Network} :
    ofLinks links = .ok net ↔
      links.shortestPaths = .ok net.distances ∧ net.diameter = net.distances.diameter := by
  unfold ofLinks
  cases h : links.shortestPaths with
  | error f => simp [bind, Except.bind]
  | ok m =>
    obtain ⟨d, t⟩ := net
    simp [bind, Except.bind, pure, Except.pure]
    grind

end Network

end BalanceAttack
