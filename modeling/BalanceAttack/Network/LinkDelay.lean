import BalanceAttack.Network.City
import BalanceAttack.Network.Latencies
import BalanceAttack.Random.Uniform
import BalanceAttack.Whole

/-!
# BalanceAttack.Network.LinkDelay

Random latencies for the links of a network.  Either a latency is drawn
around a base and serves both directions, or each node is placed in a city
and a link costs the delay between the cities, which depends on the
direction, and a queueing delay around the base, which does not.
-/

namespace BalanceAttack

open BalanceAttack.Random

/-- How the latencies of links are drawn. -/
inductive Topology where
  /-- Within a quarter of the base latency. -/
  | random
  /-- The delay between two cities, and a queueing delay within a fifth of the base. -/
  | cities
  deriving DecidableEq, Repr

namespace Topology

/-- The name of a topology. -/
def name : Topology → String
  | random => "random"
  | cities => "geolatency"

/-- The topology of a name; names that mean nothing else mean `random`. -/
def ofName (s : String) : Topology := if s = "geolatency" then cities else random

@[simp] theorem ofName_name (t : Topology) : ofName t.name = t := by cases t <;> decide

end Topology

namespace Latencies

/-- The pairs of nodes with the lower one first, in order. -/
def pairs (n : Nat) : List (Nat × Nat) :=
  (List.range n).flatMap fun i => (List.range' (i + 1) (n - (i + 1))).map (i, ·)

variable {σ : Type} [WordSource σ]

/-- Draws the latencies there and back of a pair of nodes, if there is a link. -/
def drawLink (latencies : Nat → Nat → Draw σ (Int × Int)) (m : Latencies) (pair : Nat × Nat) :
    Draw σ Latencies := do
  let (i, j) := pair
  if reaches (← m.entry i j) then
    let (there, back) ← latencies i j
    (← m.put i j there).put j i back
  else
    return m

/-- Draws the latencies of all links, one pair of nodes after the other. -/
def mapLinks (m : Latencies) (latencies : Nat → Nat → Draw σ (Int × Int)) : Draw σ Latencies :=
  (pairs m.size).foldlM (drawLink latencies) m

/-- Gives every link one latency for both directions, within a quarter of the base. -/
def drawAround (m : Latencies) (base : Int) : Draw σ Latencies :=
  m.mapLinks fun _ _ => do
    let base := Whole.toFloat base
    let latency := Whole.ofFloat (← Draw.between (0.75 * base) (1.25 * base))
    return (latency, latency)

/-- Places every node in a city, and gives every link the delays between the
cities and a queueing delay within a fifth of the base. -/
def drawByCity (m : Latencies) (base : Int) : Draw σ Latencies := do
  let city ← (Array.range m.size).mapM fun _ => Draw.index City.count
  m.mapLinks fun i j => do
    let base := Whole.toFloat base
    let queueing ← Draw.between (0.8 * base) (1.2 * base)
    let here ← Fault.read city i
    let there ← Fault.read city j
    return (Whole.ofFloat ((← City.delay here there) + queueing),
      Whole.ofFloat ((← City.delay there here) + queueing))

/-- Draws the latencies of all links as a topology says. -/
def drawLatencies (m : Latencies) (topology : Topology) (base : Int) : Draw σ Latencies :=
  match topology with
  | .random => m.drawAround base
  | .cities => m.drawByCity base

end Latencies

end BalanceAttack
