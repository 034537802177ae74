import BalanceAttack.Adversary.Basic
import BalanceAttack.Environment
import BalanceAttack.Random.Exponential
import BalanceAttack.Run.History
import BalanceAttack.Schedule.Agenda
import BalanceAttack.View

/-!
# BalanceAttack.Run.State

The state of a simulated attack between two events.  It has two parts that
touch only through messages: the `World`, which holds the honest nodes, the
agenda and the counters, and the adversary's state.
-/

namespace BalanceAttack

open BalanceAttack.Random

/-- One simulated attack: its parameters, its network and its adversary. -/
structure Run (α : Type) where
  env : Environment
  network : Network
  adversary : Adversary α

/-- Everything outside the adversary. -/
structure World (σ : Type) where
  /-- The time of the last event. -/
  clock : Int := 0
  agenda : Agenda := .empty
  nodes : Array View
  /-- Since when all nodes have been seen to favor the same side, and which. -/
  agreement : Option (Int × Side) := none
  /-- How many blocks have been mined; block `k` is the `k`-th of them. -/
  mined : Nat := 0
  /-- How many of them were mined by the adversary. -/
  adversaryMined : Nat := 0
  /-- How many mined blocks the adversary has sent. -/
  released : Nat := 0
  supply : Supply σ

/-- The state of a simulated attack. -/
structure Run.State (α σ : Type) where
  adversary : α
  world : World σ

/-- How a run ended. -/
structure Verdict where
  time : Int
  /-- The side all honest nodes have settled on. -/
  side : Option Side
  deriving DecidableEq, Repr

namespace World

variable {σ : Type}

/-- The world of fresh nodes. -/
def fresh (nodes : Nat) (supply : Supply σ) : World σ where
  nodes := (Array.range nodes).map fun i => .fresh (.node i)
  supply

/-- Schedules events, each at its time. -/
def schedule (w : World σ) (events : List (Int × Event)) : World σ :=
  { w with agenda := w.agenda.pushAll events }

/-- Draws from the supply of random words. -/
def draw {β : Type} (d : Draw σ β) (w : World σ) : Except Fault (β × World σ) := do
  let (b, supply) ← d w.supply
  return (b, { w with supply })

/-! ## honest nodes -/

/-- The deliveries of a block from a node to all others, sent at the given time. -/
def arrivals (net : Network) (time : Int) (origin : Nat) (side : Side) (block : BlockId) :
    Except Fault (List (Int × Event)) := do
  let row ← net.row origin
  (row.toList.zipIdx.filter (·.2 ≠ origin)).mapM fun (latency, peer) => do
    return (← Time.add time latency, .deliver peer side block)

/-- A node receives a block, and tells the adversary if it is new. -/
def deliver (oneWayLatency : Int) (peer : Nat) (side : Side) (block : BlockId) (w : World σ) :
    Except Fault (World σ) := do
  let view ← Fault.read w.nodes peer
  if view.has block then
    return w
  else
    let time ← Time.add w.clock oneWayLatency
    return { w with
      nodes := w.nodes.modify peer (·.record block side)
      agenda := w.agenda.push time (.observe side block peer) }

/-- A random honest node mines a block on the side it favors, sends it to all
others and tells the adversary. -/
def mineHonest [WordSource σ] (net : Network) (oneWayLatency : Int) (block : BlockId)
    (w : World σ) : Except Fault (Run.Entry × World σ) := do
  let (miner, w) ← w.draw (Draw.index net.size)
  let side := (← Fault.read w.nodes miner).side
  let events ← arrivals net w.clock miner side block
  let time ← Time.add w.clock oneWayLatency
  let w := { w with nodes := w.nodes.modify miner (·.record block side) }
  return ({ time := w.clock, event := .mine, mined := some (miner, side, block) },
    w.schedule (events ++ [(time, .observe side block miner)]))

/-! ## blocks from the adversary -/

/-- The deliveries of a block that the adversary sends: to the nodes to be
kept on its side at once, to the others as soon as these can pass it on. -/
def releaseArrivals (p : Partition) (time : Int) (sent : Side × BlockId) :
    Except Fault (List (Int × Event)) := do
  let (side, block) := sent
  let near := (p.nodes side).map fun peer => (time, Event.deliver peer side block)
  let far ← (p.nodes side.other).mapM fun peer => do
    return (← Time.add time (← p.crossingTo peer), Event.deliver peer side block)
  return near ++ far

/-- The adversary sends blocks. -/
def send (oneWayLatency : Int) (p : Partition) (sent : List (Side × BlockId)) (w : World σ) :
    Except Fault (World σ) := do
  let time ← Time.add w.clock oneWayLatency
  let events ← sent.mapM (releaseArrivals p time)
  let mined := sent.countP fun s : Side × BlockId => !s.2.isSynthetic
  return { w with released := w.released + mined }.schedule events.flatten

/-! ## agreement -/

/-- The side that all nodes favor, if there is one. -/
def agreedSide (nodes : Array View) : Option Side :=
  match nodes[0]? with
  | none => none
  | some first => if nodes.all (·.side = first.side) then some first.side else none

/-- How long all nodes must have favored the same side for the fork to count as resolved. -/
def dwell : Int := 50000

/-- Checks whether the fork is resolved, and notes since when all nodes agree. -/
def checkAgreement (w : World σ) : Option Side × World σ :=
  match agreedSide w.nodes with
  | none => (none, { w with agreement := none })
  | some side =>
    match w.agreement with
    | some (since, agreed) =>
      if agreed = side then
        (if dwell < w.clock - since then some side else none, w)
      else
        (none, { w with agreement := some (w.clock, side) })
    | none => (none, { w with agreement := some (w.clock, side) })

end World

end BalanceAttack
