import BalanceAttack.Adversary.Backlog
import BalanceAttack.Adversary.Basic
import BalanceAttack.View

/-!
# BalanceAttack.Adversary.Balancer

The adversary of the balance attack.  It keeps a mirror of the view of every
honest node and a view of its own of everything it has observed or sent.  It
mines on the side that is lighter once all it keeps back is counted, and
sends blocks to the side its own view does not favor: as many as turn the
average mirror of the group to be kept there, and a margin.

Weights are whole numbers and averages of them are rational, so the number of
blocks to send is an exact ceiling.
-/

namespace BalanceAttack

/-- What the adversary of the balance attack knows. -/
structure Balancer where
  partition : Partition := .empty
  view : View := .fresh .adversary
  leftBacklog : Backlog := {}
  rightBacklog : Backlog := {}
  leftBorrowed : Nat := 0
  rightBorrowed : Nat := 0
  mirrors : Array View := #[]

namespace Balancer

/-- The blocks of a side that are kept back. -/
def backlog (b : Balancer) : Side → Backlog
  | .left => b.leftBacklog
  | .right => b.rightBacklog

/-- How many blocks of a side have been lacking. -/
def borrowedOn (b : Balancer) : Side → Nat
  | .left => b.leftBorrowed
  | .right => b.rightBorrowed

/-- How many blocks have been lacking in all. -/
def borrowed (b : Balancer) : Nat := b.leftBorrowed + b.rightBorrowed

/-- How many blocks are kept back. -/
def withheld (b : Balancer) : Nat := b.leftBacklog.size + b.rightBacklog.size

/-- Divides the nodes of a network and sets up a fresh mirror for each. -/
def setUp (nodes : Nat) (partition : Partition) (b : Balancer) : Balancer :=
  { b with partition, mirrors := (Array.range nodes).map fun i => .fresh (.node i) }

/-- Is there a mirror of a node? -/
def mirrorsNode (b : Balancer) (peer : Nat) : Bool := peer < b.mirrors.size

/-- Learns that a node has received a block. -/
def observe (side : Side) (block : BlockId) (peer : Nat) (b : Balancer) : Balancer :=
  { b with
    mirrors := b.mirrors.modify peer (·.record block side)
    view := b.view.record block side }

/-- Observes the genesis block at every node that is to be kept on the right side. -/
def start (b : Balancer) : Balancer :=
  b.partition.right.foldl (fun b peer => b.observe .right .genesis peer) b

/-- Keeps back a block. -/
def withhold (side : Side) (block : BlockId) (time : Int) (b : Balancer) : Balancer :=
  match side with
  | .left => { b with leftBacklog := b.leftBacklog.push ⟨time, block⟩ }
  | .right => { b with rightBacklog := b.rightBacklog.push ⟨time, block⟩ }

/-- The weight of a side once all blocks that are kept back are counted. -/
def potential (b : Balancer) (side : Side) : Nat := (b.backlog side).size + b.view.weight side

/-- The side of the lesser potential weight, the right one if they are equal. -/
def chooseSide (b : Balancer) : Side :=
  if b.potential .left < b.potential .right then .left else .right

/-! ## the release decision -/

/-- By how much the left side leads in the mirror of a node. -/
def mirroredLead (b : Balancer) (node : Nat) : Int := (b.mirrors[node]?).elim 0 View.lead

/-- The mean lead of the left side over the mirrors of some nodes, `0` for none. -/
def averageLead (b : Balancer) (nodes : List Nat) : Rat :=
  ((nodes.foldl (fun total node => total + b.mirroredLead node) 0 : Int) : Rat) /
    (nodes.length : Rat)

/-- How far the average mirror of a group is from favoring its side. -/
def distanceToTurn (b : Balancer) : Side → Rat
  | .left => -b.averageLead b.partition.left
  | .right => b.averageLead b.partition.right + 1

/-- The number of blocks to send to a side, for a margin: none to the side that the own view
favors, and to the other one as many as turn its group.  It need be neither whole nor positive. -/
def quota (margin : Int) (b : Balancer) (side : Side) : Rat :=
  if b.view.side = side then 0 else b.distanceToTurn side + (margin : Rat)

/-- The number of blocks that are asked for to meet a quota. -/
def wholeQuota (quota : Rat) : Nat := if 0 < quota then quota.ceil.toNat else 0

/-- The backlogs once some blocks of a side have been sent. -/
def dropFrom (side : Side) (count : Nat) (b : Balancer) : Balancer :=
  match side with
  | .left => { b with leftBacklog := b.leftBacklog.drop count }
  | .right => { b with rightBacklog := b.rightBacklog.drop count }

/-- Notes that blocks of a side were lacking. -/
def borrow (side : Side) (count : Nat) (b : Balancer) : Balancer :=
  match side with
  | .left => { b with leftBorrowed := b.leftBorrowed + count }
  | .right => { b with rightBorrowed := b.rightBorrowed + count }

/-- A release under way: the blocks to send so far, and how many were lacking. -/
structure Releasing where
  balancer : Balancer
  sent : Array (Side × BlockId)
  lacking : Nat := 0

/-- Sends the oldest block of a side, or notes that it is lacking. -/
def Releasing.sendOldest (side : Side) (r : Releasing) : Releasing :=
  match (r.balancer.backlog side).first? with
  | none => { r with lacking := r.lacking + 1 }
  | some w =>
    let b := r.balancer
    { r with
      balancer := { b with view := b.view.record w.block side }.dropFrom side 1
      sent := r.sent.push (side, w.block) }

/-- Sends blocks of a side to meet a quota. -/
def Releasing.meet (quota : Rat) (side : Side) (r : Releasing) : Releasing :=
  Nat.repeat (sendOldest side) (wholeQuota quota) r

/-- The decision for a margin, carried out, after other blocks that are to be sent: blocks of
the left side to meet its quota, and then blocks of the right side.  What was lacking counts for
the left side if that has a quota. -/
def sendOut (margin : Int) (sent : Array (Side × BlockId)) (b : Balancer) : Release × Balancer :=
  let left := b.quota margin .left
  let right := b.quota margin .right
  let r := Releasing.meet right .right (.meet left .left { balancer := b, sent })
  let short := if 0 < left then .left else .right
  ({ sent := r.sent.toList, shortfall := { side := short, blocks := r.lacking } },
    r.balancer.borrow short r.lacking)

/-- The margin that grows with the number of blocks after which the own view
favors the other side. -/
def margin (b : Balancer) : Int :=
  let lead := b.view.lead
  let distance := if lead < 0 then -lead else lead + 1
  if distance < 3 then -1 else if distance = 3 then 0 else 1

/-- The balancing adversary, with a margin that may hang on what it knows. -/
def adversary (margin : Balancer → Int := Balancer.margin) : Adversary Balancer where
  name := "Random Latency Balance"
  setUp nodes distances b :=
    match Partition.ofDistances nodes distances with
    | .ok partition => .ok (b.setUp nodes partition)
    | .error fault => .error ⟨fault, b⟩
  partition := Balancer.partition
  start b := .ok b.start
  withhold side block time b := .ok (b.withhold side block time)
  chooseSide b := .ok (b.chooseSide, b)
  observe side block peer b :=
    if b.mirrorsNode peer then .ok (b.observe side block peer) else .error ⟨.outOfRange, b⟩
  release _ b := .ok (b.sendOut (margin b) #[])
  borrowed := Balancer.borrowed
  withheld := Balancer.withheld

end Balancer

end BalanceAttack
