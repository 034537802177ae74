import BalanceAttack.Decimal.Shortest
import BalanceAttack.Network.Graph

/-!
# BalanceAttack.Environment

The parameters of one simulated attack, and what can be wrong with them.  The
parameters are checked in a fixed order, and `defect` is the first one that is
out of range.
-/

namespace BalanceAttack

/-- The parameters of one simulated attack. -/
structure Environment where
  /-- The number of honest nodes. -/
  nodes : Nat := 2000
  /-- The number of peers each node links to, if it can. -/
  degree : Nat := 3
  /-- The base latency of a link. -/
  latency : Int := 200
  topology : Topology := .cities
  /-- The mean time between two blocks. -/
  blockPeriod : Float := 500
  /-- The probability that a block is mined by the adversary. -/
  evilRate : Float := 0.2
  /-- The latency of a message between the adversary and an honest node. -/
  oneWayLatency : Int := 10
  /-- May the adversary lend itself the blocks it is short of? -/
  allowBorrowing : Bool := false
  /-- When a run ends whatever has happened. -/
  termination : Int := 5400000

namespace Environment

/-- What is wrong with a parameter. -/
inductive Defect where
  | zeroNodes
  | zeroDegree
  | negativeLatency (latency : Int)
  | badBlockPeriod (period : Float)
  | badEvilRate (rate : Float)
  | negativeOneWayLatency (latency : Int)
  | badTermination (time : Int)

/-- A defect in words. -/
def Defect.message : Defect → String
  | zeroNodes => "cannot simulate a network with zero nodes"
  | zeroDegree => "node degree must be greater than 0"
  | negativeLatency latency => "base latency " ++ toString latency ++ "ms is negative"
  | badBlockPeriod period =>
    "average block period " ++ Decimal.shortest period ++ "ms is not a positive number"
  | badEvilRate rate => "evil rate " ++ Decimal.shortest rate ++ " is not in the range 0.0..=1.0"
  | negativeOneWayLatency latency => "one-way latency " ++ toString latency ++ "ms is negative"
  | badTermination time => "termination time " ++ toString time ++ "ms must be greater than 0"

/-- The first defect of an environment. -/
def defect (env : Environment) : Option Defect :=
  if env.nodes = 0 then some .zeroNodes
  else if env.degree = 0 then some .zeroDegree
  else if env.latency < 0 then some (.negativeLatency env.latency)
  else if !env.blockPeriod.isFinite || env.blockPeriod ≤ 0 then
    some (.badBlockPeriod env.blockPeriod)
  else if !(0 ≤ env.evilRate && env.evilRate ≤ 1) then some (.badEvilRate env.evilRate)
  else if env.oneWayLatency < 0 then some (.negativeOneWayLatency env.oneWayLatency)
  else if env.termination ≤ 0 then some (.badTermination env.termination)
  else none

/-- Every parameter is in its range. -/
def Valid (env : Environment) : Prop := env.defect = none

theorem Valid.oneWayLatency_nonneg {env : Environment} (h : env.Valid) :
    0 ≤ env.oneWayLatency := by
  refine Int.not_lt.1 fun hneg => ?_
  unfold Valid defect at h
  rw [if_pos hneg] at h
  repeat' split at h
  all_goals contradiction

theorem Valid.termination_pos {env : Environment} (h : env.Valid) : 0 < env.termination := by
  refine Int.not_le.1 fun hneg => ?_
  unfold Valid defect at h
  rw [if_pos hneg] at h
  repeat' split at h
  all_goals contradiction

/-- An environment that has been checked. -/
def check (env : Environment) : Except Defect Unit :=
  match env.defect with
  | some d => .error d
  | none => .ok ()

open BalanceAttack.Random in
/-- Draws a network as an environment describes it, which need not be valid. -/
def drawNetwork {σ : Type} [WordSource σ] (env : Environment) : Draw σ Network :=
  Network.draw env.topology env.nodes env.degree env.latency

end Environment

end BalanceAttack
