import BalanceAttack.Random.ChaCha
import BalanceAttack.Run.Outcome

/-!
# BalanceAttack.Campaign

Groups of runs with the same adversary.  Every environment is run a number of
times; run `i`, counted over all environments and repeats in order, draws from
the generator whose seed is that of the campaign plus `i`.
-/

namespace BalanceAttack

open BalanceAttack.Random

/-- Runs of some environments, all repeated equally often. -/
structure Campaign where
  environments : List Environment
  repeats : Nat := 1
  seed : UInt64 := 0

namespace Campaign

/-- What is wrong with a campaign. -/
inductive Defect where
  | noEnvironments
  | environment (defect : Environment.Defect)
  | zeroRepeats

/-- A defect in words. -/
def Defect.message : Defect → String
  | noEnvironments => "no test environments were added"
  | environment defect => defect.message
  | zeroRepeats => "cannot repeat a simulation 0 times"

/-- The first defect of a campaign. -/
def defect (c : Campaign) : Option Defect :=
  if c.environments.isEmpty then some .noEnvironments
  else
    match c.environments.findSome? Environment.defect with
    | some d => some (.environment d)
    | none => if c.repeats = 0 then some .zeroRepeats else none

/-- The environments of the runs, in order. -/
def runs (c : Campaign) : List Environment :=
  c.environments.flatMap fun env => List.replicate c.repeats env

/-- The seed of a run. -/
def seedOf (c : Campaign) (i : Nat) : UInt64 := c.seed + UInt64.ofNat i

variable {α : Type}

/-- One run of an environment, with the generator of a seed. -/
def runOnce (adversary : Adversary α) (fresh : α) (env : Environment) (seed : UInt64) :
    Except (Run.Failure α) Outcome := do
  let ((run, a), supply) ← Run.ofEnvironment env adversary fresh (.ofSource (ChaCha.ofSeed seed))
  let (outcome, _) ← run.simulate Supply.ample a supply
  return outcome

/-- The outcomes of all runs, in order; the first failure if there is one. -/
def runAll (c : Campaign) (adversary : Adversary α) (fresh : α) :
    Except (Run.Failure α) (List Outcome) :=
  c.runs.zipIdx.mapM fun (env, i) => runOnce adversary fresh env (c.seedOf i)

theorem length_runs (c : Campaign) : c.runs.length = c.environments.length * c.repeats := by
  unfold runs
  induction c.environments with
  | nil => simp
  | cons env envs ih => simp [ih, Nat.succ_mul, Nat.add_comm]

end Campaign

end BalanceAttack
