import BalanceAttack.Run.Step

/-!
# BalanceAttack.Run.Outcome

Whole runs: an environment is checked, a network is drawn or given, the
adversary is set up, and events happen until the run is over.
-/

namespace BalanceAttack

open BalanceAttack.Random

/-- What is reported of a run. -/
structure Outcome where
  env : Environment
  /-- The name of the adversary. -/
  strategy : String
  /-- When the fork was resolved, or the time that was up. -/
  forkDuration : Int
  convergedSide : Option Side
  /-- Blocks mined by the honest nodes and the adversary together. -/
  blocksMined : Nat
  adversaryBlocks : Nat
  /-- Mined blocks that the adversary has sent. -/
  releasedBlocks : Nat
  /-- Blocks that the adversary still keeps back. -/
  withheldBlocks : Nat
  /-- Blocks that the adversary lacked. -/
  borrowedBlocks : Nat
  diameter : Int

/-- Was the fork resolved? -/
def Outcome.converged (o : Outcome) : Bool := o.convergedSide.isSome

namespace Run

/-- Why a run has no outcome. -/
inductive Failure (α : Type) where
  | environment (defect : Environment.Defect)
  | emptyNetwork
  | crash (crash : Crash α)
  /-- More events happened than were allowed for. -/
  | unfinished

/-- A failure in words, where it is one of the parameters. -/
def Failure.message? {α : Type} : Failure α → Option String
  | environment _ => some "invalid test environment"
  | emptyNetwork => some "network graph has no nodes"
  | crash _ => none
  | unfinished => none

variable {α σ : Type}

/-- A result that no crash has hindered. -/
def orFail {β : Type} (x : Except (Crash α) β) : Except (Failure α) β :=
  match x with
  | .ok b => .ok b
  | .error c => .error (.crash c)

theorem orFail_eq_ok_iff {β : Type} {x : Except (Crash α) β} {b : β} :
    orFail x = .ok b ↔ x = .ok b := by
  cases x <;> simp [orFail]

theorem orFail_eq_crash_iff {β : Type} {x : Except (Crash α) β} {c : Crash α} :
    orFail x = .error (.crash c) ↔ x = .error c := by
  cases x <;> simp [orFail]

/-- Checks the environment and the network, and sets up the adversary. -/
def prepare (run : Run α) (a : α) : Except (Failure α) α :=
  match run.env.defect with
  | some defect => .error (.environment defect)
  | none =>
    if run.network.size = 0 then .error .emptyNetwork
    else orFail (run.adversary.setUp run.network.size run.network.distances a)

theorem valid_of_prepare {run : Run α} {a a' : α} (h : run.prepare a = .ok a') :
    run.env.Valid := by
  unfold prepare at h
  split at h
  · contradiction
  · next hdefect => exact hdefect

/-- A run on a random network, and its adversary once set up. -/
def ofEnvironment [WordSource σ] (env : Environment) (adversary : Adversary α) (a : α)
    (supply : Supply σ) : Except (Failure α) ((Run α × α) × Supply σ) := do
  match env.defect with
  | some defect => throw (.environment defect)
  | none =>
    let (network, supply) ← orFail (Fault.orCrash (env.drawNetwork supply) a)
    let run : Run α := { env, network, adversary }
    return ((run, ← run.prepare a), supply)

/-- What is reported of a run that ended in the given state. -/
def report (run : Run α) (v : Verdict) (s : State α σ) : Outcome where
  env := run.env
  strategy := run.adversary.name
  forkDuration := v.time
  convergedSide := v.side
  blocksMined := s.world.mined
  adversaryBlocks := s.world.adversaryMined
  releasedBlocks := s.world.released
  withheldBlocks := run.adversary.withheld s.adversary
  borrowedBlocks := run.adversary.borrowed s.adversary
  diameter := run.network.diameter

/-- Carries out a run whose adversary has been set up, for at most so many events. -/
def simulate [WordSource σ] (run : Run α) (events : Nat) (a : α) (supply : Supply σ) :
    Except (Failure α) (Outcome × State α σ) := do
  let s ← orFail (run.start a supply)
  let (verdict, s) ← orFail (run.loop events s)
  match verdict with
  | some v => return (run.report v s, s)
  | none => throw .unfinished

end Run

end BalanceAttack
