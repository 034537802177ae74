import BalanceAttack.Adversary.Balancer
import BalanceAttack.Campaign
import BalanceAttack.Report.Table

/-!
# BalanceAttack.Main

The command line.  It takes no arguments, attacks one network under the
default parameters, and prints what became of it and how long that took.
-/

open BalanceAttack

namespace BalanceAttack

/-- One attack under the default parameters. -/
def singleAttack : Campaign := { environments := [{}] }

/-- What is printed of it. -/
def shownColumns : List Selection :=
  [.strategyName, .environment, .converged, .adversaryBlocks, .borrowedBlocks, .diameter]

example : singleAttack.defect = none := by decide +kernel

end BalanceAttack

def main : IO Unit := do
  let start ← IO.monoMsNow
  match singleAttack.runAll Balancer.adversary {} with
  | .error failure =>
    throw (IO.userError (failure.message?.getD "the run was cut short"))
  | .ok outcomes =>
    let report : Report := { outcomes, repeats := singleAttack.repeats }
    IO.println (report.selectAll shownColumns).table.text
    let stop ← IO.monoMsNow
    IO.println ("executed " ++ toString outcomes.length ++ " attack simulations in " ++
      toString (stop - start) ++ "ms")
