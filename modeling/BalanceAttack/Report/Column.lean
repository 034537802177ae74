import BalanceAttack.Decimal.Fixed
import BalanceAttack.Median
import BalanceAttack.Run.Outcome

/-!
# BalanceAttack.Report.Column

The columns of a report and what stands in their cells.  A column shows a
parameter of the environment, a value computed from the evil rate, a constant,
or a measurement.  Measurements differ between the repeats of an environment,
so they are what an average is taken of; everything else is taken from the
first repeat.

Columns are ordered by kind, in the order of the constructors; columns of a
kind that has titles are ordered by title.  `Column.insert` keeps a list of
columns in order and without two equal ones, the first of which stays.
-/

namespace BalanceAttack

/-- A value under a title, by which alone it is compared. -/
structure Titled (α : Type) where
  title : String
  value : α

namespace Titled

variable {α : Type}

instance : BEq (Titled α) := ⟨fun a b => a.title == b.title⟩

instance : Ord (Titled α) := ⟨fun a b => compare a.title b.title⟩

instance : Hashable (Titled α) := ⟨fun a => hash a.title⟩

/-- A titled function in words. -/
def describe (t : Titled α) : String := "<WrapFunc: " ++ t.title ++ ">"

end Titled

/-- What stands in a cell of a report. -/
inductive Cell where
  | text (s : String)
  | integer (n : Int)
  | float (x : Float)

/-- The number of decimal places of floats in a report. -/
def Cell.places : Nat := 6

/-- A cell as it is written. -/
def Cell.render : Cell → String
  | text s => s
  | integer n => toString n
  | float x => Decimal.fixed places x

/-- A way to make one number of the measurements of repeated runs. -/
inductive Average where
  | mean
  | median
  | max
  | min
  deriving DecidableEq, Repr

namespace Average

/-- The title of the column with the number of averaged runs. -/
def title : Average → String
  | mean => "Mean Of"
  | median => "Median Of"
  | max => "Max Of"
  | min => "Min Of"

/-- The average of some values. -/
def of : Average → List Float → Float
  | mean, xs => xs.foldl (· + ·) 0 / Whole.toFloat xs.length
  | median, xs => BalanceAttack.median xs
  | max, xs => xs.foldl (fun m x => if m < x then x else m) (-1 / 0)
  | min, xs => xs.foldl (fun m x => if x < m then x else m) (1 / 0)

end Average

/-- What is the same for all repeats of an environment. -/
inductive Parameter where
  | strategyName
  | topology
  | nodes
  | degree
  | latency
  | blockPeriod
  | evilRate
  deriving DecidableEq, Repr

namespace Parameter

/-- The place of a parameter among them. -/
def rank : Parameter → Nat
  | strategyName => 0
  | topology => 1
  | nodes => 2
  | degree => 3
  | latency => 4
  | blockPeriod => 5
  | evilRate => 6

def title : Parameter → String
  | strategyName => "Strategy"
  | topology => "Topology"
  | nodes => "Nodes"
  | degree => "Degree"
  | latency => "Latency (ms)"
  | blockPeriod => "Block Period (ms)"
  | evilRate => "Evil Rate"

/-- The cell of a parameter. -/
def cell (o : Outcome) : Parameter → Cell
  | strategyName => .text o.strategy
  | topology => .text o.env.topology.name
  | nodes => .integer (Whole.signed o.env.nodes)
  | degree => .integer (Whole.signed o.env.degree)
  | latency => .integer o.env.latency
  | blockPeriod => .float o.env.blockPeriod
  | evilRate => .float o.env.evilRate

end Parameter

/-- What is measured in each run. -/
inductive Measure where
  | forkDuration
  | converged
  | blocksMined
  | adversaryBlocks
  | releasedBlocks
  | withheldBlocks
  | borrowedBlocks
  | diameter
  deriving DecidableEq, Repr

namespace Measure

/-- The place of a measurement among them. -/
def rank : Measure → Nat
  | forkDuration => 0
  | converged => 1
  | blocksMined => 2
  | adversaryBlocks => 3
  | releasedBlocks => 4
  | withheldBlocks => 5
  | borrowedBlocks => 6
  | diameter => 7

def title : Measure → String
  | forkDuration => "Fork Duration (ms)"
  | converged => "Converged"
  | blocksMined => "Blocks Mined"
  | adversaryBlocks => "Adversary Blocks"
  | releasedBlocks => "Released Blocks"
  | withheldBlocks => "Withheld Blocks"
  | borrowedBlocks => "Borrowed Blocks"
  | diameter => "Diameter (ms)"

/-- The integer that was measured; a run that converged counts one. -/
def count (o : Outcome) : Measure → Int
  | forkDuration => o.forkDuration
  | converged => if o.converged then 1 else 0
  | blocksMined => o.blocksMined
  | adversaryBlocks => o.adversaryBlocks
  | releasedBlocks => o.releasedBlocks
  | withheldBlocks => o.withheldBlocks
  | borrowedBlocks => o.borrowedBlocks
  | diameter => o.diameter

/-- A measurement as a float, the form in which all measurements are kept. -/
def value (m : Measure) (o : Outcome) : Float := Whole.toFloat (m.count o)

end Measure

/-- A column of a report. -/
inductive Column where
  | parameter (p : Parameter)
  /-- A function of the evil rate. -/
  | evilRateFunction (f : Titled (Float → Float))
  | constant (c : Titled Float)
  /-- The number of runs an average is taken of. -/
  | averageOf (a : Average)
  | measure (m : Measure)

namespace Column

/-- The title of a column. -/
def title : Column → String
  | parameter p => p.title
  | evilRateFunction f => f.title
  | constant c => c.title
  | averageOf a => a.title
  | measure m => m.title

/-- The place of the kind of a column. -/
def rank : Column → Nat
  | parameter p => p.rank
  | evilRateFunction _ => 7
  | constant _ => 8
  | averageOf _ => 9
  | measure m => 10 + m.rank

/-- What orders the columns of a kind. -/
def given : Column → String
  | evilRateFunction f => f.title
  | constant c => c.title
  | _ => ""

instance : Ord Column :=
  ⟨fun a b => (compare a.rank b.rank).then (compare a.given b.given)⟩

/-- Puts a column at its place in an ordered list, unless an equal one is there. -/
def insert (c : Column) : List Column → List Column
  | [] => [c]
  | d :: ds =>
    match compare c d with
    | .lt => c :: d :: ds
    | .eq => d :: ds
    | .gt => d :: insert c ds

/-- The cell of a column for the repeats of an environment, of which there is
at least one.  Without an average only the first repeat counts. -/
def cell (average : Option Average) (first : Outcome) (rest : List Outcome) : Column → Cell
  | parameter p => p.cell first
  | evilRateFunction f => .float (f.value first.env.evilRate)
  | constant c => .float c.value
  | averageOf _ => .integer (rest.length + 1)
  | measure m =>
    match average with
    | none => .integer (Whole.ofFloat (m.value first))
    | some a => .float (a.of ((first :: rest).map m.value))

end Column

end BalanceAttack
