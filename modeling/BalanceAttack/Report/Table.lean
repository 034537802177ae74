import BalanceAttack.Report.Column
import BalanceAttack.Report.Layout

/-!
# BalanceAttack.Report.Table

Reports on the outcomes of runs.  A report is put together by selections,
each of which adds columns or sets how the table is made; the table then has
the selected columns, the evil rate and the fork duration.  Without an average
there is a row for each run, with one a row for each environment.
-/

namespace BalanceAttack

/-- A choice made for a report. -/
inductive Selection where
  /-- Every column that needs no title. -/
  | all
  | strategyName
  | environment
  | converged
  | blocksMined
  | adversaryBlocks
  | borrowedBlocks
  | diameter
  | constant (c : Titled Float)
  | evilRateFunction (f : Titled (Float → Float))
  | average (a : Option Average)
  | layout (l : Layout)

/-- The columns that a selection adds. -/
def Selection.columns : Selection → List Column
  | all =>
    [.parameter .strategyName, .parameter .topology, .parameter .nodes, .parameter .degree,
      .parameter .latency, .parameter .blockPeriod, .measure .converged, .measure .blocksMined,
      .measure .adversaryBlocks, .measure .releasedBlocks, .measure .withheldBlocks,
      .measure .borrowedBlocks, .measure .diameter]
  | strategyName => [.parameter .strategyName]
  | environment =>
    [.parameter .topology, .parameter .nodes, .parameter .degree, .parameter .latency,
      .parameter .blockPeriod]
  | converged => [.measure .converged]
  | blocksMined => [.measure .blocksMined]
  | adversaryBlocks =>
    [.measure .adversaryBlocks, .measure .releasedBlocks, .measure .withheldBlocks]
  | borrowedBlocks => [.measure .borrowedBlocks]
  | diameter => [.measure .diameter]
  | constant c => [.constant c]
  | evilRateFunction f => [.evilRateFunction f]
  | average _ => []
  | layout _ => []

/-- A table of cells. -/
structure Table where
  columns : List Column
  rows : List (List Cell)
  layout : Layout

namespace Table

/-- The titles of the columns. -/
def titles (t : Table) : List String := t.columns.map Column.title

/-- The rows as they are written. -/
def fields (t : Table) : List (List String) := t.rows.map fun row => row.map Cell.render

/-- A table as it is written. -/
def text (t : Table) : String := t.layout.text t.titles t.fields

end Table

/-- A report on runs of some environments, all repeated equally often. -/
structure Report where
  outcomes : List Outcome
  repeats : Nat
  average : Option Average := none
  /-- The selected columns, in order. -/
  columns : List Column := []
  layout : Layout := .aligned

namespace Report

/-- Adds columns that are not there yet. -/
def add (r : Report) (cs : List Column) : Report :=
  { r with columns := cs.foldl (fun columns c => Column.insert c columns) r.columns }

/-- Makes a choice for a report. -/
def select (r : Report) (s : Selection) : Report :=
  let r := r.add s.columns
  match s with
  | .average average => { r with average }
  | .layout layout => { r with layout }
  | _ => r

/-- Makes choices for a report, in order. -/
def selectAll (r : Report) (ss : List Selection) : Report := ss.foldl select r

/-- A list in groups of a size, each as its first element and the others; the
last group may be smaller. -/
def groups {α : Type} (size : Nat) : List α → List (α × List α)
  | [] => []
  | x :: xs => (x, xs.take (size - 1)) :: groups size (xs.drop (size - 1))
termination_by xs => xs.length
decreasing_by rw [List.length_drop, List.length_cons]; omega

/-- The outcomes that share a row. -/
def rowGroups (r : Report) : List (Outcome × List Outcome) :=
  match r.average with
  | none => r.outcomes.map (·, [])
  | some _ => groups r.repeats r.outcomes

/-- The columns of every report beside the selected ones. -/
def fixedColumns (r : Report) : List Column :=
  [.parameter .evilRate, .measure .forkDuration] ++ (r.average.map Column.averageOf).toList

/-- The table of a report. -/
def table (r : Report) : Table :=
  let columns := (r.add r.fixedColumns).columns
  { columns
    rows := r.rowGroups.map fun (first, rest) => columns.map (Column.cell r.average first rest)
    layout := r.layout }

end Report

end BalanceAttack
