/-!
# BalanceAttack.Report.Layout

How a table of texts is laid out: as comma-separated values, or with its
columns aligned.  In the aligned layout a column is as wide as the longest of
its texts, in bytes, and texts are filled up with blanks by their number of
characters; as a character takes at least a byte, no text is too long.
-/

namespace BalanceAttack

/-- The layout of a report. -/
inductive Layout where
  | csv
  | aligned
  deriving DecidableEq, Repr

namespace Layout

/-- The lines of a text, joined. -/
def unlines (lines : List String) : String := "\n".intercalate lines

/-- Comma-separated values: one line for the titles and one for each row. -/
def csvText (titles : List String) (rows : List (List String)) : String :=
  unlines ((titles :: rows).map fun fields => ",".intercalate fields)

/-- The width of each column: the greatest size of its texts in bytes. -/
def widths (titles : List String) (rows : List (List String)) : List Nat :=
  rows.foldl (fun ws row => ws.zipWith (fun w s => max w s.utf8ByteSize) row)
    (titles.map String.utf8ByteSize)

/-- A text filled up with blanks to a number of characters. -/
def pad (width : Nat) (s : String) : String := s.pushn ' ' (width - s.length)

/-- A line of the aligned layout. -/
def alignedLine (ws : List Nat) (fields : List String) : String :=
  String.join (ws.zipWith (fun w s => " " ++ pad w s ++ " |") fields)

/-- The line between the titles and the rows. -/
def rule (ws : List Nat) : String := "".pushn '-' (ws.foldl (fun total w => total + (w + 3)) 0)

/-- The titles, a line, and the rows, in aligned columns. -/
def alignedText (titles : List String) (rows : List (List String)) : String :=
  let ws := widths titles rows
  unlines (alignedLine ws titles :: rule ws :: rows.map (alignedLine ws))

/-- A table in a layout. -/
def text (titles : List String) (rows : List (List String)) : Layout → String
  | csv => csvText titles rows
  | aligned => alignedText titles rows

end Layout

end BalanceAttack
