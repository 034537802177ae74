import BalanceAttack.Proofs.Records
import Mathlib.Algebra.BigOperators.Group.List.Lemmas
import Mathlib.Algebra.Ring.Nat
import Mathlib.Data.List.Induction
import Mathlib.Data.String.Basic
import Mathlib.Order.Bounds.Basic

/-!
# BalanceAttack.Proofs.Alignment

The aligned layout, read by its characters.  A column is as wide as its longest text in
bytes, which is enough for all of its texts in characters, so that every text is filled up
to the width of its column and stands where the others of its column do.

* `length_le_utf8ByteSize` — a text has no more characters than bytes;
* `isGreatest_widths` — how wide a column is;
* `inColumns_alignedLine` — where the texts of a line stand;
* `cut_alignedText` — the lines of an aligned text;
* `Report.aligned_table` — all of this, for the tables of reports.
-/

namespace BalanceAttack

namespace Layout

/-! ## texts and their widths -/

/-- A text has no more characters than bytes. -/
theorem length_le_utf8ByteSize (s : String) : s.length ≤ s.utf8ByteSize := by
  have hchars : ∀ cs : List Char, cs.length ≤ String.utf8Len cs := by
    intro cs
    induction cs with
    | nil => simp
    | cons c cs ih =>
        have hpos := c.utf8Size_pos
        simp only [List.length_cons, String.utf8Len_cons]
        omega
  simpa only [← String.utf8ByteSize_ofList, String.ofList_toList, String.length_toList]
    using hchars s.toList

theorem toList_pushn (s : String) (c : Char) (n : Nat) :
    (s.pushn c n).toList = s.toList ++ List.replicate n c := by
  rw [String.pushn_eq_repeat_push]
  induction n with
  | zero => simp [Nat.repeat]
  | succ n ih => simp [Nat.repeat, ih, List.replicate_succ']

/-- The sizes in bytes of the texts of a column. -/
def sizes (lines : List (List String)) (i : Nat) : Set Nat :=
  {n | ∃ fields ∈ lines, ∃ s, fields[i]? = some s ∧ s.utf8ByteSize = n}

theorem sizes_append_singleton {lines : List (List String)} {fields : List String} {i : Nat}
    {s : String} (hs : fields[i]? = some s) :
    sizes (lines ++ [fields]) i = sizes lines i ∪ {s.utf8ByteSize} := by
  ext n
  simp [sizes, hs, eq_comm, or_and_right, exists_or, or_comm]

theorem widths_append_singleton (titles : List String) (rows : List (List String))
    (row : List String) : widths titles (rows ++ [row]) =
      (widths titles rows).zipWith (fun w s => max w s.utf8ByteSize) row := by
  simp [widths]

section Widths

variable {titles : List String} {rows : List (List String)}
  (hrows : ∀ row ∈ rows, row.length = titles.length)
include hrows

theorem length_widths : (widths titles rows).length = titles.length := by
  induction rows using List.reverseRecOn with
  | nil => simp [widths]
  | append_singleton rows row ih =>
      rw [List.forall_mem_append, List.forall_mem_singleton] at hrows
      rw [widths_append_singleton, List.length_zipWith, ih hrows.1, hrows.2, min_self]

/-- **A column is as wide as the greatest of its texts**, in bytes. -/
theorem isGreatest_widths {i w : Nat} (hw : (widths titles rows)[i]? = some w) :
    IsGreatest (sizes (titles :: rows) i) w := by
  induction rows using List.reverseRecOn generalizing w with
  | nil =>
      obtain ⟨title, htitle, rfl⟩ : ∃ title, titles[i]? = some title ∧ title.utf8ByteSize = w := by
        simpa [widths] using hw
      have hsole : sizes [titles] i = {title.utf8ByteSize} := by
        ext n
        simp [sizes, htitle, eq_comm]
      exact hsole ▸ isGreatest_singleton
  | append_singleton rows row ih =>
      rw [List.forall_mem_append, List.forall_mem_singleton] at hrows
      rw [widths_append_singleton, List.getElem?_zipWith_eq_some] at hw
      obtain ⟨w, s, hw, hs, rfl⟩ := hw
      rw [← List.cons_append, sizes_append_singleton hs]
      exact (ih hrows.1 hw).union isGreatest_singleton

end Widths

/-! ## lines -/

/-- The number of characters of a line with columns of some widths. -/
def lineLength (ws : List Nat) : Nat := (ws.map (· + 3)).sum

/-- Where a column starts in a line. -/
def start (ws : List Nat) (i : Nat) : Nat := lineLength (ws.take i)

/-- What stands in a column: a text filled up to the width of the column, and a bar. -/
def stretch (w : Nat) (s : String) : List Char :=
  ' ' :: s.toList ++ List.replicate (w - s.length) ' ' ++ [' ', '|']

theorem length_stretch {w : Nat} {s : String} (h : s.length ≤ w) :
    (stretch w s).length = w + 3 := by
  simp only [stretch, List.length_append, List.length_cons, List.length_replicate,
    String.length_toList, List.length_nil]
  omega

/-- A line whose fields stand in columns of some widths. -/
structure InColumns (ws : List Nat) (fields : List String) (line : String) : Prop where
  length : line.length = lineLength ws
  fits : ∀ (i w : Nat) (s : String), ws[i]? = some w → fields[i]? = some s → s.length ≤ w
  place : ∀ (i w : Nat) (s : String), ws[i]? = some w → fields[i]? = some s →
    (line.toList.drop (start ws i)).take (w + 3) = stretch w s

theorem toList_alignedLine (ws : List Nat) (fields : List String) :
    (alignedLine ws fields).toList = (ws.zipWith stretch fields).flatten := by
  have hstretch : ∀ w s, (" " ++ pad w s ++ " |").toList = stretch w s := by
    simp [pad, stretch, toList_pushn]
  simp only [alignedLine, String.toList_join, List.flatMap_def, List.map_zipWith, hstretch]

/-- **Fields that are not too long stand in their columns.** -/
theorem inColumns_alignedLine {ws : List Nat} {fields : List String}
    (hlength : fields.length = ws.length)
    (hfits : ∀ (i w : Nat) (s : String), ws[i]? = some w → fields[i]? = some s → s.length ≤ w) :
    InColumns ws fields (alignedLine ws fields) := by
  have hstretches : (ws.zipWith stretch fields).map List.length = ws.map (· + 3) := by
    refine List.ext_getElem (by simp [hlength]) fun i hi _ => ?_
    simp only [List.length_map, List.length_zipWith] at hi
    simpa using length_stretch (hfits i _ _ (List.getElem?_eq_getElem (by omega))
      (List.getElem?_eq_getElem (by omega)))
  refine ⟨?_, hfits, fun i w s hw hs => ?_⟩
  · rw [← String.length_toList, toList_alignedLine, List.length_flatten, hstretches, lineLength]
  · have hget : (ws.zipWith stretch fields)[i]? = some (stretch w s) :=
      List.getElem?_zipWith_eq_some.2 ⟨w, s, hw, hs, rfl⟩
    obtain ⟨hi, hstretch⟩ := List.getElem?_eq_some_iff.1 hget
    have hcut : ((alignedLine ws fields).toList.take (start ws (i + 1))).drop (start ws i) =
        stretch w s := by
      rw [toList_alignedLine, start, start, lineLength, lineLength, List.map_take, List.map_take,
        ← hstretches, List.drop_take_succ_flatten_eq_getElem _ i hi, hstretch]
    have hend : start ws (i + 1) = start ws i + (w + 3) := by
      simp [start, lineLength, List.take_add_one, hw]
    rwa [hend, List.drop_take, Nat.add_sub_cancel_left] at hcut

theorem toList_rule (ws : List Nat) : (rule ws).toList = List.replicate (lineLength ws) '-' := by
  have htotal : ws.foldl (fun total w => total + (w + 3)) 0 = lineLength ws := by
    rw [lineLength, List.sum_eq_foldl, List.foldl_map]
  simp [rule, toList_pushn, htotal]

theorem not_mem_alignedLine {ws : List Nat} {fields : List String}
    (h : ∀ field ∈ fields, '\n' ∉ field.toList) : '\n' ∉ (alignedLine ws fields).toList := by
  intro hbreak
  rw [toList_alignedLine] at hbreak
  obtain ⟨chars, hchars, hbreak⟩ := List.mem_flatten.1 hbreak
  obtain ⟨i, hi⟩ := List.getElem?_of_mem hchars
  obtain ⟨w, s, -, hs, rfl⟩ := List.getElem?_zipWith_eq_some.1 hi
  have hfield := h s (List.mem_of_getElem? hs)
  simp [stretch, hfield] at hbreak

/-- **The lines of an aligned text**: the titles, the rule, and one for each row. -/
theorem cut_alignedText {titles : List String} {rows : List (List String)}
    (h : ∀ fields ∈ titles :: rows, ∀ field ∈ fields, '\n' ∉ field.toList) :
    let ws := widths titles rows
    cut '\n' (alignedText titles rows) =
      alignedLine ws titles :: rule ws :: rows.map (alignedLine ws) := by
  intro ws
  have htext : alignedText titles rows = (String.singleton '\n').intercalate
      (alignedLine ws titles :: rule ws :: rows.map (alignedLine ws)) := rfl
  have hrule : '\n' ∉ (rule ws).toList := by simp [toList_rule]
  rw [List.forall_mem_cons] at h
  rw [htext]
  refine cut_intercalate (by simp) ?_
  simp only [List.forall_mem_cons, List.forall_mem_map]
  exact ⟨not_mem_alignedLine h.1, hrule, fun row hrow => not_mem_alignedLine (h.2 row hrow)⟩

/-! ## aligned texts -/

/-- The lines of titles and rows in columns, the widths of which are the greatest sizes of
their texts in bytes. -/
structure Aligned (ws : List Nat) (titles : List String) (rows : List (List String))
    (lines : List String) : Prop where
  columns : ws.length = titles.length
  widest : ∀ (i w : Nat), ws[i]? = some w → IsGreatest (sizes (titles :: rows) i) w
  count : lines.length = 2 + rows.length
  length : ∀ line ∈ lines, line.length = lineLength ws
  top : ∃ line, lines[0]? = some line ∧ InColumns ws titles line
  rule : ∃ line, lines[1]? = some line ∧ line.toList = List.replicate (lineLength ws) '-'
  body : ∀ (k : Nat) (row : List String), rows[k]? = some row →
    ∃ line, lines[k + 2]? = some line ∧ InColumns ws row line

/-- Rows with a text for each title are aligned, if no text breaks a line. -/
theorem aligned_cut {titles : List String} {rows : List (List String)}
    (hrows : ∀ row ∈ rows, row.length = titles.length)
    (h : ∀ fields ∈ titles :: rows, ∀ field ∈ fields, '\n' ∉ field.toList) :
    Aligned (widths titles rows) titles rows (cut '\n' (alignedText titles rows)) := by
  have hwidths := length_widths hrows
  have hinColumns : ∀ fields ∈ titles :: rows,
      InColumns (widths titles rows) fields (alignedLine (widths titles rows) fields) := by
    intro fields hfields
    have hlength : fields.length = titles.length := by
      rcases List.mem_cons.1 hfields with rfl | hrow
      · rfl
      · exact hrows fields hrow
    refine inColumns_alignedLine (hlength.trans hwidths.symm) fun i w s hw hs => ?_
    have hsize : s.utf8ByteSize ≤ w :=
      (isGreatest_widths hrows hw).2 ⟨fields, hfields, s, hs, rfl⟩
    exact (length_le_utf8ByteSize s).trans hsize
  rw [List.forall_mem_cons] at hinColumns
  rw [cut_alignedText h]
  refine ⟨hwidths, fun i w => isGreatest_widths hrows, ?_, ?_, ⟨_, rfl, hinColumns.1⟩,
    ⟨_, rfl, toList_rule _⟩, fun k row hrow => ?_⟩
  · simp only [List.length_cons, List.length_map]
    omega
  · simp only [List.forall_mem_cons, List.forall_mem_map]
    refine ⟨hinColumns.1.length, ?_, fun row hrow => (hinColumns.2 row hrow).length⟩
    rw [← String.length_toList, toList_rule, List.length_replicate]
  · refine ⟨_, ?_, hinColumns.2 row (List.mem_of_getElem? hrow)⟩
    simp [hrow]

end Layout

namespace Report

/-- **Aligned tables.**  If no title and no cell of a report breaks a line, then all lines of
its table are equally long, and the cells of a column stand at the same place in each. -/
theorem aligned_table (r : Report)
    (h : ∀ fields ∈ r.table.titles :: r.table.fields, ∀ field ∈ fields, '\n' ∉ field.toList) :
    ∃ ws, Layout.Aligned ws r.table.titles r.table.fields
      (Layout.cut '\n' { r.table with layout := .aligned }.text) :=
  ⟨_, Layout.aligned_cut (fun _ => length_of_mem_fields) h⟩

/-- The title of seven characters takes ten bytes, and the column is as wide. -/
theorem aligned_table_accented :
    let r := soleReport.selectAll [.constant ⟨"Größe ½", 1⟩]
    Layout.cut '\n' { r.table with layout := .aligned }.text =
      [" Evil Rate | Größe ½    | Fork Duration (ms) |",
        "----------------------------------------------",
        " 0.200000  | 1.000000   | 100                |"] ∧
    ∃ ws, Layout.Aligned ws r.table.titles r.table.fields
      (Layout.cut '\n' { r.table with layout := .aligned }.text) := by
  intro r
  exact ⟨by decide +kernel, aligned_table r (by decide +kernel)⟩

end Report

end BalanceAttack
