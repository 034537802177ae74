import BalanceAttack.Proofs.Repeats

/-!
# BalanceAttack.Proofs.Records

Comma-separated values, read back.  Nothing marks a comma or a line break that stands
in a field, so what is read back is what was written if and only if no field has one.
Numbers, and the texts that a report brings itself, have none; titles of constants
and functions and the names of strategies may:

* `Layout.records_csvText_iff` — which records are read back from their text;
* `Column.plain_title_iff`, `Column.plain_render_iff` — titles and cells without separators;
* `Report.forall_mem_columns` — what the columns of a table have in common;
* `Report.records_csv_iff` — which reports are read back.
-/

namespace BalanceAttack

/-! ## fields -/

/-- A field without a separator of fields or of lines. -/
def Plain (s : String) : Prop := ∀ c ∈ s.toList, c ≠ ',' ∧ c ≠ '\n'

instance : DecidablePred Plain :=
  fun s => List.decidableBAll (fun c => c ≠ ',' ∧ c ≠ '\n') s.toList

namespace Plain

@[simp] theorem append_iff {s t : String} : Plain (s ++ t) ↔ Plain s ∧ Plain t := by
  simp only [Plain, String.toList_append, List.forall_mem_append]

theorem push {s : String} {c : Char} (hs : Plain s) (hc : c ≠ ',' ∧ c ≠ '\n') :
    Plain (s.push c) := by
  rw [← String.append_singleton]
  exact append_iff.2 ⟨hs, by simpa [Plain] using hc⟩

theorem nat (n : Nat) : Plain (toString n) := by
  intro c hc
  rw [Nat.toString_eq_repr, Nat.toList_repr] at hc
  have hdigit := Nat.isDigit_of_mem_toDigits (by decide) (by decide) hc
  constructor <;> rintro rfl <;> contradiction

theorem int (n : Int) : Plain (toString n) := by
  cases n with
  | ofNat n => exact nat n
  | negSucc n => exact append_iff.2 ⟨by decide, nat (n + 1)⟩

theorem padZeros {s : String} (hs : Plain s) (length : Nat) :
    Plain (Decimal.padZeros length s) := by
  unfold Decimal.padZeros
  refine append_iff.2 ⟨?_, hs⟩
  rw [String.pushn_eq_repeat_push]
  induction length - s.length with
  | zero => decide
  | succ n ih => exact ih.push (by decide)

theorem withPlaces (n places : Nat) : Plain (Decimal.withPlaces n places) := by
  unfold Decimal.withPlaces
  split
  · exact nat n
  · simp only [append_iff]
    exact ⟨⟨nat _, by decide⟩, padZeros (nat _) places⟩

/-- A float is written without separators. -/
theorem fixed (places : Nat) (x : Float) : Plain (Decimal.fixed places x) := by
  have hsign : Plain (if Decimal.isNegative x then "-" else "") := by split <;> decide
  unfold Decimal.fixed Decimal.written
  split
  · decide
  · dsimp only
    split
    · exact append_iff.2 ⟨hsign, withPlaces _ _⟩
    · exact append_iff.2 ⟨hsign, by decide⟩

end Plain

/-! ## lines -/

namespace Layout

/-- A text cut at each place of a separator. -/
def cut (sep : Char) (s : String) : List String := (s.toList.splitOn sep).map String.ofList

/-- The fields of each line of a text. -/
def records (s : String) : List (List String) := (cut '\n' s).map (cut ',')

/-- Texts without a separator are what is left when they are joined with it and cut. -/
theorem cut_intercalate {sep : Char} {fields : List String} (hne : fields ≠ [])
    (h : ∀ field ∈ fields, sep ∉ field.toList) :
    cut sep ((String.singleton sep).intercalate fields) = fields := by
  unfold cut
  rw [String.toList_intercalate, String.toList_singleton,
    List.splitOn_intercalate sep (by simpa using h) (by simpa using hne), List.map_map]
  simp [Function.comp_def]

/-- A stretch of a list that is cut has only its elements, and not the separator. -/
theorem of_mem_splitOn {α : Type} [DecidableEq α] {sep a : α} {l stretch : List α}
    (h : stretch ∈ l.splitOn sep) (ha : a ∈ stretch) : a ∈ l ∧ a ≠ sep := by
  induction l generalizing stretch with
  | nil =>
      rw [List.splitOn_nil, List.mem_singleton] at h
      rw [h] at ha
      contradiction
  | cons b l ih =>
      have hlater : ∀ stretch ∈ l.splitOn sep, a ∈ stretch → a ∈ b :: l ∧ a ≠ sep :=
        fun _ h ha => (ih h ha).imp_left (List.mem_cons_of_mem b)
      rw [List.splitOn_cons_eq_if_modifyHead] at h
      split at h
      · rcases List.mem_cons.1 h with rfl | h
        · contradiction
        · exact hlater stretch h ha
      · next hb =>
          obtain ⟨first, rest, hsplit⟩ := List.exists_cons_of_ne_nil (List.splitOn_ne_nil sep l)
          rw [hsplit] at h hlater
          rcases List.mem_cons.1 h with rfl | h
          · rcases List.mem_cons.1 ha with rfl | ha
            · exact ⟨List.mem_cons_self, by simpa using hb⟩
            · exact hlater first List.mem_cons_self ha
          · exact hlater stretch (List.mem_cons_of_mem _ h) ha

theorem of_mem_cut {sep c : Char} {s piece : String} (h : piece ∈ cut sep s)
    (hc : c ∈ piece.toList) : c ∈ s.toList ∧ c ≠ sep := by
  obtain ⟨stretch, hstretch, rfl⟩ := List.mem_map.1 h
  rw [String.toList_ofList] at hc
  exact of_mem_splitOn hstretch hc

/-- What stands in joined texts stands in one of them, or in what they are joined with. -/
theorem of_mem_intercalate {sep : String} {c : Char} {fields : List String}
    (h : c ∈ (sep.intercalate fields).toList) :
    c ∈ sep.toList ∨ ∃ field ∈ fields, c ∈ field.toList := by
  induction fields with
  | nil => simp at h
  | cons field fields ih =>
      cases fields with
      | nil => exact .inr ⟨field, List.mem_cons_self, by simpa using h⟩
      | cons next fields =>
          rw [String.intercalate_cons_cons, String.toList_append, List.mem_append,
            String.toList_append, List.mem_append] at h
          rcases h with (h | h) | h
          · exact .inr ⟨field, List.mem_cons_self, h⟩
          · exact .inl h
          · exact (ih h).imp_right fun ⟨field, hmem, hc⟩ => ⟨field, List.mem_cons_of_mem _ hmem, hc⟩

/-- What is read back has no separators, whatever is read. -/
theorem plain_of_mem_records {s field : String} {fields : List String} (h : fields ∈ records s)
    (hfield : field ∈ fields) : Plain field := by
  obtain ⟨line, hline, rfl⟩ := List.mem_map.1 h
  intro c hc
  obtain ⟨hmem, hcomma⟩ := of_mem_cut hfield hc
  exact ⟨hcomma, (of_mem_cut hline hmem).2⟩

theorem csvText_eq (titles : List String) (rows : List (List String)) :
    csvText titles rows = (String.singleton '\n').intercalate
      ((titles :: rows).map (String.singleton ',').intercalate) := rfl

/-- **Records are read back from their text if and only if they have no separators.** -/
theorem records_csvText_iff {titles : List String} {rows : List (List String)}
    (hne : ∀ fields ∈ titles :: rows, fields ≠ []) :
    records (csvText titles rows) = titles :: rows ↔
      ∀ fields ∈ titles :: rows, ∀ field ∈ fields, Plain field := by
  constructor
  · intro h fields hfields field hfield
    rw [← h] at hfields
    exact plain_of_mem_records hfields hfield
  · intro hplain
    have hlines : cut '\n' (csvText titles rows) =
        (titles :: rows).map (String.singleton ',').intercalate := by
      rw [csvText_eq]
      refine cut_intercalate (by simp) fun line hline hbreak => ?_
      obtain ⟨fields, hfields, rfl⟩ := List.mem_map.1 hline
      rcases of_mem_intercalate hbreak with hsep | ⟨field, hfield, hbreak⟩
      · simp at hsep
      · exact (hplain fields hfields field hfield _ hbreak).2 rfl
    have hfields : ∀ fields ∈ titles :: rows,
        cut ',' ((String.singleton ',').intercalate fields) = fields := fun fields hmem =>
      cut_intercalate (hne fields hmem) fun field hfield hcomma =>
        (hplain fields hmem field hfield _ hcomma).1 rfl
    rw [records, hlines, List.map_map]
    exact (List.map_congr_left hfields).trans (List.map_id _)

end Layout

/-! ## columns -/

namespace Column

theorem compare_eq_iff {c d : Column} :
    compare c d = .eq ↔ c.rank = d.rank ∧ c.given = d.given := by
  show (compare c.rank d.rank).then (compare c.given d.given) = .eq ↔ _
  rw [Ordering.then_eq_eq, Std.compare_eq_iff_eq, Std.compare_eq_iff_eq]

/-- Only the column of the strategies has the first place. -/
theorem rank_eq_zero_iff {c : Column} : c.rank = 0 ↔ c = .parameter .strategyName := by
  cases c with
  | parameter p => cases p <;> simp [rank, Parameter.rank]
  | measure m => simp [rank]
  | _ => simp [rank]

/-- A title has no separators unless it was given one. -/
theorem plain_title_iff {c : Column} : Plain c.title ↔ Plain c.given := by
  cases c with
  | parameter p => cases p <;> decide
  | evilRateFunction f => rfl
  | constant c => rfl
  | averageOf a => cases a <;> decide
  | measure m => cases m <;> decide

/-- A cell has no separators, except for the names of strategies. -/
theorem plain_render_iff {average : Option Average} {first : Outcome} {rest : List Outcome}
    {c : Column} : Plain (c.cell average first rest).render ↔
      (c = .parameter .strategyName → Plain first.strategy) := by
  have hinteger : ∀ n : Int, Plain (Cell.integer n).render := Plain.int
  have hfloat : ∀ x : Float, Plain (Cell.float x).render := Plain.fixed Cell.places
  cases c with
  | parameter p =>
      cases p with
      | strategyName => simp [cell, Parameter.cell, Cell.render]
      | topology =>
          have hname : Plain first.env.topology.name := by cases first.env.topology <;> decide
          simpa [cell, Parameter.cell, Cell.render] using hname
      | _ => simp [cell, Parameter.cell, hinteger, hfloat]
  | measure m => cases average <;> simp [cell, hinteger, hfloat]
  | _ => simp [cell, hinteger, hfloat]

end Column

/-! ## the columns of a table -/

theorem Report.columns_select (r : Report) (s : Selection) :
    (r.select s).columns = (r.add s.columns).columns := by
  cases s <;> rfl

section Shared

variable {P : Column → Prop} (hP : ∀ c d : Column, c.rank = d.rank → c.given = d.given → P c → P d)
include hP

/-- What is shared by equal columns is shared by all columns of a list with a new one if and
only if it is by those of the list and the new one. -/
theorem Column.forall_mem_insert {c : Column} {ds : List Column} :
    (∀ d ∈ insert c ds, P d) ↔ P c ∧ ∀ d ∈ ds, P d := by
  induction ds with
  | nil => simp [insert]
  | cons d ds ih =>
      rw [insert]
      split
      · simp
      · next heq =>
          obtain ⟨hrank, hgiven⟩ := compare_eq_iff.1 heq
          -- the new column is left out, but another of its kind is there
          exact ⟨fun h => ⟨hP d c hrank.symm hgiven.symm (h d List.mem_cons_self), h⟩, And.right⟩
      · rw [List.forall_mem_cons, ih, List.forall_mem_cons, and_left_comm]

namespace Report

theorem forall_mem_add {r : Report} {cs : List Column} :
    (∀ d ∈ (r.add cs).columns, P d) ↔ (∀ d ∈ r.columns, P d) ∧ ∀ c ∈ cs, P c := by
  unfold add
  dsimp only
  induction cs generalizing r with
  | nil => simp
  | cons c cs ih =>
      rw [List.foldl_cons, ih (r := { r with columns := Column.insert c r.columns }),
        Column.forall_mem_insert hP, List.forall_mem_cons, and_left_comm, and_assoc]

theorem forall_mem_selectAll {r : Report} {ss : List Selection} :
    (∀ d ∈ (r.selectAll ss).columns, P d) ↔
      (∀ d ∈ r.columns, P d) ∧ ∀ s ∈ ss, ∀ c ∈ s.columns, P c := by
  induction ss generalizing r with
  | nil => simp [selectAll]
  | cons s ss ih =>
      rw [selectAll, List.foldl_cons, ← selectAll, ih, columns_select, forall_mem_add hP,
        List.forall_mem_cons, and_assoc]

/-- The columns of a table are those of the report and the fixed ones, as far as they differ. -/
theorem forall_mem_columns {r : Report} :
    (∀ d ∈ r.table.columns, P d) ↔ (∀ d ∈ r.columns, P d) ∧ ∀ d ∈ r.fixedColumns, P d :=
  forall_mem_add hP

end Report

end Shared

/-! ## reports -/

namespace Selection

/-- The columns that a selection adds, as far as separators can stand in them. -/
theorem forall_mem_columns {s : Selection} {named : Prop} :
    (∀ c ∈ s.columns, Plain c.given ∧ (c = .parameter .strategyName → named)) ↔
      (∀ c, s = .constant c → Plain c.title) ∧
      (∀ f, s = .evilRateFunction f → Plain f.title) ∧
      (s = .strategyName ∨ s = .all → named) := by
  have hempty : Plain "" := by decide
  cases s <;> simp [columns, Column.given, hempty]

end Selection

namespace Report

variable {r : Report}

/-- A table has a column. -/
theorem columns_table_ne_nil (r : Report) : r.table.columns ≠ [] := by
  intro hempty
  have hnone := (forall_mem_columns (P := fun _ => False) (fun _ _ _ _ h => h) (r := r)).1
    (by rw [hempty]; exact fun _ h => nomatch h)
  exact hnone.2 (.parameter .evilRate) (by simp [fixedColumns])

theorem length_titles : r.table.titles.length = r.table.columns.length := List.length_map _

/-- Each row of a table has a cell for each of its columns. -/
theorem length_of_mem_fields {row : List String} (h : row ∈ r.table.fields) :
    row.length = r.table.titles.length := by
  rw [fields_table] at h
  obtain ⟨group, _, rfl⟩ := List.mem_map.1 h
  rw [length_titles, List.length_map, List.length_map]

/-- A column whose title has no separators, and whose cells have none either. -/
def Separable (r : Report) (c : Column) : Prop :=
  Plain c.given ∧ (c = .parameter .strategyName → ∀ group ∈ r.rowGroups, Plain group.1.strategy)

theorem separable_congr {c d : Column} (hrank : c.rank = d.rank) (hgiven : c.given = d.given)
    (h : r.Separable c) : r.Separable d := by
  rw [Separable, ← Column.rank_eq_zero_iff] at h ⊢
  rwa [← hrank, ← hgiven]

/-- The titles and cells of a table have no separators if those of its columns have none. -/
theorem plain_fields_iff :
    (∀ fields ∈ r.table.titles :: r.table.fields, ∀ field ∈ fields, Plain field) ↔
      ∀ c ∈ r.table.columns, r.Separable c := by
  have htitles : (∀ field ∈ r.table.titles, Plain field) ↔
      ∀ c ∈ r.table.columns, Plain c.given := by
    rw [Table.titles, List.forall_mem_map]
    exact forall₂_congr fun c _ => Column.plain_title_iff
  have hfields : (∀ fields ∈ r.table.fields, ∀ field ∈ fields, Plain field) ↔
      ∀ group ∈ r.rowGroups, ∀ c ∈ r.table.columns,
        c = .parameter .strategyName → Plain group.1.strategy := by
    rw [fields_table, List.forall_mem_map]
    refine forall₂_congr fun group _ => ?_
    rw [List.forall_mem_map, List.forall_mem_map]
    exact forall₂_congr fun c _ => Column.plain_render_iff
  rw [List.forall_mem_cons, htitles, hfields]
  constructor
  · intro h c hc
    exact ⟨h.1 c hc, fun hname group hgroup => h.2 group hgroup c hc hname⟩
  · intro h
    exact ⟨fun c hc => (h c hc).1, fun group hgroup c hc hname => (h c hc).2 hname group hgroup⟩

theorem fixedColumns_separable : ∀ c ∈ r.fixedColumns, r.Separable c := by
  have hempty : Plain "" := by decide
  cases haverage : r.average <;> simp [fixedColumns, haverage, Separable, Column.given, hempty]

/-- The records of a table are read back if its columns have no separators. -/
theorem records_iff (r : Report) :
    Layout.records { r.table with layout := .csv }.text = r.table.titles :: r.table.fields ↔
      ∀ c ∈ r.columns, r.Separable c := by
  have hsome : 0 < r.table.titles.length := by
    rw [length_titles]
    exact List.length_pos_iff.2 r.columns_table_ne_nil
  have hne : ∀ fields ∈ r.table.titles :: r.table.fields, fields ≠ [] := by
    intro fields hmem
    rcases List.mem_cons.1 hmem with rfl | hrow
    · exact List.ne_nil_of_length_pos hsome
    · exact List.ne_nil_of_length_pos (length_of_mem_fields hrow ▸ hsome)
  have htext : { r.table with layout := .csv }.text =
      Layout.csvText r.table.titles r.table.fields := rfl
  rw [htext, Layout.records_csvText_iff hne, plain_fields_iff,
    forall_mem_columns fun _ _ => separable_congr]
  exact and_iff_left fixedColumns_separable

/-- **Which reports are read back** as comma-separated values: those in which no title of a
constant or of a function has a separator and, if there is a column of strategies, no name of
one has.  Every row has a cell for each column. -/
theorem records_csv_iff (outcomes : List Outcome) (repeats : Nat) (ss : List Selection) :
    let r := selectAll { outcomes, repeats } ss
    (∀ row ∈ r.table.fields, row.length = r.table.titles.length) ∧
    (Layout.records { r.table with layout := .csv }.text = r.table.titles :: r.table.fields ↔
      (∀ c, .constant c ∈ ss → Plain c.title) ∧
      (∀ f, .evilRateFunction f ∈ ss → Plain f.title) ∧
      (.strategyName ∈ ss ∨ .all ∈ ss → ∀ group ∈ r.rowGroups, Plain group.1.strategy)) := by
  intro r
  have hcolumns : (∀ c ∈ r.columns, r.Separable c) ↔ ∀ s ∈ ss, ∀ c ∈ s.columns, r.Separable c :=
    (forall_mem_selectAll fun _ _ => separable_congr).trans (and_iff_right fun _ h => nomatch h)
  refine ⟨fun row hrow => length_of_mem_fields hrow, ?_⟩
  rw [records_iff, hcolumns]
  simp only [Separable, Selection.forall_mem_columns]
  generalize (∀ group ∈ r.rowGroups, Plain group.1.strategy) = named
  constructor
  · intro h
    refine ⟨fun c hc => (h _ hc).1 c rfl, fun f hf => (h _ hf).2.1 f rfl, ?_⟩
    rintro (hname | hall)
    · exact (h _ hname).2.2 (.inl rfl)
    · exact (h _ hall).2.2 (.inr rfl)
  · rintro ⟨hconstants, hfunctions, hnames⟩ s hs
    refine ⟨fun c hc => hconstants c (hc ▸ hs), fun f hf => hfunctions f (hf ▸ hs), ?_⟩
    rintro (rfl | rfl)
    · exact hnames (.inl hs)
    · exact hnames (.inr hs)

/-- A report on a single run. -/
def soleReport : Report where
  outcomes := [{
    env := {}
    strategy := "Test"
    forkDuration := 100
    convergedSide := some .left
    blocksMined := 10
    adversaryBlocks := 2
    releasedBlocks := 1
    withheldBlocks := 1
    borrowedBlocks := 0
    diameter := 300 }]
  repeats := 1

/-- A title with a comma is read back as two. -/
theorem misread_comma :
    let t := (soleReport.selectAll [.constant ⟨"a,b", 1⟩, .layout .csv]).table
    t.titles = ["Evil Rate", "a,b", "Fork Duration (ms)"] ∧
    t.text = "Evil Rate,a,b,Fork Duration (ms)\n0.200000,1.000000,100" ∧
    Layout.records t.text =
      [["Evil Rate", "a", "b", "Fork Duration (ms)"], ["0.200000", "1.000000", "100"]] ∧
    Layout.records t.text ≠ t.titles :: t.fields := by
  decide +kernel

end Report

end BalanceAttack
