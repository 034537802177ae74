import BalanceAttack.Proofs.Records
import BalanceAttack.Proofs.ByteOrder

/-!
# BalanceAttack.Proofs.Columns

Which columns a table has, in which order, and that each of its cells can be read.  The
columns depend on what was asked for first under each title, and on nothing else, so that
choices may be made in any order, and repeated.

* `Column.compare_eq_lt_iff` — kinds come in order, and columns of a kind by their bytes;
* `Column.canonical_foldl` — columns that are put in one after the other;
* `Column.Canonical.unique` — asking for the same again, in any order, changes nothing;
* `Column.cell?_eq` — a column of a table has a cell in each row;
* `Report.table_canonical` — all of this, for any choices.
-/

namespace BalanceAttack

theorem Parameter.rank_injective : Function.Injective Parameter.rank := by
  intro p q h
  cases p <;> cases q <;> first | rfl | contradiction

theorem Parameter.rank_lt (p : Parameter) : p.rank < 7 := by
  cases p <;> decide

theorem Measure.rank_injective : Function.Injective Measure.rank := by
  intro m n h
  cases m <;> cases n <;> first | rfl | contradiction

/-- If each question has an answer, all have. -/
theorem mapM_eq_some_map {α β : Type} {f : α → Option β} {g : α → β} {l : List α}
    (h : ∀ a ∈ l, f a = some (g a)) : l.mapM f = some (l.map g) := by
  induction l with
  | nil => rfl
  | cons a l ih =>
      rw [List.forall_mem_cons] at h
      simp [h.1, ih h.2]

namespace Column

variable {c d e : Column} {columns asked : List Column}

/-! ## the order of columns -/

/-- What a column is compared by: its kind, and its title where those of a kind have titles. -/
def key (c : Column) : Nat × String := (c.rank, c.given)

/-- Kinds come in order, and columns of a kind in the order of the bytes of their titles. -/
def Before (c d : Column) : Prop :=
  c.rank < d.rank ∨ c.rank = d.rank ∧ bytes c.given < bytes d.given

theorem key_eq_iff : c.key = d.key ↔ c.rank = d.rank ∧ c.given = d.given :=
  Prod.mk_inj

theorem compare_eq_lt_iff : compare c d = .lt ↔ Before c d := by
  show (compare c.rank d.rank).then (compare c.given d.given) = .lt ↔ _
  rw [Ordering.then_eq_lt, compare_lt_iff_lt, compare_eq_iff_eq, compare_lt_iff_lt, Before,
    bytes_lt_iff]

theorem compare_eq_gt_iff : compare c d = .gt ↔ Before d c := by
  show (compare c.rank d.rank).then (compare c.given d.given) = .gt ↔ _
  rw [Ordering.then_eq_gt, compare_gt_iff_gt, compare_eq_iff_eq, compare_gt_iff_gt, Before,
    bytes_lt_iff, eq_comm]

theorem Before.trans (h : Before c d) (h' : Before d e) : Before c e := by
  simp only [Before, bytes_lt_iff] at *
  rcases h with h | ⟨h, ht⟩ <;> rcases h' with h' | ⟨h', ht'⟩
  · exact .inl (h.trans h')
  · exact .inl (h' ▸ h)
  · exact .inl (h ▸ h')
  · exact .inr ⟨h.trans h', ht.trans ht'⟩

theorem Before.key_ne (h : Before c d) : c.key ≠ d.key := by
  intro hkey
  rw [key_eq_iff] at hkey
  simp [Before, hkey, bytes_lt_iff] at h

/-- Columns of the same kind and title are the same, unless they show different functions,
constants or averages. -/
theorem eq_of_key_eq (h : c.key = d.key)
    (hfunction : ∀ f g, c = .evilRateFunction f → d = .evilRateFunction g →
      f.title = g.title → f = g)
    (hconstant : ∀ f g, c = .constant f → d = .constant g → f.title = g.title → f = g)
    (haverage : ∀ a b, c = .averageOf a → d = .averageOf b → a = b) : c = d := by
  obtain ⟨hrank, hgiven⟩ := key_eq_iff.1 h
  cases c <;> cases d <;> simp only [rank, given] at hrank hgiven
  case parameter.parameter p q => rw [Parameter.rank_injective hrank]
  case measure.measure m n => rw [Measure.rank_injective (Nat.add_left_cancel hrank)]
  case evilRateFunction.evilRateFunction f g => rw [hfunction f g rfl rfl hgiven]
  case constant.constant f g => rw [hconstant f g rfl rfl hgiven]
  case averageOf.averageOf a b => rw [haverage a b rfl rfl]
  all_goals grind [Parameter.rank_lt]

/-! ## putting columns in -/

theorem mem_cons_of_mem_insert (h : d ∈ insert c columns) : d ∈ c :: columns := by
  induction columns with
  | nil => simpa [insert] using h
  | cons e columns ih =>
      rw [insert] at h
      split at h
      · exact h
      · exact List.mem_cons_of_mem c h
      · grind

theorem pairwise_insert (h : columns.Pairwise Before) : (insert c columns).Pairwise Before := by
  induction columns with
  | nil => simp [insert]
  | cons e columns ih =>
      have hrest := List.pairwise_cons.1 h
      rw [insert]
      split
      · next hlt =>
          have hbefore := compare_eq_lt_iff.1 hlt
          exact List.pairwise_cons.2 ⟨List.forall_mem_cons.2
            ⟨hbefore, fun d hd => hbefore.trans (hrest.1 d hd)⟩, h⟩
      · exact h
      · next hgt =>
          refine List.pairwise_cons.2 ⟨fun d hd => ?_, ih hrest.2⟩
          rcases List.mem_cons.1 (mem_cons_of_mem_insert hd) with rfl | hd
          · exact compare_eq_gt_iff.1 hgt
          · exact hrest.1 d hd

/-- **What is put in is there if there was none of its kind and title**, and all else stays. -/
theorem mem_insert_iff (h : columns.Pairwise Before) :
    d ∈ insert c columns ↔ d ∈ columns ∨ d = c ∧ ∀ e ∈ columns, e.key ≠ c.key := by
  induction columns with
  | nil => simp [insert]
  | cons e columns ih =>
      have hrest := List.pairwise_cons.1 h
      rw [insert]
      split
      · next hlt =>
          have hbefore := compare_eq_lt_iff.1 hlt
          have hfresh : ∀ e' ∈ e :: columns, e'.key ≠ c.key := List.forall_mem_cons.2
            ⟨hbefore.key_ne.symm, fun d hd => (hbefore.trans (hrest.1 d hd)).key_ne.symm⟩
          rw [List.mem_cons, or_comm, and_iff_left hfresh]
      · next heq =>
          have hkey : e.key = c.key := (key_eq_iff.2 (compare_eq_iff.1 heq)).symm
          simp [hkey]
      · next hgt =>
          have hkey : e.key ≠ c.key := (compare_eq_gt_iff.1 hgt).key_ne
          rw [List.mem_cons, ih hrest.2, List.forall_mem_cons, List.mem_cons]
          simp [hkey, or_assoc]

/-- Columns that were asked for, in order and without repetition: under each kind and title
the one that was asked for first. -/
structure Canonical (asked columns : List Column) : Prop where
  ordered : columns.Pairwise Before
  first : ∀ c, c ∈ columns ↔ asked.find? (fun d => d.key = c.key) = some c

theorem canonical_nil : Canonical [] [] := ⟨.nil, by simp⟩

/-- A column that is put in was asked for last. -/
theorem Canonical.insert (h : Canonical asked columns) :
    Canonical (asked ++ [c]) (c.insert columns) := by
  refine ⟨pairwise_insert h.ordered, fun d => ?_⟩
  -- there is a column of its kind and title if and only if one was asked for
  have hfresh : (∀ e ∈ columns, e.key ≠ c.key) ↔ asked.find? (fun e => e.key = c.key) = none := by
    constructor
    · intro hnone
      cases hfind : asked.find? (fun e => e.key = c.key) with
      | none => rfl
      | some e =>
          have hkey : e.key = c.key := by simpa using List.find?_some hfind
          rw [← hkey] at hfind
          exact absurd hkey (hnone e ((h.first e).2 hfind))
    · intro hnone e he hkey
      have hfind := (h.first e).1 he
      rw [hkey, hnone] at hfind
      contradiction
  rw [mem_insert_iff h.ordered, hfresh, h.first, List.find?_append]
  by_cases hd : d = c
  · subst hd
    cases asked.find? (fun e => e.key = d.key) <;> simp
  · cases asked.find? (fun e => e.key = d.key) <;> simp [hd, Ne.symm hd]

theorem canonical_foldl (h : Canonical asked columns) (cs : List Column) :
    Canonical (asked ++ cs) (cs.foldl (fun columns c => c.insert columns) columns) := by
  induction cs generalizing asked columns with
  | nil => simpa using h
  | cons c cs ih => simpa using ih (h.insert (c := c))

/-- **The columns are told by what was asked for first** under each kind and title. -/
theorem Canonical.unique {asked' columns' : List Column} (h : Canonical asked columns)
    (h' : Canonical asked' columns')
    (hfirst : ∀ c, asked.find? (fun d => d.key = c.key) = some c ↔
      asked'.find? (fun d => d.key = c.key) = some c) : columns = columns' := by
  have hnodup : ∀ {columns : List Column}, columns.Pairwise Before → columns.Nodup :=
    fun hordered => hordered.imp fun hbefore heq => hbefore.key_ne (congrArg key heq)
  have hperm : columns.Perm columns' := (List.perm_ext_iff_of_nodup (hnodup h.ordered)
    (hnodup h'.ordered)).2 fun c => (h.first c).trans ((hfirst c).trans (h'.first c).symm)
  refine hperm.eq_of_pairwise (fun c d _ _ hcd hdc => ?_) h.ordered h'.ordered
  exact absurd rfl (hcd.trans hdc).key_ne

theorem find?_key_eq_some_iff (hfree : c ∈ asked → ∀ d ∈ asked, d.key = c.key → d = c) :
    asked.find? (fun d => d.key = c.key) = some c ↔ c ∈ asked := by
  refine ⟨List.mem_of_find?_eq_some, fun hmem => ?_⟩
  cases hfind : asked.find? (fun d => d.key = c.key) with
  | none => simpa using List.find?_eq_none.1 hfind c hmem
  | some d =>
      have hkey : d.key = c.key := by simpa using List.find?_some hfind
      rw [hfree hmem d (List.mem_of_find?_eq_some hfind) hkey]

/-! ## reading cells -/

/-- The measurement of a run that a column shows, if it shows one. -/
def measurement (o : Outcome) : Column → Option Float
  | measure m => some (m.value o)
  | _ => none

/-- The cell of a column for a single run, if it has one. -/
def single? (o : Outcome) : Column → Option Cell
  | parameter p => some (p.cell o)
  | evilRateFunction f => some (.float (f.value o.env.evilRate))
  | constant c => some (.float c.value)
  | measure .converged => some (.integer (if o.converged then 1 else 0))
  | averageOf _ => none
  | c => (c.measurement o).map fun x => .integer (Whole.ofFloat x)

/-- The cell of a column for repeats, if it has one.  What is not measured is taken from the
first of them. -/
def averaged? (average : Option Average) (first : Outcome) (rest : List Outcome) :
    Column → Option Cell
  | averageOf _ => some (.integer (rest.length + 1))
  | c =>
    match (first :: rest).filterMap fun o => c.measurement o with
    | [] => c.single? first
    | x :: xs => average.map fun a => .float (a.of (x :: xs))

/-- The cell of a column for the repeats of an environment, if it has one. -/
def cell? (average : Option Average) (first : Outcome) (rest : List Outcome) (c : Column) :
    Option Cell :=
  match average with
  | none => c.single? first
  | some _ => c.averaged? average first rest

/-- **A column has a cell**, unless it tells what an average is of and there is none. -/
theorem cell?_eq {average : Option Average} {first : Outcome} {rest : List Outcome}
    (h : ∀ a, c = .averageOf a → average ≠ none) :
    c.cell? average first rest = some (c.cell average first rest) := by
  have hcount : ∀ converged : Bool, Whole.ofFloat (Whole.toFloat (if converged then 1 else 0)) =
      if converged then 1 else 0 := by decide +kernel
  cases average with
  | none =>
      cases c with
      | measure m => cases m <;> simp [cell?, single?, measurement, cell, Measure.value,
          Measure.count, hcount]
      | averageOf a => exact absurd rfl (h a rfl)
      | _ => rfl
  | some average =>
      cases c with
      | measure m => simp [cell?, averaged?, measurement, cell]
      | averageOf a => rfl
      | _ => simp [cell?, averaged?, measurement, cell, single?]

end Column

/-! ## choices -/

namespace Selection

variable {s : Selection}

theorem evilRateFunction_mem_columns {f : Titled (Float → Float)} :
    .evilRateFunction f ∈ s.columns ↔ s = .evilRateFunction f := by
  cases s <;> simp [columns, eq_comm]

theorem constant_mem_columns {c : Titled Float} : .constant c ∈ s.columns ↔ s = .constant c := by
  cases s <;> simp [columns, eq_comm]

theorem averageOf_not_mem_columns {a : Average} : .averageOf a ∉ s.columns := by
  cases s <;> simp [columns]

end Selection

namespace Report

variable {r : Report} {ss : List Selection}

/-- The columns that a report is asked for, in order: those of the choices, then the fixed
ones. -/
def asked (r : Report) (ss : List Selection) : List Column :=
  ss.flatMap Selection.columns ++ r.fixedColumns

theorem mem_asked {c : Column} :
    c ∈ r.asked ss ↔ (∃ s ∈ ss, c ∈ s.columns) ∨ c ∈ r.fixedColumns := by
  simp [asked]

theorem evilRateFunction_mem_asked {f : Titled (Float → Float)} :
    .evilRateFunction f ∈ r.asked ss ↔ .evilRateFunction f ∈ ss := by
  simp [mem_asked, Selection.evilRateFunction_mem_columns, fixedColumns]

theorem constant_mem_asked {c : Titled Float} :
    .constant c ∈ r.asked ss ↔ .constant c ∈ ss := by
  simp [mem_asked, Selection.constant_mem_columns, fixedColumns]

theorem averageOf_mem_asked {a : Average} : .averageOf a ∈ r.asked ss ↔ r.average = some a := by
  simp [mem_asked, Selection.averageOf_not_mem_columns, fixedColumns]

theorem columns_selectAll (r : Report) (ss : List Selection) : (r.selectAll ss).columns =
    (ss.flatMap Selection.columns).foldl (fun columns c => c.insert columns) r.columns := by
  induction ss generalizing r with
  | nil => rfl
  | cons s ss ih =>
      rw [selectAll, List.foldl_cons, ← selectAll, ih, columns_select, List.flatMap_cons,
        List.foldl_append, add]

/-- The columns of a table are those that were asked for, under each kind and title the first. -/
theorem canonical_table (outcomes : List Outcome) (repeats : Nat) (ss : List Selection) :
    let r := selectAll { outcomes, repeats } ss
    Column.Canonical (r.asked ss) r.table.columns := by
  intro r
  have hcolumns : r.table.columns = (r.asked ss).foldl (fun columns c => c.insert columns) [] := by
    rw [asked, List.foldl_append, ← columns_selectAll { outcomes, repeats } ss]
    rfl
  have hcanonical := Column.canonical_foldl Column.canonical_nil (r.asked ss)
  rwa [List.nil_append, ← hcolumns] at hcanonical

/-- The choices name no two functions, and no two constants, by the same title. -/
def Consistent (ss : List Selection) : Prop :=
  (∀ f g, .evilRateFunction f ∈ ss → .evilRateFunction g ∈ ss → f.title = g.title → f = g) ∧
    ∀ c d, .constant c ∈ ss → .constant d ∈ ss → c.title = d.title → c = d

/-- Consistent choices ask for only one column of a kind and title. -/
theorem Consistent.eq_of_key_eq (h : Consistent ss) {c d : Column} (hc : c ∈ r.asked ss)
    (hd : d ∈ r.asked ss) (hkey : c.key = d.key) : c = d := by
  refine Column.eq_of_key_eq hkey ?_ ?_ ?_
  · rintro f g rfl rfl
    exact h.1 f g (evilRateFunction_mem_asked.1 hc) (evilRateFunction_mem_asked.1 hd)
  · rintro f g rfl rfl
    exact h.2 f g (constant_mem_asked.1 hc) (constant_mem_asked.1 hd)
  · rintro a b rfl rfl
    exact Option.some.inj ((averageOf_mem_asked.1 hc).symm.trans (averageOf_mem_asked.1 hd))

/-- How a table follows from the choices that were made for it. -/
structure Follows (r : Report) (ss : List Selection) : Prop where
  /-- Each column comes once, and in order. -/
  ordered : r.table.columns.Pairwise Column.Before
  /-- The columns are those that were asked for, under each kind and title the first. -/
  first : ∀ c, c ∈ r.table.columns ↔ (r.asked ss).find? (fun d => d.key = c.key) = some c
  /-- There is a column with the number of averaged runs if there is an average, of its kind. -/
  average : ∀ a, .averageOf a ∈ r.table.columns ↔ r.average = some a
  /-- Each row has a cell for each column. -/
  cells : ∀ row ∈ r.table.rows, row.length = r.table.columns.length
  /-- All cells can be read. -/
  rows : r.rowGroups.mapM (fun group =>
    r.table.columns.mapM (Column.cell? r.average group.1 group.2)) = some r.table.rows

theorem follows_selectAll (outcomes : List Outcome) (repeats : Nat) (ss : List Selection) :
    (selectAll { outcomes, repeats } ss).Follows ss := by
  generalize hr : selectAll { outcomes, repeats } ss = r
  have hcanonical : Column.Canonical (r.asked ss) r.table.columns :=
    hr ▸ canonical_table outcomes repeats ss
  have haverage : ∀ a, .averageOf a ∈ r.table.columns ↔ r.average = some a := by
    intro a
    have hasked : .averageOf a ∈ r.asked ss ↔ r.average = some a := averageOf_mem_asked
    rw [hcanonical.first, ← hasked]
    refine Column.find?_key_eq_some_iff fun hmem d hd hkey => ?_
    refine Column.eq_of_key_eq hkey (fun _ _ _ h => nomatch h) (fun _ _ _ h => nomatch h) ?_
    rintro b _ rfl ⟨⟩
    exact Option.some.inj ((averageOf_mem_asked.1 hd).symm.trans (averageOf_mem_asked.1 hmem))
  refine ⟨hcanonical.ordered, hcanonical.first, haverage, fun row hrow => ?_, ?_⟩
  · obtain ⟨group, -, rfl⟩ := List.mem_map.1 hrow
    exact List.length_map _
  · refine mapM_eq_some_map fun group _ => mapM_eq_some_map fun c hc => Column.cell?_eq ?_
    rintro a rfl hnone
    rw [haverage, hnone] at hc
    contradiction

/-- Once the outcomes, the average and the layout are given, a table depends on its columns
alone. -/
theorem table_congr {r' : Report} (houtcomes : r'.outcomes = r.outcomes)
    (hrepeats : r'.repeats = r.repeats) (haverage : r'.average = r.average)
    (hlayout : r'.layout = r.layout) (hcolumns : r'.table.columns = r.table.columns) :
    r'.table = r.table := by
  have htable : ∀ r : Report, r.table = {
      columns := r.table.columns
      rows := r.rowGroups.map fun group =>
        r.table.columns.map (Column.cell r.average group.1 group.2)
      layout := r.layout } := fun _ => rfl
  have hgroups : r'.rowGroups = r.rowGroups := by
    simp only [rowGroups, haverage, houtcomes, hrepeats]
  rw [htable r', htable r, hcolumns, hgroups, haverage, hlayout]

/-- **Tables are canonical**: their columns are those that were asked for first under each
kind and title, in order, and as long as no title stands for two, columns may be asked for
again, and in any order. -/
theorem table_canonical (outcomes : List Outcome) (repeats : Nat) (ss : List Selection) :
    let r := selectAll { outcomes, repeats } ss
    r.Follows ss ∧ (Consistent ss →
      ∀ ss' : List Selection, (∀ s, s.columns ≠ [] → (s ∈ ss' ↔ s ∈ ss)) →
        let r' := selectAll { outcomes, repeats } ss'
        r'.average = r.average → r'.layout = r.layout → r'.table = r.table) := by
  intro r
  refine ⟨follows_selectAll outcomes repeats ss, ?_⟩
  intro hconsistent ss' hsame r' haverage hlayout
  have hconsistent' : Consistent ss' := by
    have hfunction := fun f => hsame (.evilRateFunction f) (List.cons_ne_nil _ _)
    have hconstant := fun c => hsame (.constant c) (List.cons_ne_nil _ _)
    simpa only [Consistent, hfunction, hconstant] using hconsistent
  have hasked : ∀ c, c ∈ r'.asked ss' ↔ c ∈ r.asked ss := by
    intro c
    have hselected : (∃ s ∈ ss', c ∈ s.columns) ↔ ∃ s ∈ ss, c ∈ s.columns :=
      exists_congr fun s => and_congr_left fun hc => hsame s (List.ne_nil_of_mem hc)
    rw [mem_asked, mem_asked, hselected, fixedColumns, fixedColumns, haverage]
  refine table_congr (by simp [r, r']) (by simp [r, r']) haverage hlayout ?_
  refine Column.Canonical.unique (canonical_table outcomes repeats ss')
    (canonical_table outcomes repeats ss) fun c => ?_
  rw [Column.find?_key_eq_some_iff fun hc d hd => hconsistent'.eq_of_key_eq hd hc,
    Column.find?_key_eq_some_iff fun hc d hd => hconsistent.eq_of_key_eq hd hc]
  exact hasked c

/-- Of two constants under one title the first is shown; without the other, the choices may
change places and be made twice. -/
theorem table_canonical_doubled :
    let report := selectAll { outcomes := soleReport.outcomes, repeats := 1 }
    let ss := [.constant ⟨"b", 1⟩, .diameter, .constant ⟨"a", 2⟩]
    (report (ss ++ [.constant ⟨"b", 3⟩, .layout .csv])).table.text =
      "Evil Rate,a,b,Fork Duration (ms),Diameter (ms)\n0.200000,2.000000,1.000000,100,300" ∧
    Consistent ss ∧ (report (.diameter :: ss.reverse)).table = (report ss).table := by
  intro report ss
  have hconsistent : Consistent ss := by
    refine ⟨by simp [ss], fun c d hc hd htitle => ?_⟩
    simp only [ss, List.mem_cons, Selection.constant.injEq, reduceCtorEq, List.not_mem_nil,
      false_or, or_false] at hc hd
    rcases hc with rfl | rfl <;> rcases hd with rfl | rfl <;> first | rfl | contradiction
  refine ⟨by decide +kernel, hconsistent, ?_⟩
  refine (table_canonical _ _ ss).2 hconsistent _ (fun s _ => ?_) rfl rfl
  rw [List.mem_cons, List.mem_reverse, or_iff_right_of_imp]
  rintro rfl
  simp [ss]

end Report

end BalanceAttack
