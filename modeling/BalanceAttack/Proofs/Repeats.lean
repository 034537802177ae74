import BalanceAttack.Campaign
import BalanceAttack.Report.Table
import BalanceAttack.Adversary.Balancer

/-!
# BalanceAttack.Proofs.Repeats

How the runs of a campaign, their seeds and the rows of a report go together.
Run `k` of environment `e` is at the place `e * repeats + k` among all runs; its
seed is that of the campaign plus its place, and the report takes the rows from
the places in groups of `repeats`:

* `getElem?_runs` — which environment is run at a place;
* `runAll_append` — a campaign of more environments goes on from its seed;
* `getElem?_groups` — what a row is made of;
* `linedUp_of_runAll` — all of this, for the outcomes and the tables of a campaign.
-/

namespace BalanceAttack

open BalanceAttack.Random

/-- There are as many answers as questions. -/
theorem Fault.length_of_mapM {ε α β : Type} {f : α → Except ε β} {as : List α} {bs : List β}
    (h : as.mapM f = .ok bs) : bs.length = as.length := by
  have hmap := Fault.map_of_mapM (fun _ => ()) (fun _ => ()) (fun _ _ _ => rfl) h
  simpa using congrArg List.length hmap

/-- The answers are in the order of the questions. -/
theorem Fault.getElem?_of_mapM {ε α β : Type} {f : α → Except ε β} {as : List α} {bs : List β}
    (h : as.mapM f = .ok bs) {i : Nat} {a : α} (ha : as[i]? = some a) :
    ∃ b, bs[i]? = some b ∧ f a = .ok b := by
  induction as generalizing bs i with
  | nil => contradiction
  | cons a' as ih =>
      rw [List.mapM_cons] at h
      obtain ⟨b, hb, h⟩ := Fault.bind_eq_ok_iff.1 h
      obtain ⟨rest, hrest, h⟩ := Fault.bind_eq_ok_iff.1 h
      obtain rfl := Except.ok.inj h
      cases i with
      | zero =>
          obtain rfl := Option.some.inj ha
          exact ⟨b, rfl, hb⟩
      | succ i => exact ih hrest ha

namespace Campaign

variable {α : Type} {c : Campaign} {adversary : Adversary α} {fresh : α}

/-! ## runs and seeds -/

/-- The repeats of an environment come one after the other. -/
theorem getElem?_runs (c : Campaign) (e : Nat) {k : Nat} (hk : k < c.repeats) :
    c.runs[e * c.repeats + k]? = c.environments[e]? := by
  unfold runs
  induction c.environments generalizing e with
  | nil => rfl
  | cons env envs ih =>
      rw [List.flatMap_cons]
      cases e with
      | zero =>
          rw [Nat.zero_mul, Nat.zero_add, List.getElem?_append_left (by simpa using hk),
            List.getElem?_replicate_of_lt hk, List.getElem?_cons_zero]
      | succ e =>
          have hplace : (e + 1) * c.repeats + k = c.repeats + (e * c.repeats + k) := by
            rw [Nat.succ_mul]
            omega
          rw [hplace, List.getElem?_append_right (by simp), List.length_replicate,
            Nat.add_sub_cancel_left, ih, List.getElem?_cons_succ]

/-- Seeds go on where others end. -/
theorem seedOf_add (c : Campaign) (i j : Nat) :
    c.seedOf (i + j) = c.seed + UInt64.ofNat i + UInt64.ofNat j := by
  rw [seedOf, UInt64.ofNat_add, UInt64.add_assoc]

/-- **A campaign of more environments goes on from its seed**: the runs of those that come
later are the runs of a campaign of their own. -/
theorem runAll_append (c : Campaign) (adversary : Adversary α) (fresh : α)
    (more : List Environment) :
    runAll { c with environments := c.environments ++ more } adversary fresh = (do
      let outcomes ← c.runAll adversary fresh
      let later ← runAll { c with
        environments := more
        seed := c.seed + UInt64.ofNat (c.repeats * c.environments.length) } adversary fresh
      return outcomes ++ later) := by
  let later : Campaign := { c with
    environments := more
    seed := c.seed + UInt64.ofNat (c.repeats * c.environments.length) }
  have hruns : runs { c with environments := c.environments ++ more } = c.runs ++ later.runs :=
    List.flatMap_append
  -- a later run is counted from the start of its own campaign
  have hlater : (later.runs.zipIdx (c.repeats * c.environments.length)).mapM
      (fun x => runOnce adversary fresh x.1 (c.seedOf x.2)) = later.runAll adversary fresh := by
    rw [List.zipIdx_eq_map_add, List.mapM_map]
    refine congrArg (later.runs.zipIdx.mapM ·) (funext fun x => ?_)
    exact congrArg (runOnce adversary fresh x.1) (seedOf_add c _ x.2)
  rw [runAll, hruns, List.zipIdx_append, List.mapM_append, length_runs, Nat.zero_add,
    Nat.mul_comm]
  exact congrArg (c.runAll adversary fresh >>= ·) (funext fun outcomes =>
    congrArg (· >>= fun later => pure (outcomes ++ later)) hlater)

/-- The outcomes of a campaign are those of its runs, place by place. -/
theorem getElem?_of_runAll {outcomes : List Outcome}
    (h : c.runAll adversary fresh = .ok outcomes) {e k : Nat} {env : Environment}
    (he : c.environments[e]? = some env) (hk : k < c.repeats) :
    ∃ o, outcomes[e * c.repeats + k]? = some o ∧
      runOnce adversary fresh env (c.seed + UInt64.ofNat (e * c.repeats + k)) = .ok o := by
  refine Fault.getElem?_of_mapM h (a := (env, e * c.repeats + k)) ?_
  rw [List.getElem?_zipIdx, getElem?_runs c e hk, he, Nat.zero_add]
  rfl

/-- A campaign has outcomes if each of its runs has one. -/
theorem exists_runAll (hall : ∀ e env, c.environments[e]? = some env → ∀ k < c.repeats,
    ∃ o, runOnce adversary fresh env (c.seed + UInt64.ofNat (e * c.repeats + k)) = .ok o) :
    ∃ outcomes, c.runAll adversary fresh = .ok outcomes := by
  refine Fault.exists_mapM_eq fun ⟨env, i⟩ hx => ?_
  have hi : c.runs[i]? = some env := List.mk_mem_zipIdx_iff_getElem?.1 hx
  have hlt : i < c.environments.length * c.repeats := by
    rw [← length_runs]
    exact (List.getElem?_eq_some_iff.1 hi).1
  have hrepeats : 0 < c.repeats := Nat.pos_of_ne_zero fun hzero => by
    rw [hzero, Nat.mul_zero] at hlt
    exact Nat.not_lt_zero _ hlt
  have hk := Nat.mod_lt i hrepeats
  have hplace : i / c.repeats * c.repeats + i % c.repeats = i := Nat.div_add_mod' i c.repeats
  have he : c.environments[i / c.repeats]? = some env := by
    rw [← getElem?_runs c _ hk, hplace, hi]
  have hrun := hall _ env he _ hk
  rwa [hplace] at hrun

theorem length_of_runAll {outcomes : List Outcome}
    (h : c.runAll adversary fresh = .ok outcomes) :
    outcomes.length = c.repeats * c.environments.length := by
  rw [Fault.length_of_mapM h, List.length_zipIdx, length_runs, Nat.mul_comm]

end Campaign

namespace Report

/-! ## rows -/

/-- The groups of a list are its stretches of a size. -/
theorem getElem?_groups {β : Type} {size : Nat} (hsize : 0 < size) (l : List β) (e : Nat)
    {first : β} {rest : List β} :
    (groups size l)[e]? = some (first, rest) ↔ (l.drop (e * size)).take size = first :: rest := by
  obtain ⟨n, rfl⟩ := Nat.exists_eq_succ_of_ne_zero (Nat.ne_of_gt hsize)
  induction l using groups.induct (n + 1) generalizing e with
  | case1 => simp [groups]
  | case2 x xs ih =>
      rw [groups]
      cases e with
      | zero => simp
      | succ e =>
          have hplace : (e + 1) * (n + 1) = e * (n + 1) + n + 1 := by
            rw [Nat.succ_mul]
            omega
          rw [List.getElem?_cons_succ, ih, hplace, List.drop_succ_cons, Nat.add_sub_cancel,
            List.drop_drop, Nat.add_comm n]

/-- As many full groups as there are in a list are all of it. -/
theorem length_groups {β : Type} {size : Nat} (hsize : 0 < size) (n : Nat) {l : List β}
    (hl : l.length = n * size) : (groups size l).length = n := by
  induction n generalizing l with
  | zero =>
      rw [Nat.zero_mul] at hl
      rw [List.eq_nil_of_length_eq_zero hl, groups]
      rfl
  | succ n ih =>
      rw [Nat.succ_mul] at hl
      cases l with
      | nil =>
          rw [List.length_nil] at hl
          omega
      | cons x xs =>
          rw [List.length_cons] at hl
          rw [groups, List.length_cons, ih]
          rw [List.length_drop]
          omega

@[simp] theorem outcomes_selectAll (r : Report) (ss : List Selection) :
    (r.selectAll ss).outcomes = r.outcomes := by
  induction ss generalizing r with
  | nil => rfl
  | cons s ss ih =>
      rw [selectAll, List.foldl_cons, ← selectAll, ih]
      cases s <;> rfl

@[simp] theorem repeats_selectAll (r : Report) (ss : List Selection) :
    (r.selectAll ss).repeats = r.repeats := by
  induction ss generalizing r with
  | nil => rfl
  | cons s ss ih =>
      rw [selectAll, List.foldl_cons, ← selectAll, ih]
      cases s <;> rfl

/-- A table as it is written: each group of outcomes that share a row, in each column. -/
theorem fields_table (r : Report) : r.table.fields = r.rowGroups.map fun group =>
    (r.table.columns.map (Column.cell r.average group.1 group.2)).map Cell.render := by
  rw [Table.fields, table, List.map_map]
  rfl

/-- Without an average each run has a row. -/
theorem rows_table_of_none {r : Report} (h : r.average = none) :
    r.table.rows = r.outcomes.map fun o => r.table.columns.map (Column.cell none o []) := by
  simp only [table, rowGroups, h, List.map_map, Function.comp_def]

/-- With an average each group of runs has a row. -/
theorem rows_table_of_some {r : Report} {a : Average} (h : r.average = some a) :
    r.table.rows = (groups r.repeats r.outcomes).map fun (first, rest) =>
      r.table.columns.map (Column.cell (some a) first rest) := by
  simp only [table, rowGroups, h]

/-- With an average and full groups there is a row for each of them. -/
theorem row_of_stretch {r : Report} {a : Average} (h : r.average = some a)
    (hrepeats : 0 < r.repeats) {n : Nat} (hn : r.outcomes.length = n * r.repeats) {e : Nat}
    (he : e < n) :
    ∃ first rest, (first :: rest).length = r.repeats ∧
      (∀ k < r.repeats, (first :: rest)[k]? = r.outcomes[e * r.repeats + k]?) ∧
      r.table.rows[e]? = some (r.table.columns.map (Column.cell (some a) first rest)) := by
  have hfull : (e + 1) * r.repeats ≤ r.outcomes.length := hn ▸ Nat.mul_le_mul_right _ he
  rw [Nat.succ_mul] at hfull
  have hlength : ((r.outcomes.drop (e * r.repeats)).take r.repeats).length = r.repeats := by
    rw [List.length_take, List.length_drop]
    omega
  cases hstretch : (r.outcomes.drop (e * r.repeats)).take r.repeats with
  | nil =>
      rw [hstretch, List.length_nil] at hlength
      omega
  | cons first rest =>
      refine ⟨first, rest, hstretch ▸ hlength, fun k hk => ?_, ?_⟩
      · rw [← hstretch, List.getElem?_take_of_lt hk, List.getElem?_drop]
      · rw [rows_table_of_some h, List.getElem?_map, (getElem?_groups hrepeats _ _).2 hstretch]
        rfl

end Report

/-! ## a campaign and its tables -/

namespace Campaign

variable {α : Type}

/-- A run of an environment on its own, with the generator of a seed, has an outcome. -/
def Alone (adversary : Adversary α) (fresh : α) (env : Environment) (seed : UInt64)
    (o : Outcome) : Prop :=
  ∃ run a supply s,
    Run.ofEnvironment env adversary fresh (.ofSource (ChaCha.ofSeed seed)) =
      .ok ((run, a), supply) ∧
    run.simulate Supply.ample a supply = .ok (o, s)

theorem runOnce_eq_ok_iff {adversary : Adversary α} {fresh : α} {env : Environment}
    {seed : UInt64} {o : Outcome} :
    runOnce adversary fresh env seed = .ok o ↔ Alone adversary fresh env seed o := by
  unfold runOnce Alone
  constructor
  · intro h
    obtain ⟨⟨⟨run, a⟩, supply⟩, hset, h⟩ := Fault.bind_eq_ok_iff.1 h
    obtain ⟨⟨_, s⟩, hsim, h⟩ := Fault.bind_eq_ok_iff.1 h
    obtain rfl := Except.ok.inj h
    exact ⟨run, a, supply, s, hset, hsim⟩
  · rintro ⟨run, a, supply, s, hset, hsim⟩
    exact Fault.bind_eq_ok_iff.2 ⟨_, hset, Fault.bind_eq_ok_iff.2 ⟨_, hsim, rfl⟩⟩

/-- A report on the outcomes of a campaign, by some selections. -/
def reportOf (c : Campaign) (outcomes : List Outcome) (ss : List Selection) : Report :=
  Report.selectAll { outcomes, repeats := c.repeats } ss

/-- The outcomes of a campaign, and the rows of any report on them, by environment and repeat. -/
structure LinedUp (c : Campaign) (adversary : Adversary α) (fresh : α)
    (outcomes : List Outcome) : Prop where
  length : outcomes.length = c.repeats * c.environments.length
  /-- At each place stands the outcome of a run of its own. -/
  alone : ∀ e env, c.environments[e]? = some env → ∀ k < c.repeats,
    ∃ o, outcomes[e * c.repeats + k]? = some o ∧
      Alone adversary fresh env (c.seed + UInt64.ofNat (e * c.repeats + k)) o
  /-- With an average there is a row for each environment ... -/
  length_averaged : ∀ ss a, (c.reportOf outcomes ss).average = some a →
    (c.reportOf outcomes ss).table.rows.length = c.environments.length
  /-- ... which is made of the repeats of that environment, in order. -/
  averaged : ∀ ss a, (c.reportOf outcomes ss).average = some a →
    ∀ e < c.environments.length, ∃ first rest, (first :: rest).length = c.repeats ∧
      (∀ k < c.repeats, (first :: rest)[k]? = outcomes[e * c.repeats + k]?) ∧
      (c.reportOf outcomes ss).table.rows[e]? =
        some ((c.reportOf outcomes ss).table.columns.map (Column.cell (some a) first rest))
  /-- Without an average there is a row for each run. -/
  single : ∀ ss, (c.reportOf outcomes ss).average = none →
    (c.reportOf outcomes ss).table.rows = outcomes.map fun o =>
      (c.reportOf outcomes ss).table.columns.map (Column.cell none o [])

variable {c : Campaign} {adversary : Adversary α} {fresh : α}

theorem linedUp_of_runAll (hrepeats : 0 < c.repeats) {outcomes : List Outcome}
    (h : c.runAll adversary fresh = .ok outcomes) : LinedUp c adversary fresh outcomes := by
  have hlength := length_of_runAll h
  have houtcomes : ∀ ss, (c.reportOf outcomes ss).outcomes = outcomes :=
    fun ss => Report.outcomes_selectAll _ ss
  have hsize : ∀ ss, (c.reportOf outcomes ss).repeats = c.repeats :=
    fun ss => Report.repeats_selectAll _ ss
  constructor
  case length => exact hlength
  case alone =>
    intro e env he k hk
    obtain ⟨o, ho, hrun⟩ := getElem?_of_runAll h he hk
    exact ⟨o, ho, runOnce_eq_ok_iff.1 hrun⟩
  case length_averaged =>
    intro ss a ha
    rw [Report.rows_table_of_some ha, List.length_map, houtcomes, hsize]
    exact Report.length_groups hrepeats _ (hlength.trans (Nat.mul_comm _ _))
  case averaged =>
    intro ss a ha e he
    have hrow := Report.row_of_stretch ha (by rwa [hsize]) (n := c.environments.length)
      (by rw [houtcomes, hsize, hlength, Nat.mul_comm]) he
    rwa [houtcomes, hsize] at hrow
  case single =>
    intro ss hnone
    rw [Report.rows_table_of_none hnone, houtcomes]

/-- **The runs of a campaign and the rows of its tables line up**: if each run has an outcome
on its own, the campaign has them all, in the order of the environments and repeats, and of
more environments it has those of the first ones before the others. -/
theorem linedUp_of_alone (hrepeats : 0 < c.repeats)
    (halone : ∀ e env, c.environments[e]? = some env → ∀ k < c.repeats,
      ∃ o, Alone adversary fresh env (c.seed + UInt64.ofNat (e * c.repeats + k)) o) :
    (∃ outcomes, c.runAll adversary fresh = .ok outcomes ∧
      LinedUp c adversary fresh outcomes) ∧
    ∀ more, runAll { c with environments := c.environments ++ more } adversary fresh = (do
      let outcomes ← c.runAll adversary fresh
      let later ← runAll { c with
        environments := more
        seed := c.seed + UInt64.ofNat (c.repeats * c.environments.length) } adversary fresh
      return outcomes ++ later) := by
  refine ⟨?_, fun more => runAll_append c adversary fresh more⟩
  obtain ⟨outcomes, h⟩ := exists_runAll fun e env he k hk =>
    (halone e env he k hk).imp fun _ => runOnce_eq_ok_iff.2
  exact ⟨outcomes, h, linedUp_of_runAll hrepeats h⟩

/-! ## a small campaign -/

/-- A single node, for a millisecond. -/
def lone : Environment where
  nodes := 1
  degree := 1
  topology := .random
  blockPeriod := 1000
  termination := 1

/-- Two environments, each run twice, with seeds that pass the greatest one. -/
def loneCampaign : Campaign where
  environments := [lone, { lone with termination := 2 }]
  repeats := 2
  seed := 0xffffffffffffffff

theorem linedUp_lone :
    ∃ outcomes, loneCampaign.runAll (Balancer.adversary) {} = .ok outcomes ∧
      LinedUp loneCampaign (Balancer.adversary) {} outcomes ∧ outcomes.length = 4 := by
  have hruns : ∀ x ∈ loneCampaign.runs.zipIdx, (runOnce (Balancer.adversary) {} x.1
      (loneCampaign.seed + UInt64.ofNat x.2)).toOption.isSome = true := by
    decide +kernel
  have halone : ∀ e env, loneCampaign.environments[e]? = some env →
      ∀ k < loneCampaign.repeats, ∃ o, Alone (Balancer.adversary) {} env
        (loneCampaign.seed + UInt64.ofNat (e * loneCampaign.repeats + k)) o := by
    intro e env he k hk
    have hmem : (env, e * loneCampaign.repeats + k) ∈ loneCampaign.runs.zipIdx :=
      List.mk_mem_zipIdx_iff_getElem?.2 ((getElem?_runs _ e hk).trans he)
    obtain ⟨o, ho⟩ := Option.isSome_iff_exists.1 (hruns _ hmem)
    exact ⟨o, runOnce_eq_ok_iff.1 (Fault.eq_ok_of_toOption ho)⟩
  obtain ⟨⟨outcomes, h, hlined⟩, _⟩ := linedUp_of_alone (by decide) halone
  exact ⟨outcomes, h, hlined, hlined.length⟩

end Campaign

end BalanceAttack
