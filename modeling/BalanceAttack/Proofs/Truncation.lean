import BalanceAttack.Proofs.Agreement

/-!
# BalanceAttack.Proofs.Truncation

The bound on the time of a run only cuts it off.  With a later bound the same
events are carried out until the earlier one is noticed, and what the run
counts never falls again:

* `reaches_bounded` — a state that is reached is reached with a later bound;
* `grown_of_reaches` — the counters of a run only grow;
* `truncation` — what two outcomes have to do with one another.
-/

namespace BalanceAttack

open BalanceAttack.Random

namespace Run

variable {α σ : Type}

/-- The run with another bound on its time. -/
def bounded (run : Run α) (bound : Int) : Run α :=
  { run with env := { run.env with termination := bound } }

theorem prepare_eq_ok_iff {run : Run α} {a a' : α} :
    run.prepare a = .ok a' ↔ run.env.Valid ∧ run.network.size ≠ 0 ∧
      run.adversary.setUp run.network.size run.network.distances a = .ok a' := by
  unfold prepare Environment.Valid
  split
  · next hdefect => simp [hdefect]
  · next hdefect =>
      split
      · next hsize => simp [hsize]
      · next hsize => simp [hdefect, hsize, orFail_eq_ok_iff]

variable [WordSource σ] {run : Run α} {fresh : α} {supply : Supply σ} {h h' : History}
  {s s' : State α σ} {bound : Int}

/-! ## before both bounds -/

/-- An event before both bounds is carried out in the same way. -/
theorem step_bounded {first : Scheduled} {agenda : Agenda}
    (hq : s.world.agenda.next = some (first, agenda)) (hne : first.event ≠ .idle)
    (hearly : first.time < run.env.termination) (hbound : first.time < bound) :
    (run.bounded bound).step s = run.step s := by
  have hbound' : first.time < (run.bounded bound).env.termination := hbound
  rw [step_of_lt hq hearly, step_of_lt hq hbound']
  cases hevent : first.event with
  | mine | deliver | observe | check => rfl
  | idle => contradiction

/-- A state that is reached before the time is up is reached with any later bound. -/
theorem reaches_bounded (hlater : run.env.termination ≤ bound)
    (hvalid : (run.bounded bound).env.Valid) (hr : run.Reaches fresh supply h s) :
    (run.bounded bound).Reaches fresh supply h s := by
  induction hr with
  | start hprep hstart =>
      obtain ⟨_, hsize, hset⟩ := prepare_eq_ok_iff.1 hprep
      exact .start (prepare_eq_ok_iff.2 ⟨hvalid, hsize, hset⟩) hstart
  | step hr hstep ih =>
      obtain ⟨first, agenda, hq, hearly, _⟩ := exists_turn_of_step hstep
      have hne := ne_idle_of_reaches hr first ((Agenda.toList_next hq).mem_iff.2 List.mem_cons_self)
      refine .step ih ?_
      rw [step_bounded hq hne hearly (Int.lt_of_lt_of_le hearly hlater)]
      exact hstep

/-! ## the end of a run -/

/-- A check that ends a run ends it for any later bound as well. -/
theorem finished_bounded (hlater : run.env.termination ≤ bound) {v : Verdict}
    (hstep : run.step s = .ok (.finished v s')) (hside : v.side ≠ none) :
    (run.bounded bound).step s = .ok (.finished v s') := by
  rw [← hstep]
  cases ending_of_step hstep with
  | drained | timeUp | idle => contradiction
  | settled hq hearly hcheck _ =>
      refine step_bounded hq ?_ hearly (Int.lt_of_lt_of_le hearly hlater)
      rw [hcheck]
      simp

/-- A run that does not find the fork resolved ends when only later events are left. -/
theorem late_of_unsettled (hr : run.Reaches fresh supply h s) {v : Verdict} {s' : State α σ}
    (hstep : run.step s = .ok (.finished v s')) (hside : v.side = none) :
    ∀ x ∈ s.world.agenda.toList, run.env.termination ≤ x.time := by
  cases ending_of_step hstep with
  | drained hnone =>
      intro x hx
      rw [Agenda.next_eq_none_iff.1 hnone] at hx
      contradiction
  | @timeUp first agenda hq hlate =>
      intro x hx
      exact Int.le_trans hlate (Agenda.time_le_of_next (sound_of_reaches hr) hq hx)
  | settled => contradiction
  | @idle first agenda hq hidle =>
      have hmem := (Agenda.toList_next hq).mem_iff.2 List.mem_cons_self
      exact absurd hidle (ne_idle_of_reaches hr first hmem)

/-- The pending check is one of the pending events. -/
theorem exists_check (hr : run.Reaches fresh supply h s) :
    ∃ x ∈ s.world.agenda.toList, x.time = checkTime h.checks := by
  have hmem : checkTime h.checks ∈ s.world.agenda.checks := by
    rw [checks_of_reaches hr]
    exact List.mem_singleton_self _
  obtain ⟨x, hx, htime⟩ := List.mem_filterMap.1 hmem
  dsimp only at htime
  by_cases hcheck : x.event = .check
  · rw [if_pos hcheck] at htime
    exact ⟨x, hx, Option.some.inj htime⟩
  · rw [if_neg hcheck] at htime
    contradiction

theorem checks_le_of_length_le (hr : run.Reaches fresh supply h s)
    (hr' : run.Reaches fresh supply h' s') (hle : h.length ≤ h'.length) :
    h.checks ≤ h'.checks := by
  rcases Nat.lt_or_eq_of_le hle with hlt | heq
  · obtain ⟨e, _, _, hprefix⟩ := hr.exists_step hr' hlt
    exact ((List.prefix_append h [e]).trans hprefix).sublist.countP_le
  · exact Nat.le_of_eq (congrArg History.checks (hr.unique hr' heq).1)

theorem checkTime_mono {j k : Nat} (h : j ≤ k) : checkTime j ≤ checkTime k := by
  simp only [checkTime, checkInterval]
  omega

/-- If the fork is not resolved before one bound, it is not resolved earlier with another. -/
theorem le_time_of_unsettled (hr : run.Reaches fresh supply h s)
    (hr' : run.Reaches fresh supply h' s') (hle : h.length ≤ h'.length) {t : Int}
    (hlate : ∀ x ∈ s.world.agenda.toList, t ≤ x.time) {v : Verdict} {s₁ : State α σ}
    {side : Side} (hstep : run.step s' = .ok (.finished v s₁)) (hside : v.side = some side) :
    t ≤ v.time := by
  cases ending_of_step hstep with
  | drained | timeUp | idle => contradiction
  | @settled first agenda _ _ hq _ hcheck _ =>
      obtain ⟨x, hx, htime⟩ := exists_check hr
      calc t ≤ x.time := hlate x hx
        _ = checkTime h.checks := htime
        _ ≤ checkTime h'.checks := checkTime_mono (checks_le_of_length_le hr hr' hle)
        _ = first.time := (time_of_check hr' hq hcheck).symm

end Run

/-! ## the balancing adversary -/

namespace Balancer

variable {σ : Type} [WordSource σ] {supply : Supply σ} {env : Environment} {net : Network}
  {margin : Balancer → Int} {h h' : Run.History} {s s' : Run.State Balancer σ}

/-- No counter of a state is above that of another. -/
structure Grown (s s' : Run.State Balancer σ) : Prop where
  mined : s.world.mined ≤ s'.world.mined
  adversaryMined : s.world.adversaryMined ≤ s'.world.adversaryMined
  released : s.world.released ≤ s'.world.released
  borrowed : s.adversary.borrowed ≤ s'.adversary.borrowed

omit [WordSource σ] in
theorem Grown.refl (s : Run.State Balancer σ) : Grown s s :=
  ⟨Nat.le_refl _, Nat.le_refl _, Nat.le_refl _, Nat.le_refl _⟩

omit [WordSource σ] in
theorem Grown.trans {s₁ s₂ s₃ : Run.State Balancer σ} (h : Grown s₁ s₂) (h' : Grown s₂ s₃) :
    Grown s₁ s₃ :=
  ⟨Nat.le_trans h.mined h'.mined, Nat.le_trans h.adversaryMined h'.adversaryMined,
    Nat.le_trans h.released h'.released, Nat.le_trans h.borrowed h'.borrowed⟩

omit [WordSource σ] in
theorem grown_of_turn {b : Balancer} {w : World σ} {event : Event} {e : Run.Entry}
    (hturn : Run.Turn (run env net margin) b w event e s) : Grown ⟨b, w⟩ s := by
  have hborrowed := (exchange_of_turn hturn).borrowed_le
  rw [borrowed_noting] at hborrowed
  cases hturn with
  | evil => exact ⟨Nat.le_succ _, Nat.le_succ _, Nat.le_refl _, hborrowed⟩
  | honest => exact ⟨Nat.le_succ _, Nat.le_refl _, Nat.le_refl _, hborrowed⟩
  | told => exact ⟨Nat.le_refl _, Nat.le_refl _, Nat.le_add_right _ _, hborrowed⟩
  | known | new | checked | idle =>
      exact ⟨Nat.le_refl _, Nat.le_refl _, Nat.le_refl _, hborrowed⟩

/-- The counters of a run only grow. -/
theorem grown_of_reaches (hr : (run env net margin).Reaches {} supply h s)
    (hr' : (run env net margin).Reaches {} supply h' s') (hle : h.length ≤ h'.length) :
    Grown s s' := by
  induction hr' with
  | start hprep hstart =>
      obtain ⟨_, rfl⟩ := hr.unique (.start hprep hstart) (Nat.eq_zero_of_le_zero hle)
      exact .refl s
  | step hr₁ hstep ih =>
      rcases Nat.lt_or_eq_of_le hle with hlt | heq
      · rw [List.length_append, List.length_singleton] at hlt
        obtain ⟨_, _, _, _, hturn⟩ := Run.exists_turn_of_step hstep
        have hstep' := grown_of_turn hturn
        exact (ih (Nat.le_of_lt_succ hlt)).trans
          ⟨hstep'.mined, hstep'.adversaryMined, hstep'.released, hstep'.borrowed⟩
      · obtain ⟨_, rfl⟩ := hr.unique (.step hr₁ hstep) heq
        exact .refl s

/-- What the outcome of a run has to do with its outcome for a later bound. -/
structure Truncates (bound : Int) (o o' : Outcome) : Prop where
  /-- A fork that is resolved before the earlier bound leads to the same outcome. -/
  resolved : o.converged = true → o'.forkDuration = o.forkDuration ∧
    o'.convergedSide = o.convergedSide ∧ o'.blocksMined = o.blocksMined ∧
    o'.adversaryBlocks = o.adversaryBlocks ∧ o'.releasedBlocks = o.releasedBlocks ∧
    o'.withheldBlocks = o.withheldBlocks ∧ o'.borrowedBlocks = o.borrowedBlocks
  /-- A fork that is not is not resolved earlier, and more may have happened. -/
  unresolved : o.converged = false → (o'.converged = true → bound ≤ o'.forkDuration) ∧
    o.blocksMined ≤ o'.blocksMined ∧ o.adversaryBlocks ≤ o'.adversaryBlocks ∧
    o.releasedBlocks ≤ o'.releasedBlocks ∧ o.borrowedBlocks ≤ o'.borrowedBlocks

/-- **The bound on the time of a run only cuts it off.**  Of two runs that differ
in the bound alone, the longer one has the same outcome if the shorter one finds
the fork resolved; and otherwise it goes on from where the other ends. -/
theorem truncation {bound : Int} (hlater : env.termination < bound) {events events' : Nat}
    {b b' : Balancer} {o o' : Outcome} {s s' : Run.State Balancer σ}
    (hprep : (run env net margin).prepare {} = .ok b)
    (hsim : (run env net margin).simulate events b supply = .ok (o, s))
    (hprep' : (run { env with termination := bound } net margin).prepare {} = .ok b')
    (hsim' : (run { env with termination := bound } net margin).simulate events' b' supply =
      .ok (o', s')) : Truncates env.termination o o' := by
  obtain ⟨h₁, s₁, v, hr₁, hstep, rfl⟩ := Run.exists_reaches_of_simulate hprep hsim
  obtain ⟨h₂, s₂, v', hr₂, hstep', rfl⟩ := Run.exists_reaches_of_simulate hprep' hsim'
  have hr : (run { env with termination := bound } net margin).Reaches {} supply h₁ s₁ :=
    Run.reaches_bounded (Int.le_of_lt hlater) (Run.valid_of_prepare hprep') hr₁
  have hle : h₁.length ≤ h₂.length := Run.length_le_of_finished hr hr₂ hstep'
  constructor
  case resolved =>
    intro hconverged
    have hside : v.side ≠ none := Option.isSome_iff_ne_none.1 hconverged
    have hsame : ((run env net margin).bounded bound).step s₁ = .ok (.finished v s) :=
      Run.finished_bounded (Int.le_of_lt hlater) hstep hside
    have hge : h₂.length ≤ h₁.length := Run.length_le_of_finished hr₂ hr hsame
    obtain ⟨_, rfl⟩ := hr.unique hr₂ (Nat.le_antisymm hle hge)
    obtain ⟨rfl, rfl⟩ := Run.Progress.finished.inj (Except.ok.inj (hsame.symm.trans hstep'))
    exact ⟨rfl, rfl, rfl, rfl, rfl, rfl, rfl⟩
  case unresolved =>
    intro hunresolved
    have hside : v.side = none :=
      Option.isNone_iff_eq_none.1 (Option.isSome_eq_false_iff.1 hunresolved)
    have hlate := Run.late_of_unsettled hr₁ hstep hside
    have hgrown := grown_of_reaches hr hr₂ hle
    obtain ⟨hadversary, hmined, hevil, hreleased⟩ := (Run.ending_of_step hstep).counters_eq
    obtain ⟨hadversary', hmined', hevil', hreleased'⟩ := (Run.ending_of_step hstep').counters_eq
    refine ⟨fun hconverged => ?_, ?_⟩
    · obtain ⟨side, hside'⟩ := Option.isSome_iff_exists.1 hconverged
      exact Run.le_time_of_unsettled hr hr₂ hle hlate hstep' hside'
    · dsimp only [Run.report]
      rw [hadversary, hmined, hevil, hreleased, hadversary', hmined', hevil', hreleased']
      exact ⟨hgrown.mined, hgrown.adversaryMined, hgrown.released, hgrown.borrowed⟩

/-! ## a lonely node, for three bounds -/

/-- A single node. -/
def solo : Network where
  distances := #[#[0]]
  diameter := 0

/-- Hardly any block is found, and only by the adversary. -/
def soloEnvironment : Environment where
  nodes := 1
  degree := 1
  blockPeriod := 1000000000
  evilRate := 1

/-- The environment of the lonely node, with another bound. -/
def soloUntil (bound : Int) : Environment := { soloEnvironment with termination := bound }

/-- With a bound before the 1002nd check the fork is not resolved, and with two
bounds after it it is. -/
theorem truncation_solo :
    (∃ b b' o o' s s', (run (soloUntil 100) solo Balancer.margin).prepare {} = .ok b ∧
      (run (soloUntil 100) solo Balancer.margin).simulate 1100 b pairSupply = .ok (o, s) ∧
      (run (soloUntil 50061) solo Balancer.margin).prepare {} = .ok b' ∧
      (run (soloUntil 50061) solo Balancer.margin).simulate 1100 b' pairSupply = .ok (o', s') ∧
      o.converged = false ∧ o'.converged = true ∧ Truncates 100 o o') ∧
    ∃ b b' o o' s s', (run (soloUntil 50061) solo Balancer.margin).prepare {} = .ok b ∧
      (run (soloUntil 50061) solo Balancer.margin).simulate 1100 b pairSupply = .ok (o, s) ∧
      (run (soloUntil 50111) solo Balancer.margin).prepare {} = .ok b' ∧
      (run (soloUntil 50111) solo Balancer.margin).simulate 1100 b' pairSupply = .ok (o', s') ∧
      o.converged = true ∧ Truncates 50061 o o' := by
  obtain ⟨b₁, o₁, s₁, hprep₁, hsim₁, ho₁⟩ := Run.exists_simulate_of_any
    (run (soloUntil 100) solo Balancer.margin) {} pairSupply 1100 (·.converged == false)
    (by decide +kernel)
  obtain ⟨b₂, o₂, s₂, hprep₂, hsim₂, ho₂⟩ := Run.exists_simulate_of_any
    (run (soloUntil 50061) solo Balancer.margin) {} pairSupply 1100 (·.converged)
    (by decide +kernel)
  obtain ⟨b₃, o₃, s₃, hprep₃, hsim₃, _⟩ := Run.exists_simulate_of_any
    (run (soloUntil 50111) solo Balancer.margin) {} pairSupply 1100 (·.converged)
    (by decide +kernel)
  exact ⟨⟨b₁, b₂, o₁, o₂, s₁, s₂, hprep₁, hsim₁, hprep₂, hsim₂, beq_iff_eq.1 ho₁, ho₂,
      truncation (by decide) hprep₁ hsim₁ hprep₂ hsim₂⟩,
    b₂, b₃, o₂, o₃, s₂, s₃, hprep₂, hsim₂, hprep₃, hsim₃, ho₂,
    truncation (by decide) hprep₂ hsim₂ hprep₃ hsim₃⟩

end Balancer

end BalanceAttack
