import BalanceAttack.Proofs.Truncation
import BalanceAttack.Proofs.Twins

/-!
# BalanceAttack.Proofs.Noninterference

What an adversary that mines nothing knows, and when, is of no consequence to the
honest nodes.  One run is followed in another in which the reports to the adversary
come at other times: a report is a stutter on either side, there are only finitely
many of them before something else is next, and that is the same in both runs.

* `exists_reaches_past_reports` — the stuttering comes to an end;
* `exists_twin_of_reaches` — a twin of every state is reached, by induction on the run;
* `exists_finished_of_finished` — where one run ends, so does the other;
* `noninterference` — what two outcomes have in common.
-/

namespace BalanceAttack

open BalanceAttack.Random

namespace Run

variable {α σ : Type}

theorem check_of_settled {a : α} {w : World σ} {side : Side} (h : w.checkAgreement.1 = some side) :
    check a w = .ok (.finished ⟨w.clock, some side⟩ ⟨a, w.checkAgreement.2⟩) := by
  obtain ⟨settled, agreement, hw⟩ := w.exists_checkAgreement_eq
  unfold check
  rw [hw] at h ⊢
  dsimp only at h
  subst h
  rfl

variable [WordSource σ]

/-- Nothing that a run does is hindered by the range of time. -/
def Unhindered (run : Run α) (fresh : α) (supply : Supply σ) : Prop :=
  ∀ (h : History) (s : State α σ) (c : Crash α), run.Reaches fresh supply h s →
    run.step s = .error c → c.fault ≠ .overflow

variable {run : Run α} {fresh : α} {supply : Supply σ} {h h' : History} {s s' : State α σ}

/-- A run that ends is not hindered. -/
theorem unhindered_of_finished (hr : run.Reaches fresh supply h s) {v : Verdict}
    (hstep : run.step s = .ok (.finished v s')) : run.Unhindered fresh supply := by
  intro h₁ s₁ c hr₁ hcrash
  rcases Nat.lt_or_eq_of_le (length_le_of_finished hr₁ hr hstep) with hlt | heq
  · obtain ⟨_, _, hrunning, _⟩ := hr₁.exists_step hr hlt
    rw [hcrash] at hrunning
    contradiction
  · obtain ⟨_, rfl⟩ := hr₁.unique hr heq
    rw [hcrash] at hstep
    contradiction

omit [WordSource σ] in
/-- The end of a run leaves the supply as it is. -/
theorem Ending.supply_eq {v : Verdict} (h : Ending run s v s') :
    s'.world.supply = s.world.supply := by
  cases h with
  | drained | timeUp | settled | idle => rfl

end Run

namespace Balancer

variable {σ : Type} [WordSource σ] {env env' : Environment} {net : Network}
  {margin margin' : Balancer → Int} {supply : Supply σ} {h : Run.History}
  {s s₁ : Run.State Balancer σ} {w : World σ}

/-! ## reports -/

theorem pendingOn_of_onlooker (hon : env.Onlooking) (hsq : net.distances.Square net.size)
    (hr : (run env net margin).Reaches {} supply h s) (side : Side) :
    s.adversary.pendingOn side = [] := by
  have hnone := (idle_of_reaches hon hsq hr).2
  rw [withheld_eq] at hnone
  refine List.eq_nil_of_length_eq_zero ?_
  cases side <;> omega

omit [WordSource σ] in
/-- What concerns the adversary alone leaves the world as it is. -/
theorem world_of_report (hoff : env.allowBorrowing = false) {b : Balancer}
    (hnone : ∀ side, b.pendingOn side = []) {event : Event} {e : Run.Entry}
    (hturn : Run.Turn (run env net margin) b w event e s) (hreport : event.visible = false) :
    s.world = w := by
  cases event with
  | mine | deliver | check | idle => contradiction
  | observe => exact told_of_onlooker hoff hnone hturn

/-- A report is carried out, and leaves the world as it is. -/
theorem exists_step_of_report (hon : env.Onlooking) (hsq : net.distances.Square net.size)
    (hfree : (run env net margin).Unhindered {} supply)
    (hr : (run env net margin).Reaches {} supply h s) {first : Scheduled} {agenda : Agenda}
    (hq : s.world.agenda.next = some (first, agenda)) (hearly : first.time < env.termination)
    (hreport : first.event.visible = false) :
    ∃ e s₁, (run env net margin).step s = .ok (.running e s₁) ∧
      s₁.world = { s.world with clock := first.time, agenda } := by
  have hnone := pendingOn_of_onlooker hon hsq hr
  cases hevent : first.event with
  | mine | deliver | check | idle =>
      rw [hevent] at hreport
      contradiction
  | observe side block peer =>
      have hstep : (run env net margin).step s = (run env net margin).handle first.event
          s.adversary { s.world with clock := first.time, agenda } := Run.step_of_lt hq hearly
      rw [hevent] at hstep
      cases hreact : (run env net margin).react side block peer s.adversary
          { s.world with clock := first.time, agenda } with
      | ok x =>
          obtain ⟨e, s₁⟩ := x
          refine ⟨e, s₁, ?_, told_of_onlooker hon.allowBorrowing hnone (Run.turn_of_react hreact)⟩
          exact hstep.trans (Fault.bind_eq_ok_iff.2 ⟨_, hreact, rfl⟩)
      | error c =>
          have hcrash := hstep.trans (Fault.bind_eq_error_iff.2 (.inl hreact))
          obtain ⟨_, _, hq', _, hhindered⟩ := hindered_of_step hon.allowBorrowing hsq hr hcrash
          obtain ⟨rfl, _⟩ := Prod.mk.inj (Option.some.inj (hq.symm.trans hq'))
          exact absurd (hhindered.overflow (by simp [hevent])) (hfree h s c hr hcrash)

/-- Reports are carried out until something else is next, or the time is up. -/
theorem exists_reaches_past_reports (hon : env.Onlooking) (hsq : net.distances.Square net.size)
    (hfree : (run env net margin).Unhindered {} supply)
    (hr : (run env net margin).Reaches {} supply h s) (ht : Twins w s.world) :
    ∃ h₁ s₁ first agenda, (run env net margin).Reaches {} supply h₁ s₁ ∧ Twins w s₁.world ∧
      s₁.world.agenda.next = some (first, agenda) ∧
      (first.event.visible = true ∨ env.termination ≤ first.time) := by
  -- a report takes one event off the agenda and schedules none
  induction hlength : s.world.agenda.toList.length generalizing h s with
  | zero =>
      obtain ⟨x, hx, _⟩ := Run.exists_check hr
      rw [List.eq_nil_of_length_eq_zero hlength] at hx
      contradiction
  | succ n ih =>
      cases hq : s.world.agenda.next with
      | none =>
          rw [Agenda.next_eq_none_iff.1 hq] at hlength
          contradiction
      | some x =>
          obtain ⟨first, agenda⟩ := x
          cases hvisible : first.event.visible with
          | true => exact ⟨h, s, first, agenda, hr, ht, hq, .inl hvisible⟩
          | false =>
              rcases Int.lt_or_le first.time env.termination with hearly | hlate
              · obtain ⟨e, s₁, hstep, hworld⟩ :=
                  exists_step_of_report hon hsq hfree hr hq hearly hvisible
                refine ih (.step hr hstep) ?_ ?_
                · rw [hworld]
                  exact ht.next_of_not hq hvisible first.time
                · rw [hworld]
                  have hcount := (Agenda.toList_next hq).length_eq
                  rw [List.length_cons, hlength] at hcount
                  exact (Nat.succ.inj hcount).symm
              · exact ⟨h, s, first, agenda, hr, ht, hq, .inr hlate⟩

/-! ## the run of a twin -/

section

variable (hk : (run env net margin).Akin (run env' net margin')) (hon : env.Onlooking)
  (hon' : env'.Onlooking) (hsq : net.distances.Square net.size)
  (hfree : (run env' net margin').Unhindered {} supply)

include hk hon' hsq hfree in
/-- What a run does next before its time is up, other than a report, the run of a
twin comes to do next. -/
theorem exists_reaches_to_next (hr : (run env net margin).Reaches {} supply h s)
    {h' : Run.History} {s' : Run.State Balancer σ}
    (hr' : (run env' net margin').Reaches {} supply h' s') (ht : Twins s.world s'.world)
    {first : Scheduled} {agenda : Agenda} (hq : s.world.agenda.next = some (first, agenda))
    (hearly : first.time < env.termination) (hvisible : first.event.visible = true) :
    ∃ h₁ s₁ agenda', (run env' net margin').Reaches {} supply h₁ s₁ ∧ agenda'.Sound ∧
      (run env' net margin').step s₁ = (run env' net margin').handle first.event s₁.adversary
        { s₁.world with clock := first.time, agenda := agenda' } ∧
      Twins s.world s₁.world ∧
      Twins { s.world with clock := first.time, agenda }
        { s₁.world with clock := first.time, agenda := agenda' } := by
  obtain ⟨h₁, s₁, first', agenda', hr₁, ht₁, hq', hnext⟩ :=
    exists_reaches_past_reports hon' hsq hfree hr' ht
  have hvisible' : first'.event.visible = true := by
    rcases hnext with hvisible' | hlate
    · exact hvisible'
    · -- the event is pending, so what is next cannot be too late
      obtain ⟨y, hy, hdue⟩ :=
        ht₁.exists_pending ((Agenda.toList_next hq).mem_iff.2 List.mem_cons_self) hvisible
      have hle := Agenda.time_le_of_next (Run.sound_of_reaches hr₁) hq' hy
      have hsame : y.time = first.time := congrArg Prod.fst hdue
      have hbound : env'.termination = env.termination := hk.termination
      omega
  obtain ⟨htime, hevent, ht₂⟩ := ht₁.next_eq (Run.sound_of_reaches hr) (Run.sound_of_reaches hr₁)
    hq hq' hvisible hvisible'
  have hearly' : first'.time < env'.termination := by
    rw [htime]
    exact hearly.trans_eq hk.termination.symm
  have hstep : (run env' net margin').step s₁ = (run env' net margin').handle first'.event
      s₁.adversary { s₁.world with clock := first'.time, agenda := agenda' } :=
    Run.step_of_lt hq' hearly'
  rw [htime] at ht₂ hstep
  rw [hevent] at hstep
  exact ⟨h₁, s₁, agenda', hr₁, Agenda.sound_next (Run.sound_of_reaches hr₁) hq', hstep, ht₁, ht₂⟩

include hk hon' hsq hfree in
/-- When only later events are left to a run, the run of a twin comes to its end. -/
theorem exists_finished_of_late {h' : Run.History} {s' : Run.State Balancer σ}
    (hr' : (run env' net margin').Reaches {} supply h' s') (ht : Twins s.world s'.world)
    (hlate : ∀ x ∈ s.world.agenda.toList, env.termination ≤ x.time) :
    ∃ h₁ s₁ s₂, (run env' net margin').Reaches {} supply h₁ s₁ ∧ Twins s.world s₁.world ∧
      (run env' net margin').step s₁ = .ok (.finished ⟨env.termination, none⟩ s₂) := by
  have hbound : env'.termination = env.termination := hk.termination
  obtain ⟨h₁, s₁, first, agenda, hr₁, ht₁, hq, hnext⟩ :=
    exists_reaches_past_reports hon' hsq hfree hr' ht
  have hlate' : env'.termination ≤ first.time := by
    rcases hnext with hvisible | hlate'
    · obtain ⟨y, hy, hdue⟩ := ht₁.symm.exists_pending
        ((Agenda.toList_next hq).mem_iff.2 List.mem_cons_self) hvisible
      have htime : y.time = first.time := congrArg Prod.fst hdue
      have hle : env.termination ≤ y.time := hlate y hy
      omega
    · exact hlate'
  refine ⟨h₁, s₁, ⟨s₁.adversary, { s₁.world with clock := first.time, agenda }⟩, hr₁, ht₁, ?_⟩
  rw [← hbound]
  exact Run.step_of_le hq hlate'

include hk hon' hsq hfree in
/-- When a run settles on a side, the run of a twin comes to settle on it. -/
theorem exists_finished_of_settled (hr : (run env net margin).Reaches {} supply h s)
    {h' : Run.History} {s' : Run.State Balancer σ}
    (hr' : (run env' net margin').Reaches {} supply h' s') (ht : Twins s.world s'.world)
    {first : Scheduled} {agenda : Agenda} (hq : s.world.agenda.next = some (first, agenda))
    (hearly : first.time < env.termination) (hcheck : first.event = .check) {side : Side}
    (hagreed :
      (World.checkAgreement { s.world with clock := first.time, agenda }).1 = some side) :
    ∃ h₁ s₁ s₂, (run env' net margin').Reaches {} supply h₁ s₁ ∧ Twins s.world s₁.world ∧
      (run env' net margin').step s₁ = .ok (.finished ⟨first.time, some side⟩ s₂) := by
  obtain ⟨h₁, s₁, agenda', hr₁, _, hstep, ht₁, ht₂⟩ :=
    exists_reaches_to_next hk hon' hsq hfree hr hr' ht hq hearly (by rw [hcheck]; rfl)
  rw [hcheck] at hstep
  have hsettled := (ht₂.checkAgreement rfl).1.trans hagreed
  exact ⟨h₁, s₁, _, hr₁, ht₁, hstep.trans (Run.check_of_settled hsettled)⟩

include hk hon hon' hsq hfree

/-- A run comes to a twin of every state of an akin one. -/
theorem exists_twin_of_reaches {b : Balancer}
    (hprep' : (run env' net margin').prepare {} = .ok b)
    (hr : (run env net margin).Reaches {} supply h s) :
    ∃ h' s', (run env' net margin').Reaches {} supply h' s' ∧ Twins s.world s'.world := by
  induction hr with
  | @start b₀ s hprep hstart =>
      -- neither the adversary nor its distance plays a part in the start
      have hset := (Run.prepare_eq_ok_iff.1 hprep).2.2
      have hset' := (Run.prepare_eq_ok_iff.1 hprep').2.2
      obtain rfl : b₀ = b := Except.ok.inj (hset.symm.trans hset')
      exact ⟨[], s, .start hprep' hstart, .refl _⟩
  | step hr hstep ih =>
      obtain ⟨h', s', hr', ht⟩ := ih
      obtain ⟨first, agenda, hq, hearly, hhandle⟩ := Run.exists_handle_of_step hstep
      have hmem := (Agenda.toList_next hq).mem_iff.2 List.mem_cons_self
      cases hvisible : first.event.visible with
      | false =>
          -- the twin waits
          refine ⟨h', s', hr', ?_⟩
          rw [world_of_report hon.allowBorrowing (pendingOn_of_onlooker hon hsq hr)
            (Run.turn_of_handle hhandle) hvisible]
          exact (ht.symm.next_of_not hq hvisible first.time).symm
      | true =>
          obtain ⟨h₁, s₁, agenda', hr₁, hs₁, hstep', _, ht₁⟩ :=
            exists_reaches_to_next hk hon' hsq hfree hr hr' ht hq hearly hvisible
          rcases ht₁.handle hk hon.evilRate rfl (Agenda.sound_next (Run.sound_of_reaches hr) hq)
            hs₁ hvisible (Run.ne_idle_of_reaches hr first hmem) hhandle with
            ⟨e', s₂, hhandle', ht₂⟩ | ⟨c, hcrash, hover⟩
          · exact ⟨h₁ ++ [e'], s₂, .step hr₁ (hstep'.trans hhandle'), ht₂⟩
          · exact absurd hover (hfree h₁ s₁ c hr₁ (hstep'.trans hcrash))

/-- Where a run ends, an akin one ends in the same way. -/
theorem exists_finished_of_finished {b : Balancer}
    (hprep' : (run env' net margin').prepare {} = .ok b)
    (hr : (run env net margin).Reaches {} supply h s) {v : Verdict}
    (hstep : (run env net margin).step s = .ok (.finished v s₁)) :
    ∃ h' s' s₁', (run env' net margin').Reaches {} supply h' s' ∧
      (run env' net margin').step s' = .ok (.finished v s₁') ∧
      s₁'.world.mined = s₁.world.mined ∧ s₁'.world.supply = s₁.world.supply := by
  obtain ⟨h', s', hr', ht⟩ := exists_twin_of_reaches hk hon hon' hsq hfree hprep' hr
  have hend : ∃ h₂ s₂ s₃, (run env' net margin').Reaches {} supply h₂ s₂ ∧
      Twins s.world s₂.world ∧ (run env' net margin').step s₂ = .ok (.finished v s₃) := by
    cases hside : v.side with
    | none =>
        have hv : v = ⟨env.termination, none⟩ := by
          rw [Verdict.mk.injEq]
          exact ⟨Run.time_of_unsettled hstep hside, hside⟩
        rw [hv]
        exact exists_finished_of_late hk hon' hsq hfree hr' ht
          (Run.late_of_unsettled hr hstep hside)
    | some side =>
        cases Run.ending_of_step hstep with
        | drained | timeUp | idle => contradiction
        | settled hq hearly hcheck hagreed =>
            exact exists_finished_of_settled hk hon' hsq hfree hr hr' ht hq hearly hcheck
              (congrArg Prod.fst hagreed)
  obtain ⟨h₂, s₂, s₃, hr₂, ht₂, hstep₂⟩ := hend
  have hending := Run.ending_of_step hstep
  have hending₂ := Run.ending_of_step hstep₂
  refine ⟨h₂, s₂, s₃, hr₂, hstep₂, ?_, ?_⟩
  · exact hending₂.counters_eq.2.1.trans (ht₂.mined.trans hending.counters_eq.2.1.symm)
  · exact hending₂.supply_eq.trans (ht₂.supply.trans hending.supply_eq.symm)

end

/-! ## outcomes -/

/-- Two outcomes say the same of the honest nodes. -/
structure SameFork (o o' : Outcome) : Prop where
  forkDuration : o'.forkDuration = o.forkDuration
  convergedSide : o'.convergedSide = o.convergedSide
  blocksMined : o'.blocksMined = o.blocksMined
  diameter : o'.diameter = o.diameter

/-- The adversary has mined, sent and kept back nothing. -/
structure Uninvolved (o : Outcome) : Prop where
  adversaryBlocks : o.adversaryBlocks = 0
  releasedBlocks : o.releasedBlocks = 0
  withheldBlocks : o.withheldBlocks = 0

theorem uninvolved_of_simulate (hon : env.Onlooking) (hsq : net.distances.Square net.size)
    {b : Balancer} (hprep : (run env net margin).prepare {} = .ok b) {events : Nat} {o : Outcome}
    (hsim : (run env net margin).simulate events b supply = .ok (o, s)) : Uninvolved o := by
  obtain ⟨h₁, s₁, v, hr, hstep, rfl⟩ := Run.exists_reaches_of_simulate hprep hsim
  obtain ⟨hadversary, _, hevil, hreleased⟩ := (Run.ending_of_step hstep).counters_eq
  obtain ⟨hnothing, hnone⟩ := idle_of_reaches hon hsq hr
  refine ⟨?_, ?_, ?_⟩
  · exact hevil.trans (adversaryMined_of_reaches hon.evilRate hsq hr)
  · exact hreleased.trans hnothing
  · exact (congrArg Balancer.withheld hadversary).trans hnone

/-- **Honest mining does not depend on an adversary that mines nothing.**  With no
blocks of its own and none to lend itself, how far away it is and by what margin
it would decide is of no consequence to the honest nodes: two such runs from the
same random words draw the same of them and report the same of the fork, and if
one of them has an outcome so does the other, unless it leaves the range of time. -/
theorem noninterference (hsq : net.distances.Square net.size) (hon : env.Onlooking) {far : Int}
    {b b' : Balancer} (hprep : (run env net margin).prepare {} = .ok b)
    (hprep' : (run { env with oneWayLatency := far } net margin').prepare {} = .ok b') :
    (∀ events events' o o' s s', (run env net margin).simulate events b supply = .ok (o, s) →
      (run { env with oneWayLatency := far } net margin').simulate events' b' supply =
        .ok (o', s') →
      SameFork o o' ∧ s'.world.supply = s.world.supply ∧ Uninvolved o ∧ Uninvolved o') ∧
    ((∃ events o s, (run env net margin).simulate events b supply = .ok (o, s)) →
      (∀ events c, (run { env with oneWayLatency := far } net margin').simulate events b' supply =
        .error (.crash c) → c.fault ≠ .overflow) →
      ∃ events o s, (run { env with oneWayLatency := far } net margin').simulate events b' supply =
        .ok (o, s)) := by
  have hon' : Environment.Onlooking { env with oneWayLatency := far } :=
    ⟨hon.evilRate, hon.allowBorrowing⟩
  have hk : (run env net margin).Akin (run { env with oneWayLatency := far } net margin') :=
    ⟨rfl, rfl, rfl, rfl⟩
  constructor
  · intro events events' o o' s s' hsim hsim'
    have huninvolved := uninvolved_of_simulate hon hsq hprep hsim
    have huninvolved' := uninvolved_of_simulate hon' hsq hprep' hsim'
    obtain ⟨h₁, s₁, v, hr, hstep, rfl⟩ := Run.exists_reaches_of_simulate hprep hsim
    obtain ⟨h₂, s₂, v', hr', hstep', rfl⟩ := Run.exists_reaches_of_simulate hprep' hsim'
    obtain ⟨_, _, s₃, hr₃, hstep₃, hmined, hsupply⟩ := exists_finished_of_finished hk hon hon' hsq
      (Run.unhindered_of_finished hr' hstep') hprep' hr hstep
    obtain ⟨rfl, rfl⟩ := Run.finished_unique hr₃ hr' hstep₃ hstep'
    exact ⟨⟨rfl, rfl, hmined, rfl⟩, hsupply, huninvolved, huninvolved'⟩
  · rintro ⟨events, o, s, hsim⟩ hfree
    obtain ⟨h₁, s₁, v, hr, hstep, rfl⟩ := Run.exists_reaches_of_simulate hprep hsim
    have hunhindered :
        (run { env with oneWayLatency := far } net margin').Unhindered {} supply := by
      intro h₂ s₂ c hr₂ hcrash
      obtain ⟨events', hsim'⟩ := Run.exists_simulate_of_crash hprep' hr₂ hcrash
      exact hfree events' c hsim'
    obtain ⟨_, _, s₃, hr₃, hstep₃, _⟩ := exists_finished_of_finished hk hon hon' hsq hunhindered
      hprep' hr hstep
    obtain ⟨events', hsim'⟩ := Run.exists_simulate_of_finished hprep' hr₃ hstep₃
    exact ⟨events', _, s₃, hsim'⟩

/-! ## a small run, watched from near and from far -/

/-- The run of honest nodes without loans. -/
def watchedEnvironment : Environment := { honestEnvironment with allowBorrowing := false }

/-- The blocks of a tenth of a second, for two distances and two margins of the adversary.  It
lacks thirty-five blocks in the one run and more than four times as many in the other. -/
theorem noninterference_pair :
    ∃ b b' o o' s s',
      (run watchedEnvironment pair Balancer.margin).prepare {} = .ok b ∧
      (run { watchedEnvironment with oneWayLatency := 2 } pair fun _ => 7).prepare {} = .ok b' ∧
      (run watchedEnvironment pair Balancer.margin).simulate 80 b pairSupply = .ok (o, s) ∧
      (run { watchedEnvironment with oneWayLatency := 2 } pair fun _ => 7).simulate 80 b'
        pairSupply = .ok (o', s') ∧
      o.blocksMined = 9 ∧ o.borrowedBlocks = 35 ∧ o'.borrowedBlocks = 168 ∧
      SameFork o o' ∧ s'.world.supply = s.world.supply ∧ Uninvolved o ∧ Uninvolved o' := by
  obtain ⟨b, o, s, hprep, hsim, ho⟩ := Run.exists_simulate_of_any
    (run watchedEnvironment pair Balancer.margin) {} pairSupply 80
    (fun o => o.blocksMined = 9 ∧ o.borrowedBlocks = 35) (by decide +kernel)
  obtain ⟨b', o', s', hprep', hsim', ho'⟩ := Run.exists_simulate_of_any
    (run { watchedEnvironment with oneWayLatency := 2 } pair fun _ => 7) {} pairSupply 80
    (·.borrowedBlocks = 168) (by decide +kernel)
  obtain ⟨hmined, hlacking⟩ := of_decide_eq_true ho
  have hon : watchedEnvironment.Onlooking := ⟨by decide +kernel, rfl⟩
  exact ⟨b, b', o, o', s, s', hprep, hprep', hsim, hsim', hmined, hlacking, of_decide_eq_true ho',
    (noninterference square_pair hon hprep hprep').1 80 80 o o' s s' hsim hsim'⟩

end Balancer

end BalanceAttack
