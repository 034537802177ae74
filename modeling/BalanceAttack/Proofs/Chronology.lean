import BalanceAttack.Proofs.Agreement
import BalanceAttack.Proofs.Flow
import BalanceAttack.Proofs.Walk

/-!
# BalanceAttack.Proofs.Chronology

In which order events are carried out.  As long as nothing takes a negative
time, the clock never goes back, a block is mined before anything else that
happens in its millisecond, and a check is the last thing that does, however
much is scheduled for a millisecond while it lasts.

* `Precedes` — what an event that was carried out is to one still pending;
* `precedes_of_reaches` — it is that to all of them, by induction over the run;
* `chronology` — what has been delivered when a block is mined, and at a check.
-/

namespace BalanceAttack

open BalanceAttack.Random

/-- Nothing arrives from the other group before it was sent. -/
theorem Partition.crossing_nonneg {n : Nat} {distances : Latencies} {p : Partition}
    (h : ofDistances n distances = .ok p) : ∀ t ∈ p.crossing, 0 ≤ t := by
  intro t ht
  obtain ⟨sources, node, hnearest⟩ := exists_nearest_of_mem h ht
  rcases nearest_cases hnearest with ⟨rfl, _⟩ | ⟨⟨_, _, _, hreaches⟩, _⟩
  · exact Int.le_refl 0
  · exact Latencies.reaches_iff.1 hreaches

namespace Run

variable {α σ : Type} [WordSource σ]

/-- An event is scheduled in the course of a run: it is pending in some state.
Whatever is scheduled is pending when the next event is due. -/
def Schedules (run : Run α) (fresh : α) (supply : Supply σ) (x : Scheduled) : Prop :=
  ∃ h s, run.Reaches fresh supply h s ∧ x ∈ s.world.agenda.toList

/-- An event was carried out in the course of a history. -/
def CarriedOut (run : Run α) (fresh : α) (supply : Supply σ) (h : History) (x : Scheduled) :
    Prop :=
  ∃ h₀ s₀ agenda, run.Reaches fresh supply h₀ s₀ ∧ h₀.length < h.length ∧
    s₀.world.agenda.next = some (x, agenda)

/-- No wait for a block that is drawn in the course of a run is negative. -/
def Patient (run : Run α) (fresh : α) (supply : Supply σ) : Prop :=
  ∀ (h : History) (s : State α σ) (first : Scheduled) (agenda : Agenda) (wait : Int)
    (rest : Supply σ), run.Reaches fresh supply h s → s.world.agenda.next = some (first, agenda) →
      first.event = .mine →
      Draw.interval run.env.blockPeriod s.world.supply = .ok (wait, rest) → 0 ≤ wait

/-- Everything that a run schedules, it schedules for the present or the future. -/
def Forward (run : Run α) (fresh : α) (supply : Supply σ) : Prop :=
  ∀ {h : History} {s s' : State α σ} {e : Entry}, run.Reaches fresh supply h s →
    run.step s = .ok (.running e s') →
    ∃ first agenda, s.world.agenda.next = some (first, agenda) ∧
      ∀ x ∈ s'.world.agenda.toList, x ∈ agenda.toList ∨
        (first.time ≤ x.time ∧ (x.event = .mine → first.event = .mine) ∧
          (first.event = .check → first.time < x.time))

/-- What an event that was carried out is to one that is pending: no later, but
earlier if it is a check, or if a block is pending and it was none. -/
structure Precedes (c x : Scheduled) : Prop where
  le : c.time ≤ x.time
  lt_of_mine : x.event = .mine → 0 < c.event.rank → c.time < x.time
  lt_of_check : c.event = .check → c.time < x.time

variable {run : Run α} {fresh : α} {supply : Supply σ} {h h' : History} {s s' : State α σ}
  {first : Scheduled} {agenda : Agenda}

/-- The next event precedes all those that stay pending. -/
theorem precedes_of_next (hr : run.Reaches fresh supply h s)
    (hq : s.world.agenda.next = some (first, agenda)) {x : Scheduled} (hx : x ∈ agenda.toList) :
    Precedes first x := by
  have hle := Scheduled.notAfter_iff.1 (Agenda.notAfter_of_next (sound_of_reaches hr) hq hx)
  refine ⟨by omega, fun hmine hrank => ?_, fun hcheck => ?_⟩
  · have hx0 : x.event.rank = 0 := congrArg Event.rank hmine
    omega
  · have hfirst : first.event.rank = 3 := congrArg Event.rank hcheck
    have hrank : x.event.rank < 3 := by
      cases hevent : x.event with
      | mine | deliver | observe => simp [Event.rank]
      | check =>
          -- no other check is pending
          have hnone := (Agenda.times_next hq (checks_of_reaches hr) hcheck).2
          have hmem : x.time ∈ agenda.times .check :=
            List.mem_filterMap.2 ⟨x, hx, if_pos hevent⟩
          rw [hnone] at hmem
          contradiction
      | idle =>
          have hpending := (Agenda.toList_next hq).mem_iff.2 (List.mem_cons_of_mem _ hx)
          exact absurd hevent (ne_idle_of_reaches hr x hpending)
    omega

/-- What has been carried out by the next step is what was before, and the next event. -/
theorem CarriedOut.append {e : Entry} (hr : run.Reaches fresh supply h s)
    (hq : s.world.agenda.next = some (first, agenda)) {c : Scheduled}
    (hc : CarriedOut run fresh supply (h ++ [e]) c) :
    CarriedOut run fresh supply h c ∨ c = first := by
  obtain ⟨h₀, s₀, agenda₀, hr₀, hlength, hq₀⟩ := hc
  rw [List.length_append, List.length_singleton] at hlength
  rcases Nat.lt_or_eq_of_le (Nat.le_of_lt_succ hlength) with hlt | heq
  · exact .inl ⟨h₀, s₀, agenda₀, hr₀, hlt, hq₀⟩
  · obtain ⟨_, rfl⟩ := hr₀.unique hr heq
    exact .inr (congrArg Prod.fst (Option.some.inj (hq₀.symm.trans hq)))

/-- Whatever was carried out precedes whatever is pending. -/
theorem precedes_of_reaches (hf : run.Forward fresh supply) (hr : run.Reaches fresh supply h s)
    {c x : Scheduled} (hc : run.CarriedOut fresh supply h c) (hx : x ∈ s.world.agenda.toList) :
    Precedes c x := by
  induction hr generalizing c x with
  | start =>
      obtain ⟨_, _, _, _, hlength, _⟩ := hc
      exact absurd hlength (Nat.not_lt_zero _)
  | step hr hstep ih =>
      obtain ⟨first, agenda, hq, hnew⟩ := hf hr hstep
      have hfirst := (Agenda.toList_next hq).mem_iff.2 List.mem_cons_self
      rcases hnew x hx with hx | ⟨hle, hmine, hlt⟩
      · rcases hc.append hr hq with hc | rfl
        · exact ih hc ((Agenda.toList_next hq).mem_iff.2 (List.mem_cons_of_mem _ hx))
        · exact precedes_of_next hr hq hx
      · rcases hc.append hr hq with hc | rfl
        · -- what precedes the event that is carried out precedes all that it leads to
          have hbefore := ih hc hfirst
          exact
            { le := Int.le_trans hbefore.le hle
              lt_of_mine := fun hxm hrank =>
                Int.lt_of_lt_of_le (hbefore.lt_of_mine (hmine hxm) hrank) hle
              lt_of_check := fun hcheck => Int.lt_of_lt_of_le (hbefore.lt_of_check hcheck) hle }
        · refine ⟨hle, fun hxm hrank => ?_, hlt⟩
          rw [hmine hxm] at hrank
          exact absurd hrank (Nat.lt_irrefl 0)

/-- What was pending once has been carried out, or is pending still. -/
theorem mem_or_carriedOut (hr : run.Reaches fresh supply h s)
    (hr' : run.Reaches fresh supply h' s') (hle : h.length ≤ h'.length) {x : Scheduled}
    (hx : x ∈ s.world.agenda.toList) :
    x ∈ s'.world.agenda.toList ∨ run.CarriedOut fresh supply h' x := by
  induction hr' with
  | start hprep hstart =>
      obtain ⟨_, rfl⟩ := hr.unique (.start hprep hstart) (Nat.eq_zero_of_le_zero hle)
      exact .inl hx
  | @step h₁ s₁ s₂ e hr₁ hstep ih =>
      rcases Nat.lt_or_eq_of_le hle with hlt | heq
      · rw [List.length_append, List.length_singleton] at hlt
        obtain ⟨first, agenda, es, hq, _, hagenda, _⟩ := exists_sequels_of_step hstep
        rcases ih (Nat.le_of_lt_succ hlt) with hx | ⟨h₀, s₀, agenda₀, hr₀, hlength, hq₀⟩
        · rcases List.mem_cons.1 ((Agenda.toList_next hq).mem_iff.1 hx) with rfl | hx
          · exact .inr ⟨h₁, s₁, agenda, hr₁, by simp, hq⟩
          · rw [hagenda]
            exact .inl (Agenda.mem_pushAll_of_mem hx es)
        · refine .inr ⟨h₀, s₀, agenda₀, hr₀, ?_, hq₀⟩
          rw [List.length_append]
          omega
      · obtain ⟨_, rfl⟩ := hr.unique (.step hr₁ hstep) heq
        exact .inl hx

/-! ## what has been delivered -/

/-- The order in which a run carries out its events. -/
structure Chronology (run : Run α) (fresh : α) (supply : Supply σ) : Prop where
  /-- The clock never goes back. -/
  monotone : ∀ {h h' : History} {s s' : State α σ} {first first' : Scheduled}
    {agenda agenda' : Agenda}, run.Reaches fresh supply h s → run.Reaches fresh supply h' s' →
    h.length ≤ h'.length → s.world.agenda.next = some (first, agenda) →
    s'.world.agenda.next = some (first', agenda') → first.time ≤ first'.time
  /-- Of all deliveries of the run, those made before a block is mined are the earlier ones. -/
  mined : ∀ {h : History} {s : State α σ} {first : Scheduled} {agenda : Agenda},
    run.Reaches fresh supply h s → s.world.agenda.next = some (first, agenda) →
    first.event = .mine →
    ∀ (x : Scheduled) (peer : Nat) (side : Side) (block : BlockId),
      run.Schedules fresh supply x → x.event = .deliver peer side block →
      (run.CarriedOut fresh supply h x ↔ x.time < first.time)
  /-- Of all deliveries of the run, those made before a check are those that are not later. -/
  checked : ∀ {h : History} {s : State α σ} {first : Scheduled} {agenda : Agenda},
    run.Reaches fresh supply h s → s.world.agenda.next = some (first, agenda) →
    first.event = .check →
    ∀ (x : Scheduled) (peer : Nat) (side : Side) (block : BlockId),
      run.Schedules fresh supply x → x.event = .deliver peer side block →
      (run.CarriedOut fresh supply h x ↔ x.time ≤ first.time)
  /-- Nothing is left to do at the time of a check. -/
  cleared : ∀ {h : History} {s : State α σ} {first : Scheduled} {agenda : Agenda},
    run.Reaches fresh supply h s → s.world.agenda.next = some (first, agenda) →
    first.event = .check → ∀ x ∈ agenda.toList, first.time < x.time

/-- An event of the run that is not carried out before another comes is pending
then, or is preceded by it. -/
theorem mem_or_precedes (hf : run.Forward fresh supply) (hr : run.Reaches fresh supply h s)
    (hq : s.world.agenda.next = some (first, agenda)) {x : Scheduled}
    (hx : run.Schedules fresh supply x) (hnot : ¬ run.CarriedOut fresh supply h x) :
    x = first ∨ x ∈ agenda.toList ∨ Precedes first x := by
  obtain ⟨h₀, s₀, hr₀, hx⟩ := hx
  rcases Nat.lt_or_ge h.length h₀.length with hlt | hle
  · exact .inr (.inr (precedes_of_reaches hf hr₀ ⟨h, s, agenda, hr, hlt, hq⟩ hx))
  · have hpending := (mem_or_carriedOut hr₀ hr hle hx).resolve_right hnot
    rcases List.mem_cons.1 ((Agenda.toList_next hq).mem_iff.1 hpending) with rfl | hx
    · exact .inl rfl
    · exact .inr (.inl hx)

theorem chronology_of_forward (hf : run.Forward fresh supply) :
    run.Chronology fresh supply := by
  have hlater : ∀ {h : History} {s : State α σ} {first : Scheduled} {agenda : Agenda},
      run.Reaches fresh supply h s → s.world.agenda.next = some (first, agenda) →
      ∀ x, run.Schedules fresh supply x → x ≠ first → ¬ run.CarriedOut fresh supply h x →
      Precedes first x := by
    intro h s first agenda hr hq x hx hne hnot
    rcases mem_or_precedes hf hr hq hx hnot with rfl | hx | hx
    · contradiction
    · exact precedes_of_next hr hq hx
    · exact hx
  have hearlier : ∀ {h : History} {s : State α σ} {first c : Scheduled} {agenda : Agenda},
      run.Reaches fresh supply h s → s.world.agenda.next = some (first, agenda) →
      run.CarriedOut fresh supply h c → Precedes c first := fun hr hq hc =>
    precedes_of_reaches hf hr hc ((Agenda.toList_next hq).mem_iff.2 List.mem_cons_self)
  constructor
  case monotone =>
    intro h h' s s' first first' agenda agenda' hr hr' hle hq hq'
    rcases Nat.lt_or_eq_of_le hle with hlt | heq
    · exact (hearlier hr' hq' ⟨h, s, agenda, hr, hlt, hq⟩).le
    · obtain ⟨_, rfl⟩ := hr.unique hr' heq
      rw [hq] at hq'
      exact Int.le_of_eq (congrArg (fun x => x.1.time) (Option.some.inj hq'))
  case mined =>
    intro h s first agenda hr hq hmine x peer side block hx hdeliver
    have hrank : 0 < x.event.rank := by
      rw [hdeliver]
      exact Nat.one_pos
    refine ⟨fun hc => (hearlier hr hq hc).lt_of_mine hmine hrank, fun hlt => ?_⟩
    by_contra hnot
    have hne : x ≠ first := fun heq => by
      rw [heq, hmine] at hdeliver
      contradiction
    exact absurd (hlater hr hq x hx hne hnot).le (Int.not_le.2 hlt)
  case checked =>
    intro h s first agenda hr hq hcheck x peer side block hx hdeliver
    refine ⟨fun hc => (hearlier hr hq hc).le, fun hle => ?_⟩
    by_contra hnot
    have hne : x ≠ first := fun heq => by
      rw [heq, hcheck] at hdeliver
      contradiction
    exact absurd ((hlater hr hq x hx hne hnot).lt_of_check hcheck) (Int.not_lt.2 hle)
  case cleared =>
    intro h s first agenda hr hq hcheck x hx
    exact (precedes_of_next hr hq hx).lt_of_check hcheck

end Run

/-! ## the balancing adversary -/

namespace Balancer

variable {σ : Type} [WordSource σ] {supply : Supply σ} {env : Environment} {net : Network}
  {margin : Balancer → Int}

theorem forward (hdistances : ∀ row ∈ net.distances, ∀ t ∈ row, 0 ≤ t)
    (hpatient : (run env net margin).Patient {} supply) :
    (run env net margin).Forward {} supply := by
  intro h s s' e hr hstep
  obtain ⟨first, agenda, es, hq, _, hagenda, _, hes⟩ := Run.exists_sequels_of_step hstep
  refine ⟨first, agenda, hq, fun x hx => ?_⟩
  rw [hagenda] at hx
  rcases Agenda.mem_pushAll hx with hx | hx
  · exact .inl hx
  · have hsequel := hes _ hx
    have hlatency : 0 ≤ env.oneWayLatency := hr.valid.oneWayLatency_nonneg
    have hcrossing : ∀ t ∈ s'.adversary.partition.crossing, 0 ≤ t :=
      Partition.crossing_nonneg (partition_of_reaches (.step hr hstep))
    have hwait : first.event = .mine → ∀ wait rest,
        Draw.interval env.blockPeriod s.world.supply = .ok (wait, rest) → 0 ≤ wait :=
      fun hmine wait rest => hpatient h s first agenda wait rest hr hq hmine
    exact .inr ⟨hsequel.now_le hlatency hdistances hcrossing hwait, hsequel.event_eq_mine,
      hsequel.now_lt⟩

/-- **A miner sees no delivery of its own millisecond, and a check misses none.**
The clock of a run never goes back; of all deliveries that the run ever schedules,
exactly those at earlier times have been made when a block is mined, and exactly
those not at later times at a check, which leaves nothing to do at its time. -/
theorem chronology (hdistances : ∀ row ∈ net.distances, ∀ t ∈ row, 0 ≤ t)
    (hpatient : (run env net margin).Patient {} supply) :
    (run env net margin).Chronology {} supply :=
  Run.chronology_of_forward (forward hdistances hpatient)

/-! ## a network without latencies -/

/-- Two nodes that nothing keeps apart. -/
def instant : Network where
  distances := #[#[0, 0], #[0, 0]]
  diameter := 0

/-- Every message arrives at once, and the adversary may send blocks that it lends itself. -/
def instantEnvironment : Environment where
  nodes := 2
  degree := 1
  blockPeriod := 4
  evilRate := 0
  oneWayLatency := 0
  allowBorrowing := true

/-- A source of one and the same word. -/
inductive Steady where
  | tick

instance : WordSource Steady := ⟨fun _ => (0x2000000000000000, .tick)⟩

/-- As many words as can be drawn. -/
def steadySupply : Supply Steady := .ofSource .tick

/-- There are four milliseconds between any two blocks. -/
theorem interval_steady {supply rest : Supply Steady} {wait : Int}
    (h : Draw.interval 4 supply = .ok (wait, rest)) : wait = 4 := by
  obtain ⟨source, left⟩ := supply
  cases left with
  | zero => contradiction
  | succ left =>
      have hword : Draw.word (⟨source, left + 1⟩ : Supply Steady) =
          .ok (0x2000000000000000, ⟨.tick, left⟩) := rfl
      rw [Draw.interval_of_lt hword (by decide +kernel)] at h
      rw [← (Prod.mk.inj (Except.ok.inj h)).1]
      decide +kernel

theorem patient_instant :
    (run instantEnvironment instant Balancer.margin).Patient {} steadySupply :=
  fun _ _ _ _ _ _ _ _ _ hwait => (interval_steady hwait).symm ▸ by decide

/-- The order of events where whatever is sent is delivered in the same millisecond. -/
theorem chronology_instant :
    (∀ row ∈ instant.distances, ∀ t ∈ row, 0 ≤ t) ∧
      (run instantEnvironment instant Balancer.margin).Patient {} steadySupply ∧
      (run instantEnvironment instant Balancer.margin).Chronology {} steadySupply := by
  have hdistances : ∀ row ∈ instant.distances, ∀ t ∈ row, 0 ≤ t := by decide
  exact ⟨hdistances, patient_instant, chronology hdistances patient_instant⟩

end Balancer

end BalanceAttack
