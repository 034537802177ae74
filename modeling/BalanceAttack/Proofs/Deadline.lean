import BalanceAttack.Proofs.Pace
import BalanceAttack.Proofs.Chronology

/-!
# BalanceAttack.Proofs.Deadline

How late anything can be due.  Only what is due before the end is carried out,
so no event is due later than the last moment before the end and the longest
time that an event can take.  Where that is a time, no time of a run is out of
range:

* `Sequel.le_deadline` — what one event is followed by;
* `due_of_reaches` — whatever is pending in some state;
* `dry_of_step` — then a step can only be hindered by a lack of words.
-/

namespace BalanceAttack

open BalanceAttack.Random

/-- The latency from the other group is that of some path, or there is none. -/
theorem Partition.mem_crossing {n : Nat} {distances : Latencies} {p : Partition}
    (h : ofDistances n distances = .ok p) {t : Int} (ht : t ∈ p.crossing) :
    t = 0 ∨ ∃ row ∈ distances, t ∈ row := by
  obtain ⟨sources, node, hnearest⟩ := exists_nearest_of_mem h ht
  rcases nearest_cases hnearest with ⟨rfl, _⟩ | ⟨⟨source, _, hentry, _⟩, _⟩
  · exact .inl rfl
  · obtain ⟨row, hrow, ht⟩ := Latencies.entry_eq_ok_iff.1 hentry
    exact .inr ⟨row, Array.mem_of_getElem? hrow, Array.mem_of_getElem? ht⟩

/-- A square table that has a row has an entry. -/
theorem Latencies.exists_mem_of_square {m : Latencies} {n : Nat} (hsq : m.Square n) (hn : n ≠ 0) :
    ∃ row ∈ m, ∃ t, t ∈ row := by
  have hpos : 0 < n := Nat.pos_of_ne_zero hn
  obtain ⟨row, hrow, ht⟩ := entry_eq_ok_iff.1 (entry_of_square hsq hpos hpos)
  exact ⟨row, Array.mem_of_getElem? hrow, _, Array.mem_of_getElem? ht⟩

namespace Run

variable {α σ : Type} [WordSource σ]

/-- The last moment before the end, and the longest time that an event can take,
for latencies up to `reach` and waits up to `pause`. -/
def deadline (run : Run α) (reach pause : Int) : Int :=
  run.env.termination - 1 + max (run.env.oneWayLatency + reach) (max pause checkInterval)

/-- The latencies of a run are up to `reach` and its waits up to `pause`, and
neither leads out of the range of time. -/
structure Timely (run : Run α) (fresh : α) (supply : Supply σ) (reach pause : Int) : Prop where
  latency : ∀ row ∈ run.network.distances, ∀ t ∈ row, 0 ≤ t ∧ t ≤ reach
  wait : ∀ (h : History) (s : State α σ) (first : Scheduled) (agenda : Agenda) (wait : Int)
    (rest : Supply σ), run.Reaches fresh supply h s → s.world.agenda.next = some (first, agenda) →
      first.event = .mine →
      Draw.interval run.env.blockPeriod s.world.supply = .ok (wait, rest) →
      0 ≤ wait ∧ wait ≤ pause
  deadline_le : run.deadline reach pause ≤ Time.latest

variable {run : Run α} {fresh : α} {supply : Supply σ} {reach pause : Int}

/-- What an event before the end is followed by is due at the deadline at the latest. -/
theorem Sequel.le_deadline {p : Partition} {now : Int} {event : Event} {x : Int × Event}
    (hx : Sequel run p supply now event x) (hnow : now < run.env.termination)
    (hlatency : 0 ≤ run.env.oneWayLatency) (hreach : 0 ≤ reach)
    (hdistances : ∀ row ∈ run.network.distances, ∀ t ∈ row, t ≤ reach)
    (hcrossing : ∀ t ∈ p.crossing, t ≤ reach)
    (hwait : event = .mine → ∀ wait rest,
      Draw.interval run.env.blockPeriod supply = .ok (wait, rest) → wait ≤ pause) :
    x.1 ≤ run.deadline reach pause := by
  unfold deadline
  cases hx with
  | mine hwaited =>
      have hle := hwait rfl _ _ hwaited
      dsimp only
      omega
  | arrival hrow ht =>
      have hle := hdistances _ hrow _ ht
      dsimp only
      omega
  | mined | receipt | check =>
      dsimp only
      omega
  | release hdelay =>
      have hle : _ ≤ reach := hdelay.elim (fun hzero => hzero ▸ hreach) (hcrossing _)
      dsimp only
      omega

end Run

namespace Balancer

variable {σ : Type} [WordSource σ] {supply : Supply σ} {env : Environment} {net : Network}
  {margin : Balancer → Int} {h : Run.History} {s : Run.State Balancer σ} {reach pause : Int}

/-- What the next event is followed by is due at the deadline at the latest, and
not before that event. -/
theorem sequel_bounds (ht : (run env net margin).Timely {} supply reach pause)
    (hsq : net.distances.Square net.size) (hsize : net.size ≠ 0)
    (hr : (run env net margin).Reaches {} supply h s) {first : Scheduled} {agenda : Agenda}
    (hq : s.world.agenda.next = some (first, agenda)) (hearly : first.time < env.termination)
    {p : Partition} (hpart : Partition.ofDistances net.size net.distances = .ok p)
    {x : Int × Event}
    (hx : Run.Sequel (run env net margin) p s.world.supply first.time first.event x) :
    first.time ≤ x.1 ∧ x.1 ≤ (run env net margin).deadline reach pause := by
  have hlatency : 0 ≤ env.oneWayLatency := hr.valid.oneWayLatency_nonneg
  have hreach : 0 ≤ reach := by
    obtain ⟨row, hrow, t, htrow⟩ := Latencies.exists_mem_of_square hsq hsize
    have hbounds := ht.latency row hrow t htrow
    omega
  have hcrossing : ∀ t ∈ p.crossing, t ≤ reach := by
    intro t hmem
    rcases Partition.mem_crossing hpart hmem with rfl | ⟨row, hrow, htrow⟩
    · exact hreach
    · exact (ht.latency row hrow t htrow).2
  have hwait : first.event = .mine → ∀ wait rest,
      Draw.interval env.blockPeriod s.world.supply = .ok (wait, rest) → 0 ≤ wait ∧ wait ≤ pause :=
    fun hmine wait rest => ht.wait h s first agenda wait rest hr hq hmine
  exact ⟨hx.now_le hlatency (fun row hrow t htrow => (ht.latency row hrow t htrow).1)
      (Partition.crossing_nonneg hpart) fun hmine wait rest hd => (hwait hmine wait rest hd).1,
    hx.le_deadline hearly hlatency hreach (fun row hrow t htrow => (ht.latency row hrow t htrow).2)
      hcrossing fun hmine wait rest hd => (hwait hmine wait rest hd).2⟩

/-- Whatever is pending is due between the start and the deadline. -/
theorem due_of_reaches (ht : (run env net margin).Timely {} supply reach pause)
    (hsq : net.distances.Square net.size) (hsize : net.size ≠ 0)
    (hr : (run env net margin).Reaches {} supply h s) :
    ∀ x ∈ s.world.agenda.toList,
      0 ≤ x.time ∧ x.time ≤ (run env net margin).deadline reach pause := by
  induction hr with
  | start hprep hstart =>
      obtain ⟨_, es, hagenda, _, hes⟩ := Run.exists_prelude_of_start hstart
      have hvalid : env.Valid := Run.valid_of_prepare hprep
      have hlatency : 0 ≤ env.oneWayLatency := hvalid.oneWayLatency_nonneg
      have htermination : 0 < env.termination := hvalid.termination_pos
      intro x hx
      rw [hagenda] at hx
      unfold Run.deadline
      rcases Agenda.mem_pushAll hx with hx | hx
      · contradiction
      · rcases List.mem_append.1 hx with hx | hx
        · obtain ⟨row, hrow, t, htrow, peer, hxt⟩ := hes _ hx
          have hbounds := ht.latency row hrow t htrow
          have htime : x.time = 0 + t := (Prod.mk.inj hxt).1
          dsimp only
          omega
        · simp only [List.mem_cons, Prod.mk.injEq, List.not_mem_nil, or_false] at hx
          dsimp only [Run.firstCheck, Run.checkInterval] at hx ⊢
          omega
  | step hr hstep ih =>
      obtain ⟨first, agenda, es, hq, hearly, hagenda, _, hes⟩ := Run.exists_sequels_of_step hstep
      have hmem : ∀ x, x ∈ first :: agenda.toList → x ∈ _ := fun x =>
        (Agenda.toList_next hq).mem_iff.2
      intro x hx
      rw [hagenda] at hx
      rcases Agenda.mem_pushAll hx with hx | hx
      · exact ih x (hmem x (List.mem_cons_of_mem _ hx))
      · have hfirst := ih first (hmem first List.mem_cons_self)
        have hpart := partition_of_reaches (.step hr hstep)
        have hbounds := sequel_bounds ht hsq hsize hr hq hearly hpart (hes _ hx)
        dsimp only at hbounds
        omega

/-- The clock has only come to times at which something was due. -/
theorem clock_of_reaches (ht : (run env net margin).Timely {} supply reach pause)
    (hsq : net.distances.Square net.size) (hsize : net.size ≠ 0)
    (hr : (run env net margin).Reaches {} supply h s) :
    0 ≤ s.world.clock ∧ s.world.clock ≤ (run env net margin).deadline reach pause := by
  cases hr with
  | start hprep hstart =>
      obtain ⟨_, _, _, hclock, _⟩ := Run.exists_prelude_of_start hstart
      have htermination : 0 < env.termination := (Run.valid_of_prepare hprep).termination_pos
      rw [hclock]
      unfold Run.deadline Run.checkInterval
      dsimp only
      omega
  | step hr hstep =>
      obtain ⟨first, agenda, _, hq, _, _, hclock, _⟩ := Run.exists_sequels_of_step hstep
      rw [hclock]
      exact due_of_reaches ht hsq hsize hr first
        ((Agenda.toList_next hq).mem_iff.2 List.mem_cons_self)

/-- With borrowing off, a run that stays in the range of time is hindered by a
lack of words alone. -/
theorem dry_of_step (hoff : env.allowBorrowing = false)
    (ht : (run env net margin).Timely {} supply reach pause)
    (hsq : net.distances.Square net.size) (hsize : net.size ≠ 0)
    (hr : (run env net margin).Reaches {} supply h s) {c : Crash Balancer}
    (hstep : (run env net margin).step s = .error c) : c.fault = .dry := by
  obtain ⟨first, agenda, hq, hearly, hhindered⟩ := hindered_of_step hoff hsq hr hstep
  generalize hfault : c.fault = fault at hhindered
  cases hhindered with
  | draw _ hdrawn => exact Run.dry_of_drawBlock hsize hdrawn
  | late hsequel hinvalid =>
      have hbounds := sequel_bounds ht hsq hsize hr hq hearly (partition_of_reaches hr) hsequel
      have hfirst := (due_of_reaches ht hsq hsize hr first
        ((Agenda.toList_next hq).mem_iff.2 List.mem_cons_self)).1
      refine absurd ⟨?_, hbounds.2.trans ht.deadline_le⟩ hinvalid
      exact Int.le_trans (by decide) (hfirst.trans hbounds.1)

/-- A run that stays in the range of time can be started. -/
theorem exists_start (hvalid : env.Valid)
    (ht : (run env net margin).Timely {} supply reach pause)
    (hsq : net.distances.Square net.size) (hsize : net.size ≠ 0) :
    ∃ b s, (run env net margin).prepare {} = .ok b ∧
      (run env net margin).start b supply = .ok s := by
  obtain ⟨partition, hprep, hpart⟩ : ∃ partition,
      (run env net margin).prepare {} = .ok (setUp net.size partition {}) ∧
        Partition.ofDistances net.size net.distances = .ok partition :=
    exists_prepare hvalid hsq hsize
  refine ⟨setUp net.size partition {}, ?_⟩
  cases hstart : (run env net margin).start (setUp net.size partition {}) supply with
  | ok s => exact ⟨s, hprep, rfl⟩
  | error c =>
      obtain ⟨_, row, hrow, t, htrow, hinvalid⟩ := late_of_start hpart hstart
      have hbounds := ht.latency row hrow t htrow
      have hlatency : 0 ≤ env.oneWayLatency := hvalid.oneWayLatency_nonneg
      have htermination : 0 < env.termination := hvalid.termination_pos
      have hlatest := ht.deadline_le
      unfold Run.deadline at hlatest
      dsimp only at hlatest
      refine absurd ⟨Int.le_trans (by decide : Time.earliest ≤ 0) ?_, ?_⟩ hinvalid <;> omega

/-- A run that stays in the range of time has no outcome only if it has run out of
words, or not been allowed enough events. -/
theorem dry_of_simulate (hvalid : env.Valid) (hoff : env.allowBorrowing = false)
    (ht : (run env net margin).Timely {} supply reach pause)
    (hsq : net.distances.Square net.size) (hsize : net.size ≠ 0) {b : Balancer}
    (hprep : (run env net margin).prepare {} = .ok b) {events : Nat} {c : Crash Balancer}
    (hsim : (run env net margin).simulate events b supply = .error (.crash c)) :
    c.fault = .dry := by
  rcases Run.exists_reaches_of_crash hprep hsim with hstart | ⟨h, s, hr, hstep⟩
  · obtain ⟨b', s, hprep', hstart'⟩ := exists_start hvalid ht hsq hsize
    obtain rfl := Except.ok.inj (hprep.symm.trans hprep')
    have hboth := hstart.symm.trans hstart'
    contradiction
  · exact dry_of_step hoff ht hsq hsize hr hstep

/-! ## a network without latencies -/

/-- Every message arrives at once, and the adversary sends blocks of its own alone.
The number of nodes is that of the network, whatever is asked for here. -/
def ownEnvironment : Environment where
  nodes := 9
  degree := 1
  blockPeriod := 4
  evilRate := 0
  oneWayLatency := 0
  termination := 100

theorem valid_own : ownEnvironment.Valid :=
  Option.isNone_iff_eq_none.1 (by decide +kernel)

theorem square_instant : instant.distances.Square instant.size := by
  constructor
  · rfl
  · decide

theorem timely_instant :
    (run ownEnvironment instant Balancer.margin).Timely {} steadySupply 0 4 where
  latency := by decide
  wait := fun _ _ _ _ _ _ _ _ _ hwait => (interval_steady hwait).symm ▸ by decide
  deadline_le := by decide

end Balancer

end BalanceAttack
