import BalanceAttack.Proofs.Turn
import BalanceAttack.Run.Reach

/-!
# BalanceAttack.Proofs.Sequel

What is scheduled when.  `Sequel` has one constructor for each place at which an
event is scheduled by another, with the time it is scheduled for; it holds of
any network and any adversary.

* `exists_sequels_of_step` — a step schedules sequels of its event alone;
* `exists_prelude_of_start`, `times_of_start` — what is pending before the first event;
* `sound_of_reaches`, `ne_idle_of_reaches` — what follows for any pending event.
-/

namespace BalanceAttack.Run

open BalanceAttack.Random

variable {α σ : Type} [WordSource σ]

/-- What an event at time `now` may be followed by, and when: `supply` is what
the wait for the next block is drawn from, and `p` how blocks are sent. -/
inductive Sequel (run : Run α) (p : Partition) (supply : Supply σ) (now : Int) :
    Event → Int × Event → Prop where
  /-- After a block the next one is found. -/
  | mine {wait : Int} {rest : Supply σ}
      (waited : Draw.interval run.env.blockPeriod supply = .ok (wait, rest)) :
      Sequel run p supply now .mine (now + wait, .mine)
  /-- A block that an honest node mines is delivered to the others. -/
  | arrival {row : Array Int} {latency : Int} {peer : Nat} {side : Side} {block : BlockId}
      (row_mem : row ∈ run.network.distances) (latency_mem : latency ∈ row) :
      Sequel run p supply now .mine (now + latency, .deliver peer side block)
  /-- The adversary is told of a block that an honest node mines. -/
  | mined {side : Side} {block : BlockId} {miner : Nat} :
      Sequel run p supply now .mine (now + run.env.oneWayLatency, .observe side block miner)
  /-- The adversary is told of a block that a node has received. -/
  | receipt {peer : Nat} {side : Side} {block : BlockId} :
      Sequel run p supply now (.deliver peer side block)
        (now + run.env.oneWayLatency, .observe side block peer)
  /-- A block that the adversary sends is delivered. -/
  | release {side side' : Side} {block block' : BlockId} {peer peer' : Nat} {delay : Int}
      (delay_mem : delay = 0 ∨ delay ∈ p.crossing) :
      Sequel run p supply now (.observe side block peer)
        (now + run.env.oneWayLatency + delay, .deliver peer' side' block')
  /-- After a check there is another one. -/
  | check : Sequel run p supply now .check (now + checkInterval, .check)

variable {run : Run α} {supply : Supply σ} {h : History} {s s' : State α σ} {e : Entry}

namespace Sequel

variable {p : Partition} {now : Int} {event : Event} {x : Int × Event}

theorem ne_idle (hx : Sequel run p supply now event x) : x.2 ≠ .idle := by
  cases hx with
  | mine | arrival | mined | receipt | release | check => simp

/-- Only a block is followed by a block. -/
theorem event_eq_mine (hx : Sequel run p supply now event x) (hmine : x.2 = .mine) :
    event = .mine := by
  cases hx with
  | mine | arrival | mined => rfl
  | receipt | release | check => contradiction

/-- Nothing is scheduled for the past, unless something takes a negative time. -/
theorem now_le (hx : Sequel run p supply now event x) (hlatency : 0 ≤ run.env.oneWayLatency)
    (hdistances : ∀ row ∈ run.network.distances, ∀ t ∈ row, 0 ≤ t)
    (hcrossing : ∀ t ∈ p.crossing, 0 ≤ t)
    (hwait : event = .mine → ∀ wait rest,
      Draw.interval run.env.blockPeriod supply = .ok (wait, rest) → 0 ≤ wait) : now ≤ x.1 := by
  cases hx with
  | mine hwaited => exact Int.le_add_of_nonneg_right (hwait rfl _ _ hwaited)
  | arrival hrow ht => exact Int.le_add_of_nonneg_right (hdistances _ hrow _ ht)
  | mined | receipt => exact Int.le_add_of_nonneg_right hlatency
  | @release _ _ _ _ _ _ delay hdelay =>
      have hnonneg : 0 ≤ delay := by
        rcases hdelay with rfl | hdelay
        · exact Int.le_refl 0
        · exact hcrossing delay hdelay
      dsimp only
      omega
  | check =>
      dsimp only [checkInterval]
      omega

/-- What follows a check is not for the present. -/
theorem now_lt (hx : Sequel run p supply now event x) (hcheck : event = .check) : now < x.1 := by
  cases hx with
  | check =>
      dsimp only [checkInterval]
      omega
  | mine | arrival | mined | receipt | release => contradiction

end Sequel

/-! ## the steps of a run -/

theorem exists_sequels_of_mining {a : α} {w : World σ} (h : Mining run a w e s) :
    ∃ es, s.world.agenda = w.agenda.pushAll es ∧ s.world.clock = w.clock ∧
      ∀ x ∈ es, Sequel run (run.adversary.partition s.adversary) w.supply w.clock .mine x := by
  cases h with
  | evil hwaited =>
      refine ⟨[(_, _)], rfl, rfl, fun x hx => ?_⟩
      obtain rfl := List.mem_singleton.1 hx
      exact .mine hwaited
  | honest hwaited _ _ _ _ hevents =>
      refine ⟨(_, _) :: _, rfl, rfl, fun x hx => ?_⟩
      rcases List.mem_cons.1 hx with rfl | hx
      · exact .mine hwaited
      · rcases List.mem_append.1 hx with hx | hx
        · obtain ⟨row, hrow, latency, hlatency, peer, rfl⟩ := World.mem_arrivals hevents hx
          exact .arrival hrow hlatency
        · obtain rfl := List.mem_singleton.1 hx
          exact .mined

theorem exists_sequels_of_turn {a : α} {w : World σ} {event : Event}
    (h : Turn run a w event e s) (hne : event ≠ .mine) :
    ∃ es, s.world.agenda = w.agenda.pushAll es ∧ s.world.clock = w.clock ∧
      ∀ x ∈ es, Sequel run (run.adversary.partition s.adversary) w.supply w.clock event x := by
  cases h with
  | evil | honest => contradiction
  | known | idle => exact ⟨[], rfl, rfl, fun x hx => absurd hx List.not_mem_nil⟩
  | new =>
      refine ⟨[(_, _)], rfl, rfl, fun x hx => ?_⟩
      obtain rfl := List.mem_singleton.1 hx
      exact .receipt
  | told _ _ hevents =>
      refine ⟨_, rfl, rfl, fun x hx => ?_⟩
      obtain ⟨es, hes, hx⟩ := List.mem_flatten.1 hx
      obtain ⟨y, _, hy⟩ := Fault.exists_of_mem_mapM hevents hes
      obtain ⟨peer, delay, rfl, hdelay⟩ := World.mem_releaseArrivals hy hx
      refine .release (hdelay.imp And.right fun ⟨_, hcrossing⟩ => ?_)
      exact Array.mem_of_getElem? (Fault.read_eq_ok_iff.1 hcrossing)
  | checked =>
      refine ⟨[(_, _)], rfl, rfl, fun x hx => ?_⟩
      obtain rfl := List.mem_singleton.1 hx
      exact .check

/-- A step that goes on schedules sequels of the event it carries out, and nothing else. -/
theorem exists_sequels_of_step (h : run.step s = .ok (.running e s')) :
    ∃ first agenda es, s.world.agenda.next = some (first, agenda) ∧
      first.time < run.env.termination ∧ s'.world.agenda = agenda.pushAll es ∧
      s'.world.clock = first.time ∧
      ∀ x ∈ es, Sequel run (run.adversary.partition s'.adversary) s.world.supply first.time
        first.event x := by
  obtain ⟨first, agenda, hq, htime, hhandle⟩ := exists_handle_of_step h
  by_cases hmine : first.event = .mine
  · rw [hmine] at hhandle
    obtain ⟨es, hagenda, hclock, hes⟩ := exists_sequels_of_mining (mining_of_handle hhandle)
    rw [← hmine] at hes
    exact ⟨first, agenda, es, hq, htime, hagenda, hclock, hes⟩
  · obtain ⟨es, hagenda, hclock, hes⟩ := exists_sequels_of_turn (turn_of_handle hhandle) hmine
    exact ⟨first, agenda, es, hq, htime, hagenda, hclock, hes⟩

/-! ## the start of a run -/

/-- What is scheduled for a node that sends the genesis block at the start. -/
def Rooting (net : Network) (x : Int × Event) : Prop :=
  ∃ row ∈ net.distances, ∃ latency ∈ row, ∃ peer,
    x = (0 + latency, .deliver peer .right .genesis)

omit [WordSource σ] in
theorem exists_rootings_of_seedAll {p : Partition} {w : World σ}
    (h : run.seedAll p supply = .ok w) :
    ∃ es, w.agenda = Agenda.empty.pushAll es ∧ w.clock = 0 ∧
      ∀ x ∈ es, Rooting run.network x := by
  refine of_seedAll (fun _ (w : World σ) => ∃ es, w.agenda = Agenda.empty.pushAll es ∧
    w.clock = 0 ∧ ∀ x ∈ es, Rooting run.network x)
    ⟨[], rfl, rfl, fun x hx => absurd hx List.not_mem_nil⟩
    (fun {_ _ _ events} hw hevents => ?_) h
  obtain ⟨es, hagenda, hclock, hes⟩ := hw
  refine ⟨es ++ events, ?_, hclock, fun x hx => ?_⟩
  · rw [Agenda.pushAll_append, ← hagenda]
  · rcases List.mem_append.1 hx with hx | hx
    · exact hes x hx
    · exact World.mem_arrivals hevents hx

omit [WordSource σ] in
/-- Before the first event the genesis block is on its way, and the first block
and the first check are to come. -/
theorem exists_prelude_of_start {a : α} (h : run.start a supply = .ok s) :
    run.adversary.start a = .ok s.adversary ∧
      ∃ es, s.world.agenda =
          Agenda.empty.pushAll (es ++ [(0, .mine), (firstCheck, .check)]) ∧
        s.world.clock = 0 ∧ ∀ x ∈ es, Rooting run.network x := by
  obtain ⟨w, hw, ha, hworld⟩ := of_start h
  obtain ⟨es, hagenda, hclock, hes⟩ := exists_rootings_of_seedAll hw
  rw [hworld]
  refine ⟨ha, es, ?_, hclock, hes⟩
  rw [Agenda.pushAll_append, ← hagenda]
  rfl

omit [WordSource σ] in
/-- Before the first event one block is to be found, and one check is to be made. -/
theorem times_of_start {a : α} (h : run.start a supply = .ok s) :
    s.world.agenda.times .mine = [0] ∧ s.world.agenda.times .check = [firstCheck] := by
  obtain ⟨_, es, hagenda, _, hes⟩ := exists_prelude_of_start h
  have hnone : ∀ kind : Event, kind.peer = none → (Agenda.empty.pushAll es).times kind = [] := by
    intro kind hkind
    refine (Agenda.times_pushAll_of_ne _ fun x hx heq => ?_).eq_nil
    obtain ⟨_, _, _, _, peer, rfl⟩ := hes x hx
    obtain rfl := heq
    contradiction
  have hmine := (Agenda.times_push_of_ne ((Agenda.empty.pushAll es).push 0 .mine) firstCheck
    (e := .check) (by simp)).trans (Agenda.times_push _ .mine 0)
  have hcheck := (Agenda.times_push ((Agenda.empty.pushAll es).push 0 .mine) .check
    firstCheck).trans ((Agenda.times_push_of_ne _ 0 (by simp)).cons _)
  rw [hnone _ rfl] at hmine hcheck
  rw [hagenda, Agenda.pushAll_append]
  exact ⟨List.perm_singleton.1 hmine, List.perm_singleton.1 hcheck⟩

/-! ## pending events -/

variable {fresh : α}

theorem sound_of_reaches (hr : run.Reaches fresh supply h s) : s.world.agenda.Sound := by
  induction hr with
  | start _ hstart =>
      obtain ⟨_, es, hagenda, _⟩ := exists_prelude_of_start hstart
      rw [hagenda]
      exact Agenda.sound_pushAll Agenda.sound_empty _
  | step _ hstep ih =>
      obtain ⟨first, agenda, es, hq, _, hagenda, _⟩ := exists_sequels_of_step hstep
      rw [hagenda]
      exact Agenda.sound_pushAll (Agenda.sound_next ih hq) es

/-- A run never idles. -/
theorem ne_idle_of_reaches (hr : run.Reaches fresh supply h s) :
    ∀ x ∈ s.world.agenda.toList, x.event ≠ .idle := by
  induction hr with
  | start _ hstart =>
      obtain ⟨_, es, hagenda, _, hes⟩ := exists_prelude_of_start hstart
      intro x hx
      rw [hagenda] at hx
      rcases Agenda.mem_pushAll hx with hx | hx
      · contradiction
      · rcases List.mem_append.1 hx with hx | hx
        · obtain ⟨_, _, _, _, peer, hx⟩ := hes _ hx
          rw [(Prod.mk.inj hx).2]
          simp
        · simp only [List.mem_cons, Prod.mk.injEq, List.not_mem_nil, or_false] at hx
          rcases hx with ⟨_, hx⟩ | ⟨_, hx⟩ <;> simp [hx]
  | step _ hstep ih =>
      obtain ⟨first, agenda, es, hq, _, hagenda, _, hes⟩ := exists_sequels_of_step hstep
      intro x hx
      rw [hagenda] at hx
      rcases Agenda.mem_pushAll hx with hx | hx
      · exact ih x ((Agenda.toList_next hq).mem_iff.2 (List.mem_cons_of_mem _ hx))
      · exact (hes _ hx).ne_idle

end BalanceAttack.Run
