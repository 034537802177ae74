import BalanceAttack.Proofs.Deadline
import BalanceAttack.Proofs.Stock
import Mathlib.Algebra.Order.BigOperators.Group.List
import Mathlib.Algebra.Order.Ring.Nat

/-!
# BalanceAttack.Proofs.Termination

Why a run comes to an end.  A delivery leads to a report, a report to blocks
that are sent and these to more deliveries, possibly all within one millisecond;
no count of pending events goes down.  What goes down is what they can still
cost: a delivery costs the report it may lead to, and a block that is kept back
costs its deliveries before it is sent.

* `load_of_turn` — what an event can add to the cost of all that is under way;
* `rank_lt_of_step` — with the blocks still to be found and the checks still to
  be made, the cost goes down at every event;
* `length_add_rank_le`, `scheduled_le` — so many events are carried out at most,
  and so many scheduled;
* `exists_outcome_of_waits` — a run whose waits last until the end has an outcome.
-/

namespace BalanceAttack

open BalanceAttack.Random

/-! ## what events cost -/

/-- How many events an event stands for: a delivery may lead to a report. -/
def Event.cost : Event → Nat
  | deliver .. => 2
  | observe .. => 1
  | mine | check | idle => 0

namespace Event

@[simp] theorem cost_mine : mine.cost = 0 := rfl

@[simp] theorem cost_deliver (peer : Nat) (side : Side) (block : BlockId) :
    (deliver peer side block).cost = 2 := rfl

@[simp] theorem cost_observe (side : Side) (block : BlockId) (peer : Nat) :
    (observe side block peer).cost = 1 := rfl

@[simp] theorem cost_check : check.cost = 0 := rfl

@[simp] theorem cost_idle : idle.cost = 0 := rfl

end Event

namespace Agenda

/-- How many events the pending deliveries and reports stand for. -/
def cost (q : Agenda) : Nat := (q.pick fun _ e => some e.cost).sum

theorem cost_pushAll (q : Agenda) (es : List (Int × Event)) :
    (q.pushAll es).cost = (es.map fun x => x.2.cost).sum + q.cost := by
  have hperm := pick_pushAll q (fun _ e => some e.cost) es
  have hnew : es.filterMap (fun x => some x.2.cost) = es.map fun x => x.2.cost :=
    congrFun List.filterMap_eq_map es
  rw [cost, hperm.sum_nat, List.sum_append, hnew]
  rfl

theorem cost_push (q : Agenda) (t : Int) (e : Event) : (q.push t e).cost = e.cost + q.cost :=
  cost_pushAll q [(t, e)]

theorem cost_next {q r : Agenda} {e : Scheduled} (h : q.next = some (e, r)) :
    q.cost = e.event.cost + r.cost :=
  (pick_next h fun _ e => some e.cost).sum_nat

end Agenda

theorem cost_deliveries {peers : List Nat} {side : Side} {block : BlockId}
    {es : List (Int × Event)} (hes : es.map Prod.snd = deliveries peers side block) :
    (es.map fun x => x.2.cost).sum = 2 * peers.length := by
  have hcosts : es.map (fun x => x.2.cost) = (es.map Prod.snd).map Event.cost := by
    rw [List.map_map]
    rfl
  rw [hcosts, hes, deliveries, List.map_map]
  simp [Function.comp_def, Nat.mul_comm]

/-- No node is in the two groups of a partition more than once. -/
theorem Partition.length_nodes_le {n : Nat} {distances : Latencies} {p : Partition}
    (h : ofDistances n distances = .ok p) (side : Side) :
    (p.nodes side ++ p.nodes side.other).length ≤ n := by
  have hsub : p.nodes side ++ p.nodes side.other ⊆ List.range n := fun _ hi =>
    List.mem_range.2 ((mem_nodes_iff h side).1 hi).2
  have hle := (List.subperm_of_subset (nodup_nodes h side) hsub).length_le
  rwa [List.length_range] at hle

namespace World

/-- A block that a node mines is delivered to no more than all nodes. -/
theorem cost_arrivals_le {net : Network} {n : Nat} (hsq : net.distances.Square n) {time : Int}
    {origin : Nat} {side : Side} {block : BlockId} {events : List (Int × Event)}
    (h : arrivals net time origin side block = .ok events) :
    (events.map fun x => x.2.cost).sum ≤ 2 * n := by
  rw [cost_deliveries (arrivals_events hsq h)]
  have hle := List.length_filter_le (fun peer => decide (peer ≠ origin)) (List.range n)
  rw [List.length_range] at hle
  omega

/-- Each block that the adversary sends is delivered to no more than all nodes. -/
theorem cost_released_le {n : Nat} {distances : Latencies} {p : Partition}
    (hp : Partition.ofDistances n distances = .ok p) {time : Int} {sent : List (Side × BlockId)}
    {events : List (List (Int × Event))} (h : sent.mapM (releaseArrivals p time) = .ok events) :
    (events.flatten.map fun x => x.2.cost).sum ≤ 2 * n * sent.length := by
  have hmap := Fault.map_of_mapM (fun es : List (Int × Event) => (es.map fun x => x.2.cost).sum)
    (fun x => 2 * (p.nodes x.1 ++ p.nodes x.1.other).length)
    (fun x es hx => cost_deliveries (releaseArrivals_events hx)) h
  have hflat : (events.flatten.map fun x => x.2.cost).sum =
      (events.map fun es => (es.map fun x => x.2.cost).sum).sum := by
    rw [List.map_flatten, List.sum_flatten, List.map_map]
    rfl
  rw [hflat, hmap]
  have hle : ∀ y ∈ sent.map (fun x => 2 * (p.nodes x.1 ++ p.nodes x.1.other).length),
      y ≤ 2 * n := by
    intro y hy
    obtain ⟨x, _, rfl⟩ := List.mem_map.1 hy
    exact Nat.mul_le_mul_left 2 (Partition.length_nodes_le hp x.1)
  have hsum := List.sum_le_card_nsmul _ _ hle
  rwa [List.length_map, Nat.nsmul_eq_mul, Nat.mul_comm] at hsum

end World

/-! ## one event -/

namespace Balancer

variable {σ : Type} {env : Environment} {net : Network} {margin : Balancer → Int}
  {b b' : Balancer} {w : World σ} {event : Event} {e : Run.Entry} {s s' : Run.State Balancer σ}

theorem length_onSide_add (l : List (Side × BlockId)) :
    (onSide .left l).length + (onSide .right l).length = l.length := by
  have hlength := (perm_onSide l).length_eq
  rw [List.length_append, List.length_map, List.length_map] at hlength
  exact hlength.symm

/-- What was kept back or is given is sent or kept back. -/
theorem Exchange.withheld {kept sent : List (Side × BlockId)} (h : Exchange b kept sent b') :
    b.withheld + kept.length = sent.length + b'.withheld := by
  have hleft := congrArg List.length (h.backlog .left)
  have hright := congrArg List.length (h.backlog .right)
  simp only [List.length_append] at hleft hright
  have hkept := length_onSide_add kept
  have hsent := length_onSide_add sent
  rw [withheld_eq, withheld_eq]
  omega

@[simp] theorem withheld_noting (event : Event) (b : Balancer) :
    (b.noting event).withheld = b.withheld := by
  rw [withheld_eq, withheld_eq, pendingOn_noting, pendingOn_noting]

/-- How many events stand to be carried out before another block is found: those
that are pending, and those of the blocks that are kept back from `n` nodes. -/
def load (n : Nat) (s : Run.State Balancer σ) : Nat :=
  2 * n * s.adversary.withheld + s.world.agenda.cost

/-- A block that is found adds its deliveries to the load, and perhaps a report;
any other event adds less than it costs. -/
theorem load_of_turn (hoff : env.allowBorrowing = false) {n : Nat} (hsq : net.distances.Square n)
    (hpart : Partition.ofDistances n net.distances = .ok s.adversary.partition)
    (hturn : Run.Turn (run env net margin) b w event e s) :
    load n s ≤ load n ⟨b, w⟩ + if event = .mine then 2 * n + 1 else event.cost - 1 := by
  have hwithheld := (exchange_of_turn hturn).withheld
  rw [withheld_noting] at hwithheld
  unfold load
  cases hturn with
  | evil =>
      dsimp only [List.length_cons, List.length_nil] at hwithheld ⊢
      rw [Agenda.cost_push, Event.cost_mine, if_pos rfl, ← Nat.zero_add (withheld _), ← hwithheld,
        Nat.mul_add]
      omega
  | honest _ hevents =>
      have hcost := World.cost_arrivals_le hsq hevents
      rw [Agenda.cost_pushAll, Agenda.cost_push, Event.cost_mine, if_pos rfl, List.map_append,
        List.sum_append, List.map_cons, List.map_nil, List.sum_singleton, Event.cost_observe]
      dsimp only [List.length_nil] at hwithheld ⊢
      rw [Nat.add_zero, Nat.zero_add] at hwithheld
      rw [← hwithheld]
      omega
  | known =>
      simp only [reduceCtorEq, if_false]
      omega
  | new =>
      rw [Agenda.cost_push]
      simp only [Event.cost_observe, Event.cost_deliver, reduceCtorEq, if_false]
      omega
  | @told _ _ _ _ _ kept sent events _ hdecided hevents =>
      obtain rfl : kept = [] := by
        rcases kept_of_blocksToSend hdecided with hkept | ⟨hon, _⟩
        · exact hkept
        · rw [hoff] at hon
          contradiction
      have hcost := World.cost_released_le hpart hevents
      dsimp only [List.length_nil] at hwithheld ⊢
      rw [Nat.add_zero] at hwithheld
      rw [Agenda.cost_pushAll, hwithheld, Nat.mul_add]
      omega
  | checked =>
      rw [Agenda.cost_push]
      simp only [Event.cost_check, reduceCtorEq, if_false]
      omega
  | idle =>
      simp only [reduceCtorEq, if_false]
      omega

/-! ## the rank of a state -/

/-- How many events stand to be carried out if `k` blocks are found in all. -/
def rank (env : Environment) (n k : Nat) (h : Run.History) (s : Run.State Balancer σ) : Nat :=
  (2 * n + 2) * (k - s.world.mined) + load n s + (env.termination - checkTime h.checks).toNat

/-- How many events are carried out at most, if `k` blocks are found in all. -/
def eventBound (env : Environment) (n k : Nat) : Nat :=
  (2 * n + 2) * k + 2 * n * n + env.termination.toNat

/-- Each of the nodes that start from the genesis block sends it to all others. -/
theorem cost_of_start {α : Type} {run : Run α} {n : Nat}
    (hsq : run.network.distances.Square n) {a : α} {supply : Supply σ} {s : Run.State α σ}
    (h : run.start a supply = .ok s) :
    s.world.agenda.cost ≤ 2 * n * (run.adversary.partition a).right.length := by
  obtain ⟨w, hw, _, hworld⟩ := Run.of_start h
  have hseeds : w.agenda.cost ≤ 2 * n * (run.adversary.partition a).right.length := by
    refine Run.of_seedAll (fun done (w : World σ) => w.agenda.cost ≤ 2 * n * done.length)
      (Nat.zero_le _) (fun {done w₀ node events} hw₀ hevents => ?_) hw
    have hcost := World.cost_arrivals_le hsq hevents
    have hpush := Agenda.cost_pushAll w₀.agenda events
    rw [List.length_append, List.length_singleton, Nat.mul_succ]
    dsimp only
    omega
  rw [hworld]
  have hpush := Agenda.cost_pushAll w.agenda [(0, .mine), (Run.firstCheck, .check)]
  simp only [List.map_cons, List.map_nil, List.sum_cons, List.sum_nil, Event.cost_mine,
    Event.cost_check] at hpush
  dsimp only [World.schedule]
  omega

variable [WordSource σ] {supply rest : Supply σ} {h : Run.History} {k : Nat} {waits : List Int}

omit [WordSource σ] in
theorem rank_of_start (hsq : net.distances.Square net.size)
    (hprep : (run env net margin).prepare {} = .ok b)
    (hstart : (run env net margin).start b supply = .ok s) :
    rank env net.size k [] s ≤ eventBound env net.size k := by
  have hopen := opening_of_start hsq hprep hstart
  obtain ⟨partition, hpart, hb⟩ := setUp_of_prepare hprep
  have hpartition : Partition.ofDistances net.size net.distances = .ok b.partition := by
    rw [hb]
    exact hpart
  have hcost := cost_of_start hsq hstart
  have hright : b.partition.right.length ≤ net.size := by
    have hle := Partition.length_nodes_le hpartition .right
    rw [List.length_append] at hle
    exact Nat.le_of_add_right_le hle
  have hroots := Nat.mul_le_mul_left (2 * net.size) hright
  have hwithheld : s.adversary.withheld = 0 := by
    rw [withheld_eq, hopen.pendingOn, hopen.pendingOn]
    rfl
  unfold rank eventBound load checkTime Run.firstCheck
  rw [hopen.mined, hwithheld, Nat.sub_zero, Nat.mul_zero]
  dsimp only [Run.History.checks, adversary] at hcost ⊢
  simp only [List.countP_nil]
  omega

/-- **Every event that is carried out lowers the rank.** -/
theorem rank_lt_of_step (hoff : env.allowBorrowing = false)
    (hsq : net.distances.Square net.size)
    (hwaits : (run env net margin).drawWaits k supply = .ok (waits, rest))
    (hsum : env.termination ≤ waits.sum) (hr : (run env net margin).Reaches {} supply h s)
    (hstep : (run env net margin).step s = .ok (.running e s')) :
    rank env net.size k (h ++ [e]) s' < rank env net.size k h s := by
  obtain ⟨first, agenda, hq, hearly, hturn⟩ := Run.exists_turn_of_step hstep
  have hload := load_of_turn hoff hsq (partition_of_reaches (.step hr hstep)) hturn
  have hcost := Agenda.cost_next hq
  have hmined := Run.mined_of_turn hturn
  have hle : s'.world.mined ≤ k := Run.mined_le_of_reaches hwaits hsum (.step hr hstep)
  have hchecks := Run.History.checks_append h e
  rw [Run.event_of_turn hturn] at hchecks
  unfold load at hload
  unfold rank load
  cases hevent : first.event with
  | mine =>
      simp only [hevent, reduceCtorEq, if_true, if_false, Event.cost_mine, Nat.add_zero]
        at hload hcost hmined hchecks
      -- one block less is to be found
      have hblocks : k - s.world.mined = k - s'.world.mined + 1 := by omega
      rw [hblocks, hchecks, Nat.mul_succ]
      omega
  | deliver =>
      simp only [hevent, reduceCtorEq, if_false, Event.cost_deliver, Nat.add_zero]
        at hload hcost hmined hchecks
      rw [hmined, hchecks]
      omega
  | observe =>
      simp only [hevent, reduceCtorEq, if_false, Event.cost_observe, Nat.add_zero]
        at hload hcost hmined hchecks
      rw [hmined, hchecks]
      omega
  | check =>
      simp only [hevent, reduceCtorEq, if_true, if_false, Event.cost_check, Nat.add_zero]
        at hload hcost hmined hchecks
      have htime := Run.time_of_check hr hq hevent
      have hbefore : first.time < env.termination := hearly
      rw [hmined, hchecks, checkTime_succ, Run.checkInterval]
      omega
  | idle =>
      have hfirst := (Agenda.toList_next hq).mem_iff.2 List.mem_cons_self
      exact absurd hevent (Run.ne_idle_of_reaches hr first hfirst)

/-- The events carried out and those that stand to be carried out are bounded together. -/
theorem length_add_rank_le (hoff : env.allowBorrowing = false)
    (hsq : net.distances.Square net.size)
    (hwaits : (run env net margin).drawWaits k supply = .ok (waits, rest))
    (hsum : env.termination ≤ waits.sum) (hr : (run env net margin).Reaches {} supply h s) :
    h.length + rank env net.size k h s ≤ eventBound env net.size k := by
  induction hr with
  | start hprep hstart =>
      rw [List.length_nil, Nat.zero_add]
      exact rank_of_start hsq hprep hstart
  | step hr hstep ih =>
      have hlt := rank_lt_of_step hoff hsq hwaits hsum hr hstep
      rw [List.length_append, List.length_singleton]
      omega

end Balancer

/-! ## how many events are scheduled -/

namespace Agenda

theorem scheduled_pushAll (q : Agenda) (es : List (Int × Event)) :
    (q.pushAll es).scheduled = q.scheduled + es.length := by
  induction es generalizing q with
  | nil => rfl
  | cons x es ih =>
      rw [pushAll_cons, ih, scheduled_push, List.length_cons]
      omega

theorem size_pushAll (q : Agenda) (es : List (Int × Event)) :
    (q.pushAll es).size = q.size + es.length := by
  induction es generalizing q with
  | nil => rfl
  | cons x es ih =>
      have hpush := (q.toList_push x.1 x.2).length_eq
      rw [List.length_cons, length_toList, length_toList] at hpush
      rw [pushAll_cons, ih, hpush, List.length_cons]
      omega

/-- No more events are pending than the deliveries and reports stand for, and
the blocks and checks to come. -/
theorem size_le (q : Agenda) (hidle : ∀ x ∈ q.toList, x.event ≠ .idle) :
    q.size ≤ q.cost + (q.times .mine).length + (q.times .check).length := by
  rw [← length_toList, cost, times, times, pick, pick, pick]
  generalize q.toList = l at hidle
  induction l with
  | nil => exact Nat.zero_le _
  | cons x l ih =>
      have hle := ih fun y hy => hidle y (List.mem_cons_of_mem _ hy)
      cases hx : x.event with
      | mine | deliver | observe | check =>
          simp only [List.filterMap_cons, hx, Event.cost_mine, Event.cost_deliver,
            Event.cost_observe, Event.cost_check, reduceCtorEq, if_true, if_false, List.sum_cons,
            List.length_cons]
          omega
      | idle => exact absurd hx (hidle x List.mem_cons_self)

end Agenda

namespace Run

variable {α σ : Type} [WordSource σ] {run : Run α} {fresh : α} {supply : Supply σ} {h : History}
  {s : State α σ}

/-- What has been scheduled has been carried out or is pending. -/
theorem scheduled_of_reaches (hr : run.Reaches fresh supply h s) :
    s.world.agenda.scheduled = h.length + s.world.agenda.size := by
  induction hr with
  | start _ hstart =>
      obtain ⟨_, es, hagenda, _⟩ := exists_prelude_of_start hstart
      rw [hagenda, Agenda.scheduled_pushAll, Agenda.size_pushAll]
      exact (Nat.zero_add _).symm
  | step _ hstep ih =>
      obtain ⟨first, agenda, es, hq, _, hagenda, _⟩ := exists_sequels_of_step hstep
      have hsize := (Agenda.toList_next hq).length_eq
      rw [List.length_cons, Agenda.length_toList, Agenda.length_toList] at hsize
      rw [hagenda, Agenda.scheduled_pushAll, Agenda.size_pushAll, Agenda.scheduled_next hq, ih,
        List.length_append, List.length_singleton]
      omega

end Run

namespace Balancer

variable {σ : Type} [WordSource σ] {supply rest : Supply σ} {env : Environment} {net : Network}
  {margin : Balancer → Int} {h : Run.History} {s : Run.State Balancer σ} {k : Nat}
  {waits : List Int}

/-- Besides the events that are carried out, those may be scheduled that stand to be. -/
theorem scheduled_le (hoff : env.allowBorrowing = false)
    (hsq : net.distances.Square net.size)
    (hwaits : (run env net margin).drawWaits k supply = .ok (waits, rest))
    (hsum : env.termination ≤ waits.sum) (hr : (run env net margin).Reaches {} supply h s) :
    s.world.agenda.scheduled ≤ eventBound env net.size k + 2 := by
  obtain ⟨drawn, _, hmine⟩ := Run.paced_of_reaches hr
  have hcheck : s.world.agenda.times .check = _ := Run.checks_of_reaches hr
  have hsize := s.world.agenda.size_le (Run.ne_idle_of_reaches hr)
  rw [hmine, hcheck] at hsize
  have hle := length_add_rank_le hoff hsq hwaits hsum hr
  have hscheduled := Run.scheduled_of_reaches hr
  unfold rank load at hle
  simp only [List.length_singleton] at hsize
  omega

/-! ## the end of a run -/

/-- **A run ends if its waits last until the time is up.**  With borrowing off
and no time out of range, the outcome is there after so many events, even where
all messages arrive at once. -/
theorem exists_outcome_of_waits (hvalid : env.Valid) (hoff : env.allowBorrowing = false)
    (hsq : net.distances.Square net.size) (hsize : net.size ≠ 0)
    (hwaits : (run env net margin).drawWaits k supply = .ok (waits, rest))
    (hsum : env.termination ≤ waits.sum) :
    ∃ b, (run env net margin).prepare {} = .ok b ∧
      ((∀ events c, (run env net margin).simulate events b supply = .error (.crash c) →
          c.fault ≠ .overflow) →
        ∃ o s, ∀ events, eventBound env net.size k < events →
          (run env net margin).simulate events b supply = .ok (o, s)) := by
  obtain ⟨partition, hprep, hpart⟩ : ∃ partition,
      (run env net margin).prepare {} = .ok (setUp net.size partition {}) ∧
        Partition.ofDistances net.size net.distances = .ok partition :=
    exists_prepare hvalid hsq hsize
  refine ⟨setUp net.size partition {}, hprep, fun hrange => ?_⟩
  cases hstart : (run env net margin).start (setUp net.size partition {}) supply with
  | error c =>
      exact absurd (late_of_start hpart hstart).1 (hrange 0 c (Run.simulate_of_crash hstart 0))
  | ok s₀ =>
      have hstep : ∀ h s c, (run env net margin).Reaches {} supply h s →
          (run env net margin).step s ≠ .error c := by
        intro h s c hr hcrash
        obtain ⟨first, agenda, hq, hearly, hhindered⟩ := hindered_of_step hoff hsq hr hcrash
        generalize hfault : c.fault = fault at hhindered
        cases hhindered with
        | draw hmine hdrawn =>
            obtain ⟨wait, between, hwait⟩ :=
              Run.exists_drawBlock_of_reaches hwaits hsum hr hq hearly hmine
            have hboth := hwait.symm.trans hdrawn
            contradiction
        | late =>
            obtain ⟨events, hsim⟩ := Run.exists_simulate_of_crash hprep hr hcrash
            exact hrange events c hsim hfault
      have hlength : ∀ h s, (run env net margin).Reaches {} supply h s →
          h.length ≤ eventBound env net.size k := fun h s hr =>
        Nat.le_of_add_right_le (length_add_rank_le hoff hsq hwaits hsum hr)
      obtain ⟨h, s, v, s', hr, hfinished⟩ :=
        Run.exists_finished_of_length_le hprep hstart hstep hlength
      exact ⟨_, s', fun events hevents =>
        Run.simulate_of_finished hprep hr hfinished (Nat.lt_of_le_of_lt (hlength h s hr) hevents)⟩

/-- Twenty-five blocks are found in a tenth of a second. -/
theorem exists_drawWaits_instant :
    ∃ waits rest, (run ownEnvironment instant Balancer.margin).drawWaits 25 steadySupply =
      .ok (waits, rest) ∧ ownEnvironment.termination ≤ waits.sum := by
  have hdrawn : (((run ownEnvironment instant Balancer.margin).drawWaits 25
      steadySupply).toOption.any fun x => ownEnvironment.termination ≤ x.1.sum) = true := by
    decide +kernel
  cases hwaits : (run ownEnvironment instant Balancer.margin).drawWaits 25 steadySupply with
  | error =>
      rw [hwaits] at hdrawn
      contradiction
  | ok x =>
      rw [hwaits] at hdrawn
      exact ⟨x.1, x.2, rfl, of_decide_eq_true hdrawn⟩

/-- A tenth of a second of messages that all arrive at once. -/
theorem exists_outcome_instant :
    ∃ b o s, (run ownEnvironment instant Balancer.margin).prepare {} = .ok b ∧
      ∀ events, eventBound ownEnvironment 2 25 < events →
        (run ownEnvironment instant Balancer.margin).simulate events b steadySupply =
          .ok (o, s) := by
  obtain ⟨waits, rest, hwaits, hsum⟩ := exists_drawWaits_instant
  obtain ⟨b, hprep, hends⟩ := exists_outcome_of_waits valid_own rfl square_instant (by decide)
    hwaits hsum
  obtain ⟨o, s, hsim⟩ := hends fun events c hcrash => by
    rw [dry_of_simulate valid_own rfl timely_instant square_instant (by decide) hprep hcrash]
    simp
  exact ⟨b, o, s, hprep, hsim⟩

end Balancer

end BalanceAttack
