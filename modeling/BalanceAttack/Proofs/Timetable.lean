import BalanceAttack.Proofs.Broadcast
import BalanceAttack.Proofs.Hindrance
import Mathlib.Order.Bounds.Basic

/-!
# BalanceAttack.Proofs.Timetable

When blocks are due.  The timetable of an agenda is its pending deliveries, each
with its time, and all that a run adds to it goes by the table of latencies:

* `isLeast_nearest` — the latency from the other group is the least one from there;
* `filterMap_arrivals`, `filterMap_releaseArrivals` — what a node has sent, and
  what the adversary has sent;
* `timetable_of_turn` — what one event adds to the timetable;
* `timetable_of_start` — what is on it before the first event;
* `timetabled` — both, and the first delivery of the genesis block to a node.
-/

namespace BalanceAttack

open BalanceAttack.Random

/-- A delivery: when it is due and at which node, with the block and its side. -/
abbrev Delivery := Int × Nat × Side × BlockId

/-- The delivery that an event due at the given time is. -/
def Event.dueAt (time : Int) : Event → Option Delivery
  | deliver peer side block => some (time, peer, side, block)
  | _ => none

/-- The deliveries that are pending. -/
def Agenda.timetable (q : Agenda) : List Delivery := q.pick Event.dueAt

namespace Network

/-- What a node sends at the given time is due at each other one after the latency to it. -/
def broadcast (net : Network) (time : Int) (x : Nat × Side × BlockId) : List Delivery :=
  ((List.range net.size).filter (· ≠ x.1)).map fun peer =>
    (time + net.distances.look x.1 peer, peer, x.2)

/-- What the adversary sends is due at the given time at each node to be kept on its side, and
at each other one later by as much as `crossing` says. -/
def relay (net : Network) (crossing : Nat → Int) (time : Int) (x : Side × BlockId) :
    List Delivery :=
  (List.range net.size).map fun peer =>
    (time + if peer % 2 = Partition.parity x.1 then 0 else crossing peer, peer, x)

theorem mem_broadcast {net : Network} {time : Int} {x : Nat × Side × BlockId} {d : Delivery} :
    d ∈ net.broadcast time x ↔ ∃ peer < net.size, x.1 ≠ peer ∧
      d = (time + net.distances.look x.1 peer, peer, x.2) := by
  simp only [broadcast, List.mem_map, List.mem_filter, List.mem_range, decide_eq_true_eq, ne_eq,
    @eq_comm _ _ x.1, @eq_comm _ _ d, and_assoc]

/-- All that is sent at an event. -/
def sentAt (net : Network) (crossing : Nat → Int) (oneWayLatency : Int) (e : Run.Entry) :
    List Delivery :=
  e.mined.toList.flatMap (net.broadcast e.time) ++
    e.sent.flatMap (net.relay crossing (e.time + oneWayLatency))

/-- What is sent at an event was mined by a node or is sent by the adversary. -/
theorem mem_of_mem_sentAt {net : Network} {crossing : Nat → Int} {oneWayLatency : Int}
    {e : Run.Entry} {d : Delivery} (h : d ∈ net.sentAt crossing oneWayLatency e) :
    d.2.2 ∈ (e.mined.map Prod.snd).toList ∨ d.2.2 ∈ e.sent := by
  rcases List.mem_append.1 h with h | h
  · obtain ⟨x, hx, h⟩ := List.mem_flatMap.1 h
    obtain ⟨peer, _, _, rfl⟩ := mem_broadcast.1 h
    have hmined : x.2 ∈ e.mined.map Prod.snd :=
      Option.mem_map_of_mem Prod.snd (Option.mem_toList.1 hx)
    exact .inl (Option.mem_toList.2 hmined)
  · obtain ⟨x, hx, h⟩ := List.mem_flatMap.1 h
    obtain ⟨peer, _, rfl⟩ := List.mem_map.1 h
    exact .inr hx

end Network

/-! ## the latency from the other group -/

namespace Partition

variable {n : Nat} {distances : Latencies} {p : Partition} {crossing : Nat → Int}

/-- How long a block takes into each node from the other group. -/
structure Crossing (n : Nat) (distances : Latencies) (crossing : Nat → Int) (p : Partition) :
    Prop where
  partition : ofDistances n distances = .ok p
  read : ∀ i < n, p.crossingTo i = .ok (crossing i)

/-- The latency from the other group is the least one from any of its nodes. -/
theorem isLeast_nearest (hnonneg : ∀ i < n, ∀ j < n, 0 ≤ distances.look i j) (htwo : 2 ≤ n)
    {i : Nat} (hi : i < n) {t : Int}
    (h : nearest distances (withParity n (1 - i % 2)) i = .ok t) :
    IsLeast {t | ∃ q < n, q % 2 ≠ i % 2 ∧ distances.look q i = t} t := by
  have hgroup : ∀ q, q ∈ withParity n (1 - i % 2) ↔ q < n ∧ q % 2 ≠ i % 2 := by
    intro q
    rw [mem_withParity]
    omega
  have hreaches : ∀ q < n, Latencies.reaches (distances.look q i) := fun q hq =>
    Latencies.reaches_iff.2 (hnonneg q hq i hi)
  rcases nearest_cases h with ⟨_, hnone⟩ | ⟨⟨q, hq, hentry, _⟩, hleast⟩
  · have hother : 1 - i % 2 < n := by omega
    refine absurd (hreaches _ hother) (hnone _ ((hgroup _).2 ⟨hother, ?_⟩))
    omega
  · obtain ⟨hlt, hparity⟩ := (hgroup q).1 hq
    refine ⟨⟨q, hlt, hparity, Latencies.look_of_entry hentry⟩, ?_⟩
    rintro _ ⟨q', hlt', hparity', rfl⟩
    exact hleast q' ((hgroup q').2 ⟨hlt', hparity'⟩) (hreaches q' hlt')

/-- Two or more nodes are divided by the latencies between the groups. -/
theorem exists_crossing (hsq : distances.Square n) (htwo : 2 ≤ n)
    (hnonneg : ∀ i < n, ∀ j < n, 0 ≤ distances.look i j) :
    ∃ crossing p, Crossing n distances crossing p ∧ ∀ i < n,
      IsLeast {t | ∃ q < n, q % 2 ≠ i % 2 ∧ distances.look q i = t} (crossing i) := by
  obtain ⟨p, hp⟩ := exists_ofDistances hsq
  have hread : ∀ i, ∃ t, i < n → p.crossingTo i = .ok t ∧
      IsLeast {t | ∃ q < n, q % 2 ≠ i % 2 ∧ distances.look q i = t} t := by
    intro i
    by_cases hi : i < n
    · obtain ⟨t, ht, hnearest⟩ := exists_crossingTo hp htwo hi
      exact ⟨t, fun _ => ⟨ht, isLeast_nearest hnonneg htwo hi hnearest⟩⟩
    · exact ⟨0, fun h => absurd h hi⟩
  choose crossing hcrossing using hread
  exact ⟨crossing, p, ⟨hp, fun i hi => (hcrossing i hi).1⟩, fun i hi => (hcrossing i hi).2⟩

/-- The two groups together are all nodes. -/
theorem nodes_perm_range (hp : ofDistances n distances = .ok p) (htwo : 2 ≤ n) (s : Side) :
    (p.nodes s ++ p.nodes s.other).Perm (List.range n) := by
  refine (List.perm_ext_iff_of_nodup (nodup_nodes hp s) List.nodup_range).2 fun i => ?_
  rw [mem_nodes_iff hp, List.mem_range, and_iff_right htwo]

end Partition

/-! ## what is scheduled -/

/-- Deliveries of a block are due when each of them is. -/
theorem filterMap_dueAt {peers : List Nat} {side : Side} {block : BlockId} {due : Nat → Int}
    {es : List (Int × Event)} (hes : es.map Prod.snd = deliveries peers side block)
    (hdue : ∀ x ∈ es, ∀ peer, x.2 = .deliver peer side block → x.1 = due peer) :
    es.filterMap (fun x => x.2.dueAt x.1) =
      peers.map fun peer => (due peer, peer, side, block) := by
  induction es generalizing peers with
  | nil =>
      cases peers with
      | nil => rfl
      | cons => contradiction
  | cons x es ih =>
      cases peers with
      | nil => contradiction
      | cons peer peers =>
          obtain ⟨hx, hes⟩ := List.cons.inj hes
          have htime : x.1 = due peer := hdue x List.mem_cons_self peer hx
          have hdelivery : x.2.dueAt x.1 = some (due peer, peer, side, block) := by
            rw [hx, htime]
            rfl
          rw [List.filterMap_cons, hdelivery, List.map_cons]
          exact congrArg _ (ih hes fun y hy => hdue y (List.mem_cons_of_mem _ hy))

variable {net : Network} {crossing : Nat → Int} {time : Int}

theorem filterMap_arrivals (hsq : net.distances.Square net.size) {origin : Nat} {side : Side}
    {block : BlockId} {events : List (Int × Event)}
    (h : World.arrivals net time origin side block = .ok events) :
    events.filterMap (fun x => x.2.dueAt x.1) = net.broadcast time (origin, side, block) := by
  refine filterMap_dueAt (World.arrivals_events hsq h) fun x hx peer hpeer => ?_
  obtain ⟨peer', _, _, rfl⟩ := exists_look_of_arrivals hsq h hx
  obtain ⟨rfl, _⟩ := Event.deliver.inj hpeer
  rfl

theorem filterMap_releaseArrivals {p : Partition}
    (hp : Partition.Crossing net.size net.distances crossing p) (htwo : 2 ≤ net.size)
    {x : Side × BlockId} {events : List (Int × Event)}
    (h : World.releaseArrivals p time x = .ok events) :
    (events.filterMap fun y => y.2.dueAt y.1).Perm (net.relay crossing time x) := by
  have hdue : ∀ y ∈ events, ∀ peer, y.2 = .deliver peer x.1 x.2 →
      y.1 = time + if peer % 2 = Partition.parity x.1 then 0 else crossing peer := by
    intro y hy peer hpeer
    obtain ⟨peer', delay, rfl, hdelay⟩ := World.mem_releaseArrivals h hy
    obtain ⟨rfl, _⟩ := Event.deliver.inj hpeer
    rcases hdelay with ⟨hnode, rfl⟩ | ⟨hnode, hdelay⟩
    · rw [if_pos ((Partition.mem_nodes hp.partition x.1).1 hnode).2.2]
    · obtain ⟨_, hlt, hparity⟩ := (Partition.mem_nodes hp.partition x.1.other).1 hnode
      have hother : ¬ peer' % 2 = Partition.parity x.1 := by
        rw [hparity]
        cases x.1 <;> decide
      obtain rfl := Except.ok.inj (hdelay.symm.trans (hp.read peer' hlt))
      rw [if_neg hother]
  rw [filterMap_dueAt (World.releaseArrivals_events h) hdue]
  exact (Partition.nodes_perm_range hp.partition htwo x.1).map _

/-- Of all that the adversary sends, every block is due once at every node. -/
theorem filterMap_dueAt_released {p : Partition}
    (hp : Partition.Crossing net.size net.distances crossing p) (htwo : 2 ≤ net.size)
    {sent : List (Side × BlockId)} {events : List (List (Int × Event))}
    (h : sent.mapM (World.releaseArrivals p time) = .ok events) :
    (events.flatten.filterMap fun y => y.2.dueAt y.1).Perm
      (sent.flatMap (net.relay crossing time)) := by
  induction sent generalizing events with
  | nil =>
      rw [List.mapM_nil] at h
      obtain rfl := Except.ok.inj h
      exact .refl _
  | cons x sent ih =>
      rw [List.mapM_cons] at h
      obtain ⟨es, hes, h⟩ := Fault.bind_eq_ok_iff.1 h
      obtain ⟨rest, hrest, h⟩ := Fault.bind_eq_ok_iff.1 h
      obtain rfl := Except.ok.inj h
      rw [List.flatten_cons, List.filterMap_append, List.flatMap_cons]
      exact (filterMap_releaseArrivals hp htwo hes).append (ih hrest)

/-! ## the timetable of a run -/

namespace Balancer

variable {σ : Type} {supply : Supply σ} {env : Environment} {margin : Balancer → Int}

/-- An event adds to the timetable what is sent at it, and nothing else. -/
theorem timetable_of_turn (hsq : net.distances.Square net.size) (htwo : 2 ≤ net.size)
    {b : Balancer} {w : World σ} {event : Event} {e : Run.Entry} {s : Run.State Balancer σ}
    (hp : Partition.Crossing net.size net.distances crossing s.adversary.partition)
    (hturn : Run.Turn (run env net margin) b w event e s) :
    e.time = w.clock ∧ s.world.agenda.timetable.Perm
      (net.sentAt crossing env.oneWayLatency e ++ w.agenda.timetable) := by
  cases hturn with
  | evil | new | checked => exact ⟨rfl, Agenda.pick_push _ _ _ _⟩
  | known | idle => exact ⟨rfl, .refl _⟩
  | honest _ hevents =>
      refine ⟨rfl, (Agenda.pick_pushAll _ _ _).trans (.append ?_ (Agenda.pick_push _ _ _ _))⟩
      rw [List.filterMap_append, filterMap_arrivals hsq hevents, Network.sentAt]
      simp [Event.dueAt]
  | told _ _ hevents =>
      exact ⟨rfl, (Agenda.pick_pushAll _ _ _).trans
        ((filterMap_dueAt_released hp htwo hevents).append_right _)⟩

/-- Before the first event the genesis block is due where the nodes to be kept on the right
side have sent it. -/
theorem timetable_of_start (hsq : net.distances.Square net.size) (htwo : 2 ≤ net.size)
    {b : Balancer} {s : Run.State Balancer σ} (hprep : (run env net margin).prepare {} = .ok b)
    (hstart : (run env net margin).start b supply = .ok s) :
    s.world.agenda.timetable.Perm ((Partition.withParity net.size 1).flatMap fun q =>
      net.broadcast 0 (q, .right, .genesis)) := by
  obtain ⟨partition, hpart, rfl⟩ := setUp_of_prepare hprep
  obtain ⟨w, hw, _, hworld⟩ := Run.of_start hstart
  have hright : partition.right = Partition.withParity net.size 1 := by
    have hnodes := Partition.nodes_of_ofDistances hpart .right
    rwa [if_neg (Nat.not_lt.2 htwo)] at hnodes
  have hseeds : w.agenda.timetable.Perm (partition.right.flatMap fun q =>
      net.broadcast 0 (q, .right, .genesis)) := by
    refine Run.of_seedAll (fun roots (w : World σ) => w.agenda.timetable.Perm
      (roots.flatMap fun q => net.broadcast 0 (q, .right, .genesis))) (.refl _)
      (fun hw hevents => ?_) hw
    rw [List.flatMap_append, List.flatMap_singleton, ← filterMap_arrivals hsq hevents]
    exact (Agenda.pick_pushAll _ _ _).trans ((hw.append_left _).trans List.perm_append_comm)
  rw [hright] at hseeds
  rw [hworld]
  refine (Agenda.pick_pushAll_of_none _ fun x hx => ?_).trans hseeds
  rcases List.mem_cons.1 hx with rfl | hx
  · rfl
  · obtain rfl := List.mem_singleton.1 hx
    rfl

/-- Blocks are due by the table of latencies, where `crossing` is how long one takes into each
node from the other group. -/
structure Timetabled [WordSource σ] (env : Environment) (net : Network)
    (margin : Balancer → Int) (supply : Supply σ) (crossing : Nat → Int) : Prop where
  /-- From the other group a block takes the least latency from any of its nodes. -/
  nearest : ∀ p < net.size,
    IsLeast {t | ∃ q < net.size, q % 2 ≠ p % 2 ∧ net.distances.look q p = t} (crossing p)
  /-- The adversary goes by that latency. -/
  noted : ∀ {h s}, (run env net margin).Reaches {} supply h s → ∀ p < net.size,
    s.adversary.partition.crossingTo p = .ok (crossing p)
  /-- An event adds to the timetable what is sent at it, and nothing else. -/
  turn : ∀ {h s e s'}, (run env net margin).Reaches {} supply h s →
    (run env net margin).step s = .ok (.running e s') →
    ∃ first agenda, s.world.agenda.next = some (first, agenda) ∧ e.time = first.time ∧
      e.event = first.event ∧ s'.world.agenda.timetable.Perm
        (net.sentAt crossing env.oneWayLatency e ++ agenda.timetable)
  /-- At first the genesis block is on it, sent by the nodes to be kept on the right side. -/
  start : ∀ {s}, (run env net margin).Reaches {} supply [] s →
    s.world.agenda.timetable.Perm ((Partition.withParity net.size 1).flatMap fun q =>
      net.broadcast 0 (q, .right, .genesis))
  /-- At a node to be kept on the left side it is first due after the latency from the others. -/
  genesis : ∀ {s}, (run env net margin).Reaches {} supply [] s → ∀ p < net.size, p % 2 = 0 →
    IsLeast {t | ∃ side, (t, p, side, BlockId.genesis) ∈ s.world.agenda.timetable} (crossing p)
  /-- It is never sent again. -/
  once : ∀ {s₀ h s}, (run env net margin).Reaches {} supply [] s₀ →
    (run env net margin).Reaches {} supply h s → Fits env s.adversary →
    ∀ t p side, (t, p, side, .genesis) ∈ s.world.agenda.timetable →
      (t, p, side, .genesis) ∈ s₀.world.agenda.timetable

variable [WordSource σ] {h : Run.History} {s s' : Run.State Balancer σ} {e : Run.Entry}
  {p : Partition}

/-- In all states of a run the adversary goes by the same latencies. -/
theorem crossing_of_reaches (hp : Partition.Crossing net.size net.distances crossing p)
    (hr : (run env net margin).Reaches {} supply h s) :
    Partition.Crossing net.size net.distances crossing s.adversary.partition := by
  have hpart := partition_of_reaches hr
  rw [hp.partition] at hpart
  exact Except.ok.inj hpart ▸ hp

/-- An event of a run adds to the timetable what is sent at it, and nothing else. -/
theorem timetable_of_step (hsq : net.distances.Square net.size) (htwo : 2 ≤ net.size)
    (hp : Partition.Crossing net.size net.distances crossing p)
    (hr : (run env net margin).Reaches {} supply h s)
    (hstep : (run env net margin).step s = .ok (.running e s')) :
    ∃ first agenda, s.world.agenda.next = some (first, agenda) ∧ e.time = first.time ∧
      e.event = first.event ∧ s'.world.agenda.timetable.Perm
        (net.sentAt crossing env.oneWayLatency e ++ agenda.timetable) := by
  obtain ⟨first, agenda, hq, _, hturn⟩ := Run.exists_turn_of_step hstep
  obtain ⟨htime, hperm⟩ :=
    timetable_of_turn hsq htwo (crossing_of_reaches hp (.step hr hstep)) hturn
  exact ⟨first, agenda, hq, htime, Run.event_of_turn hturn, hperm⟩

/-- The genesis block is sent at no event. -/
theorem genesis_not_mem_sentAt (htwo : 2 ≤ net.size)
    (hr : (run env net margin).Reaches {} supply (h ++ [e]) s) (hfits : Fits env s.adversary)
    (oneWayLatency t : Int) (p : Nat) (side : Side) :
    (t, p, side, .genesis) ∉ net.sentAt crossing oneWayLatency e := by
  intro hmem
  have hsent := Network.mem_of_mem_sentAt hmem
  refine (List.nodup_cons.1 (nodup_addressed hr hfits net.size)).1 ?_
  refine List.mem_map.2 ⟨(side, .genesis), ?_, rfl⟩
  rw [Run.History.addressed, if_pos htwo, Run.History.mined_append, Run.History.sent_append]
  rcases hsent with hsent | hsent
  · exact List.mem_append_left _ (List.mem_append_right _ hsent)
  · exact List.mem_append_right _ (List.mem_append_right _ hsent)

/-- All deliveries of the genesis block are pending before the first event. -/
theorem genesis_of_reaches (hsq : net.distances.Square net.size) (htwo : 2 ≤ net.size)
    (hp : Partition.Crossing net.size net.distances crossing p) {s₀ : Run.State Balancer σ}
    (hr₀ : (run env net margin).Reaches {} supply [] s₀)
    (hr : (run env net margin).Reaches {} supply h s) (hfits : Fits env s.adversary)
    {t : Int} {node : Nat} {side : Side}
    (hmem : (t, node, side, .genesis) ∈ s.world.agenda.timetable) :
    (t, node, side, .genesis) ∈ s₀.world.agenda.timetable := by
  induction hr with
  | start hprep hstart =>
      obtain ⟨_, rfl⟩ := hr₀.unique (.start hprep hstart) rfl
      exact hmem
  | step hr hstep ih =>
      obtain ⟨_, _, _, _, hturn⟩ := Run.exists_turn_of_step hstep
      obtain ⟨first, agenda, hq, _, _, hperm⟩ := timetable_of_step hsq htwo hp hr hstep
      rcases List.mem_append.1 (hperm.mem_iff.1 hmem) with hnew | hold
      · exact absurd hnew (genesis_not_mem_sentAt htwo (.step hr hstep) hfits _ _ _ _)
      · refine ih (hfits.of_turn hturn) ?_
        exact (Agenda.pick_next hq _).mem_iff.2 (List.mem_append_right _ hold)

/-- At a node to be kept on the left side the genesis block is first due after the latency
from the other group. -/
theorem isLeast_genesis (hsq : net.distances.Square net.size) (htwo : 2 ≤ net.size)
    (hr : (run env net margin).Reaches {} supply [] s) {i : Nat} (hi : i < net.size)
    (hleft : i % 2 = 0) {c : Int}
    (hc : IsLeast {t | ∃ q < net.size, q % 2 ≠ i % 2 ∧ net.distances.look q i = t} c) :
    IsLeast {t | ∃ side, (t, i, side, BlockId.genesis) ∈ s.world.agenda.timetable} c := by
  obtain ⟨b, hprep, hstart⟩ := hr.exists_start
  have hperm := timetable_of_start hsq htwo hprep hstart
  have hset : {t | ∃ side, (t, i, side, BlockId.genesis) ∈ s.world.agenda.timetable} =
      {t | ∃ q < net.size, q % 2 ≠ i % 2 ∧ net.distances.look q i = t} := by
    ext t
    simp only [Set.mem_ofPred_eq, hperm.mem_iff, List.mem_flatMap, Partition.mem_withParity,
      Network.mem_broadcast, Prod.mk.injEq]
    constructor
    · rintro ⟨side, q, ⟨hq, hodd⟩, _, _, _, rfl, rfl, _⟩
      exact ⟨q, hq, by omega, (Int.zero_add _).symm⟩
    · rintro ⟨q, hq, hparity, rfl⟩
      have hne : q ≠ i := fun heq => hparity (congrArg (· % 2) heq)
      exact ⟨.right, q, ⟨hq, by omega⟩, i, hi, hne, (Int.zero_add _).symm, rfl, rfl, trivial⟩
  rw [hset]
  exact hc

/-- **Blocks are due by the table of latencies.**  What a node has sent is due at each other one
after the latency to it; what the adversary has sent, at once at the nodes to be kept on its
side, and at the others as much later as the nearest of those is away; and so the genesis block,
which is sent by the nodes to be kept on the right side. -/
theorem timetabled (hsq : net.distances.Square net.size) (htwo : 2 ≤ net.size)
    (hnonneg : ∀ i < net.size, ∀ j < net.size, 0 ≤ net.distances.look i j) :
    ∃ crossing, Timetabled env net margin supply crossing := by
  obtain ⟨crossing, p, hp, hleast⟩ := Partition.exists_crossing hsq htwo hnonneg
  refine ⟨crossing,
    { nearest := hleast
      noted := fun hr => (crossing_of_reaches hp hr).read
      turn := fun hr hstep => timetable_of_step hsq htwo hp hr hstep
      start := fun {s} hr => ?_
      genesis := fun hr i hi hleft => isLeast_genesis hsq htwo hr hi hleft (hleast i hi)
      once := fun hr₀ hr hfits _ _ _ hmem =>
        genesis_of_reaches hsq htwo hp hr₀ hr hfits hmem }⟩
  obtain ⟨b, hprep, hstart⟩ := hr.exists_start
  exact timetable_of_start hsq htwo hprep hstart

/-- Three nodes that are not as far apart in both directions. -/
def uneven : Network where
  distances := #[#[0, 2, 7], #[3, 0, 4], #[5, 6, 0]]
  diameter := 7

/-- The three nodes are in for the same attack as the two. -/
def unevenEnvironment : Environment := { pairEnvironment with nodes := 3 }

/-- A block that the node 0 mines after twenty milliseconds is due seven later at the node 2,
from where it would take five.  One of the left side that the adversary then sends is due two
later at the node 2, and at the node 1 four later, as long again as from the node 0.  The
genesis block is due at the node 0 after three milliseconds, the time from the node 1. -/
theorem timetabled_uneven :
    ∃ crossing, Timetabled unevenEnvironment uneven Balancer.margin pairSupply crossing ∧
      (∃ h s e s', (run unevenEnvironment uneven Balancer.margin).Reaches {} pairSupply h s ∧
        (run unevenEnvironment uneven Balancer.margin).step s = .ok (.running e s') ∧
        e.mined = some (0, .right, ⟨11⟩) ∧
        (27, 2, .right, ⟨11⟩) ∈ s'.world.agenda.timetable) ∧
      (∃ h s e s', (run unevenEnvironment uneven Balancer.margin).Reaches {} pairSupply h s ∧
        (run unevenEnvironment uneven Balancer.margin).step s = .ok (.running e s') ∧
        e.sent = [(.left, ⟨1⟩)] ∧ (22, 2, .left, ⟨1⟩) ∈ s'.world.agenda.timetable ∧
        (24, 1, .left, ⟨1⟩) ∈ s'.world.agenda.timetable) ∧
      ∃ s, (run unevenEnvironment uneven Balancer.margin).Reaches {} pairSupply [] s ∧
        IsLeast {t | ∃ side, (t, 0, side, BlockId.genesis) ∈ s.world.agenda.timetable} 3 := by
  have hsq : uneven.distances.Square uneven.size := ⟨rfl, by decide⟩
  obtain ⟨crossing, hlaw⟩ := @timetabled uneven (Nat → UInt64) pairSupply unevenEnvironment
    Balancer.margin _ hsq (by decide) (by decide)
  have hstart : ((run unevenEnvironment uneven Balancer.margin).follow {} pairSupply 0).any
      (fun x => x.1 = [] ∧ x.2.adversary.partition.crossing = #[3, 2, 4]) = true := by
    decide +kernel
  have hmined : ((run unevenEnvironment uneven Balancer.margin).follow {} pairSupply 26).any
      (fun x => x.1.getLast?.any fun e =>
        e.time = 20 ∧ e.mined = some (0, .right, ⟨11⟩)) = true := by
    decide +kernel
  have hsent : ((run unevenEnvironment uneven Balancer.margin).follow {} pairSupply 27).any
      (fun x => x.1.getLast?.any fun e => e.time = 20 ∧ e.sent = [(.left, ⟨1⟩)]) = true := by
    decide +kernel
  obtain ⟨_, s, hr, hs⟩ := Run.exists_reaches_of_any hstart
  obtain ⟨rfl, hcrossing⟩ := of_decide_eq_true hs
  obtain ⟨h₁, s₁, e₁, s₁', hr₁, hstep₁, he₁⟩ := Run.exists_step_of_any hmined
  obtain ⟨htime₁, hmined₁⟩ := of_decide_eq_true he₁
  obtain ⟨h₂, s₂, e₂, s₂', hr₂, hstep₂, he₂⟩ := Run.exists_step_of_any hsent
  obtain ⟨htime₂, hsent₂⟩ := of_decide_eq_true he₂
  have hcross : ∀ p < 3, Fault.read #[3, 2, 4] p = .ok (crossing p) := by
    intro p hp
    rw [← hcrossing]
    exact hlaw.noted hr p hp
  refine ⟨crossing, hlaw, ⟨h₁, s₁, e₁, s₁', hr₁, hstep₁, hmined₁, ?_⟩,
    ⟨h₂, s₂, e₂, s₂', hr₂, hstep₂, hsent₂, ?_⟩, s, hr, ?_⟩
  · obtain ⟨_, _, _, _, _, hperm⟩ := hlaw.turn hr₁ hstep₁
    refine hperm.mem_iff.2 (List.mem_append_left _ (List.mem_append_left _ ?_))
    rw [hmined₁, htime₁]
    decide
  · obtain ⟨_, _, _, _, _, hperm⟩ := hlaw.turn hr₂ hstep₂
    have hrelay : ∀ d ∈ uneven.relay crossing 22 (.left, ⟨1⟩), d ∈ s₂'.world.agenda.timetable := by
      intro d hd
      refine hperm.mem_iff.2 (List.mem_append_left _ (List.mem_append_right _ ?_))
      rw [hsent₂, htime₂]
      exact List.mem_flatMap.2 ⟨_, List.mem_singleton_self _, hd⟩
    refine ⟨hrelay _ (List.mem_map.2 ⟨2, by decide, rfl⟩),
      hrelay _ (List.mem_map.2 ⟨1, by decide, ?_⟩)⟩
    rw [← Except.ok.inj (hcross 1 (by decide))]
    rfl
  · have hthree := hlaw.genesis hr 0 (by decide) rfl
    rwa [← Except.ok.inj (hcross 0 (by decide))] at hthree

end Balancer

end BalanceAttack
