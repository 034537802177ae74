import BalanceAttack.Proofs.Chronology
import BalanceAttack.Proofs.ShortestPath

/-!
# BalanceAttack.Proofs.Broadcast

Along which ways honest blocks travel.  A node sends a block to all others, each
delivery being scheduled by an entry of the table of latencies.  Where a path
leads to the receiver, that is the least latency of a path; where none does, the
table keeps the mark for that, and it is a negative number:

* `exists_look_of_arrivals` — the entry that a delivery goes by;
* `arrival_cases` — a delivery takes the shortest path, or is due before it is sent;
* `carried_iff_exists_path` — so all deliveries take paths just when there are paths
  to all nodes;
* `Balancer.forward_of_exists_path` — and then no run goes back in time.
-/

namespace BalanceAttack

open BalanceAttack.Random

/-- A delivery of what a node sends at a time takes a path, and is not made before. -/
def Carried (links : Latencies) (origin : Nat) (time : Int) (x : Int × Event) : Prop :=
  ∃ peer side block, x.2 = .deliver peer side block ∧ (∃ t, links.Path origin peer t) ∧ time ≤ x.1

variable {links : Latencies} {net : Network} {n origin : Nat} {time : Int} {side : Side}
  {block : BlockId} {events : List (Int × Event)}

/-- A delivery goes by the entry of the table for the two nodes. -/
theorem exists_look_of_arrivals (hsq : net.distances.Square n)
    (h : World.arrivals net time origin side block = .ok events) {x : Int × Event}
    (hx : x ∈ events) : ∃ peer < n, origin ≠ peer ∧
      x = (time + net.distances.look origin peer, .deliver peer side block) := by
  obtain ⟨row, hrow, h⟩ := Fault.bind_eq_ok_iff.1 h
  obtain ⟨⟨latency, peer⟩, hentry, hx⟩ := Fault.exists_of_mem_mapM h hx
  obtain ⟨arrival, htime, hx⟩ := Fault.bind_eq_ok_iff.1 hx
  obtain ⟨_, rfl⟩ := Time.add_eq_ok_iff.1 htime
  obtain ⟨hzip, hne⟩ := List.mem_filter.1 hentry
  have hread := Fault.read_eq_ok_iff.1 hrow
  have hlatency : row[peer]? = some latency := by
    rw [← Array.getElem?_toList]
    exact List.mk_mem_zipIdx_iff_getElem?.1 hzip
  have hlook : net.distances.look origin peer = latency :=
    Latencies.look_of_entry (Latencies.entry_eq_ok_iff.2 ⟨row, hread, hlatency⟩)
  have hpeer : peer < n :=
    hsq.2 row (Array.mem_of_getElem? hread) ▸ (Array.getElem?_eq_some_iff.1 hlatency).1
  refine ⟨peer, hpeer, fun heq => of_decide_eq_true hne heq.symm, ?_⟩
  rw [hlook]
  exact (Except.ok.inj hx).symm

/-- A delivery takes the least time of a path to its receiver; where there is no path it is
due by the mark for that, and so before the block is sent. -/
theorem arrival_cases (hsq : links.Square n) (hnet : Network.ofLinks links = .ok net)
    (horigin : origin < n) (h : World.arrivals net time origin side block = .ok events)
    {x : Int × Event} (hx : x ∈ events) :
    ∃ peer < n, origin ≠ peer ∧ x.2 = .deliver peer side block ∧
      ((∃ t, IsLeast {t | links.Path origin peer t} t ∧ x.1 = time + t ∧ time ≤ x.1) ∨
        (¬ ∃ t, links.Path origin peer t) ∧ x.1 = time + links.look origin peer ∧
          x.1 < time) := by
  have hshortest := Latencies.shortest_of_ofLinks hsq hnet
  obtain ⟨peer, hpeer, hne, rfl⟩ := exists_look_of_arrivals hshortest.square h hx
  refine ⟨peer, hpeer, hne, rfl, ?_⟩
  by_cases hpath : ∃ t, links.Path origin peer t
  · have hleast := hshortest.least origin horigin peer hpeer hne hpath
    have hnonneg : 0 ≤ net.distances.look origin peer := hleast.1.nonneg
    exact .inl ⟨_, hleast, rfl, Int.le_add_of_nonneg_right hnonneg⟩
  · obtain ⟨hsame, hneg⟩ := hshortest.apart origin horigin peer hpeer hne hpath
    refine .inr ⟨hpath, congrArg (time + ·) hsame, ?_⟩
    dsimp only
    omega

/-- **Honest blocks travel along paths just when there are paths to all nodes.** -/
theorem carried_iff_exists_path (hsq : links.Square n) (hnet : Network.ofLinks links = .ok net)
    (horigin : origin < n) (h : World.arrivals net time origin side block = .ok events) :
    (∀ x ∈ events, Carried links origin time x) ↔
      ∀ peer < n, origin ≠ peer → ∃ t, links.Path origin peer t := by
  constructor
  · intro hcarried peer hpeer hne
    have hevents := World.arrivals_events (Latencies.shortest_of_ofLinks hsq hnet).square h
    have hmem : (.deliver peer side block : Event) ∈ events.map Prod.snd := by
      rw [hevents, deliveries]
      refine List.mem_map_of_mem (List.mem_filter.2 ⟨List.mem_range.2 hpeer, ?_⟩)
      exact decide_eq_true hne.symm
    obtain ⟨x, hx, hevent⟩ := List.mem_map.1 hmem
    obtain ⟨peer', side', block', hevent', hpath, _⟩ := hcarried x hx
    rw [hevent] at hevent'
    obtain ⟨rfl, _⟩ := Event.deliver.inj hevent'
    exact hpath
  · intro hpaths x hx
    obtain ⟨peer, hpeer, hne, hevent, ⟨t, hleast, _, hle⟩ | ⟨hnone, _⟩⟩ :=
      arrival_cases hsq hnet horigin h hx
    · exact ⟨peer, side, block, hevent, ⟨t, hleast.1⟩, hle⟩
    · exact absurd (hpaths peer hpeer hne) hnone

/-- Where there are paths between all nodes, no latency is negative. -/
theorem nonneg_of_exists_path (hsq : links.Square n) (hnet : Network.ofLinks links = .ok net)
    (hpaths : ∀ i < n, ∀ j < n, i ≠ j → ∃ t, links.Path i j t) :
    ∀ row ∈ net.distances, ∀ t ∈ row, 0 ≤ t := by
  have hshortest := Latencies.shortest_of_ofLinks hsq hnet
  intro row hrow t ht
  obtain ⟨i, hi, j, hj, rfl⟩ := (Latencies.mem_entries_iff hshortest.square).1
    (List.mem_flatMap.2 ⟨row, Array.mem_toList_iff.2 hrow, Array.mem_toList_iff.2 ht⟩)
  by_cases hij : i = j
  · subst hij
    rw [hshortest.self i hi]
  · exact (hshortest.least i hi j hj hij (hpaths i hi j hj hij)).1.nonneg

/-- There the clock of a run never goes back. -/
theorem Balancer.forward_of_exists_path {σ : Type} [WordSource σ] {supply : Supply σ}
    {env : Environment} {margin : Balancer → Int} (hsq : links.Square n)
    (hnet : Network.ofLinks links = .ok net)
    (hpaths : ∀ i < n, ∀ j < n, i ≠ j → ∃ t, links.Path i j t)
    (hpatient : (run env net margin).Patient {} supply) :
    (run env net margin).Forward {} supply :=
  forward (nonneg_of_exists_path hsq hnet hpaths) hpatient

/-! ## with and without a link -/

/-- Two nodes that are linked both ways. -/
def linked : Latencies := #[#[-1, 5], #[5, -1]]

/-- Each of two linked nodes reaches the other one. -/
theorem carried_linked :
    ∃ net events, Network.ofLinks linked = .ok net ∧
      World.arrivals net 7 1 .right .genesis = .ok events ∧
      ∀ x ∈ events, Carried linked 1 7 x := by
  have hsq : linked.Square 2 := ⟨rfl, by decide⟩
  have hnet : Network.ofLinks linked = .ok ⟨#[#[0, 5], #[5, 0]], 5⟩ :=
    Network.ofLinks_eq_ok_iff.2 ⟨Fault.eq_ok_of_toOption (by decide +kernel), by decide +kernel⟩
  have hevents : World.arrivals ⟨#[#[0, 5], #[5, 0]], 5⟩ 7 1 .right .genesis =
      .ok [(12, .deliver 0 .right .genesis)] := Fault.eq_ok_of_toOption (by decide +kernel)
  refine ⟨_, _, hnet, hevents, (carried_iff_exists_path hsq hnet Nat.one_lt_two hevents).2 ?_⟩
  intro peer hpeer hne
  obtain rfl : peer = 0 := by omega
  exact ⟨5, .link ⟨hne, rfl⟩⟩

/-- Two nodes without a link. -/
def apart : Latencies := #[#[-1, -1], #[-1, -1]]

/-- What is left after setting up a network from them. -/
def apartNetwork : Network where
  distances := #[#[0, -1], #[-1, 0]]
  diameter := 0

/-- The adversary mines all blocks. -/
def apartEnvironment : Environment where
  nodes := 2
  degree := 1
  evilRate := 1
  termination := 60000

theorem not_path_apart {i j : Nat} {t : Int} : ¬ apart.Path i j t := by
  have hsq : apart.Square 2 := ⟨rfl, by decide⟩
  have hnone : ∀ i < 2, ∀ j < 2, ¬ Latencies.reaches (apart.look i j) = true := by decide
  have hlinked : ∀ i j, ¬ apart.Linked i j := fun i j h =>
    hnone i (hsq.lt_of_linked h).1 j (hsq.lt_of_linked h).2 h.2
  intro hpath
  cases hpath with
  | link h => exact hlinked _ _ h
  | step h => exact hlinked _ _ h

/-- The first thing that happens between two nodes without a link: the genesis block is
delivered, and before the start. -/
theorem delivered_apart :
    ∃ s first agenda, Network.ofLinks apart = .ok apartNetwork ∧
      (Balancer.run apartEnvironment apartNetwork Balancer.margin).Reaches {}
        Balancer.steadySupply [] s ∧
      s.world.agenda.next = some (first, agenda) ∧ first.event = .deliver 0 .right .genesis ∧
      first.time < s.world.clock ∧ ¬ ∃ t, apart.Path 1 0 t := by
  have hnet : Network.ofLinks apart = .ok apartNetwork :=
    Network.ofLinks_eq_ok_iff.2 ⟨Fault.eq_ok_of_toOption (by decide +kernel), by decide +kernel⟩
  have hfollow : ((Balancer.run apartEnvironment apartNetwork Balancer.margin).follow {}
      Balancer.steadySupply 0).any (fun x => x.1 = [] ∧ x.2.world.agenda.next.any fun y =>
        y.1.event = .deliver 0 .right .genesis ∧ y.1.time < x.2.world.clock) = true := by
    decide +kernel
  obtain ⟨⟨h, s⟩, hreached, hs⟩ := (Option.any_eq_true _ _).1 hfollow
  obtain ⟨rfl, hnext⟩ := of_decide_eq_true hs
  obtain ⟨⟨first, agenda⟩, hq, hfirst⟩ := (Option.any_eq_true _ _).1 hnext
  obtain ⟨hevent, htime⟩ := of_decide_eq_true hfirst
  exact ⟨s, first, agenda, hnet, Run.reaches_of_follow hreached, hq, hevent, htime,
    fun ⟨_, hpath⟩ => not_path_apart hpath⟩

end BalanceAttack
