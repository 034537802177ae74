import BalanceAttack.Proofs.Flow

/-!
# BalanceAttack.Proofs.Hindrance

What can keep an event from being carried out.  In a run of the balancing
adversary that does not borrow, on a network whose table of latencies is square,
no table is read outside its bounds and no choice is made from nothing; what
remains is a draw that finds no more words, and a time out of range:

* `Draw.dry_of_index` and its like — a draw has no other fault;
* `World.late_of_arrivals`, `World.late_of_send` — the times that are computed;
* `hindered_of_step`, `late_of_start` — every crash of a run is one of the two.
-/

namespace BalanceAttack

open BalanceAttack.Random

/-! ## draws -/

namespace Random.Draw

variable {σ α β : Type} [WordSource σ] {supply : Supply σ} {fault : Fault}

theorem dry_of_word (h : word supply = .error fault) : fault = .dry := by
  unfold word at h
  split at h
  · exact (Except.error.inj h).symm
  · contradiction

omit [WordSource σ] in
/-- To try again until an answer is found takes turns, and no faults but those of the turns. -/
theorem dry_of_settle {step : β → Draw σ (β ⊕ α)}
    (hstep : ∀ b supply fault, step b supply = .error fault → fault = .dry) {b : β}
    (h : settle step b supply = .error fault) : fault = .dry := by
  have hwithin : ∀ (n : Nat) (b : β) (supply : Supply σ),
      settleWithin step n b supply = .error fault → fault = .dry := by
    intro n
    induction n with
    | zero =>
        intro b supply h
        exact (Except.error.inj h).symm
    | succ n ih =>
        intro b supply h
        rcases bind_eq_error_iff.1 h with h | ⟨c, rest, _, h⟩
        · exact hstep b supply fault h
        · cases c with
          | inl b => exact ih b rest h
          | inr a => contradiction
  exact hwithin (supply.left + 1) b supply h

theorem dry_of_unit (h : unit supply = .error fault) : fault = .dry := by
  rcases bind_eq_error_iff.1 h with h | ⟨_, _, _, h⟩
  · exact dry_of_word h
  · contradiction

theorem dry_of_index {n : Nat} (hn : n ≠ 0) (h : index n supply = .error fault) :
    fault = .dry := by
  unfold index at h
  rw [if_neg hn] at h
  refine dry_of_settle (fun _ supply fault h => ?_) h
  rcases bind_eq_error_iff.1 h with h | ⟨_, _, _, h⟩
  · exact dry_of_word h
  · contradiction

theorem dry_of_zigguratTurn (h : (zigguratTurn : Draw σ (Unit ⊕ Float)) supply = .error fault) :
    fault = .dry := by
  rcases bind_eq_error_iff.1 h with h | ⟨w, rest, _, h⟩
  · exact dry_of_word h
  · split at h
    · contradiction
    · split at h
      · rcases bind_eq_error_iff.1 h with h | ⟨_, _, _, h⟩
        · exact dry_of_unit h
        · contradiction
      · rcases bind_eq_error_iff.1 h with h | ⟨up, _, _, h⟩
        · exact dry_of_unit h
        · split at h <;> contradiction

theorem dry_of_interval {mean : Float} (h : interval mean supply = .error fault) :
    fault = .dry := by
  rcases bind_eq_error_iff.1 h with h | ⟨_, _, _, h⟩
  · exact dry_of_settle (fun _ _ _ h => dry_of_zigguratTurn h) h
  · contradiction

/-- An index is below its bound. -/
theorem index_lt {n i : Nat} {rest : Supply σ} (h : index n supply = .ok (i, rest)) : i < n := by
  unfold index at h
  split at h
  · contradiction
  · next hn =>
      refine of_settle (Sum.elim (fun _ => True) (· < n)) (fun _ supply x rest _ h => ?_) trivial h
      obtain ⟨w, _, _, h⟩ := bind_eq_ok_iff.1 h
      obtain ⟨rfl, _⟩ := Prod.mk.inj (Except.ok.inj h)
      cases hw : indexOfWord n w with
      | none => trivial
      | some j => exact indexOfWord_lt (Nat.pos_of_ne_zero hn) hw

end Random.Draw

/-! ## times -/

namespace Partition

variable {n : Nat} {distances : Latencies} {p : Partition}

/-- The latency from the other group is known of every node, if there are groups. -/
theorem lt_size_crossing (h : ofDistances n distances = .ok p) {side : Side} {peer : Nat}
    (hpeer : peer ∈ p.nodes side) : peer < p.crossing.size := by
  obtain ⟨htwo, hlt⟩ := (mem_nodes_iff h side).1 (List.mem_append_left _ hpeer)
  obtain ⟨t, ht, _⟩ := exists_crossingTo h htwo hlt
  exact (Array.getElem?_eq_some_iff.1 (Fault.read_eq_ok_iff.1 ht)).1

theorem exists_nearest (hsq : distances.Square n) {sources : List Nat}
    (hsources : ∀ source ∈ sources, source < n) {node : Nat} (hnode : node < n) :
    ∃ t, nearest distances sources node = .ok t := by
  have hentries : ∀ source ∈ sources, ∃ t, distances.entry source node = .ok t :=
    fun source hsource => ⟨_, Latencies.entry_of_square hsq (hsources source hsource) hnode⟩
  obtain ⟨latencies, hlatencies⟩ := Fault.exists_mapM_eq hentries
  exact ⟨_, Fault.bind_eq_ok_iff.2 ⟨latencies, hlatencies, rfl⟩⟩

/-- The nodes of a square table can be divided. -/
theorem exists_ofDistances (hsq : distances.Square n) : ∃ p, ofDistances n distances = .ok p := by
  unfold ofDistances
  split
  · exact ⟨_, rfl⟩
  · have hcrossings : ∀ node ∈ List.range n,
        ∃ t, nearest distances (withParity n (1 - node % 2)) node = .ok t := fun node hnode =>
      exists_nearest hsq (fun _ hsource => (mem_withParity.1 hsource).1) (List.mem_range.1 hnode)
    obtain ⟨crossing, hcrossing⟩ := Fault.exists_mapM_eq hcrossings
    exact ⟨_, Fault.bind_eq_ok_iff.2 ⟨crossing, hcrossing, rfl⟩⟩

end Partition

namespace World

variable {σ : Type} {w : World σ} {fault : Fault}

/-- A block is kept from being sent by a latency that leads out of the range of time. -/
theorem late_of_arrivals {net : Network} {time : Int} {origin : Nat} {side : Side}
    {block : BlockId} (horigin : origin < net.size)
    (h : arrivals net time origin side block = .error fault) :
    fault = .overflow ∧
      ∃ row ∈ net.distances, ∃ latency ∈ row, ¬ Time.Valid (time + latency) := by
  rcases Fault.bind_eq_error_iff.1 h with h | ⟨row, hrow, h⟩
  · rw [Network.row, Fault.read_of_lt horigin] at h
    contradiction
  · obtain ⟨⟨latency, peer⟩, hentry, h⟩ := Fault.exists_of_mapM_error h
    rcases Fault.bind_eq_error_iff.1 h with h | ⟨_, _, h⟩
    · have hlatency : latency ∈ row.toList :=
        (List.mem_zipIdx (List.mem_filter.1 hentry).1).2.2 ▸ List.getElem_mem _
      obtain ⟨hlate, rfl⟩ := Time.add_eq_error_iff.1 h
      exact ⟨rfl, row, Array.mem_of_getElem? (Fault.read_eq_ok_iff.1 hrow), latency,
        Array.mem_toList_iff.1 hlatency, hlate⟩
    · contradiction

theorem late_of_deliver {lat : Int} {peer : Nat} {side : Side} {block : BlockId}
    (hpeer : peer < w.nodes.size) (h : w.deliver lat peer side block = .error fault) :
    fault = .overflow ∧ ¬ Time.Valid (w.clock + lat) := by
  unfold deliver at h
  rw [Fault.read_of_lt hpeer] at h
  rcases Fault.bind_eq_error_iff.1 h with h | ⟨_, hview, h⟩
  · contradiction
  · split at h
    · contradiction
    · rcases Fault.bind_eq_error_iff.1 h with h | ⟨_, _, h⟩
      · obtain ⟨hlate, rfl⟩ := Time.add_eq_error_iff.1 h
        exact ⟨rfl, hlate⟩
      · contradiction

/-- An honest node is kept from mining by a draw that finds no words, or by a time out of range. -/
theorem late_of_mineHonest [WordSource σ] {net : Network} {lat : Int} {block : BlockId}
    (h : w.mineHonest net lat block = .error fault) (hnodes : w.nodes.size = net.size) :
    Draw.index net.size w.supply = .error fault ∨
      fault = .overflow ∧ (¬ Time.Valid (w.clock + lat) ∨
        ∃ row ∈ net.distances, ∃ latency ∈ row, ¬ Time.Valid (w.clock + latency)) := by
  rcases Fault.bind_eq_error_iff.1 h with h | ⟨⟨miner, w₁⟩, hminer, h⟩
  · exact .inl (of_draw_error h)
  obtain ⟨_, hdrawn, rfl⟩ := of_draw hminer
  have hlt := Draw.index_lt hdrawn
  dsimp only at h
  rw [Fault.read_of_lt (hnodes.symm ▸ hlt)] at h
  rcases Fault.bind_eq_error_iff.1 h with h | ⟨_, _, h⟩
  · contradiction
  rcases Fault.bind_eq_error_iff.1 h with h | ⟨_, _, h⟩
  · obtain ⟨rfl, hlate⟩ := late_of_arrivals hlt h
    exact .inr ⟨rfl, .inr hlate⟩
  rcases Fault.bind_eq_error_iff.1 h with h | ⟨_, _, h⟩
  · obtain ⟨hlate, rfl⟩ := Time.add_eq_error_iff.1 h
    exact .inr ⟨rfl, .inl hlate⟩
  · contradiction

/-- Blocks of the adversary are kept from being sent by a time out of range. -/
theorem late_of_send {lat : Int} {p : Partition} {sent : List (Side × BlockId)}
    (hp : ∀ side, ∀ peer ∈ p.nodes side, peer < p.crossing.size)
    (h : w.send lat p sent = .error fault) :
    fault = .overflow ∧
      ∃ delay, (delay = 0 ∨ delay ∈ p.crossing) ∧ ¬ Time.Valid (w.clock + lat + delay) := by
  rcases Fault.bind_eq_error_iff.1 h with h | ⟨time, htime, h⟩
  · obtain ⟨hlate, rfl⟩ := Time.add_eq_error_iff.1 h
    exact ⟨rfl, 0, .inl rfl, by rwa [Int.add_zero]⟩
  · obtain ⟨_, rfl⟩ := Time.add_eq_ok_iff.1 htime
    rcases Fault.bind_eq_error_iff.1 h with h | ⟨_, _, h⟩
    · obtain ⟨x, _, h⟩ := Fault.exists_of_mapM_error h
      rcases Fault.bind_eq_error_iff.1 h with h | ⟨_, _, h⟩
      · obtain ⟨peer, hpeer, h⟩ := Fault.exists_of_mapM_error h
        have hread := hp _ peer hpeer
        rcases Fault.bind_eq_error_iff.1 h with h | ⟨delay, hdelay, h⟩
        · rw [Partition.crossingTo, Fault.read_of_lt hread] at h
          contradiction
        · rcases Fault.bind_eq_error_iff.1 h with h | ⟨_, _, h⟩
          · obtain ⟨hlate, rfl⟩ := Time.add_eq_error_iff.1 h
            exact ⟨rfl, delay, .inr (Array.mem_of_getElem? (Fault.read_eq_ok_iff.1 hdelay)), hlate⟩
          · contradiction
      · contradiction
    · contradiction

end World

/-! ## nodes -/

/-- All pending events are about nodes below `n`. -/
def Agenda.Within (q : Agenda) (n : Nat) : Prop :=
  ∀ x ∈ q.toList, ∀ peer, x.event.peer = some peer → peer < n

namespace Agenda

variable {q : Agenda} {n : Nat}

theorem within_empty (n : Nat) : empty.Within n := fun _ hx => absurd hx List.not_mem_nil

theorem Within.pushAll (hq : q.Within n) {es : List (Int × Event)}
    (hes : ∀ x ∈ es, ∀ peer, x.2.peer = some peer → peer < n) : (q.pushAll es).Within n := by
  intro x hx
  rcases mem_pushAll hx with hx | hx
  · exact hq x hx
  · exact hes _ hx

theorem Within.push (hq : q.Within n) {t : Int} {e : Event}
    (he : ∀ peer, e.peer = some peer → peer < n) : (q.push t e).Within n := by
  have hpush : (q.pushAll [(t, e)]).Within n := hq.pushAll fun x hx => by
    rw [List.mem_singleton.1 hx]
    exact he
  exact hpush

/-- The next event is about one of the nodes, if the pending events are. -/
theorem Within.next (hq : q.Within n) {r : Agenda} {first : Scheduled}
    (hnext : q.next = some (first, r)) :
    r.Within n ∧ ∀ peer, first.event.peer = some peer → peer < n := by
  have hmem : ∀ x, x ∈ first :: r.toList → x ∈ q.toList := fun x =>
    (toList_next hnext).mem_iff.2
  exact ⟨fun x hx => hq x (hmem x (List.mem_cons_of_mem _ hx)),
    hq first (hmem first List.mem_cons_self)⟩

end Agenda

/-- A block that a node mines is delivered to nodes of the network. -/
theorem World.peer_lt_of_arrivals {net : Network} {n : Nat} (hsq : net.distances.Square n)
    {time : Int} {origin : Nat} {side : Side} {block : BlockId} {events : List (Int × Event)}
    (h : arrivals net time origin side block = .ok events) {x : Int × Event} (hx : x ∈ events)
    {peer : Nat} (hpeer : x.2.peer = some peer) : peer < n :=
  List.mem_range.1 (List.mem_filter.1
    (mem_of_deliveries (World.arrivals_events hsq h) hx hpeer)).1

namespace Run

variable {α σ : Type} {run : Run α} {n : Nat}

/-- At the start the genesis block is on its way to nodes of the network. -/
theorem within_of_start (hsq : run.network.distances.Square n) {a : α} {supply : Supply σ}
    {s : State α σ} (h : run.start a supply = .ok s) : s.world.agenda.Within n := by
  obtain ⟨w, hw, _, hworld⟩ := of_start h
  have hseeds : w.agenda.Within n :=
    of_seedAll (fun _ (w : World σ) => w.agenda.Within n) (Agenda.within_empty n)
      (fun hw hevents => hw.pushAll fun x hx _ => World.peer_lt_of_arrivals hsq hevents hx) hw
  rw [hworld]
  refine hseeds.pushAll fun x hx _ hpeer => ?_
  simp only [List.mem_cons, List.not_mem_nil, or_false] at hx
  rcases hx with rfl | rfl <;> contradiction

/-- A turn schedules events that are about nodes of the network. -/
theorem within_of_turn (hsq : run.network.distances.Square n) {a : α} {w : World σ}
    {event : Event} {e : Entry} {s : State α σ} (h : Turn run a w event e s)
    (hw : w.agenda.Within n) (hevent : ∀ peer, event.peer = some peer → peer < n)
    (hnodes : w.nodes.size = n)
    (hpart : ∀ side, ∀ peer ∈ (run.adversary.partition s.adversary).nodes side, peer < n) :
    s.world.agenda.Within n := by
  cases h with
  | evil => exact hw.push (by simp [Event.peer])
  | @honest _ _ miner _ events hread hevents =>
      refine (hw.push (by simp [Event.peer])).pushAll fun x hx peer hpeer => ?_
      rcases List.mem_append.1 hx with hx | hx
      · exact World.peer_lt_of_arrivals hsq hevents hx hpeer
      · obtain rfl := List.mem_singleton.1 hx
        obtain ⟨hlt, _⟩ := Array.getElem?_eq_some_iff.1 hread
        exact Option.some.inj hpeer ▸ hnodes ▸ hlt
  | known | idle => exact hw
  | new => exact hw.push hevent
  | told _ _ hevents =>
      refine hw.pushAll fun x hx peer hpeer => ?_
      obtain ⟨es, hes, hx⟩ := List.mem_flatten.1 hx
      obtain ⟨y, _, hy⟩ := Fault.exists_of_mem_mapM hevents hes
      rcases List.mem_append.1 (mem_of_deliveries (World.releaseArrivals_events hy) hx hpeer) with
        hmem | hmem
      · exact hpart _ peer hmem
      · exact hpart _ peer hmem
  | checked => exact hw.push (by simp [Event.peer])

end Run

/-! ## events -/

namespace Run

variable {α σ : Type} [WordSource σ]

/-- The draws at a block: the wait for the next one, whose it is, and if it is an
honest node's, which. -/
def drawBlock (run : Run α) : Draw σ Int := do
  let wait ← Draw.interval run.env.blockPeriod
  let chance ← Draw.unit
  if chance < run.env.evilRate then
    return wait
  else
    let _ ← Draw.index run.network.size
    return wait

theorem dry_of_drawBlock {run : Run α} (hsize : run.network.size ≠ 0) {supply : Supply σ}
    {fault : Fault} (h : run.drawBlock supply = .error fault) : fault = .dry := by
  rcases Draw.bind_eq_error_iff.1 h with h | ⟨wait, _, _, h⟩
  · exact Draw.dry_of_interval h
  · rcases Draw.bind_eq_error_iff.1 h with h | ⟨chance, _, _, h⟩
    · exact Draw.dry_of_unit h
    · split at h
      · contradiction
      · rcases Draw.bind_eq_error_iff.1 h with h | ⟨_, _, _, h⟩
        · exact Draw.dry_of_index hsize h
        · contradiction

/-- What keeps an event from being carried out: a draw at a block, or the time
of something that it is followed by. -/
inductive Hindered (run : Run α) (p : Partition) (w : World σ) (event : Event) : Fault → Prop where
  | draw {fault : Fault} (mine : event = .mine) (drawn : run.drawBlock w.supply = .error fault) :
      Hindered run p w event fault
  | late {x : Int × Event} (sequel : Sequel run p w.supply w.clock event x)
      (invalid : ¬ Time.Valid x.1) : Hindered run p w event .overflow

variable {run : Run α} {a : α} {p : Partition} {w : World σ} {c : Crash α}

/-- Nothing is drawn but at a block. -/
theorem Hindered.overflow {event : Event} {fault : Fault} (h : Hindered run p w event fault)
    (hne : event ≠ .mine) : fault = .overflow := by
  cases h with
  | draw hmine => exact absurd hmine hne
  | late => rfl

/-- A block is kept from being found by a draw that is made there, or by a time out of range. -/
theorem hindered_of_mine (hnodes : w.nodes.size = run.network.size)
    (hchoose : ∀ c, run.adversary.chooseSide a ≠ .error c)
    (hwithhold : ∀ side block time a c, run.adversary.withhold side block time a ≠ .error c)
    (h : run.mine a w = .error c) : Hindered run p w .mine c.fault := by
  rcases Fault.bind_eq_error_iff.1 h with h | ⟨⟨wait, w₁⟩, hwait, h⟩
  · obtain ⟨fault, hdraw, hc⟩ := Fault.orCrash_eq_error_iff.1 h
    rw [hc]
    exact .draw rfl (Draw.bind_eq_error_iff.2 (.inl (World.of_draw_error hdraw)))
  obtain ⟨supply₁, hwaited, rfl⟩ := World.of_draw (Fault.orCrash_eq_ok_iff.1 hwait)
  rcases Fault.bind_eq_error_iff.1 h with h | ⟨time, htime, h⟩
  · obtain ⟨fault, hadd, hc⟩ := Fault.orCrash_eq_error_iff.1 h
    obtain ⟨hlate, rfl⟩ := Time.add_eq_error_iff.1 hadd
    rw [hc]
    exact .late (.mine hwaited) hlate
  obtain ⟨_, rfl⟩ := Time.add_eq_ok_iff.1 (Fault.orCrash_eq_ok_iff.1 htime)
  rcases Fault.bind_eq_error_iff.1 h with h | ⟨⟨chance, w₂⟩, hchance, h⟩
  · obtain ⟨fault, hdraw, hc⟩ := Fault.orCrash_eq_error_iff.1 h
    rw [hc]
    refine .draw rfl (Draw.bind_eq_error_iff.2 (.inr ⟨wait, supply₁, hwaited, ?_⟩))
    exact Draw.bind_eq_error_iff.2 (.inl (World.of_draw_error hdraw))
  obtain ⟨supply₂, hfell, rfl⟩ := World.of_draw (Fault.orCrash_eq_ok_iff.1 hchance)
  dsimp only at h
  split at h
  · -- the adversary takes the block whatever it knows
    rcases Fault.bind_eq_error_iff.1 h with h | ⟨⟨side, a₁⟩, _, h⟩
    · exact absurd h (hchoose c)
    rcases Fault.bind_eq_error_iff.1 h with h | ⟨_, _, h⟩
    · exact absurd h (hwithhold _ _ _ _ c)
    · contradiction
  · next hhigh =>
      rcases Fault.bind_eq_error_iff.1 h with h | ⟨_, _, h⟩
      · obtain ⟨fault, hmine, hc⟩ := Fault.orCrash_eq_error_iff.1 h
        rw [hc]
        rcases World.late_of_mineHonest hmine hnodes with
          hdrawn | ⟨rfl, hlate | ⟨row, hrow, latency, hlatency, hlate⟩⟩
        · refine .draw rfl (Draw.bind_eq_error_iff.2 (.inr ⟨wait, supply₁, hwaited, ?_⟩))
          refine Draw.bind_eq_error_iff.2 (.inr ⟨chance, supply₂, hfell, ?_⟩)
          rw [if_neg hhigh]
          exact Draw.bind_eq_error_iff.2 (.inl hdrawn)
        · have hreport : Sequel run p w.supply w.clock .mine
              (w.clock + run.env.oneWayLatency, .observe .left .genesis 0) := .mined
          exact .late hreport hlate
        · have harrival : Sequel run p w.supply w.clock .mine
              (w.clock + latency, .deliver 0 .left .genesis) := .arrival hrow hlatency
          exact .late harrival hlate
      · contradiction

omit [WordSource σ] in
theorem late_of_check (h : check a w = .error c) :
    c.fault = .overflow ∧ ¬ Time.Valid (w.clock + checkInterval) := by
  obtain ⟨settled, agreement, hw⟩ := w.exists_checkAgreement_eq
  unfold check at h
  rw [hw] at h
  cases settled with
  | some side => contradiction
  | none =>
      rcases Fault.bind_eq_error_iff.1 h with h | ⟨_, _, h⟩
      · obtain ⟨fault, hadd, hc⟩ := Fault.orCrash_eq_error_iff.1 h
        obtain ⟨hlate, rfl⟩ := Time.add_eq_error_iff.1 hadd
        rw [hc]
        exact ⟨rfl, hlate⟩
      · contradiction

end Run

/-! ## the balancing adversary -/

namespace Balancer

variable {σ : Type} {env : Environment} {net : Network} {margin : Balancer → Int}
  {b : Balancer} {w : World σ} {c : Crash Balancer}

/-- Where no block is lent, a reaction decides once. -/
theorem blocksToSend_of_not_allowBorrowing (hoff : env.allowBorrowing = false) (time : Int)
    (b : Balancer) : (run env net margin).blocksToSend time b =
      .ok (([], (b.decision (margin b)).sent), b.carryOut (b.decision (margin b))) := by
  unfold Run.blocksToSend
  dsimp only
  rw [release_adversary, hoff]
  rfl

/-- A report is kept from being heard by a time out of range. -/
theorem late_of_react (hoff : env.allowBorrowing = false)
    (hpart : Partition.ofDistances net.size net.distances = .ok b.partition) {side : Side}
    {block : BlockId} {peer : Nat} (hpeer : peer < b.mirrors.size)
    (h : (run env net margin).react side block peer b w = .error c) :
    c.fault = .overflow ∧ ∃ delay, (delay = 0 ∨ delay ∈ b.partition.crossing) ∧
      ¬ Time.Valid (w.clock + env.oneWayLatency + delay) := by
  have hobserved : (run env net margin).adversary.observe side block peer b =
      .ok (b.observe side block peer) := observe_eq_ok_iff.2 ⟨hpeer, rfl⟩
  unfold Run.react at h
  rw [hobserved] at h
  rcases Fault.bind_eq_error_iff.1 h with h | ⟨_, hb, h⟩
  · contradiction
  obtain rfl := Except.ok.inj hb
  have hdecides : (run env net margin).blocksToSend w.clock (b.observe side block peer) = .ok _ :=
    blocksToSend_of_not_allowBorrowing hoff w.clock _
  rcases Fault.bind_eq_error_iff.1 h with h | ⟨⟨⟨kept, sent⟩, b₁⟩, hdecided, h⟩
  · rw [hdecides] at h
    contradiction
  have hpartition : b₁.partition = b.partition := (exchange_of_blocksToSend hdecided).partition
  rcases Fault.bind_eq_error_iff.1 h with h | ⟨_, _, h⟩
  · obtain ⟨fault, hsend, hc⟩ := Fault.orCrash_eq_error_iff.1 h
    have hsend' : w.send env.oneWayLatency b₁.partition sent = .error fault := hsend
    rw [hpartition] at hsend'
    rw [hc]
    exact World.late_of_send (fun _ _ hpeer => Partition.lt_size_crossing hpart hpeer) hsend'
  · contradiction

/-- What a state of a run must be like for its events to find what they ask for. -/
structure Equipped (net : Network) (b : Balancer) (w : World σ) : Prop where
  nodes : w.nodes.size = net.size
  mirrors : b.mirrors.size = net.size
  partition : Partition.ofDistances net.size net.distances = .ok b.partition
  agenda : w.agenda.Within net.size

variable [WordSource σ]

theorem hindered_of_handle (hoff : env.allowBorrowing = false) {event : Event}
    (hw : Equipped net b w) (hevent : ∀ peer, event.peer = some peer → peer < net.size)
    (h : (run env net margin).handle event b w = .error c) :
    Run.Hindered (run env net margin) b.partition w event c.fault := by
  cases event with
  | mine =>
      rcases Fault.bind_eq_error_iff.1 h with h | ⟨_, _, h⟩
      · exact Run.hindered_of_mine hw.nodes (fun _ => by simp [adversary])
          (fun _ _ _ _ _ => by simp [adversary]) h
      · contradiction
  | deliver peer side block =>
      rcases Fault.bind_eq_error_iff.1 h with h | ⟨_, _, h⟩
      · obtain ⟨fault, hdeliver, hc⟩ := Fault.orCrash_eq_error_iff.1 h
        have hpeer : peer < w.nodes.size := hw.nodes.symm ▸ hevent peer rfl
        obtain ⟨rfl, hlate⟩ := World.late_of_deliver hpeer hdeliver
        rw [hc]
        exact .late .receipt hlate
      · contradiction
  | observe side block peer =>
      rcases Fault.bind_eq_error_iff.1 h with h | ⟨_, _, h⟩
      · have hpeer : peer < b.mirrors.size := hw.mirrors.symm ▸ hevent peer rfl
        obtain ⟨hfault, delay, hdelay, hlate⟩ := late_of_react hoff hw.partition hpeer h
        have hrelease : Run.Sequel (run env net margin) b.partition w.supply w.clock
            (.observe side block peer)
            (w.clock + env.oneWayLatency + delay, .deliver 0 .left .genesis) := .release hdelay
        rw [hfault]
        exact .late hrelease hlate
      · contradiction
  | check =>
      obtain ⟨hfault, hlate⟩ := Run.late_of_check h
      rw [hfault]
      exact .late .check hlate
  | idle =>
      unfold Run.handle at h
      dsimp only at h
      split at h <;> contradiction

variable {supply : Supply σ} {h : Run.History} {s : Run.State Balancer σ}

theorem equipped_of_reaches (hsq : net.distances.Square net.size)
    (hr : (run env net margin).Reaches {} supply h s) : Equipped net s.adversary s.world where
  nodes := size_nodes_of_reaches hsq hr
  mirrors := size_mirrors_of_reaches hsq hr
  partition := partition_of_reaches hr
  agenda := by
    induction hr with
    | start _ hstart => exact Run.within_of_start hsq hstart
    | step hr hstep ih =>
        obtain ⟨first, agenda, hq, _, hturn⟩ := Run.exists_turn_of_step hstep
        obtain ⟨hagenda, hevent⟩ := ih.next hq
        have hpart := partition_of_reaches (.step hr hstep)
        exact Run.within_of_turn hsq hturn hagenda hevent (size_nodes_of_reaches hsq hr)
          fun side _ hmem =>
            ((Partition.mem_nodes_iff hpart side).1 (List.mem_append_left _ hmem)).2

/-- A step that crashes is hindered from carrying out the next event. -/
theorem hindered_of_step (hoff : env.allowBorrowing = false)
    (hsq : net.distances.Square net.size)
    (hr : (run env net margin).Reaches {} supply h s)
    (hstep : (run env net margin).step s = .error c) :
    ∃ first agenda, s.world.agenda.next = some (first, agenda) ∧ first.time < env.termination ∧
      Run.Hindered (run env net margin) s.adversary.partition
        { s.world with clock := first.time, agenda } first.event c.fault := by
  have hequipped := equipped_of_reaches hsq hr
  cases hq : s.world.agenda.next with
  | none =>
      unfold Run.step at hstep
      dsimp only at hstep
      rw [hq] at hstep
      contradiction
  | some x =>
      obtain ⟨first, agenda⟩ := x
      rcases Int.lt_or_le first.time env.termination with hearly | hlate
      · obtain ⟨hagenda, hevent⟩ := hequipped.agenda.next hq
        rw [Run.step_of_lt hq hearly] at hstep
        exact ⟨first, agenda, rfl, hearly, hindered_of_handle hoff
          ⟨hequipped.nodes, hequipped.mirrors, hequipped.partition, hagenda⟩ hevent hstep⟩
      · rw [Run.step_of_le hq hlate] at hstep
        contradiction

/-! ## the start -/

omit [WordSource σ] in
/-- A network that has a node, with a square table, can be attacked. -/
theorem exists_prepare (hvalid : env.Valid) (hsq : net.distances.Square net.size)
    (hsize : net.size ≠ 0) :
    ∃ partition, (run env net margin).prepare {} = .ok (setUp net.size partition {}) ∧
      Partition.ofDistances net.size net.distances = .ok partition := by
  obtain ⟨partition, hpart⟩ := Partition.exists_ofDistances hsq
  refine ⟨partition, ?_, hpart⟩
  unfold Run.prepare
  dsimp only [run]
  rw [hvalid]
  dsimp only
  rw [if_neg hsize]
  dsimp only [adversary]
  rw [hpart]
  rfl

omit [WordSource σ] in
/-- An attack is kept from starting by a latency that is no time. -/
theorem late_of_start {b : Balancer}
    (hpart : Partition.ofDistances net.size net.distances = .ok b.partition)
    (h : (run env net margin).start b supply = .error c) :
    c.fault = .overflow ∧ ∃ row ∈ net.distances, ∃ latency ∈ row, ¬ Time.Valid (0 + latency) := by
  rcases Fault.bind_eq_error_iff.1 h with h | ⟨w, _, h⟩
  · obtain ⟨fault, hseeds, hc⟩ := Fault.orCrash_eq_error_iff.1 h
    obtain ⟨done, node, rest, w, hsplit, hdone, hseed⟩ := Fault.exists_of_foldlM_error hseeds
    have hnode : node < net.size := by
      have hmem : node ∈ b.partition.nodes .right := by
        rw [show b.partition.nodes .right = done ++ node :: rest from hsplit]
        simp
      exact ((Partition.mem_nodes_iff hpart .right).1 (List.mem_append_left _ hmem)).2
    have hsize : w.nodes.size = net.size := by
      refine Fault.of_foldlM (fun _ (w : World σ) => w.nodes.size = net.size)
        (fun _ _ _ _ hw₀ hseed => ?_) (by simp [World.fresh]) hdone
      obtain ⟨_, _, hseed⟩ := Fault.bind_eq_ok_iff.1 hseed
      obtain ⟨_, _, hseed⟩ := Fault.bind_eq_ok_iff.1 hseed
      obtain rfl := Except.ok.inj hseed
      exact Array.size_modify.trans hw₀
    unfold Run.seed at hseed
    rw [Fault.read_of_lt (hsize.symm ▸ hnode)] at hseed
    rcases Fault.bind_eq_error_iff.1 hseed with hseed | ⟨_, _, hseed⟩
    · contradiction
    rcases Fault.bind_eq_error_iff.1 hseed with hseed | ⟨_, _, hseed⟩
    · rw [hc]
      exact World.late_of_arrivals hnode hseed
    · contradiction
  · rcases Fault.bind_eq_error_iff.1 h with h | ⟨_, _, h⟩ <;> contradiction

end Balancer

end BalanceAttack
