import BalanceAttack.Proofs.Pending
import BalanceAttack.Run.Outcome

/-!
# BalanceAttack.Proofs.Turn

All that one event can do.  `Turn` has one constructor for each way in which an
event is carried out and the run goes on, with everything that is then known of
the new state; what a run preserves is proved by cases over it.

* `of_start`, `of_seedAll` — what a run starts from;
* `exists_turn_of_step` — a step that goes on takes the next event and is a turn;
* `ending_of_step` — a step that ends the run does so in one of four ways, none
  of which touches a node, a counter or the adversary.
-/

namespace BalanceAttack

open BalanceAttack.Random

variable {α σ : Type}

/-! ## what the parts of a step do -/

namespace World

theorem of_draw {β : Type} {d : Draw σ β} {w w' : World σ} {b : β} (h : w.draw d = .ok (b, w')) :
    ∃ supply, d w.supply = .ok (b, supply) ∧ w' = { w with supply } := by
  obtain ⟨⟨c, supply⟩, hdraw, h⟩ := Fault.bind_eq_ok_iff.1 h
  obtain ⟨rfl, rfl⟩ := Prod.mk.inj (Except.ok.inj h)
  exact ⟨supply, hdraw, rfl⟩

theorem of_draw_error {β : Type} {d : Draw σ β} {w : World σ} {fault : Fault}
    (h : w.draw d = .error fault) : d w.supply = .error fault := by
  rcases Fault.bind_eq_error_iff.1 h with h | ⟨_, _, h⟩
  · exact h
  · contradiction

/-- An honest node that mines a block has it, and so will have all the others. -/
theorem of_mineHonest [WordSource σ] {net : Network} {lat : Int} {block : BlockId}
    {w w' : World σ} {e : Run.Entry} (h : w.mineHonest net lat block = .ok (e, w')) :
    ∃ (supply : Supply σ) (miner : Nat) (view : View) (events : List (Int × Event)),
      Draw.index net.size w.supply = .ok (miner, supply) ∧
      w.nodes[miner]? = some view ∧
      arrivals net w.clock miner view.side block = .ok events ∧
      e = { time := w.clock, event := .mine, mined := some (miner, view.side, block) } ∧
      w' = { w with
        supply
        nodes := w.nodes.modify miner (·.record block view.side)
        agenda := w.agenda.pushAll
          (events ++ [(w.clock + lat, .observe view.side block miner)]) } := by
  obtain ⟨⟨miner, w₁⟩, hdraw, h⟩ := Fault.bind_eq_ok_iff.1 h
  obtain ⟨supply, hminer, rfl⟩ := of_draw hdraw
  obtain ⟨view, hview, h⟩ := Fault.bind_eq_ok_iff.1 h
  obtain ⟨events, hevents, h⟩ := Fault.bind_eq_ok_iff.1 h
  obtain ⟨time, htime, h⟩ := Fault.bind_eq_ok_iff.1 h
  obtain ⟨rfl, rfl⟩ := Prod.mk.inj (Except.ok.inj h)
  obtain ⟨_, rfl⟩ := Time.add_eq_ok_iff.1 htime
  exact ⟨supply, miner, view, events, hminer, Fault.read_eq_ok_iff.1 hview, hevents, rfl, rfl⟩

/-- A delivery changes nothing, or the block is new to the node and the
adversary is going to be told. -/
theorem of_deliver {lat : Int} {peer : Nat} {side : Side} {block : BlockId} {w w' : World σ}
    (h : w.deliver lat peer side block = .ok w') :
    ∃ view, w.nodes[peer]? = some view ∧
      (view.has block = true ∧ w' = w ∨
        view.has block = false ∧ w' = { w with
          nodes := w.nodes.modify peer (·.record block side)
          agenda := w.agenda.push (w.clock + lat) (.observe side block peer) }) := by
  obtain ⟨view, hview, h⟩ := Fault.bind_eq_ok_iff.1 h
  refine ⟨view, Fault.read_eq_ok_iff.1 hview, ?_⟩
  cases hb : view.has block with
  | true =>
      rw [hb, if_pos rfl] at h
      exact .inl ⟨rfl, (Except.ok.inj h).symm⟩
  | false =>
      rw [hb, if_neg Bool.false_ne_true] at h
      obtain ⟨time, htime, h⟩ := Fault.bind_eq_ok_iff.1 h
      obtain ⟨_, rfl⟩ := Time.add_eq_ok_iff.1 htime
      exact .inr ⟨rfl, (Except.ok.inj h).symm⟩

/-- Blocks that the adversary sends are delivered to the whole partition, and
those that were mined are counted. -/
theorem of_send {lat : Int} {p : Partition} {sent : List (Side × BlockId)} {w w' : World σ}
    (h : w.send lat p sent = .ok w') :
    ∃ events : List (List (Int × Event)),
      sent.mapM (releaseArrivals p (w.clock + lat)) = .ok events ∧
      w' = { w with
        released := w.released + sent.countP (fun x => !x.2.isSynthetic)
        agenda := w.agenda.pushAll events.flatten } := by
  obtain ⟨time, htime, h⟩ := Fault.bind_eq_ok_iff.1 h
  obtain ⟨_, rfl⟩ := Time.add_eq_ok_iff.1 htime
  obtain ⟨events, hevents, h⟩ := Fault.bind_eq_ok_iff.1 h
  exact ⟨events, hevents, (Except.ok.inj h).symm⟩

/-- A check changes nothing but the note of since when the nodes agree. -/
theorem exists_checkAgreement_eq (w : World σ) :
    ∃ settled agreement, w.checkAgreement = (settled, { w with agreement }) := by
  unfold checkAgreement
  split
  · exact ⟨_, _, rfl⟩
  · split
    · split <;> exact ⟨_, _, rfl⟩
    · exact ⟨_, _, rfl⟩

end World

namespace Run

/-! ## the start of a run -/

/-- What holds of fresh nodes, and once one more has sent the genesis block if before, holds
once all nodes to be kept on the right side have. -/
theorem of_seedAll {run : Run α} {p : Partition} {supply : Supply σ} {w : World σ}
    (motive : List Nat → World σ → Prop)
    (hfresh : motive [] (World.fresh run.network.size supply))
    (hseed : ∀ {roots w node events}, motive roots w →
      World.arrivals run.network 0 node .right .genesis = .ok events →
      motive (roots ++ [node]) { w with
        nodes := w.nodes.modify node (·.record .genesis .right)
        agenda := w.agenda.pushAll events })
    (h : run.seedAll p supply = .ok w) : motive p.right w := by
  refine Fault.of_foldlM motive (fun _ _ _ _ hw h => ?_) hfresh h
  obtain ⟨_, _, h⟩ := Fault.bind_eq_ok_iff.1 h
  obtain ⟨_, hevents, h⟩ := Fault.bind_eq_ok_iff.1 h
  obtain rfl := Except.ok.inj h
  exact hseed hw hevents

/-- A run starts once these nodes have sent the genesis block, with the first block and the
first check to come. -/
theorem of_start {run : Run α} {a : α} {supply : Supply σ} {s : State α σ}
    (h : run.start a supply = .ok s) :
    ∃ w, run.seedAll (run.adversary.partition a) supply = .ok w ∧
      run.adversary.start a = .ok s.adversary ∧
      s.world = w.schedule [(0, .mine), (firstCheck, .check)] := by
  obtain ⟨w, hw, h⟩ := Fault.bind_eq_ok_iff.1 h
  obtain ⟨a', ha, h⟩ := Fault.bind_eq_ok_iff.1 h
  obtain rfl := Except.ok.inj h
  exact ⟨w, Fault.orCrash_eq_ok_iff.1 hw, ha, rfl⟩

/-! ## the turns of a run -/

/-- One event carried out at the time on the clock, after which the run goes on. -/
inductive Turn (run : Run α) (a : α) (w : World σ) : Event → Entry → State α σ → Prop where
  /-- The adversary mines a block and keeps it back. -/
  | evil {wait : Int} {supply : Supply σ} {side : Side} {a₁ a₂ : α}
      (chosen : run.adversary.chooseSide a = .ok (side, a₁))
      (withheld : run.adversary.withhold side ⟨(w.mined + 1 : Nat)⟩ w.clock a₁ = .ok a₂) :
      Turn run a w .mine
        { time := w.clock, event := .mine, kept := [(side, ⟨(w.mined + 1 : Nat)⟩)] }
        ⟨a₂, { w with
          supply
          agenda := w.agenda.push (w.clock + wait) .mine
          mined := w.mined + 1
          adversaryMined := w.adversaryMined + 1 }⟩
  /-- An honest node mines a block and sends it to all others. -/
  | honest {wait : Int} {supply : Supply σ} {miner : Nat} {view : View}
      {events : List (Int × Event)} (read : w.nodes[miner]? = some view)
      (sent : World.arrivals run.network w.clock miner view.side ⟨(w.mined + 1 : Nat)⟩ =
        .ok events) :
      Turn run a w .mine
        { time := w.clock, event := .mine
          mined := some (miner, view.side, ⟨(w.mined + 1 : Nat)⟩) }
        ⟨a, { w with
          supply
          nodes := w.nodes.modify miner (·.record ⟨(w.mined + 1 : Nat)⟩ view.side)
          agenda := (w.agenda.push (w.clock + wait) .mine).pushAll (events ++
            [(w.clock + run.env.oneWayLatency,
              .observe view.side ⟨(w.mined + 1 : Nat)⟩ miner)])
          mined := w.mined + 1 }⟩
  /-- A node is delivered a block it has. -/
  | known {peer : Nat} {side : Side} {block : BlockId} {view : View}
      (read : w.nodes[peer]? = some view) (has : view.has block = true) :
      Turn run a w (.deliver peer side block)
        { time := w.clock, event := .deliver peer side block } ⟨a, w⟩
  /-- A node is delivered a new block, and the adversary is going to be told. -/
  | new {peer : Nat} {side : Side} {block : BlockId} {view : View}
      (read : w.nodes[peer]? = some view) (has : view.has block = false) :
      Turn run a w (.deliver peer side block)
        { time := w.clock, event := .deliver peer side block }
        ⟨a, { w with
          nodes := w.nodes.modify peer (·.record block side)
          agenda := w.agenda.push (w.clock + run.env.oneWayLatency)
            (.observe side block peer) }⟩
  /-- The adversary is told of a block that a node has received, and reacts. -/
  | told {peer : Nat} {side : Side} {block : BlockId} {a₁ a₂ : α}
      {kept sent : List (Side × BlockId)} {events : List (List (Int × Event))}
      (observed : run.adversary.observe side block peer a = .ok a₁)
      (decided : run.blocksToSend w.clock a₁ = .ok ((kept, sent), a₂))
      (released : sent.mapM (World.releaseArrivals (run.adversary.partition a₂)
        (w.clock + run.env.oneWayLatency)) = .ok events) :
      Turn run a w (.observe side block peer)
        { time := w.clock, event := .observe side block peer, kept, sent }
        ⟨a₂, { w with
          released := w.released + sent.countP (fun x => !x.2.isSynthetic)
          agenda := w.agenda.pushAll events.flatten }⟩
  /-- The nodes have not agreed for long enough. -/
  | checked (unsettled : w.checkAgreement.1 = none) :
      Turn run a w .check { time := w.clock, event := .check }
        ⟨a, { w with
          agreement := w.checkAgreement.2.agreement
          agenda := w.agenda.push (w.clock + checkInterval) .check }⟩
  /-- Nothing is to be done now, but something later. -/
  | idle : Turn run a w .idle { time := w.clock, event := .idle } ⟨a, w⟩

/-- A block is found: the wait for the next one is drawn, then whose block this
one is, and if it is an honest node's, also which. -/
inductive Mining [WordSource σ] (run : Run α) (a : α) (w : World σ) :
    Entry → State α σ → Prop where
  /-- The adversary mines the block and keeps it back. -/
  | evil {wait : Int} {chance : Float} {supply₁ supply₂ : Supply σ} {side : Side} {a₁ a₂ : α}
      (waited : Draw.interval run.env.blockPeriod w.supply = .ok (wait, supply₁))
      (fell : Draw.unit supply₁ = .ok (chance, supply₂)) (low : chance < run.env.evilRate)
      (chosen : run.adversary.chooseSide a = .ok (side, a₁))
      (withheld : run.adversary.withhold side ⟨(w.mined + 1 : Nat)⟩ w.clock a₁ = .ok a₂) :
      Mining run a w
        { time := w.clock, event := .mine, kept := [(side, ⟨(w.mined + 1 : Nat)⟩)] }
        ⟨a₂, { w with
          supply := supply₂
          agenda := w.agenda.push (w.clock + wait) .mine
          mined := w.mined + 1
          adversaryMined := w.adversaryMined + 1 }⟩
  /-- An honest node mines the block and sends it to all others. -/
  | honest {wait : Int} {chance : Float} {supply₁ supply₂ supply₃ : Supply σ} {miner : Nat}
      {view : View} {events : List (Int × Event)}
      (waited : Draw.interval run.env.blockPeriod w.supply = .ok (wait, supply₁))
      (fell : Draw.unit supply₁ = .ok (chance, supply₂)) (high : ¬ chance < run.env.evilRate)
      (drawn : Draw.index run.network.size supply₂ = .ok (miner, supply₃))
      (read : w.nodes[miner]? = some view)
      (sent : World.arrivals run.network w.clock miner view.side ⟨(w.mined + 1 : Nat)⟩ =
        .ok events) :
      Mining run a w
        { time := w.clock, event := .mine
          mined := some (miner, view.side, ⟨(w.mined + 1 : Nat)⟩) }
        ⟨a, { w with
          supply := supply₃
          nodes := w.nodes.modify miner (·.record ⟨(w.mined + 1 : Nat)⟩ view.side)
          agenda := (w.agenda.push (w.clock + wait) .mine).pushAll (events ++
            [(w.clock + run.env.oneWayLatency,
              .observe view.side ⟨(w.mined + 1 : Nat)⟩ miner)])
          mined := w.mined + 1 }⟩

variable {run : Run α} {a : α} {w : World σ}

theorem mining_of_mine [WordSource σ] {e : Entry} {s : State α σ} (h : run.mine a w = .ok (e, s)) :
    Mining run a w e s := by
  obtain ⟨⟨wait, w₁⟩, hwait, h⟩ := Fault.bind_eq_ok_iff.1 h
  obtain ⟨_, hwaited, rfl⟩ := World.of_draw (Fault.orCrash_eq_ok_iff.1 hwait)
  obtain ⟨time, htime, h⟩ := Fault.bind_eq_ok_iff.1 h
  obtain ⟨_, rfl⟩ := Time.add_eq_ok_iff.1 (Fault.orCrash_eq_ok_iff.1 htime)
  obtain ⟨⟨chance, w₂⟩, hchance, h⟩ := Fault.bind_eq_ok_iff.1 h
  obtain ⟨_, hfell, rfl⟩ := World.of_draw (Fault.orCrash_eq_ok_iff.1 hchance)
  dsimp only at h
  split at h
  · next hlow =>
      obtain ⟨⟨side, a₁⟩, hside, h⟩ := Fault.bind_eq_ok_iff.1 h
      obtain ⟨a₂, hkept, h⟩ := Fault.bind_eq_ok_iff.1 h
      obtain ⟨rfl, rfl⟩ := Prod.mk.inj (Except.ok.inj h)
      exact .evil hwaited hfell hlow hside hkept
  · next hhigh =>
      obtain ⟨⟨e', w₃⟩, hmine, h⟩ := Fault.bind_eq_ok_iff.1 h
      obtain ⟨_, miner, view, events, hminer, hview, hevents, he, rfl⟩ :=
        World.of_mineHonest (Fault.orCrash_eq_ok_iff.1 hmine)
      obtain ⟨rfl, rfl⟩ := Prod.mk.inj (Except.ok.inj h)
      subst he
      exact .honest hwaited hfell hhigh hminer hview hevents

theorem mining_of_handle [WordSource σ] {e : Entry} {s : State α σ}
    (h : run.handle .mine a w = .ok (.running e s)) : Mining run a w e s := by
  obtain ⟨⟨e', s'⟩, hmine, h⟩ := Fault.bind_eq_ok_iff.1 h
  obtain ⟨rfl, rfl⟩ := Progress.running.inj (Except.ok.inj h)
  exact mining_of_mine hmine

theorem Mining.turn [WordSource σ] {e : Entry} {s : State α σ} (h : Mining run a w e s) :
    Turn run a w .mine e s := by
  cases h with
  | evil _ _ _ hside hkept => exact .evil hside hkept
  | honest _ _ _ _ hview hevents => exact .honest hview hevents

theorem turn_of_react {side : Side} {block : BlockId} {peer : Nat} {e : Entry} {s : State α σ}
    (h : run.react side block peer a w = .ok (e, s)) :
    Turn run a w (.observe side block peer) e s := by
  obtain ⟨a₁, hobs, h⟩ := Fault.bind_eq_ok_iff.1 h
  obtain ⟨⟨⟨kept, sent⟩, a₂⟩, hsent, h⟩ := Fault.bind_eq_ok_iff.1 h
  obtain ⟨w', hsend, h⟩ := Fault.bind_eq_ok_iff.1 h
  obtain ⟨events, hevents, rfl⟩ := World.of_send (Fault.orCrash_eq_ok_iff.1 hsend)
  obtain ⟨rfl, rfl⟩ := Prod.mk.inj (Except.ok.inj h)
  exact .told hobs hsent hevents

/-- A check goes on, or ends the run on the side that the nodes have settled on. -/
theorem of_check {p : Progress α σ} (h : check a w = .ok p) :
    (∃ side, w.checkAgreement.1 = some side ∧
      p = .finished ⟨w.clock, some side⟩ ⟨a, w.checkAgreement.2⟩) ∨
    (w.checkAgreement.1 = none ∧
      p = .running { time := w.clock, event := .check } ⟨a, { w with
        agreement := w.checkAgreement.2.agreement
        agenda := w.agenda.push (w.clock + checkInterval) .check }⟩) := by
  unfold check at h
  obtain ⟨settled, agreement, hw⟩ := w.exists_checkAgreement_eq
  rw [hw] at h ⊢
  cases settled with
  | some side => exact .inl ⟨side, rfl, (Except.ok.inj h).symm⟩
  | none =>
      obtain ⟨time, htime, h⟩ := Fault.bind_eq_ok_iff.1 h
      obtain ⟨_, rfl⟩ := Time.add_eq_ok_iff.1 (Fault.orCrash_eq_ok_iff.1 htime)
      exact .inr ⟨rfl, (Except.ok.inj h).symm⟩

theorem turn_of_handle [WordSource σ] {event : Event} {e : Entry} {s : State α σ}
    (h : run.handle event a w = .ok (.running e s)) : Turn run a w event e s := by
  cases event with
  | mine => exact (mining_of_handle h).turn
  | deliver peer side block =>
      obtain ⟨w', hdel, h⟩ := Fault.bind_eq_ok_iff.1 h
      obtain ⟨rfl, rfl⟩ := Progress.running.inj (Except.ok.inj h)
      obtain ⟨view, hview, ⟨hhas, rfl⟩ | ⟨hhas, rfl⟩⟩ :=
        World.of_deliver (Fault.orCrash_eq_ok_iff.1 hdel)
      · exact .known hview hhas
      · exact .new hview hhas
  | observe side block peer =>
      obtain ⟨⟨e', s'⟩, hreact, h⟩ := Fault.bind_eq_ok_iff.1 h
      obtain ⟨rfl, rfl⟩ := Progress.running.inj (Except.ok.inj h)
      exact turn_of_react hreact
  | check =>
      rcases of_check h with ⟨side, _, hp⟩ | ⟨hnone, hp⟩
      · cases hp
      · obtain ⟨rfl, rfl⟩ := Progress.running.inj hp
        exact .checked hnone
  | idle =>
      unfold handle at h
      dsimp only at h
      split at h
      · cases h
      · obtain ⟨rfl, rfl⟩ := Progress.running.inj (Except.ok.inj h)
        exact .idle

/-- A step carries out an event that is due before the time is up. -/
theorem step_of_lt [WordSource σ] {s : State α σ} {first : Scheduled} {agenda : Agenda}
    (hq : s.world.agenda.next = some (first, agenda)) (hearly : first.time < run.env.termination) :
    run.step s =
      run.handle first.event s.adversary { s.world with clock := first.time, agenda } := by
  unfold step
  dsimp only
  rw [hq]
  dsimp only
  rw [if_neg (Int.not_le.2 hearly)]

/-- A step ends the run when the time is up. -/
theorem step_of_le [WordSource σ] {s : State α σ} {first : Scheduled} {agenda : Agenda}
    (hq : s.world.agenda.next = some (first, agenda)) (hlate : run.env.termination ≤ first.time) :
    run.step s = .ok (.finished ⟨run.env.termination, none⟩
      ⟨s.adversary, { s.world with clock := first.time, agenda }⟩) := by
  unfold step
  dsimp only
  rw [hq]
  dsimp only
  rw [if_pos hlate]

/-- A step that goes on takes the next event, which is before the end, and carries it out. -/
theorem exists_handle_of_step [WordSource σ] {s s' : State α σ} {e : Entry}
    (h : run.step s = .ok (.running e s')) :
    ∃ first agenda, s.world.agenda.next = some (first, agenda) ∧
      first.time < run.env.termination ∧
      run.handle first.event s.adversary { s.world with clock := first.time, agenda } =
        .ok (.running e s') := by
  cases hq : s.world.agenda.next with
  | none =>
      unfold step at h
      dsimp only at h
      rw [hq] at h
      cases h
  | some x =>
      obtain ⟨first, agenda⟩ := x
      rcases Int.lt_or_le first.time run.env.termination with hearly | hlate
      · exact ⟨first, agenda, rfl, hearly, (step_of_lt hq hearly).symm.trans h⟩
      · rw [step_of_le hq hlate] at h
        cases h

theorem exists_turn_of_step [WordSource σ] {s s' : State α σ} {e : Entry}
    (h : run.step s = .ok (.running e s')) :
    ∃ first agenda, s.world.agenda.next = some (first, agenda) ∧
      first.time < run.env.termination ∧
      Turn run s.adversary { s.world with clock := first.time, agenda } first.event e s' := by
  obtain ⟨first, agenda, hq, hearly, hhandle⟩ := exists_handle_of_step h
  exact ⟨first, agenda, hq, hearly, turn_of_handle hhandle⟩

theorem event_of_turn {event : Event} {e : Entry} {s : State α σ}
    (h : Turn run a w event e s) : e.event = event := by
  cases h with
  | evil | honest | known | new | told | checked | idle => rfl

/-- Only an event at which a block is found counts as one. -/
theorem mined_of_turn {event : Event} {e : Entry} {s : State α σ}
    (h : Turn run a w event e s) :
    s.world.mined = w.mined + if event = .mine then 1 else 0 := by
  cases h with
  | evil | honest => rfl
  | known | new | told | checked | idle => simp

/-- Only a check changes the note of agreement. -/
theorem agreement_of_turn {event : Event} {e : Entry} {s : State α σ}
    (h : Turn run a w event e s) :
    event ≠ .check ∧ s.world.agreement = w.agreement ∨
      event = .check ∧ w.checkAgreement.1 = none ∧
        s.world.agreement = w.checkAgreement.2.agreement := by
  cases h with
  | checked hnone => exact .inr ⟨rfl, hnone, rfl⟩
  | evil | honest | known | new | told | idle => exact .inl ⟨by simp, rfl⟩

/-- A turn neither adds nor removes nodes. -/
theorem size_nodes_of_turn {event : Event} {e : Entry} {s : State α σ}
    (h : Turn run a w event e s) : s.world.nodes.size = w.nodes.size := by
  cases h with
  | honest => exact Array.size_modify
  | new => exact Array.size_modify
  | evil | known | told | checked | idle => rfl

/-! ## the end of a run -/

/-- How a step can end a run: with what verdict, and in which state. -/
inductive Ending (run : Run α) (s : State α σ) : Verdict → State α σ → Prop where
  /-- Nothing was left to happen. -/
  | drained (none_left : s.world.agenda.next = none) :
      Ending run s ⟨run.env.termination, none⟩ s
  /-- The time is up at the next event. -/
  | timeUp {first : Scheduled} {agenda : Agenda}
      (next : s.world.agenda.next = some (first, agenda))
      (late : run.env.termination ≤ first.time) :
      Ending run s ⟨run.env.termination, none⟩
        ⟨s.adversary, { s.world with clock := first.time, agenda }⟩
  /-- A check finds that the nodes have settled on a side. -/
  | settled {first : Scheduled} {agenda : Agenda} {side : Side} {agreement : Option (Int × Side)}
      (next : s.world.agenda.next = some (first, agenda))
      (early : first.time < run.env.termination) (check : first.event = .check)
      (agreed : World.checkAgreement { s.world with clock := first.time, agenda } =
        (some side, { s.world with clock := first.time, agenda, agreement })) :
      Ending run s ⟨first.time, some side⟩
        ⟨s.adversary, { s.world with clock := first.time, agenda, agreement }⟩
  /-- Nothing is to be done now, nor later. -/
  | idle {first : Scheduled} {agenda : Agenda}
      (next : s.world.agenda.next = some (first, agenda)) (idle : first.event = .idle)
      (none_left : agenda.isEmpty = true) :
      Ending run s ⟨run.env.termination, none⟩
        ⟨s.adversary, { s.world with clock := first.time, agenda }⟩

/-- At the end of a run the adversary and the counters are left as they are. -/
theorem Ending.counters_eq {s s' : State α σ} {v : Verdict} (h : Ending run s v s') :
    s'.adversary = s.adversary ∧ s'.world.mined = s.world.mined ∧
      s'.world.adversaryMined = s.world.adversaryMined ∧ s'.world.released = s.world.released := by
  cases h with
  | drained | timeUp | settled | idle => exact ⟨rfl, rfl, rfl, rfl⟩

/-- A step that ends the run ends it in one of these ways. -/
theorem ending_of_step [WordSource σ] {s s' : State α σ} {v : Verdict}
    (h : run.step s = .ok (.finished v s')) : Ending run s v s' := by
  unfold step at h
  dsimp only at h
  split at h
  · next hnext =>
      cases h
      exact .drained hnext
  · next first agenda hnext =>
      split at h
      · next hlate =>
          cases h
          exact .timeUp hnext hlate
      · next hearly =>
          have hlt : first.time < run.env.termination := Int.not_le.1 hearly
          cases hevent : first.event with
          | mine =>
              rw [hevent] at h
              obtain ⟨_, _, h⟩ := Fault.bind_eq_ok_iff.1 h
              cases h
          | deliver peer side block =>
              rw [hevent] at h
              obtain ⟨_, _, h⟩ := Fault.bind_eq_ok_iff.1 h
              cases h
          | observe side block peer =>
              rw [hevent] at h
              obtain ⟨_, _, h⟩ := Fault.bind_eq_ok_iff.1 h
              cases h
          | check =>
              rw [hevent] at h
              obtain ⟨settled, agreement, hw⟩ := World.exists_checkAgreement_eq
                { s.world with clock := first.time, agenda }
              rcases of_check h with ⟨side, hside, hp⟩ | ⟨_, hp⟩
              · rw [hw] at hside hp
                dsimp only at hside
                subst hside
                cases hp
                exact .settled hnext hlt hevent hw
              · cases hp
          | idle =>
              rw [hevent] at h
              unfold handle at h
              dsimp only at h
              split at h
              · next hempty =>
                  cases h
                  exact .idle hnext hevent hempty
              · cases h

end Run

end BalanceAttack
