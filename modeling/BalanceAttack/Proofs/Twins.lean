import BalanceAttack.Proofs.Lineup
import BalanceAttack.Proofs.Onlooker

/-!
# BalanceAttack.Proofs.Twins

Two runs side by side, of which one may tell the adversary at other times what
the nodes receive, and the adversary may then know other things.  `Twins` holds
of their worlds as long as all else is the same: the nodes, the counter of blocks,
the supply, and what is pending apart from reports, in the order in which it is due.

* `Twins.handle` — the same event leads to twins again, where no adversary mines;
* `Twins.next_of_not` — to take off a report on one side leaves twins;
* `Twins.next_eq` — other than reports, twins have the same event next.
-/

namespace BalanceAttack

open BalanceAttack.Random

/-- Does an event concern more than the adversary?  All but reports do. -/
def Event.visible : Event → Bool
  | observe .. => false
  | _ => true

/-- Two worlds that differ in what is reported to the adversary alone. -/
structure Twins {σ : Type} (w w' : World σ) : Prop where
  lined : ∃ l, w.agenda.Lined Event.visible l ∧ w'.agenda.Lined Event.visible l
  nodes : w'.nodes = w.nodes
  agreement : w'.agreement = w.agreement
  mined : w'.mined = w.mined
  supply : w'.supply = w.supply

/-- Two runs that may differ in the adversary and in how far away it is. -/
structure Run.Akin {α : Type} (run run' : Run α) : Prop where
  network : run'.network = run.network
  blockPeriod : run'.env.blockPeriod = run.env.blockPeriod
  evilRate : run'.env.evilRate = run.env.evilRate
  termination : run'.env.termination = run.env.termination

namespace Run

open World (of_draw_error)

variable {α σ : Type} {run run' : Run α} {a a' : α} {w w' : World σ} {e e' : Entry}
  {s s' : State α σ}

/-! ## one event -/

/-- An honest node is hindered from mining by the range of time alone. -/
theorem overflow_of_mineHonest [WordSource σ] {net : Network} {lat : Int} {block : BlockId}
    {fault : Fault} (h : w.mineHonest net lat block = .error fault) {miner : Nat} {view : View}
    {rest : Supply σ} {events : List (Int × Event)}
    (hdrawn : Draw.index net.size w.supply = .ok (miner, rest))
    (hread : w.nodes[miner]? = some view)
    (hsent : World.arrivals net w.clock miner view.side block = .ok events) :
    fault = .overflow := by
  unfold World.mineHonest at h
  rcases Fault.bind_eq_error_iff.1 h with h | ⟨⟨_, w₁⟩, hminer, h⟩
  · have herror := hdrawn.symm.trans (of_draw_error h)
    contradiction
  obtain ⟨_, hdrawn', rfl⟩ := World.of_draw hminer
  obtain ⟨rfl, rfl⟩ := Prod.mk.inj (Except.ok.inj (hdrawn.symm.trans hdrawn'))
  dsimp only at h
  rw [Fault.read_eq_ok_iff.2 hread] at h
  rcases Fault.bind_eq_error_iff.1 h with h | ⟨_, hview, h⟩
  · contradiction
  obtain rfl := Except.ok.inj hview
  rw [hsent] at h
  rcases Fault.bind_eq_error_iff.1 h with h | ⟨_, _, h⟩
  · contradiction
  rcases Fault.bind_eq_error_iff.1 h with h | ⟨_, _, h⟩
  · exact Time.overflow_of_add h
  · contradiction

variable [WordSource σ]

/-- Where a block is found in one of two akin runs, the other is hindered by the
range of time alone. -/
theorem overflow_of_mine (hk : Akin run run') (hrate : (run.env.evilRate == 0) = true)
    (ht : Twins w w') (hclock : w'.clock = w.clock) (hm : Mining run a w e s) {c : Crash α}
    (h : run'.mine a' w' = .error c) : c.fault = .overflow := by
  cases hm with
  | evil _ hfell hlow => exact absurd hlow (not_lt_of_unit hfell hrate)
  | honest hwaited hfell hhigh hdrawn hread hsent =>
      rw [← ht.supply, ← hk.blockPeriod] at hwaited
      rw [← hk.evilRate] at hhigh
      rw [← hk.network] at hdrawn hsent
      rw [← ht.nodes] at hread
      rw [← hclock, ← ht.mined] at hsent
      unfold mine at h
      rcases Fault.bind_eq_error_iff.1 h with h | ⟨⟨_, w₁⟩, hwait, h⟩
      · obtain ⟨fault, hdraw, _⟩ := Fault.orCrash_eq_error_iff.1 h
        have herror := hwaited.symm.trans (of_draw_error hdraw)
        contradiction
      obtain ⟨_, hwaited', rfl⟩ := World.of_draw (Fault.orCrash_eq_ok_iff.1 hwait)
      obtain ⟨rfl, rfl⟩ := Prod.mk.inj (Except.ok.inj (hwaited.symm.trans hwaited'))
      rcases Fault.bind_eq_error_iff.1 h with h | ⟨_, _, h⟩
      · obtain ⟨fault, htime, rfl⟩ := Fault.orCrash_eq_error_iff.1 h
        exact Time.overflow_of_add htime
      rcases Fault.bind_eq_error_iff.1 h with h | ⟨⟨_, w₂⟩, hchance, h⟩
      · obtain ⟨fault, hdraw, _⟩ := Fault.orCrash_eq_error_iff.1 h
        have herror := hfell.symm.trans (of_draw_error hdraw)
        contradiction
      obtain ⟨_, hfell', rfl⟩ := World.of_draw (Fault.orCrash_eq_ok_iff.1 hchance)
      obtain ⟨rfl, rfl⟩ := Prod.mk.inj (Except.ok.inj (hfell.symm.trans hfell'))
      dsimp only at h
      rw [if_neg hhigh] at h
      rcases Fault.bind_eq_error_iff.1 h with h | ⟨_, _, h⟩
      · obtain ⟨fault, hmine, rfl⟩ := Fault.orCrash_eq_error_iff.1 h
        exact overflow_of_mineHonest hmine hdrawn hread hsent
      · contradiction

end Run

/-! ## two events -/

/-- The line once a block is found: the next block and the deliveries get in line. -/
theorem Agenda.lined_of_block {q : Agenda} {l : List (Int × Event)} (hq : q.Sound)
    (hl : q.Lined Event.visible l) (t u : Int) (es : List (Int × Event)) (side : Side)
    (block : BlockId) (miner : Nat) :
    ((q.push t .mine).pushAll (es ++ [(u, .observe side block miner)])).Lined Event.visible
      ((es.filter (·.2.visible)).foldl enlist (enlist l (t, .mine))) := by
  have hpush : (q.push t .mine).Lined Event.visible (enlist l (t, .mine)) := lined_push hq hl t rfl
  have hall := lined_pushAll (sound_push hq t .mine) hpush
    (es ++ [(u, .observe side block miner)])
  have hreport : [((u, .observe side block miner) : Int × Event)].filter (·.2.visible) = [] := rfl
  rw [List.filter_append, hreport, List.append_nil] at hall
  exact hall

namespace Twins

open Run

variable {α σ : Type} {run run' : Run α} {a a' : α} {w w' : World σ} {e e' : Entry}
  {s s' : State α σ}

/-- A check of one twin finds what a check of the other does. -/
theorem checkAgreement (ht : Twins w w') (hclock : w'.clock = w.clock) :
    w'.checkAgreement.1 = w.checkAgreement.1 ∧
      w'.checkAgreement.2.agreement = w.checkAgreement.2.agreement := by
  have hagreement := ht.agreement
  unfold World.checkAgreement
  rw [ht.nodes, ht.agreement, hclock]
  split
  · exact ⟨rfl, rfl⟩
  · split
    · split
      · exact ⟨rfl, hagreement⟩
      · exact ⟨rfl, rfl⟩
    · exact ⟨rfl, rfl⟩

theorem deliver {peer : Nat} {side : Side} {block : BlockId} (ht : Twins w w')
    (hturn : Turn run a w (.deliver peer side block) e s)
    (hturn' : Turn run' a' w' (.deliver peer side block) e' s') : Twins s.world s'.world := by
  obtain ⟨l, hl, hl'⟩ := ht.lined
  cases hturn with
  | known hread hhas =>
      cases hturn' with
      | known => exact ht
      | new hread' hhas' =>
          rw [ht.nodes] at hread'
          obtain rfl := Option.some.inj (hread.symm.trans hread')
          rw [hhas] at hhas'
          contradiction
  | new hread hhas =>
      cases hturn' with
      | known hread' hhas' =>
          rw [ht.nodes] at hread'
          obtain rfl := Option.some.inj (hread.symm.trans hread')
          rw [hhas] at hhas'
          contradiction
      | new =>
          refine ⟨⟨l, Agenda.lined_push_of_not hl _ rfl, Agenda.lined_push_of_not hl' _ rfl⟩,
            ?_, ht.agreement, ht.mined, ht.supply⟩
          dsimp only
          rw [ht.nodes]

theorem check (ht : Twins w w') (hclock : w'.clock = w.clock) (hs : w.agenda.Sound)
    (hs' : w'.agenda.Sound) (hturn : Turn run a w .check e s)
    (hturn' : Turn run' a' w' .check e' s') : Twins s.world s'.world := by
  obtain ⟨l, hl, hl'⟩ := ht.lined
  cases hturn with
  | checked =>
      cases hturn' with
      | checked =>
          refine ⟨⟨_, Agenda.lined_push hs hl _ rfl, ?_⟩, ht.nodes,
            (ht.checkAgreement hclock).2, ht.mined, ht.supply⟩
          dsimp only
          rw [hclock]
          exact Agenda.lined_push hs' hl' _ rfl

variable [WordSource σ]

/-- Where a block is found in one of two akin runs, it is found in the other in the same way. -/
theorem mining (hk : Akin run run') (hrate : (run.env.evilRate == 0) = true) (ht : Twins w w')
    (hclock : w'.clock = w.clock) (hs : w.agenda.Sound) (hs' : w'.agenda.Sound)
    (hm : Mining run a w e s) (hm' : Mining run' a' w' e' s') : Twins s.world s'.world := by
  have hrate' : (run'.env.evilRate == 0) = true := by rw [hk.evilRate, hrate]
  cases hm with
  | evil _ hfell hlow => exact absurd hlow (not_lt_of_unit hfell hrate)
  | @honest wait _ _ _ _ miner view events hwaited hfell _ hdrawn hread hsent =>
      cases hm' with
      | evil _ hfell' hlow' => exact absurd hlow' (not_lt_of_unit hfell' hrate')
      | honest hwaited' hfell' _ hdrawn' hread' hsent' =>
          -- the draws of the two are the same
          rw [ht.supply, hk.blockPeriod] at hwaited'
          obtain ⟨rfl, rfl⟩ := Prod.mk.inj (Except.ok.inj (hwaited.symm.trans hwaited'))
          obtain ⟨rfl, rfl⟩ := Prod.mk.inj (Except.ok.inj (hfell.symm.trans hfell'))
          rw [hk.network] at hdrawn' hsent'
          obtain ⟨rfl, rfl⟩ := Prod.mk.inj (Except.ok.inj (hdrawn.symm.trans hdrawn'))
          rw [ht.nodes] at hread'
          obtain rfl := Option.some.inj (hread.symm.trans hread')
          rw [hclock, ht.mined] at hsent'
          obtain rfl := Except.ok.inj (hsent.symm.trans hsent')
          obtain ⟨l, hl, hl'⟩ := ht.lined
          refine ⟨⟨_, Agenda.lined_of_block hs hl _ _ _ _ _ _, ?_⟩, ?_, ht.agreement, ?_, rfl⟩
          · dsimp only
            rw [hclock]
            exact Agenda.lined_of_block hs' hl' _ _ _ _ _ _
          · dsimp only
            rw [ht.nodes, ht.mined]
          · dsimp only
            rw [ht.mined]

/-- The event carried out on a twin leads to twins again, or the range of time hinders it. -/
def Follows (run' : Run α) (event : Event) (a' : α) (w' : World σ) (s : State α σ) : Prop :=
  (∃ e' s', run'.handle event a' w' = .ok (.running e' s') ∧ Twins s.world s'.world) ∨
    ∃ c, run'.handle event a' w' = .error c ∧ c.fault = .overflow

theorem handle_mine (hk : Akin run run') (hrate : (run.env.evilRate == 0) = true)
    (ht : Twins w w') (hclock : w'.clock = w.clock) (hs : w.agenda.Sound)
    (hs' : w'.agenda.Sound) (hrun : run.handle .mine a w = .ok (.running e s)) :
    Follows run' .mine a' w' s := by
  have hm := mining_of_handle hrun
  cases hmine : run'.mine a' w' with
  | ok x =>
      obtain ⟨e', s'⟩ := x
      have hhandle : run'.handle .mine a' w' = .ok (.running e' s') :=
        Fault.bind_eq_ok_iff.2 ⟨_, hmine, rfl⟩
      exact .inl ⟨e', s', hhandle, ht.mining hk hrate hclock hs hs' hm (mining_of_mine hmine)⟩
  | error c =>
      exact .inr ⟨c, Fault.bind_eq_error_iff.2 (.inl hmine),
        overflow_of_mine hk hrate ht hclock hm hmine⟩

theorem handle_deliver (ht : Twins w w') {peer : Nat} {side : Side} {block : BlockId}
    (hrun : run.handle (.deliver peer side block) a w = .ok (.running e s)) :
    Follows run' (.deliver peer side block) a' w' s := by
  have hturn := turn_of_handle hrun
  have hread : ∃ view, w'.nodes[peer]? = some view := by
    rw [ht.nodes]
    cases hturn with
    | known hread | new hread => exact ⟨_, hread⟩
  obtain ⟨view, hread⟩ := hread
  cases hdeliver : w'.deliver run'.env.oneWayLatency peer side block with
  | ok w₁ =>
      have hhandle : run'.handle (.deliver peer side block) a' w' =
          .ok (.running { time := w₁.clock, event := .deliver peer side block } ⟨a', w₁⟩) :=
        Fault.bind_eq_ok_iff.2 ⟨w₁, Fault.orCrash_eq_ok_iff.2 hdeliver, rfl⟩
      exact .inl ⟨_, _, hhandle, ht.deliver hturn (turn_of_handle hhandle)⟩
  | error fault =>
      have hcrash : Fault.orCrash (w'.deliver run'.env.oneWayLatency peer side block) a' =
          .error ⟨fault, a'⟩ := Fault.orCrash_eq_error_iff.2 ⟨fault, hdeliver, rfl⟩
      exact .inr ⟨⟨fault, a'⟩, Fault.bind_eq_error_iff.2 (.inl hcrash),
        (World.late_of_deliver (Array.getElem?_eq_some_iff.1 hread).1 hdeliver).1⟩

theorem handle_check (ht : Twins w w') (hclock : w'.clock = w.clock) (hs : w.agenda.Sound)
    (hs' : w'.agenda.Sound) (hrun : run.handle .check a w = .ok (.running e s)) :
    Follows run' .check a' w' s := by
  have hturn := turn_of_handle hrun
  cases hcheck : run'.handle .check a' w' with
  | error c => exact .inr ⟨c, hcheck, (late_of_check hcheck).1⟩
  | ok p =>
      rcases of_check hcheck with ⟨side, hside, _⟩ | ⟨_, rfl⟩
      · -- the nodes of the other have not settled
        cases hturn with
        | checked hnone =>
            rw [(ht.checkAgreement hclock).1, hnone] at hside
            contradiction
      · exact .inl ⟨_, _, hcheck, ht.check hclock hs hs' hturn (turn_of_handle hcheck)⟩

/-- An event that concerns more than the adversary has the same effect on twins,
unless it is hindered by the range of time. -/
theorem handle (hk : Akin run run') (hrate : (run.env.evilRate == 0) = true) (ht : Twins w w')
    (hclock : w'.clock = w.clock) (hs : w.agenda.Sound) (hs' : w'.agenda.Sound) {event : Event}
    (hvisible : event.visible = true) (hne : event ≠ .idle)
    (hrun : run.handle event a w = .ok (.running e s)) : Follows run' event a' w' s := by
  cases event with
  | observe | idle => contradiction
  | mine => exact ht.handle_mine hk hrate hclock hs hs' hrun
  | deliver => exact ht.handle_deliver hrun
  | check => exact ht.handle_check hclock hs hs' hrun

/-! ## the next event -/

omit [WordSource σ]

theorem refl (w : World σ) : Twins w w := by
  obtain ⟨l, hl⟩ := Agenda.exists_lined Event.visible w.agenda
  exact ⟨⟨l, hl, hl⟩, rfl, rfl, rfl, rfl⟩

theorem symm (ht : Twins w w') : Twins w' w := by
  obtain ⟨l, hl, hl'⟩ := ht.lined
  exact ⟨⟨l, hl', hl⟩, ht.nodes.symm, ht.agreement.symm, ht.mined.symm, ht.supply.symm⟩

variable {first first' : Scheduled} {agenda agenda' : Agenda}

/-- To take a report off one of the agendas leaves twins. -/
theorem next_of_not (ht : Twins w w') (hq : w'.agenda.next = some (first, agenda))
    (hreport : first.event.visible = false) (t : Int) :
    Twins w { w' with clock := t, agenda } := by
  obtain ⟨l, hl, hl'⟩ := ht.lined
  exact ⟨⟨l, hl, Agenda.lined_next_of_not hl' hq hreport⟩, ht.nodes, ht.agreement, ht.mined,
    ht.supply⟩

/-- What concerns more than the adversary is pending in both twins. -/
theorem exists_pending (ht : Twins w w') {x : Scheduled} (hx : x ∈ w.agenda.toList)
    (hvisible : x.event.visible = true) : ∃ y ∈ w'.agenda.toList, y.due = x.due := by
  obtain ⟨l, hl, hl'⟩ := ht.lined
  obtain ⟨y, hy, _, hyx⟩ := hl'.mem_iff.1 (hl.mem_iff.2 ⟨x, hx, hvisible, rfl⟩)
  exact ⟨y, hy, hyx⟩

/-- If the next events of twins both concern more than the adversary, they are the same. -/
theorem next_eq (ht : Twins w w') (hs : w.agenda.Sound) (hs' : w'.agenda.Sound)
    (hq : w.agenda.next = some (first, agenda)) (hq' : w'.agenda.next = some (first', agenda'))
    (hvisible : first.event.visible = true) (hvisible' : first'.event.visible = true) :
    first'.time = first.time ∧ first'.event = first.event ∧
      Twins { w with clock := first.time, agenda }
        { w' with clock := first'.time, agenda := agenda' } := by
  obtain ⟨l, hl, hl'⟩ := ht.lined
  obtain ⟨rest, rfl, hrest⟩ := Agenda.lined_next hs hl hq hvisible
  obtain ⟨rest', heq, hrest'⟩ := Agenda.lined_next hs' hl' hq' hvisible'
  obtain ⟨hdue, rfl⟩ := List.cons.inj heq
  obtain ⟨htime, hevent⟩ := Prod.mk.inj hdue
  exact ⟨htime.symm, hevent.symm, ⟨_, hrest, hrest'⟩, ht.nodes, ht.agreement, ht.mined, ht.supply⟩

end Twins

end BalanceAttack
