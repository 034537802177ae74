import BalanceAttack.Proofs.Chance
import BalanceAttack.Proofs.Conservation
import BalanceAttack.Proofs.Hindrance

/-!
# BalanceAttack.Proofs.Onlooker

An adversary that mines nothing and may lend itself nothing looks on.  It has no
block to keep back or to send, and all that a report to it changes is what it
knows:

* `adversaryMined_of_reaches`, `idle_of_reaches` — its counters stay at zero;
* `told_of_onlooker` — a report leaves the world as it is.
-/

namespace BalanceAttack

open BalanceAttack.Random

/-- The adversary mines no block and may not lend itself one. -/
structure Environment.Onlooking (env : Environment) : Prop where
  evilRate : (env.evilRate == 0) = true
  allowBorrowing : env.allowBorrowing = false

namespace Run

variable {α σ : Type} {run : Run α} {s : State α σ}

/-- The adversary mines no block but when one is found. -/
theorem adversaryMined_of_turn {a : α} {w : World σ} {event : Event} {e : Entry}
    (hturn : Turn run a w event e s) (hne : event ≠ .mine) :
    s.world.adversaryMined = w.adversaryMined := by
  cases hturn with
  | evil | honest => contradiction
  | known | new | told | checked | idle => rfl

end Run

namespace Balancer

variable {σ : Type} {env : Environment} {net : Network} {margin : Balancer → Int}
  {b b' : Balancer} {w : World σ}

/-! ## a report -/

/-- A decision sends nothing if nothing is kept back. -/
theorem sent_decision_eq_nil (hnone : ∀ side, b.pendingOn side = []) (m : Int) :
    (b.decision m).sent = [] := by
  rw [sent_decision, hnone, List.take_nil, List.map_nil]

/-- With nothing kept back or lent a reaction sends nothing. -/
theorem blocksToSend_of_onlooker (hoff : env.allowBorrowing = false)
    (hnone : ∀ side, b.pendingOn side = []) (time : Int) :
    ∃ b', (run env net margin).blocksToSend time b = .ok (([], []), b') := by
  rw [blocksToSend_of_not_allowBorrowing hoff, sent_decision_eq_nil hnone]
  exact ⟨_, rfl⟩

/-- A report leaves the world as it is. -/
theorem told_of_onlooker (hoff : env.allowBorrowing = false)
    (hnone : ∀ side, b.pendingOn side = []) {side : Side} {block : BlockId} {peer : Nat}
    {e : Run.Entry} {s : Run.State Balancer σ}
    (hturn : Run.Turn (run env net margin) b w (.observe side block peer) e s) :
    s.world = w := by
  cases hturn with
  | @told _ _ _ _ _ kept sent events hobserved hdecided hevents =>
      obtain ⟨_, rfl⟩ := observe_eq_ok_iff.1 hobserved
      have hnone' : ∀ t, (b.observe side block peer).pendingOn t = [] := hnone
      obtain ⟨_, hnothing⟩ : ∃ b', (run env net margin).blocksToSend w.clock
          (b.observe side block peer) = .ok (([], []), b') :=
        blocksToSend_of_onlooker hoff hnone' w.clock
      obtain ⟨hlists, _⟩ := Prod.mk.inj (Except.ok.inj (hdecided.symm.trans hnothing))
      obtain ⟨_, rfl⟩ := Prod.mk.inj hlists
      obtain rfl : events = [] := (Except.ok.inj hevents).symm
      rfl

variable [WordSource σ] {supply : Supply σ} {h : Run.History} {s : Run.State Balancer σ}

/-! ## its counters -/

/-- No block is the adversary's, whether or not it may lend itself blocks. -/
theorem adversaryMined_of_reaches (hrate : (env.evilRate == 0) = true)
    (hsq : net.distances.Square net.size) (hr : (run env net margin).Reaches {} supply h s) :
    s.world.adversaryMined = 0 := by
  induction hr with
  | start hprep hstart => exact (opening_of_start hsq hprep hstart).adversaryMined
  | step _ hstep ih =>
      obtain ⟨first, agenda, _, _, hhandle⟩ := Run.exists_handle_of_step hstep
      by_cases hmine : first.event = .mine
      · rw [hmine] at hhandle
        cases Run.mining_of_handle hhandle with
        | evil _ hfell hlow => exact absurd hlow (not_lt_of_unit hfell hrate)
        | honest => exact ih
      · exact (Run.adversaryMined_of_turn (Run.turn_of_handle hhandle) hmine).trans ih

/-- None is kept back, and none was sent. -/
theorem idle_of_reaches (hon : env.Onlooking) (hsq : net.distances.Square net.size)
    (hr : (run env net margin).Reaches {} supply h s) :
    s.world.released = 0 ∧ s.adversary.withheld = 0 := by
  have htally := released_add_withheld hsq hr hon.allowBorrowing
  rw [adversaryMined_of_reaches hon.evilRate hsq hr] at htally
  omega

end Balancer

end BalanceAttack
