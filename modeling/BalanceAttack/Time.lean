import BalanceAttack.Fault

/-!
# BalanceAttack.Time

Simulated time, and spans of it, in whole milliseconds.  A time is an integer
of 64 signed bits: `Time.add` is the only way to move along the clock, and it
faults instead of leaving that range.
-/

namespace BalanceAttack

namespace Time

/-- The earliest time. -/
def earliest : Int := -9223372036854775808

/-- The latest time. -/
def latest : Int := 9223372036854775807

/-- The integers that are times. -/
def Valid (t : Int) : Prop := earliest ≤ t ∧ t ≤ latest

instance (t : Int) : Decidable (Valid t) := inferInstanceAs (Decidable (_ ∧ _))

/-- An integer as a time, if it is one. -/
def ofInt (t : Int) : Except Fault Int :=
  if Valid t then .ok t else .error .overflow

/-- The time a span after another. -/
def add (t span : Int) : Except Fault Int := ofInt (t + span)

theorem ofInt_eq_ok_iff {t u : Int} : ofInt t = .ok u ↔ Valid t ∧ u = t := by
  unfold ofInt
  split <;> simp_all [eq_comm]

theorem add_eq_ok_iff {t span u : Int} : add t span = .ok u ↔ Valid (t + span) ∧ u = t + span :=
  ofInt_eq_ok_iff

theorem add_eq_error_iff {t span : Int} {fault : Fault} :
    add t span = .error fault ↔ ¬ Valid (t + span) ∧ fault = .overflow := by
  unfold add ofInt
  split <;> simp_all [eq_comm]

/-- The only thing that can go wrong is that a time leaves the range. -/
theorem overflow_of_add {t span : Int} {fault : Fault} (h : add t span = .error fault) :
    fault = .overflow :=
  (add_eq_error_iff.1 h).2

end Time

end BalanceAttack
