import BalanceAttack.Proofs.Chance
import Mathlib.Algebra.Order.Field.Power
import Mathlib.Data.Rat.Cast.Order
import Mathlib.Tactic.FieldSimp
import Mathlib.Tactic.Linarith
import Mathlib.Tactic.Positivity
import Mathlib.Tactic.Ring

/-!
# BalanceAttack.Proofs.Rounding

How floats are rounded.  A mantissa keeps, beside the bits that are left of it
when others are dropped, two more bits that say where the dropped ones lay;
`Represents` is what the three say of a number.  Rounding is monotone in that
number, and so are products with the same factor:

* `Represents.mono` — a larger number is not rounded to a smaller mantissa;
* `exists_round`, `Rounds.lex` — the floats that long mantissas are rounded to,
  and their order;
* `unpack_pack_finite` — such a float is stored without a change;
* `unitOfWord_lt_one`, `ordered_scaled` — what follows for chances and for bounds
  of draws.
-/

namespace BalanceAttack.Random

open Float.Model Float.Model.UnpackedFloat

/-! ## dropping bits -/

/-- What a mantissa and the two bits that are kept of all below it say of a number. -/
def Represents (em : ExtendedMantissa) (x : ℚ) : Prop :=
  match em.roundBit, em.stickyBit with
  | false, false => x = em.mantissa
  | false, true => em.mantissa < x ∧ x < em.mantissa + 1 / 2
  | true, false => x = em.mantissa + 1 / 2
  | true, true => em.mantissa + 1 / 2 < x ∧ x < em.mantissa + 1

theorem represents_ofMantissa (m : Nat) :
    Represents (ExtendedMantissa.ofMantissaAndAccuracy m .exact) m := by
  simp [Represents, ExtendedMantissa.ofMantissaAndAccuracy]

/-- Whatever is known of the bits behind a mantissa, it is said of some number. -/
theorem exists_represents (m : Nat) (a : Accuracy) :
    ∃ x, Represents (ExtendedMantissa.ofMantissaAndAccuracy m a) x := by
  rcases a with _ | (_ | _ | _)
  · exact ⟨m, rfl⟩
  · exact ⟨m + 1 / 4, by simp [Represents, ExtendedMantissa.ofMantissaAndAccuracy]; norm_num⟩
  · exact ⟨m + 1 / 2, rfl⟩
  · exact ⟨m + 3 / 4, by simp [Represents, ExtendedMantissa.ofMantissaAndAccuracy]; norm_num⟩

namespace Represents

variable {em em' : ExtendedMantissa} {x y : ℚ}

/-- One more bit is dropped. -/
theorem shiftRightOne (h : Represents em x) : Represents em.shiftRightOne (x / 2) := by
  obtain ⟨m, round, sticky⟩ := em
  have hparts : (m : ℚ) = 2 * (m / 2 : Nat) + (m % 2 : Nat) := by
    exact_mod_cast (Nat.div_add_mod m 2).symm
  rcases Nat.mod_two_eq_zero_or_one m with hbit | hbit <;> cases round <;> cases sticky <;>
    simp [Represents, ExtendedMantissa.shiftRightOne, hbit] at h hparts ⊢ <;>
    first | linarith | constructor <;> linarith

/-- So many more bits are dropped. -/
theorem shiftRight (h : Represents em x) (n : Nat) : Represents (em >>> n) (x / 2 ^ n) := by
  show Represents (n.repeat ExtendedMantissa.shiftRightOne em) (x / 2 ^ n)
  induction n with
  | zero => simpa [Nat.repeat] using h
  | succ n ih =>
      rw [Nat.repeat, pow_succ, ← div_div]
      exact ih.shiftRightOne

/-- The mantissa is the whole part of the number. -/
theorem bounds (h : Represents em x) : (em.mantissa : ℚ) ≤ x ∧ x < em.mantissa + 1 := by
  obtain ⟨m, round, sticky⟩ := em
  cases round <;> cases sticky <;> simp only [Represents] at h <;> constructor <;> linarith

/-- Whatever is known of the bits behind a mantissa, they make less than one. -/
theorem bounds_of_accuracy {m : Nat} {a : Accuracy}
    (h : Represents (ExtendedMantissa.ofMantissaAndAccuracy m a) x) : (m : ℚ) ≤ x ∧ x < m + 1 := by
  have hmantissa : (ExtendedMantissa.ofMantissaAndAccuracy m a).mantissa = m := by
    rcases a with _ | (_ | _ | _) <;> rfl
  rw [← hmantissa]
  exact h.bounds

/-- A larger number is not rounded to a smaller mantissa. -/
theorem mono (h : Represents em x) (h' : Represents em' y) (hxy : x ≤ y) :
    em.roundedMantissa ≤ em'.roundedMantissa := by
  have hlow := h.bounds.1
  have hhigh := h'.bounds.2
  obtain ⟨m, round, sticky⟩ := em
  obtain ⟨m', round', sticky'⟩ := em'
  dsimp only at hlow hhigh
  have hle : m ≤ m' := by
    have hlt : (m : ℚ) < (m' + 1 : Nat) := by push_cast; linarith
    exact Nat.lt_succ_iff.1 (Nat.cast_lt.1 hlt)
  have hup : ∀ em : ExtendedMantissa,
      em.mantissa ≤ em.roundedMantissa ∧ em.roundedMantissa ≤ em.mantissa + 1 := by
    rintro ⟨k, round, sticky⟩
    cases round <;> cases sticky <;>
      simp [ExtendedMantissa.roundedMantissa, ExtendedMantissa.accuracy,
        Accuracy.roundToNearestEven]
    omega
  rcases Nat.lt_or_eq_of_le hle with hlt | rfl
  · have hfirst := (hup ⟨m, round, sticky⟩).2
    have hsecond := (hup ⟨m', round', sticky'⟩).1
    dsimp only at hfirst hsecond
    omega
  · cases round <;> cases sticky <;> cases round' <;> cases sticky' <;>
      simp only [Represents] at h h' <;>
      simp only [ExtendedMantissa.roundedMantissa, ExtendedMantissa.accuracy,
        Accuracy.roundToNearestEven] <;>
      first | omega | (exfalso; linarith)

/-- A whole number is not rounded. -/
theorem rounded_eq_of_nat {k : Nat} (h : Represents em k) : em.roundedMantissa = k :=
  Nat.le_antisymm (h.mono (represents_ofMantissa k) le_rfl)
    ((represents_ofMantissa k).mono h le_rfl)

end Represents

/-! ## quotients -/

section

variable (n : Nat) {d : Nat}

theorem cast_div_add_mod (hd : 0 < d) : (n / d : ℚ) = (n / d : Nat) + (n % d : Nat) / d := by
  have hdq : (0 : ℚ) < d := Nat.cast_pos.2 hd
  have hdivision : (n : ℚ) = d * (n / d : Nat) + (n % d : Nat) := by
    exact_mod_cast (Nat.div_add_mod n d).symm
  rw [div_eq_iff hdq.ne', add_mul, div_mul_cancel₀ _ hdq.ne', mul_comm]
  exact hdivision

theorem mod_lt_half_iff (hd : 0 < d) : 2 * (n % d) < d ↔ ((n % d : Nat) / d : ℚ) < 1 / 2 := by
  have hdq : (0 : ℚ) < d := Nat.cast_pos.2 hd
  rw [div_lt_div_iff₀ hdq two_pos, one_mul, mul_comm]
  norm_cast

theorem half_lt_mod_iff (hd : 0 < d) : d < 2 * (n % d) ↔ (1 / 2 : ℚ) < (n % d : Nat) / d := by
  have hdq : (0 : ℚ) < d := Nat.cast_pos.2 hd
  rw [div_lt_div_iff₀ two_pos hdq, one_mul, mul_comm]
  norm_cast

/-- What is known of the bits behind a whole quotient says where the exact one lies. -/
theorem represents_quotient (hd : 0 < d) :
    Represents (ExtendedMantissa.ofMantissaAndAccuracy (n / d) (accuracyOfFraction (n % d) d))
      (n / d : ℚ) := by
  have hparts := cast_div_add_mod n hd
  have hbelow := mod_lt_half_iff n hd
  have habove := half_lt_mod_iff n hd
  have hone : ((n % d : Nat) / d : ℚ) < 1 := by
    rw [div_lt_one (Nat.cast_pos.2 hd)]
    exact_mod_cast Nat.mod_lt n hd
  unfold accuracyOfFraction
  by_cases hzero : n % d = 0
  · rw [if_pos hzero, hparts, hzero, Nat.cast_zero, zero_div, add_zero]
    exact represents_ofMantissa _
  · have hpos : (0 : ℚ) < (n % d : Nat) / d :=
      div_pos (Nat.cast_pos.2 (Nat.pos_of_ne_zero hzero)) (Nat.cast_pos.2 hd)
    rw [if_neg hzero, hparts]
    generalize ((n % d : Nat) / d : ℚ) = part at *
    rcases Nat.lt_trichotomy (2 * (n % d)) d with hlt | heq | hgt
    · rw [Nat.compare_eq_lt.2 hlt]
      have hpart := hbelow.1 hlt
      simp only [Represents, ExtendedMantissa.ofMantissaAndAccuracy]
      constructor <;> linarith
    · rw [Nat.compare_eq_eq.2 heq]
      have hnot : ¬ part < 1 / 2 := fun h => absurd (hbelow.2 h) (by omega)
      have hnot' : ¬ 1 / 2 < part := fun h => absurd (habove.2 h) (by omega)
      simp only [Represents, ExtendedMantissa.ofMantissaAndAccuracy]
      linarith
    · rw [Nat.compare_eq_gt.2 hgt]
      have hpart := habove.1 hgt
      simp only [Represents, ExtendedMantissa.ofMantissaAndAccuracy]
      constructor <;> linarith

end

/-! ## long mantissas -/

/-- How many bits a mantissa has beyond the 53 of a float. -/
def excess (m : Nat) : Nat := m.log2 - 52

/-- A long mantissa rounded to 53 bits, with what is known of the bits behind it; it may come
out as the next power of two. -/
def rounded (m : Nat) (a : Accuracy := .exact) : Nat :=
  (ExtendedMantissa.ofMantissaAndAccuracy m a >>> excess m).roundedMantissa

theorem represents_excess (m : Nat) :
    Represents (ExtendedMantissa.ofMantissaAndAccuracy m .exact >>> excess m)
      (m / 2 ^ excess m : ℚ) :=
  (represents_ofMantissa m).shiftRight (excess m)

/-- What is left of a long mantissa lies between two powers of two. -/
theorem excess_bounds {m : Nat} (hm : 52 ≤ m.log2) {x : ℚ} (hx : m ≤ x ∧ x < m + 1) :
    2 ^ 52 ≤ x / 2 ^ excess m ∧ x / 2 ^ excess m < 2 ^ 53 := by
  have hne : m ≠ 0 := by
    rintro rfl
    contradiction
  have hlow := Nat.log2_self_le hne
  have hhigh := @Nat.lt_log2_self m
  have hlog : m.log2 = 52 + excess m := by unfold excess; omega
  rw [hlog, pow_add] at hlow
  rw [hlog, Nat.add_right_comm, pow_add] at hhigh
  have hpos : (0 : ℚ) < 2 ^ excess m := by positivity
  constructor
  · rw [le_div_iff₀ hpos]
    exact le_trans (by exact_mod_cast hlow) hx.1
  · rw [div_lt_iff₀ hpos]
    exact lt_of_lt_of_le hx.2 (by exact_mod_cast Nat.succ_le_of_lt hhigh)

theorem excess_bounds_self {m : Nat} (hm : 52 ≤ m.log2) :
    (2 ^ 52 : ℚ) ≤ m / 2 ^ excess m ∧ (m / 2 ^ excess m : ℚ) < 2 ^ 53 :=
  excess_bounds hm ⟨le_rfl, lt_add_one _⟩

theorem rounded_bounds {m : Nat} (hm : 52 ≤ m.log2) (a : Accuracy := .exact) :
    2 ^ 52 ≤ rounded m a ∧ rounded m a ≤ 2 ^ 53 := by
  obtain ⟨x, hx⟩ := exists_represents m a
  obtain ⟨hlow, hhigh⟩ := excess_bounds hm hx.bounds_of_accuracy
  constructor
  · exact (represents_ofMantissa (2 ^ 52)).mono (hx.shiftRight _) (by push_cast; exact hlow)
  · exact (hx.shiftRight _).mono (represents_ofMantissa (2 ^ 53)) (by push_cast; exact hhigh.le)

/-- A mantissa and an exponent that another mantissa and exponent are rounded to. -/
def Rounds (m : Nat) (e : Int) (k : Nat) (e' : Int) (a : Accuracy := .exact) : Prop :=
  rounded m a < 2 ^ 53 ∧ k = rounded m a ∧ e' = e + excess m ∨
    rounded m a = 2 ^ 53 ∧ k = 2 ^ 52 ∧ e' = e + excess m + 1

/-- The number that a mantissa and an exponent are rounded to. -/
theorem Rounds.value {m k : Nat} {e e' : Int} {a : Accuracy} (h : Rounds m e k e' a) :
    (k * 2 ^ e' : ℚ) = rounded m a * 2 ^ (e + excess m : Int) := by
  rcases h with ⟨_, rfl, rfl⟩ | ⟨hrounded, rfl, rfl⟩
  · rfl
  · rw [hrounded, zpow_add_one₀ two_ne_zero]
    push_cast
    ring

/-- A number with some bits behind the point. -/
theorem mul_two_pow_eq (x : ℚ) (e : Int) (d : Nat) :
    x * 2 ^ e = x / 2 ^ d * 2 ^ (e + d : Int) := by
  rw [zpow_add₀ two_ne_zero, zpow_natCast]
  field_simp

/-- Numbers in order are rounded to exponents in order, and where these are the
same to mantissas in order. -/
theorem Rounds.lex {m₁ m₂ k₁ k₂ : Nat} {e₁ e₂ e₁' e₂' : Int} (h₁ : Rounds m₁ e₁ k₁ e₁')
    (h₂ : Rounds m₂ e₂ k₂ e₂') (hm₁ : 52 ≤ m₁.log2) (hm₂ : 52 ≤ m₂.log2)
    (hle : (m₁ * 2 ^ e₁ : ℚ) ≤ m₂ * 2 ^ e₂) : e₁' < e₂' ∨ e₁' = e₂' ∧ k₁ ≤ k₂ := by
  obtain ⟨hlow₁, -⟩ := excess_bounds_self hm₁
  obtain ⟨-, hhigh₂⟩ := excess_bounds_self hm₂
  have hround₁ := rounded_bounds hm₁
  have hround₂ := rounded_bounds hm₂
  -- both numbers with the dropped bits behind the point
  rw [mul_two_pow_eq m₁ e₁ (excess m₁), mul_two_pow_eq m₂ e₂ (excess m₂)] at hle
  have hpos₁ : (0 : ℚ) < 2 ^ (e₁ + (excess m₁ : Int)) := by positivity
  have hpos₂ : (0 : ℚ) < 2 ^ (e₂ + (excess m₂ : Int)) := by positivity
  have hexp : e₁ + (excess m₁ : Int) ≤ e₂ + excess m₂ := by
    have hlt : (2 ^ (e₁ + (excess m₁ : Int) + 52) : ℚ) < 2 ^ (e₂ + (excess m₂ : Int) + 53) := by
      rw [zpow_add₀ two_ne_zero _ 52, zpow_add₀ two_ne_zero _ 53]
      calc (2 ^ (e₁ + (excess m₁ : Int)) * 2 ^ (52 : Int) : ℚ)
          ≤ m₁ / 2 ^ excess m₁ * 2 ^ (e₁ + (excess m₁ : Int)) := by
            rw [mul_comm]
            exact mul_le_mul_of_nonneg_right hlow₁ hpos₁.le
        _ ≤ m₂ / 2 ^ excess m₂ * 2 ^ (e₂ + (excess m₂ : Int)) := hle
        _ < 2 ^ (e₂ + (excess m₂ : Int)) * 2 ^ (53 : Int) := by
            rw [mul_comm]
            exact mul_lt_mul_of_pos_left hhigh₂ hpos₂
    have hbelow := (zpow_lt_zpow_iff_right₀ (by norm_num : (1 : ℚ) < 2)).1 hlt
    omega
  rcases Int.lt_or_eq_of_le hexp with hlt | heq
  · rcases h₁ with ⟨_, _, h₁⟩ | ⟨_, _, h₁⟩ <;> rcases h₂ with ⟨_, _, h₂⟩ | ⟨_, _, h₂⟩ <;> omega
  · have hmono : rounded m₁ ≤ rounded m₂ := by
      refine (represents_excess m₁).mono (represents_excess m₂) ?_
      rw [heq] at hle
      exact le_of_mul_le_mul_right hle hpos₂
    rcases h₁ with ⟨_, _, h₁⟩ | ⟨_, _, h₁⟩ <;> rcases h₂ with ⟨_, _, h₂⟩ | ⟨_, _, h₂⟩ <;> omega

/-! ## floats with a full mantissa -/

/-- A float without a minus sign, with a mantissa of 53 bits. -/
structure Full (u : UnpackedFloat) (m : Nat) (e : Int) : Prop where
  lower : 2 ^ 52 ≤ m
  upper : m < 2 ^ 53
  eq : u = .finite .positive m e (Nat.lt_of_lt_of_le (by decide) lower)

theorem Full.unsigned {u : UnpackedFloat} {m : Nat} {e : Int} (h : Full u m e) : Unsigned u := by
  rw [h.eq]
  rfl

theorem targetExponent_binary64 (m : Nat) (e : Int) :
    Format.binary64.targetExponent (totalExponent m e) = max (m.log2 + e - 52) (-1074) := by
  have hmin : Format.binary64.minExponent = -1074 := by decide
  have hbits : Format.binary64.mantissaBits = 53 := by decide
  rw [Format.targetExponent, hmin, hbits, totalExponent]
  congr 1
  push_cast
  ring

theorem shift_eq {m : Nat} {e : Int} (hm : 52 ≤ m.log2) (he : -1074 ≤ e + excess m)
    (a : Accuracy) : shiftToTargetExponent Format.binary64 m e a =
      (ExtendedMantissa.ofMantissaAndAccuracy m a >>> excess m, e + excess m) := by
  have hshift : (max ((m.log2 : Int) + e - 52) (-1074) - e).toNat = excess m := by
    unfold excess at he ⊢
    omega
  rw [shiftToTargetExponent, targetExponent_binary64, shiftToExponent, hshift]

/-- A long mantissa is rounded to a full one, whatever the sign. -/
theorem exists_round {m : Nat} {e : Int} (hm : 52 ≤ m.log2) (he : -1074 ≤ e + excess m)
    (sign : Sign) (a : Accuracy) : ∃ (k : Nat) (e' : Int) (hk : 0 < k),
      roundWithAccuracy Format.binary64 sign m e a = .finite sign k e' hk ∧
      2 ^ 52 ≤ k ∧ k < 2 ^ 53 ∧ Rounds m e k e' a := by
  obtain ⟨hlow, hhigh⟩ := rounded_bounds hm a
  rw [roundWithAccuracy, shift_eq hm he]
  dsimp only
  rw [← rounded]
  rcases Nat.lt_or_eq_of_le hhigh with hlt | heq
  · have hlog : (rounded m a).log2 = 52 := (Nat.log2_eq_iff (by omega)).2 ⟨hlow, hlt⟩
    have hexcess : excess (rounded m a) = 0 := by rw [excess, hlog]
    have hpos : 0 < rounded m a := by omega
    rw [shift_eq hlog.ge (by rw [hexcess]; omega), hexcess]
    refine ⟨rounded m a, e + excess m, hpos, ?_, hlow, hlt, .inl ⟨hlt, rfl, rfl⟩⟩
    rw [Int.natCast_zero, Int.add_zero]
    exact dif_neg hpos.ne'
  · have hlog : (2 ^ 53 : Nat).log2 = 53 := Nat.log2_two_pow
    have hexcess : excess (2 ^ 53) = 1 := by rw [excess, hlog]
    rw [heq, shift_eq (by rw [hlog]; decide) (by rw [hexcess]; omega), hexcess]
    exact ⟨2 ^ 52, e + excess m + 1, by decide, rfl, le_rfl, by decide, .inr ⟨heq, rfl, rfl⟩⟩

/-- A long mantissa is rounded to a float with a full one. -/
theorem exists_full_round {m : Nat} {e : Int} (hm : 52 ≤ m.log2) (he : -1074 ≤ e + excess m) :
    ∃ k e', Full (roundWithAccuracy Format.binary64 .positive m e .exact) k e' ∧
      Rounds m e k e' := by
  obtain ⟨k, e', _, hround, hlow, hhigh, hrounds⟩ := exists_round hm he .positive .exact
  exact ⟨k, e', ⟨hlow, hhigh, hround⟩, hrounds⟩

/-- Floats with full mantissas are in order when their exponents are, and where
these are the same their mantissas. -/
theorem Full.le {u v : UnpackedFloat} {m₁ m₂ : Nat} {e₁ e₂ : Int} (hu : Full u m₁ e₁)
    (hv : Full v m₂ e₂) (h : e₁ < e₂ ∨ e₁ = e₂ ∧ m₁ ≤ m₂) : u.le v = true := by
  rw [hu.eq, hv.eq]
  show ((compare e₁ e₂).then (compare m₁ m₂)).isLE = true
  rcases h with hlt | ⟨rfl, hle⟩
  · rw [Int.compare_eq_lt.2 hlt]
    rfl
  · rw [Int.compare_eq_eq.2 rfl]
    exact Nat.isLE_compare.2 hle

theorem Full.lt {u v : UnpackedFloat} {m₁ m₂ : Nat} {e₁ e₂ : Int} (hu : Full u m₁ e₁)
    (hv : Full v m₂ e₂) (h : e₁ < e₂) : u.lt v = true := by
  rw [hu.eq, hv.eq]
  show (some ((compare e₁ e₂).then (compare m₁ m₂)) == some .lt) = true
  rw [Int.compare_eq_lt.2 h]
  rfl

/-- A float with a full mantissa, of either sign, is stored and read without a change. -/
theorem unpack_pack_finite (sign : Sign) {m : Nat} {e : Int} (hlower : 2 ^ 52 ≤ m)
    (hupper : m < 2 ^ 53) (hlow : -1074 ≤ e) (hhigh : e ≤ 971) (hpos : 0 < m) :
    (Float.Model.pack (.finite sign m e hpos)).unpack = .finite sign m e hpos := by
  have hlog : m.log2 = 52 := (Nat.log2_eq_iff (by omega)).2 ⟨hlower, hupper⟩
  -- the exponent with its bias
  obtain ⟨b, hb⟩ := Int.eq_ofNat_of_zero_le (a := e + 1075) (by omega)
  have hbias : (e + (Format.binary64.exponentBias : Int) +
      (Format.binary64.mantissaBitsWithoutImplicit : Int)).toNat = b := by
    show (e + 1023 + 52).toNat = b
    omega
  have hstored : UnpackedFloat.pack Format.binary64 (.finite sign m e hpos) =
      packComponents Format.binary64 sign (BitVec.ofNat 11 b) (BitVec.ofNat 52 m) := by
    unfold UnpackedFloat.pack
    dsimp only
    rw [hbias, hlog, if_neg (by simp; omega)]
    rfl
  have hread : (Float.Model.pack (.finite sign m e hpos)).unpack = UnpackedFloat.unpack
      Format.binary64 (UnpackedFloat.pack Format.binary64 (.finite sign m e hpos)) := rfl
  have hexponent : (BitVec.ofNat 11 b).toNat = b := by
    rw [BitVec.toNat_ofNat, Nat.mod_eq_of_lt (by omega)]
  have hordinary : BitVec.ofNat 11 b ≠ 0#11 ∧ BitVec.ofNat 11 b ≠ -1#11 := by
    constructor <;> intro h <;> have htoNat := congrArg BitVec.toNat h <;> simp at htoNat <;> omega
  have hmantissa : 2 ^ 52 + (BitVec.ofNat 52 m).toNat = m := by
    rw [BitVec.toNat_ofNat]
    omega
  rw [hread, hstored, unpack_packComponents sign _ hordinary.1 hordinary.2 (by omega),
    UnpackedFloat.finite.injEq, hexponent]
  exact ⟨rfl, hmantissa, by omega⟩

theorem Full.unpack_pack {u : UnpackedFloat} {m : Nat} {e : Int} (hu : Full u m e)
    (hlow : -1074 ≤ e) (hhigh : e ≤ 971) : (Float.Model.pack u).unpack = u := by
  rw [hu.eq]
  exact unpack_pack_finite .positive hu.lower hu.upper hlow hhigh _

/-! ## whole numbers and products -/

theorem log2_mul_two_pow {n : Nat} (hn : n ≠ 0) (k : Nat) : (n * 2 ^ k).log2 = n.log2 + k := by
  induction k with
  | zero => simp
  | succ k ih =>
      have hne : n * 2 ^ k ≠ 0 := Nat.mul_ne_zero hn (Nat.two_pow_pos k).ne'
      rw [pow_succ, ← mul_assoc, mul_comm, Nat.log2_two_mul hne, ih, Nat.add_assoc]

/-- Nothing is rounded where all that is dropped is zero. -/
theorem rounded_mul_two_pow {m : Nat} (hlower : 2 ^ 52 ≤ m) (hupper : m < 2 ^ 53) (k : Nat) :
    excess (m * 2 ^ k) = k ∧ rounded (m * 2 ^ k) = m := by
  have hne : m ≠ 0 := by omega
  have hexcess : excess (m * 2 ^ k) = k := by
    rw [excess, log2_mul_two_pow hne, (Nat.log2_eq_iff hne).2 ⟨hlower, hupper⟩]
    omega
  have hrep := represents_excess (m * 2 ^ k)
  rw [hexcess, Nat.cast_mul, Nat.cast_pow, Nat.cast_ofNat,
    mul_div_cancel_right₀ _ (by positivity)] at hrep
  rw [rounded, hexcess]
  exact ⟨rfl, hrep.rounded_eq_of_nat⟩

/-- Zeros behind a short mantissa are not in excess. -/
theorem excess_mul_two_pow {n : Nat} (hpos : 0 < n) :
    excess (n * 2 ^ (52 - n.log2)) = excess n := by
  rw [excess, excess, log2_mul_two_pow hpos.ne']
  omega

/-- A mantissa is rounded with zeros behind it if it is short. -/
theorem round_eq {e : Int} (he : -1022 ≤ e) (sign : Sign) (n : Nat) :
    UnpackedFloat.round Format.binary64 sign n e = roundWithAccuracy Format.binary64 sign
      (n * 2 ^ (52 - n.log2)) (e - (52 - n.log2 : Nat)) .exact := by
  have hshift : (e - max ((n.log2 : Int) + e - 52) (-1074)).toNat = 52 - n.log2 := by omega
  rw [UnpackedFloat.round, targetExponent_binary64, decreaseExponent, hshift, Nat.shiftLeft_eq]

/-- A positive whole number of 64 bits, with zeros behind it if it is short, is rounded to a
float with a full mantissa. -/
theorem exists_rounds_ofNat {n : Nat} (hpos : 0 < n) (hn : n < 2 ^ 64) :
    ∃ k e, Full (UnpackedFloat.ofNat Format.binary64 n) k e ∧
      Rounds (n * 2 ^ (52 - n.log2)) (-(52 - n.log2 : Nat)) k e ∧ -52 ≤ e ∧ e ≤ 12 := by
  have hround : UnpackedFloat.ofNat Format.binary64 n = roundWithAccuracy Format.binary64 .positive
      (n * 2 ^ (52 - n.log2)) (-(52 - n.log2 : Nat)) .exact := by
    have hgt : compare (n : Int) 0 = .gt := Int.compare_eq_gt.2 (by omega)
    rw [UnpackedFloat.ofNat, UnpackedFloat.ofInt, UnpackedFloat.normalize, hgt]
    show UnpackedFloat.round Format.binary64 .positive (n : Int).toNat 0 = _
    rw [Int.toNat_natCast, round_eq (by decide), Int.zero_sub]
  have hlog : n.log2 < 64 := (Nat.log2_lt hpos.ne').2 hn
  have hlog' : (n * 2 ^ (52 - n.log2)).log2 = n.log2 + (52 - n.log2) := log2_mul_two_pow hpos.ne' _
  rw [hround]
  obtain ⟨k, e, hfull, hrounds⟩ := exists_full_round (m := n * 2 ^ (52 - n.log2))
    (e := -(52 - n.log2 : Nat)) (by omega) (by rw [excess]; omega)
  refine ⟨k, e, hfull, hrounds, ?_⟩
  rw [Rounds, excess_mul_two_pow hpos, excess] at hrounds
  omega

/-- A short whole number is not rounded. -/
theorem rounded_of_lt {n : Nat} (hpos : 0 < n) (hsmall : n < 2 ^ 53) :
    rounded (n * 2 ^ (52 - n.log2)) = n * 2 ^ (52 - n.log2) ∧
      n * 2 ^ (52 - n.log2) < 2 ^ 53 := by
  have hlog : n.log2 < 53 := (Nat.log2_lt hpos.ne').2 hsmall
  have hlog' := log2_mul_two_pow hpos.ne' (52 - n.log2)
  have hnone : excess (n * 2 ^ (52 - n.log2)) = 0 := by rw [excess]; omega
  refine ⟨by rw [rounded, hnone]; rfl, (Nat.log2_lt (by positivity)).1 (by omega)⟩

/-- A positive whole number of 64 bits is a float with a full mantissa. -/
theorem exists_full_ofNat {n : Nat} (hpos : 0 < n) (hn : n < 2 ^ 64) :
    ∃ k e, Full (UnpackedFloat.ofNat Format.binary64 n) k e ∧ -52 ≤ e ∧ e ≤ 12 ∧
      (n < 2 ^ 53 → e ≤ 0) := by
  obtain ⟨k, e, hfull, hrounds, hlow, hhigh⟩ := exists_rounds_ofNat hpos hn
  refine ⟨k, e, hfull, hlow, hhigh, fun hsmall => ?_⟩
  have hlog : n.log2 < 53 := (Nat.log2_lt hpos.ne').2 hsmall
  obtain ⟨hexact, hupper⟩ := rounded_of_lt hpos hsmall
  rw [Rounds, excess_mul_two_pow hpos, excess] at hrounds
  omega

/-- A product of floats with full mantissas is rounded from the product of these. -/
theorem Full.mul {u v : UnpackedFloat} {m₁ m₂ : Nat} {e₁ e₂ : Int} (hu : Full u m₁ e₁)
    (hv : Full v m₂ e₂) (hlow : -1126 ≤ e₁ + e₂) :
    52 ≤ (m₁ * m₂).log2 ∧ ∃ k e, Full (UnpackedFloat.mul Format.binary64 u v) k e ∧
      Rounds (m₁ * m₂) (e₁ + e₂) k e ∧ e₁ + e₂ + 52 ≤ e ∧ e ≤ e₁ + e₂ + 54 := by
  have hlower : 2 ^ 104 ≤ m₁ * m₂ :=
    (by decide : 2 ^ 104 ≤ 2 ^ 52 * 2 ^ 52).trans (Nat.mul_le_mul hu.lower hv.lower)
  have hupper : m₁ * m₂ < 2 ^ 106 := Nat.lt_of_lt_of_le
    (Nat.mul_lt_mul'' hu.upper hv.upper) (by decide)
  have hne : m₁ * m₂ ≠ 0 := by omega
  have hlog := (Nat.le_log2 hne).2 hlower
  have hlog' := (Nat.log2_lt hne).2 hupper
  have hexcess : 52 ≤ excess (m₁ * m₂) ∧ excess (m₁ * m₂) ≤ 53 := by
    unfold excess
    omega
  obtain ⟨k, e, hfull, hrounds⟩ := exists_full_round (m := m₁ * m₂) (e := e₁ + e₂)
    (by omega) (by omega)
  have hproduct : UnpackedFloat.mul Format.binary64 u v =
      roundWithAccuracy Format.binary64 .positive (m₁ * m₂) (e₁ + e₂) .exact := by
    rw [hu.eq, hv.eq]
    rfl
  rw [← hproduct] at hfull
  refine ⟨by omega, k, e, hfull, hrounds, ?_⟩
  unfold Rounds at hrounds
  omega

/-- A word as a float is zero, or has a full mantissa. -/
theorem toFloat_cases (w : UInt64) :
    w.toFloat.toModel.unpack = .zero .positive ∨
      ∃ m e, Full w.toFloat.toModel.unpack m e ∧ -52 ≤ e ∧ e ≤ 12 ∧ (w.toNat < 2 ^ 53 → e ≤ 0) := by
  have hread : w.toFloat.toModel.unpack =
      (Float.Model.pack (UnpackedFloat.ofNat Format.binary64 w.toNat)).unpack := rfl
  rcases Nat.eq_zero_or_pos w.toNat with hzero | hpos
  · rw [hread, hzero]
    exact .inl rfl
  · obtain ⟨m, e, hfull, hlow, hhigh, hsmall⟩ := exists_full_ofNat hpos w.toNat_lt
    rw [hread, hfull.unpack_pack (by omega) (by omega)]
    exact .inr ⟨m, e, hfull, hlow, hhigh, hsmall⟩

theorem lt_of_unpack {x y : Float} (h : x.toModel.unpack.lt y.toModel.unpack = true) : x < y :=
  decide_eq_true h

theorem le_of_unpack {x y : Float} (h : x.toModel.unpack.le y.toModel.unpack = true) : x ≤ y :=
  decide_eq_true h

/-- A chance that is drawn is less than one. -/
theorem unitOfWord_lt_one (w : UInt64) : unitOfWord w < 1 := by
  have hone : Full (1 : Float).toModel.unpack (2 ^ 52) (-52) := ⟨le_rfl, by decide, rfl⟩
  have hscale : Full (Float.ofBits 0x3ca0000000000000).toModel.unpack (2 ^ 52) (-105) :=
    ⟨le_rfl, by decide, rfl⟩
  have hread : (unitOfWord w).toModel.unpack = (Float.Model.pack (UnpackedFloat.mul Format.binary64
      (w >>> 11).toFloat.toModel.unpack (Float.ofBits 0x3ca0000000000000).toModel.unpack)).unpack :=
    rfl
  have hbits : (w >>> 11).toNat < 2 ^ 53 := by
    have hw := w.toNat_lt
    rw [UInt64.toNat_shiftRight, Nat.shiftRight_eq_div_pow]
    show w.toNat / 2 ^ 11 < 2 ^ 53
    omega
  refine lt_of_unpack ?_
  rw [hread]
  rcases toFloat_cases (w >>> 11) with hzero | ⟨m, e, hfull, hlow, _, hsmall⟩
  · rw [hzero]
    rfl
  · obtain ⟨_, k, e', hproduct, hrounds, hlow', hhigh'⟩ := hfull.mul hscale (by omega)
    have he := hsmall hbits
    -- the dropped bits are those that the scale had added
    obtain ⟨hexcess, hexact⟩ := rounded_mul_two_pow hfull.lower hfull.upper 52
    have hupper := hfull.upper
    rw [Rounds, hexact, hexcess] at hrounds
    rw [hproduct.unpack_pack (by omega) (by omega)]
    exact hproduct.lt hone (by omega)

theorem lt_one_of_unit {σ : Type} [WordSource σ] {supply rest : Supply σ} {chance : Float}
    (h : Draw.unit supply = .ok (chance, rest)) : chance < 1 := by
  unfold Draw.unit at h
  obtain ⟨⟨w, rest'⟩, _, h⟩ := Fault.bind_eq_ok_iff.1 h
  obtain ⟨rfl, _⟩ := Prod.mk.inj (Except.ok.inj h)
  exact unitOfWord_lt_one w

/-! ## floats in order -/

/-- Two floats without a minus sign, the second of which is no smaller. -/
inductive Ordered : UnpackedFloat → UnpackedFloat → Prop
  | zero : Ordered (.zero .positive) (.zero .positive)
  | full {u v : UnpackedFloat} {m₁ m₂ : Nat} {e₁ e₂ : Int} (lower : Full u m₁ e₁)
      (upper : Full v m₂ e₂) (lex : e₁ < e₂ ∨ e₁ = e₂ ∧ m₁ ≤ m₂) : Ordered u v

namespace Ordered

variable {u v : UnpackedFloat}

theorem le (h : Ordered u v) : u.le v = true := by
  cases h with
  | zero => rfl
  | full lower upper lex => exact lower.le upper lex

theorem unsigned (h : Ordered u v) : Unsigned u := by
  cases h with
  | zero => rfl
  | full lower => exact lower.unsigned

/-- The difference of floats in order has no minus sign. -/
theorem unsigned_sub (h : Ordered u v) : Unsigned (UnpackedFloat.sub Format.binary64 v u) := by
  cases h with
  | zero => rfl
  | @full _ _ m₁ m₂ e₁ e₂ lower upper lex =>
      have hmin : min e₂ e₁ = e₁ := by omega
      have hle : m₁ ≤ m₂ * 2 ^ (e₂ - e₁).toNat := by
        rcases lex with hlt | ⟨rfl, hle⟩
        · have hpow : 2 ≤ 2 ^ (e₂ - e₁).toNat :=
            Nat.le_self_pow (by omega) 2
          calc m₁ ≤ 2 ^ 52 * 2 := lower.upper.le
            _ ≤ m₂ * 2 ^ (e₂ - e₁).toNat := Nat.mul_le_mul upper.lower hpow
        · exact hle.trans (Nat.le_mul_of_pos_right _ (Nat.two_pow_pos _))
      have hdifference : (0 : Int) ≤ (m₂ <<< (e₂ - min e₂ e₁).toNat : Nat) -
          (m₁ <<< (e₁ - min e₂ e₁).toNat : Nat) := by
        rw [hmin, Int.sub_self, Nat.shiftLeft_eq, Nat.shiftLeft_eq]
        simp only [Int.toNat_zero]
        omega
      rw [lower.eq, upper.eq]
      exact unsigned_normalize _ hdifference _

end Ordered

/-- Of two multiples of a word that by the larger number is no smaller. -/
theorem ordered_scaled (w : UInt64) {c d : Float} {m₁ m₂ : Nat} {e₁ e₂ : Int}
    (hc : Full c.toModel.unpack m₁ e₁) (hd : Full d.toModel.unpack m₂ e₂)
    (he₁ : -60 ≤ e₁ ∧ e₁ ≤ 60) (he₂ : -60 ≤ e₂ ∧ e₂ ≤ 60)
    (hle : (m₁ * 2 ^ e₁ : ℚ) ≤ m₂ * 2 ^ e₂) :
    Ordered (c * w.toFloat).toModel.unpack (d * w.toFloat).toModel.unpack := by
  have hread : ∀ c : Float, (c * w.toFloat).toModel.unpack = (Float.Model.pack
      (UnpackedFloat.mul Format.binary64 c.toModel.unpack w.toFloat.toModel.unpack)).unpack :=
    fun _ => rfl
  rw [hread, hread]
  rcases toFloat_cases w with hzero | ⟨m, e, hfull, hlow, hhigh, _⟩
  · have hmul : ∀ (m : Nat) (e : Int) (hm : 0 < m), UnpackedFloat.mul Format.binary64
        (.finite .positive m e hm) (.zero .positive) = .zero .positive := fun _ _ _ => rfl
    rw [hzero, hc.eq, hd.eq, hmul, hmul]
    exact .zero
  · obtain ⟨hlog, k, e', hproduct, hrounds, _, _⟩ := hc.mul hfull (by omega)
    obtain ⟨hlog', k', e'', hproduct', hrounds', _, _⟩ := hd.mul hfull (by omega)
    rw [hproduct.unpack_pack (by omega) (by omega), hproduct'.unpack_pack (by omega) (by omega)]
    refine .full hproduct hproduct' (hrounds.lex hrounds' hlog hlog' ?_)
    rw [zpow_add₀ two_ne_zero, zpow_add₀ two_ne_zero]
    push_cast
    have hpos : (0 : ℚ) < m * 2 ^ e := by
      have := hfull.lower
      have : (0 : ℚ) < m := by exact_mod_cast (show 0 < m by omega)
      positivity
    nlinarith

end BalanceAttack.Random
