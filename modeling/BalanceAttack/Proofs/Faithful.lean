import BalanceAttack.Proofs.Rounding
import BalanceAttack.Whole

/-!
# BalanceAttack.Proofs.Faithful

Which numbers the results of float arithmetic stand for.  A sum or a quotient is
rounded, but never past a number of at most 53 bits, and so it lies on the same side
of each of them as the exact result:

* `Rounds.faithful` — rounding a long mantissa does not take it past a short number;
* `Stands.unpack_pack` — what a float stands for is not changed when it is stored;
* `Stands.exists_add`, `Stands.exists_div` — sums, and quotients by a positive number.
-/

namespace BalanceAttack.Random

open Float.Model Float.Model.UnpackedFloat

/-! ## short numbers -/

/-- A number of at most 53 bits, with zeros behind them or a point before their end. -/
def Short (g : ℚ) : Prop := ∃ j e : Int, |j| ≤ 2 ^ 53 ∧ g = j * 2 ^ e

theorem Short.neg {g : ℚ} (h : Short g) : Short (-g) := by
  obtain ⟨j, e, hj, rfl⟩ := h
  exact ⟨-j, e, by rwa [abs_neg], by push_cast; ring⟩

theorem short_intCast {j : Int} (hj : |j| ≤ 2 ^ 53) : Short j := ⟨j, 0, hj, by simp⟩

/-- The number one, with a sign. -/
def ofSign : Sign → ℚ
  | .positive => 1
  | .negative => -1

theorem cast_apply (sign : Sign) (n : Int) : ((sign.apply n : Int) : ℚ) = ofSign sign * n := by
  cases sign <;> simp [Sign.apply, ofSign]

/-- A number is rounded to another one faithfully if no short number lies between the two. -/
def Faithful (x v : ℚ) : Prop := ∀ g, Short g → (x ≤ g → v ≤ g) ∧ (g ≤ x → g ≤ v)

namespace Faithful

variable {x v : ℚ}

theorem refl (x : ℚ) : Faithful x x := fun _ _ => ⟨id, id⟩

theorem neg (h : Faithful x v) : Faithful (-x) (-v) := by
  intro g hg
  obtain ⟨hle, hge⟩ := h _ hg.neg
  exact ⟨fun hx => neg_le.1 (hge (neg_le.1 hx)), fun hx => le_neg.1 (hle (le_neg.1 hx))⟩

/-- A short number is not rounded. -/
theorem eq_of_short (h : Faithful x v) (hx : Short x) : v = x :=
  le_antisymm ((h x hx).1 le_rfl) ((h x hx).2 le_rfl)

theorem signed (h : Faithful x v) (sign : Sign) : Faithful (ofSign sign * x) (ofSign sign * v) := by
  cases sign with
  | positive => simpa [ofSign] using h
  | negative => simpa [ofSign] using h.neg

end Faithful

/-- A mantissa is not rounded past a whole number. -/
theorem Represents.rounded_int {em : ExtendedMantissa} {y : ℚ} (h : Represents em y) (n : Int) :
    (y ≤ n → (em.roundedMantissa : ℚ) ≤ n) ∧ (n ≤ y → (n : ℚ) ≤ em.roundedMantissa) := by
  cases n with
  | ofNat n =>
      constructor
      · intro hle
        have hmono := h.mono (represents_ofMantissa n) (by exact_mod_cast hle)
        exact Int.cast_natCast (R := ℚ) n ▸ Nat.cast_le.2 hmono
      · intro hle
        have hmono := (represents_ofMantissa n).mono h (by exact_mod_cast hle)
        exact Int.cast_natCast (R := ℚ) n ▸ Nat.cast_le.2 hmono
  | negSucc n =>
      have hnonneg : 0 ≤ y := (Nat.cast_nonneg _).trans h.bounds.1
      have hneg : ((Int.negSucc n : Int) : ℚ) < 0 := by exact_mod_cast Int.negSucc_lt_zero n
      exact ⟨fun hle => absurd (hnonneg.trans hle) (not_le.2 hneg),
        fun _ => hneg.le.trans (Nat.cast_nonneg _)⟩

/-- With a smaller exponent the bound of all full mantissas is no larger than the least one. -/
theorem bound_mul_two_pow_le {e e' : Int} (he : e < e') :
    (2 ^ 53 * 2 ^ e : ℚ) ≤ 2 ^ 52 * 2 ^ e' := by
  calc (2 ^ 53 * 2 ^ e : ℚ) = 2 ^ 52 * 2 ^ (e + 1) := by rw [zpow_add_one₀ two_ne_zero]; ring
    _ ≤ 2 ^ 52 * 2 ^ e' :=
        mul_le_mul_of_nonneg_left (zpow_le_zpow_right₀ (by norm_num) he) (by positivity)

/-- A long mantissa is not rounded past a short number. -/
theorem Rounds.faithful {m k : Nat} {e e' : Int} {a : Accuracy} {x : ℚ} (h : Rounds m e k e' a)
    (hm : 52 ≤ m.log2) (hx : Represents (ExtendedMantissa.ofMantissaAndAccuracy m a) x) :
    Faithful (x * 2 ^ e) (k * 2 ^ e') := by
  have hlow := (excess_bounds hm hx.bounds_of_accuracy).1
  have hleft := hx.shiftRight (excess m)
  have hround : (2 ^ 52 : ℚ) ≤ rounded m a := by exact_mod_cast (rounded_bounds hm a).1
  have hpos : (0 : ℚ) < 2 ^ (e + excess m : Int) := by positivity
  rw [h.value, mul_two_pow_eq x e (excess m)]
  rintro _ ⟨j, f, hj, rfl⟩
  rcases le_or_gt (e + excess m) f with hf | hf
  · -- the short number is a whole one on that scale
    obtain ⟨s, rfl⟩ := Int.le.dest hf
    have hscale : (j * 2 ^ (e + excess m + s : Int) : ℚ) =
        (j * 2 ^ s : Int) * 2 ^ (e + excess m : Int) := by
      rw [zpow_add₀ two_ne_zero _ (s : Int), zpow_natCast]
      push_cast
      ring
    rw [hscale, mul_le_mul_iff_left₀ hpos, mul_le_mul_iff_left₀ hpos, mul_le_mul_iff_left₀ hpos,
      mul_le_mul_iff_left₀ hpos]
    exact hleft.rounded_int _
  · -- it has more bits than the mantissa and is no larger
    have hshort : (j : ℚ) ≤ 2 ^ 53 := by exact_mod_cast (le_abs_self j).trans hj
    have hsmall : (j * 2 ^ f : ℚ) ≤ 2 ^ 52 * 2 ^ (e + excess m : Int) :=
      (mul_le_mul_of_nonneg_right hshort (by positivity)).trans (bound_mul_two_pow_le hf)
    constructor
    · intro hle
      have hfirst : x / 2 ^ excess m ≤ ((2 ^ 52 : Int) : ℚ) := by
        push_cast
        exact le_of_mul_le_mul_right (hle.trans hsmall) hpos
      have hrounded := (hleft.rounded_int (2 ^ 52)).1 hfirst
      push_cast at hrounded
      exact (mul_le_mul_of_nonneg_right (hrounded.trans hlow) hpos.le).trans hle
    · exact fun _ => hsmall.trans (mul_le_mul_of_nonneg_right hround hpos.le)

/-! ## what a float stands for -/

/-- A float stands for a number: it is a zero, or it has a full mantissa and an exponent of at
most `c`, above or below. -/
inductive Stands (c : Int) : UnpackedFloat → ℚ → Prop
  | zero (sign : Sign) : Stands c (.zero sign) 0
  | finite (sign : Sign) {m : Nat} {e : Int} (pos : 0 < m) (lower : 2 ^ 52 ≤ m) (upper : m < 2 ^ 53)
      (low : -c ≤ e) (high : e ≤ c) :
      Stands c (.finite sign m e pos) (ofSign sign * (m * 2 ^ e))

variable {c : Int} {u v : UnpackedFloat} {x y : ℚ}

namespace Stands

theorem mono {d : Int} (h : Stands c u x) (hd : c ≤ d) : Stands d u x := by
  cases h with
  | zero sign => exact .zero sign
  | finite sign pos lower upper low high =>
      exact .finite sign pos lower upper (by omega) (by omega)

/-- A float is stored and read without a change. -/
theorem unpack_pack (h : Stands c u x) (hc : c ≤ 971) : (Float.Model.pack u).unpack = u := by
  cases h with
  | zero sign => cases sign <;> rfl
  | finite sign pos lower upper low high =>
      exact unpack_pack_finite sign lower upper (by omega) (by omega) pos

theorem neg (h : Stands c u x) : Stands c u.neg (-x) := by
  cases h with
  | zero sign =>
      rw [neg_zero]
      exact .zero (-sign)
  | @finite sign m e pos lower upper low high =>
      have hsign : -(ofSign sign * (m * 2 ^ e)) = ofSign (-sign) * (m * 2 ^ e) := by
        cases sign with
        | positive => exact (neg_mul 1 _).symm
        | negative => rw [← neg_mul, ofSign, neg_neg]; rfl
      rw [hsign]
      exact .finite (-sign) pos lower upper low high

end Stands

/-- A long mantissa is rounded to a float that stands for it faithfully. -/
theorem exists_stands_round {m : Nat} {e : Int} {a : Accuracy} (hm : 52 ≤ m.log2)
    (hx : Represents (ExtendedMantissa.ofMantissaAndAccuracy m a) x) (hc : c ≤ 1074)
    (hlow : -c ≤ e + excess m) (hhigh : e + excess m < c) (sign : Sign) :
    ∃ z, Faithful (ofSign sign * (x * 2 ^ e)) z ∧
      Stands c (roundWithAccuracy Format.binary64 sign m e a) z := by
  obtain ⟨k, e', hk, hround, hlower, hupper, hrounds⟩ := exists_round (e := e) hm (by omega) sign a
  have hexponent : e' = e + excess m ∨ e' = e + excess m + 1 :=
    hrounds.imp (fun h => h.2.2) (fun h => h.2.2)
  rw [hround]
  exact ⟨_, (hrounds.faithful hm hx).signed sign,
    .finite sign hk hlower hupper (by omega) (by omega)⟩

/-- A whole number on some scale is rounded to a float that stands for it faithfully. -/
theorem exists_stands_normalize {n e : Int} (hc : c ≤ 971) (hlow : -c ≤ e - 52)
    (hhigh : (n.natAbs.log2 : Int) + e - 52 < c) (sign : Sign) :
    ∃ z, Faithful (n * 2 ^ e) z ∧
      Stands c (UnpackedFloat.normalize Format.binary64 n e sign) z := by
  have hround : ∀ (n : Nat) (sign : Sign), 0 < n → (n.log2 : Int) + e - 52 < c →
      ∃ z, Faithful (ofSign sign * (n * 2 ^ e)) z ∧
        Stands c (UnpackedFloat.round Format.binary64 sign n e) z := by
    intro n sign hpos hhigh
    have hlog : (n * 2 ^ (52 - n.log2)).log2 = n.log2 + (52 - n.log2) := log2_mul_two_pow hpos.ne' _
    have hscale : ((n * 2 ^ (52 - n.log2) : Nat) * 2 ^ (e - (52 - n.log2 : Nat)) : ℚ) =
        n * 2 ^ e := by
      rw [zpow_sub₀ two_ne_zero, zpow_natCast]
      push_cast
      field_simp
    rw [round_eq (by omega), ← hscale]
    refine exists_stands_round (by omega) (represents_ofMantissa _) (by omega) ?_ ?_ sign <;>
      rw [excess_mul_two_pow hpos, excess] <;> omega
  unfold UnpackedFloat.normalize
  rcases Int.lt_trichotomy n 0 with hneg | rfl | hpos
  · obtain ⟨k, rfl⟩ : ∃ k : Nat, n = -k := ⟨n.natAbs, by omega⟩
    have hcast : ((-k : Int) * 2 ^ e : ℚ) = ofSign .negative * (k * 2 ^ e) := by
      push_cast [ofSign]
      ring
    rw [Int.natAbs_neg, Int.natAbs_natCast] at hhigh
    rw [Int.compare_eq_lt.2 hneg, hcast]
    dsimp only
    rw [Int.neg_neg, Int.toNat_natCast]
    exact hround k .negative (by omega) hhigh
  · refine ⟨0, ?_, .zero sign⟩
    rw [Int.cast_zero, zero_mul]
    exact .refl 0
  · obtain ⟨k, rfl⟩ : ∃ k : Nat, n = k := ⟨n.natAbs, by omega⟩
    have hcast : ((k : Int) * 2 ^ e : ℚ) = ofSign .positive * (k * 2 ^ e) := by
      rw [ofSign, one_mul, Int.cast_natCast]
    rw [Int.natAbs_natCast] at hhigh
    rw [Int.compare_eq_gt.2 hpos, hcast]
    dsimp only
    rw [Int.toNat_natCast]
    exact hround k .positive (by omega) hhigh

/-- A whole number of at most 53 bits is a float that stands for it. -/
theorem stands_ofNat {n : Nat} (hn : n < 2 ^ 53) :
    Stands 52 (UnpackedFloat.ofNat Format.binary64 n) n := by
  have hlog : n.log2 ≤ 52 := by
    rcases Nat.eq_zero_or_pos n with rfl | hpos
    · decide
    · exact Nat.le_of_lt_succ ((Nat.log2_lt hpos.ne').2 hn)
  obtain ⟨z, hz, hstands⟩ := @exists_stands_normalize 52 n 0 (by decide) (by decide)
    (by rw [Int.natAbs_natCast]; omega) .positive
  rw [zpow_zero, mul_one, Int.cast_natCast] at hz
  have hshort : Short n := by
    refine short_intCast (j := n) ?_
    rw [abs_of_nonneg (Int.natCast_nonneg n)]
    exact_mod_cast hn.le
  rw [hz.eq_of_short hshort] at hstands
  exact hstands

/-! ## arithmetic -/

/-- What a mantissa with zeros behind it stands for on a smaller scale. -/
theorem apply_shiftLeft (sign : Sign) (m : Nat) {e d : Int} (h : d ≤ e) :
    ((sign.apply (m <<< (e - d).toNat : Nat) : Int) * 2 ^ d : ℚ) = ofSign sign * (m * 2 ^ e) := by
  have hscale : ((m * 2 ^ (e - d).toNat : Nat) * 2 ^ d : ℚ) = m * 2 ^ e := by
    have hsplit : e = (e - d).toNat + d := by omega
    conv_rhs => rw [hsplit, zpow_add₀ two_ne_zero, zpow_natCast]
    push_cast
    ring
  rw [cast_apply, Int.cast_natCast, Nat.shiftLeft_eq, mul_assoc, hscale]

theorem natAbs_apply_add_le (sign sign' : Sign) (a b : Nat) :
    (sign.apply a + sign'.apply b).natAbs ≤ a + b := by
  cases sign <;> cases sign' <;> simp only [Sign.apply] <;> omega

/-- Of two mantissas with zeros behind them the sum has one more bit than the longer one. -/
theorem log2_add_lt {m m' s s' d : Nat} {n : Int} (hm : m < 2 ^ 53) (hm' : m' < 2 ^ 53)
    (hs : s ≤ d) (hs' : s' ≤ d) (hn : n.natAbs ≤ m <<< s + m' <<< s') :
    n.natAbs.log2 < 54 + d := by
  have hshift : ∀ {m s : Nat}, m < 2 ^ 53 → s ≤ d → m <<< s < 2 ^ 53 * 2 ^ d := by
    intro m s hm hs
    rw [Nat.shiftLeft_eq]
    exact Nat.mul_lt_mul_of_lt_of_le hm (Nat.pow_le_pow_right (by decide) hs) (by positivity)
  have hfirst := hshift hm hs
  have hsecond := hshift hm' hs'
  rcases Nat.eq_zero_or_pos n.natAbs with hzero | hpos
  · rw [hzero]
    exact Nat.add_pos_left (by decide) d
  · rw [Nat.log2_lt hpos.ne', Nat.pow_add]
    omega

/-- The sum of two floats. -/
theorem Stands.exists_add (hu : Stands c u x) (hv : Stands c v y) (hc : c ≤ 900) :
    ∃ z, Faithful (x + y) z ∧ Stands (c + 52) (UnpackedFloat.add Format.binary64 u v) z := by
  cases hu with
  | zero sign =>
      rw [zero_add]
      cases hv with
      | zero sign' =>
          refine ⟨0, .refl 0, ?_⟩
          cases sign <;> cases sign' <;> exact .zero _
      | finite sign' pos lower upper low high =>
          exact ⟨_, .refl _, .finite sign' pos lower upper (by omega) (by omega)⟩
  | @finite sign m e pos lower upper low high =>
      cases hv with
      | zero sign' =>
          rw [add_zero]
          exact ⟨_, .refl _, .finite sign pos lower upper (by omega) (by omega)⟩
      | @finite sign' m' e' pos' lower' upper' low' high' =>
          rw [← apply_shiftLeft sign m (Int.min_le_left e e'),
            ← apply_shiftLeft sign' m' (Int.min_le_right e e'), ← add_mul, ← Int.cast_add]
          have hlog : (sign.apply (m <<< (e - min e e').toNat : Nat) +
              sign'.apply (m' <<< (e' - min e e').toNat : Nat)).natAbs.log2 <
                54 + (max e e' - min e e').toNat :=
            log2_add_lt upper upper' (by omega) (by omega) (natAbs_apply_add_le _ _ _ _)
          exact exists_stands_normalize (by omega) (by omega) (by omega) .positive

/-- Full mantissas are divided with 53 more bits in front. -/
theorem divCore_eq {m m' : Nat} {e e' : Int} (hm : m.log2 = 52) (hm' : m'.log2 = 52)
    (he : -1021 ≤ e - e') : divCore Format.binary64 m e m' e' =
      (m * 2 ^ 53 / m', e - e' - 53, accuracyOfFraction (m * 2 ^ 53 % m') m') := by
  have hmin : Format.binary64.minExponent = -1074 := by decide
  have hbits : Format.binary64.mantissaBits = 53 := by decide
  have htarget : min (e - e') (Format.binary64.targetExponent
      (totalExponent m e - totalExponent m' e')) = e - e' - 53 := by
    rw [Format.targetExponent, hmin, hbits, totalExponent, totalExponent, hm, hm']
    omega
  have hshift : (e - e' - (e - e' - 53)).toNat = 53 := by omega
  rw [divCore, htarget, hshift, Nat.shiftLeft_eq]

/-- A float that stands for a positive number has a full mantissa. -/
theorem Stands.exists_full (h : Stands c u x) (hx : 0 < x) :
    ∃ m e, Full u m e ∧ x = m * 2 ^ e ∧ -c ≤ e ∧ e ≤ c := by
  cases h with
  | zero => exact absurd hx (lt_irrefl 0)
  | @finite sign m e pos lower upper low high =>
      cases sign with
      | positive => exact ⟨m, e, ⟨lower, upper, rfl⟩, one_mul _, low, high⟩
      | negative =>
          have hpos : (0 : ℚ) < m * 2 ^ e := by positivity
          rw [ofSign, neg_one_mul] at hx
          exact absurd hx (neg_neg_of_pos hpos).not_gt

theorem Stands.exists_zero (h : Stands c u 0) : ∃ sign, u = .zero sign := by
  generalize hx : (0 : ℚ) = x at h
  cases h with
  | zero sign => exact ⟨sign, rfl⟩
  | @finite sign m e pos =>
      have hpos : (0 : ℚ) < m * 2 ^ e := by positivity
      cases sign <;> rw [ofSign] at hx <;> linarith

/-- The quotient of a float by one that stands for a positive number. -/
theorem Stands.exists_div (hu : Stands c u x) (hv : Stands c v y) (hy : 0 < y) (hc : c ≤ 450) :
    ∃ z, Faithful (x / y) z ∧ Stands (2 * c + 54) (UnpackedFloat.div Format.binary64 u v) z := by
  obtain ⟨m, e, hfull, rfl, hlow, hhigh⟩ := hv.exists_full hy
  have hlower := hfull.lower
  have hupper := hfull.upper
  have hlog : m.log2 = 52 := (Nat.log2_eq_iff (by omega)).2 ⟨hlower, hupper⟩
  rw [hfull.eq]
  cases hu with
  | zero sign =>
      rw [zero_div]
      exact ⟨0, .refl 0, .zero _⟩
  | @finite sign n f pos lower upper low high =>
      have hlog' : n.log2 = 52 := (Nat.log2_eq_iff (by omega)).2 ⟨lower, upper⟩
      have hsign : sign / .positive = sign := by cases sign <;> rfl
      have hdiv : UnpackedFloat.div Format.binary64 (.finite sign n f pos)
          (.finite .positive m e (by omega)) = roundWithAccuracy Format.binary64 sign
            (n * 2 ^ 53 / m) (f - e - 53) (accuracyOfFraction (n * 2 ^ 53 % m) m) := by
        have hcore : divCore Format.binary64 n f m e = _ := divCore_eq hlog' hlog (by omega)
        show roundWithAccuracy Format.binary64 (sign / .positive)
          (divCore Format.binary64 n f m e).1 (divCore Format.binary64 n f m e).2.1
          (divCore Format.binary64 n f m e).2.2 = _
        rw [hcore, hsign]
      have hscale : ofSign sign * (n * 2 ^ f) / (m * 2 ^ e) =
          ofSign sign * (((n * 2 ^ 53 : Nat) / m : ℚ) * 2 ^ (f - e - 53)) := by
        rw [sub_sub, zpow_sub₀ two_ne_zero, zpow_add₀ two_ne_zero]
        push_cast
        field_simp
      have hbelow : 2 ^ 52 ≤ n * 2 ^ 53 / m := (Nat.le_div_iff_mul_le (by omega)).2 (by omega)
      have habove : n * 2 ^ 53 / m < 2 ^ 54 := (Nat.div_lt_iff_lt_mul (by omega)).2 (by omega)
      have hbits : 52 ≤ (n * 2 ^ 53 / m).log2 := (Nat.le_log2 (by omega)).2 hbelow
      have hbits' : (n * 2 ^ 53 / m).log2 < 54 := (Nat.log2_lt (by omega)).2 habove
      rw [hdiv, hscale]
      refine exists_stands_round hbits (represents_quotient _ (by omega)) (by omega) ?_ ?_ sign <;>
        rw [excess] <;> omega

/-! ## comparing -/

/-- Of two numbers with full mantissas the one with the smaller exponent is less. -/
theorem mul_two_pow_lt {m m' : Nat} {e e' : Int} (upper : m < 2 ^ 53) (lower' : 2 ^ 52 ≤ m')
    (h : e < e') : (m * 2 ^ e : ℚ) < m' * 2 ^ e' := by
  have hupper : (m : ℚ) < 2 ^ 53 := by exact_mod_cast upper
  have hlower : (2 ^ 52 : ℚ) ≤ m' := by exact_mod_cast lower'
  calc (m * 2 ^ e : ℚ) < 2 ^ 53 * 2 ^ e := mul_lt_mul_of_pos_right hupper (by positivity)
    _ ≤ 2 ^ 52 * 2 ^ e' := bound_mul_two_pow_le h
    _ ≤ m' * 2 ^ e' := mul_le_mul_of_nonneg_right hlower (by positivity)

/-- Numbers with full mantissas are compared by their exponents first. -/
theorem compare_then_eq_lt_iff {m m' : Nat} {e e' : Int} (lower : 2 ^ 52 ≤ m)
    (upper : m < 2 ^ 53) (lower' : 2 ^ 52 ≤ m') (upper' : m' < 2 ^ 53) :
    (compare e e').then (compare m m') = .lt ↔ (m * 2 ^ e : ℚ) < m' * 2 ^ e' := by
  rcases Int.lt_trichotomy e e' with hlt | rfl | hgt
  · rw [Int.compare_eq_lt.2 hlt]
    exact iff_of_true rfl (mul_two_pow_lt upper lower' hlt)
  · have hpos : (0 : ℚ) < 2 ^ e := by positivity
    rw [Int.compare_eq_eq.2 rfl, mul_lt_mul_iff_left₀ hpos, Nat.cast_lt]
    exact Nat.compare_eq_lt
  · rw [Int.compare_eq_gt.2 hgt]
    exact iff_of_false nofun (mul_two_pow_lt upper' lower hgt).not_gt

/-- A number that is not negative is less than another one if the floats are. -/
theorem Stands.lt_iff {d : Int} (hu : Stands c u x) (hv : Stands d v y) (hx : 0 ≤ x) :
    u.lt v = true ↔ x < y := by
  have hnot : ∀ {m : Nat} {e : Int}, 0 < m → ¬ x < ofSign .negative * (m * 2 ^ e) := by
    intro m e hm hlt
    have hpos : (0 : ℚ) < m * 2 ^ e := by positivity
    rw [ofSign, neg_one_mul] at hlt
    linarith
  rcases hx.eq_or_lt with rfl | hx
  · obtain ⟨sign, rfl⟩ := hu.exists_zero
    cases hv with
    | zero sign' => exact iff_of_false Bool.false_ne_true (lt_irrefl 0)
    | @finite sign' m e pos =>
        cases sign' with
        | negative => exact iff_of_false Bool.false_ne_true (hnot pos)
        | positive =>
            refine iff_of_true rfl ?_
            rw [ofSign, one_mul]
            positivity
  · obtain ⟨m, e, hfull, rfl, _, _⟩ := hu.exists_full hx
    rw [hfull.eq]
    cases hv with
    | zero sign' => exact iff_of_false Bool.false_ne_true hx.not_gt
    | @finite sign' m' e' pos lower upper =>
        cases sign' with
        | negative => exact iff_of_false Bool.false_ne_true (hnot pos)
        | positive =>
            rw [ofSign, one_mul, ← compare_then_eq_lt_iff hfull.lower hfull.upper lower upper]
            show (some ((compare e e').then (compare m m')) == some .lt) = true ↔ _
            rw [beq_iff_eq, Option.some.injEq]

/-! ## stored floats -/

/-- A stored float stands for a number. -/
def Reads (c : Int) (f : Float) (x : ℚ) : Prop := Stands c f.toModel.unpack x

namespace Reads

variable {f g : Float}

theorem mono {d : Int} (h : Reads c f x) (hd : c ≤ d) : Reads d f x := Stands.mono h hd

theorem of_pack (h : Stands c u x) (hc : c ≤ 971) (hf : f.toModel = Float.Model.pack u) :
    Reads c f x := by
  rw [Reads, hf, h.unpack_pack hc]
  exact h

theorem neg (h : Reads c f x) (hc : c ≤ 971) : Reads c (-f) (-x) :=
  of_pack (Stands.neg h) hc rfl

theorem exists_add (hf : Reads c f x) (hg : Reads c g y) (hc : c ≤ 900) :
    ∃ z, Faithful (x + y) z ∧ Reads (c + 52) (f + g) z := by
  obtain ⟨z, hz, hstands⟩ := Stands.exists_add hf hg hc
  exact ⟨z, hz, of_pack hstands (by omega) rfl⟩

theorem exists_div (hf : Reads c f x) (hg : Reads c g y) (hy : 0 < y) (hc : c ≤ 450) :
    ∃ z, Faithful (x / y) z ∧ Reads (2 * c + 54) (f / g) z := by
  obtain ⟨z, hz, hstands⟩ := Stands.exists_div hf hg hy hc
  exact ⟨z, hz, of_pack hstands (by omega) rfl⟩

theorem lt_iff {d : Int} (hf : Reads c f x) (hg : Reads d g y) (hx : 0 ≤ x) : f < g ↔ x < y := by
  rw [← Stands.lt_iff hf hg hx]
  exact ⟨fun h => of_decide_eq_true h, fun h => decide_eq_true h⟩

end Reads

/-- A whole number of at most 53 bits is kept. -/
theorem reads_toFloat {n : Nat} (hn : n < 2 ^ 53) : Reads 52 (UInt64.ofNat n).toFloat n := by
  have hword : (UInt64.ofNat n).toNat = n := by
    rw [UInt64.toNat_ofNat', Nat.mod_eq_of_lt (by omega)]
  have hstands : Stands 52 (UnpackedFloat.ofNat Format.binary64 (UInt64.ofNat n).toNat) n := by
    rw [hword]
    exact stands_ofNat hn
  exact .of_pack hstands (by decide) rfl

theorem reads_wholeToFloat {t : Int} (ht : t.natAbs < 2 ^ 53) : Reads 52 (Whole.toFloat t) t := by
  have hread := reads_toFloat ht
  unfold Whole.toFloat
  split
  · have hcast : (t : ℚ) = -(t.natAbs : ℕ) := by
      have hneg : -(t.natAbs : Int) = t := by omega
      rw [← Int.cast_natCast, ← Int.cast_neg, hneg]
    rw [hcast]
    exact hread.neg (by decide)
  · have hcast : (t : ℚ) = (t.natAbs : ℕ) := by
      have hpos : (t.natAbs : Int) = t := by omega
      rw [← Int.cast_natCast, hpos]
    rwa [hcast]

end BalanceAttack.Random
