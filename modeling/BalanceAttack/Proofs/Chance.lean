import BalanceAttack.Random.Uniform
import Mathlib.Algebra.Group.Nat.Defs

/-!
# BalanceAttack.Proofs.Chance

Floats without a minus sign.  Sums, products and quotients of such floats have
none, nor does a float that is stored and read; and a float without a minus
sign is less than no zero:

* `Unsigned.unpack_pack` — storing a float keeps it without a minus sign;
* `plus_unitOfWord` — the float that a word stands for has none;
* `Plus.not_lt` — it is not less than a float that equals zero.
-/

namespace BalanceAttack.Random

open Float.Model Float.Model.UnpackedFloat

/-! ## rounding -/

/-- A float without a minus sign. -/
def Unsigned : UnpackedFloat → Prop
  | .notANumber => True
  | .infinity sign => sign = .positive
  | .zero sign => sign = .positive
  | .finite sign .. => sign = .positive

theorem unsigned_dite {c : Prop} [Decidable c] {u : c → UnpackedFloat} {v : ¬ c → UnpackedFloat}
    (hu : ∀ h, Unsigned (u h)) (hv : ∀ h, Unsigned (v h)) : Unsigned (dite c u v) := by
  by_cases h : c
  · rw [dif_pos h]
    exact hu h
  · rw [dif_neg h]
    exact hv h

theorem unsigned_ite {c : Prop} [Decidable c] {u v : UnpackedFloat} (hu : Unsigned u)
    (hv : Unsigned v) : Unsigned (if c then u else v) := by
  split
  · exact hu
  · exact hv

theorem unsigned_roundWithAccuracy (spec : Format) (mantissa : Nat) (exponent : Int)
    (accuracy : Accuracy) :
    Unsigned (roundWithAccuracy spec .positive mantissa exponent accuracy) :=
  unsigned_dite (fun _ => rfl) (fun _ => rfl)

theorem unsigned_normalize (spec : Format) {mantissa : Int} (hpos : 0 ≤ mantissa) (exponent : Int) :
    Unsigned (UnpackedFloat.normalize spec mantissa exponent .positive) := by
  unfold UnpackedFloat.normalize
  split
  · next hneg => exact absurd (Int.compare_eq_lt.1 hneg) (Int.not_lt.2 hpos)
  · rfl
  · exact unsigned_roundWithAccuracy _ _ _ _

theorem unsigned_ofNat (spec : Format) (n : Nat) : Unsigned (UnpackedFloat.ofNat spec n) :=
  unsigned_normalize spec (Int.natCast_nonneg n) 0

/-! ## arithmetic -/

namespace Unsigned

variable {u v : UnpackedFloat}

theorem mul (hu : Unsigned u) (hv : Unsigned v) (spec : Format) :
    Unsigned (UnpackedFloat.mul spec u v) := by
  cases u <;> cases v <;> cases hu <;> cases hv <;>
    first | trivial | exact unsigned_roundWithAccuracy _ _ _ _

theorem add (hu : Unsigned u) (hv : Unsigned v) (spec : Format) :
    Unsigned (UnpackedFloat.add spec u v) := by
  cases u <;> cases v <;> cases hu <;> cases hv <;>
    first | trivial | exact unsigned_normalize _ (Int.natCast_nonneg _) _

theorem div (hu : Unsigned u) (hv : Unsigned v) (spec : Format) :
    Unsigned (UnpackedFloat.div spec u v) := by
  cases u <;> cases v <;> cases hu <;> cases hv <;>
    first | trivial | exact unsigned_roundWithAccuracy _ _ _ _

end Unsigned

/-! ## storing -/

theorem exists_pack_eq {u : UnpackedFloat} (hu : Unsigned u) (spec : Format) :
    ∃ exponent mantissa,
      UnpackedFloat.pack spec u = packComponents spec .positive exponent mantissa := by
  unfold UnpackedFloat.pack
  split
  · exact ⟨_, _, rfl⟩
  · obtain rfl := hu
    exact ⟨_, _, rfl⟩
  · obtain rfl := hu
    exact ⟨_, _, rfl⟩
  · obtain rfl := hu
    dsimp only
    split
    · exact ⟨_, _, rfl⟩
    · split <;> exact ⟨_, _, rfl⟩

/-- Without a minus sign the first bit is not set. -/
theorem toNat_pack_lt {u : UnpackedFloat} (hu : Unsigned u) :
    (UnpackedFloat.pack Format.binary64 u).toNat < 2 ^ 63 := by
  obtain ⟨exponent, mantissa, hpack⟩ := exists_pack_eq hu Format.binary64
  rw [hpack]
  have hexponent : (0#1 ++ exponent).toNat < 2 ^ 11 := by
    rw [BitVec.toNat_append]
    simpa using exponent.isLt
  show (0#1 ++ exponent ++ mantissa).toNat < 2 ^ 63
  rw [BitVec.toNat_append, Nat.shiftLeft_eq]
  have hhigh : (0#1 ++ exponent).toNat * 2 ^ 52 < 2 ^ 63 := by omega
  exact Nat.or_lt_two_pow hhigh (Nat.lt_trans mantissa.isLt (by decide))

/-- The sign is the first bit. -/
theorem sign_packComponents (sign : Sign) (exponent : BitVec 11) (mantissa : BitVec 52) :
    Sign.ofBitVec (unpackSign (packComponents Format.binary64 sign exponent mantissa)) = sign := by
  have hfirst : unpackSign (packComponents Format.binary64 sign exponent mantissa) =
      sign.toBitVec := by
    refine BitVec.eq_of_toNat_eq ?_
    show (sign.toBitVec ++ exponent ++ mantissa).toNat >>> 63 % 2 = sign.toBitVec.toNat
    have hsign := sign.toBitVec.isLt
    have hexponent := exponent.isLt
    have hmantissa := mantissa.isLt
    rw [BitVec.toNat_append, ← Nat.shiftLeft_add_eq_or_of_lt mantissa.isLt, BitVec.toNat_append,
      ← Nat.shiftLeft_add_eq_or_of_lt exponent.isLt, Nat.shiftRight_eq_div_pow, Nat.shiftLeft_eq,
      Nat.shiftLeft_eq]
    omega
  rw [hfirst]
  cases sign <;> rfl

/-- The bits of an ordinary float are read as they were put together. -/
theorem unpack_packComponents (sign : Sign) {exponent : BitVec 11} (mantissa : BitVec 52)
    (hlow : exponent ≠ 0#11) (hhigh : exponent ≠ -1#11) (hpos : 0 < 2 ^ 52 + mantissa.toNat) :
    UnpackedFloat.unpack Format.binary64
        (packComponents Format.binary64 sign exponent mantissa) =
      .finite sign (2 ^ 52 + mantissa.toNat) (exponent.toNat - 1075) hpos := by
  have hsign := sign_packComponents sign exponent mantissa
  have hexponent : unpackExponent (packComponents Format.binary64 sign exponent mantissa) =
      exponent := unpackExponent_packComponents
  have hmantissa : unpackMantissa (packComponents Format.binary64 sign exponent mantissa) =
      mantissa := unpackMantissa_packComponents
  have htoNat : (1#1 ++ mantissa).toNat = 2 ^ 52 + mantissa.toNat := by
    rw [BitVec.toNat_append, ← Nat.shiftLeft_add_eq_or_of_lt mantissa.isLt]
    rfl
  generalize packComponents Format.binary64 sign exponent mantissa = b at *
  unfold UnpackedFloat.unpack
  rw [if_neg (hexponent ▸ hhigh), if_neg (hexponent ▸ hlow), UnpackedFloat.finite.injEq]
  refine ⟨hsign, hmantissa ▸ htoNat, ?_⟩
  show ((unpackExponent b).toNat : Int) - (1023 + 52) = _
  rw [hexponent]
  omega

theorem unpackSign_of_lt {b : BitVec Format.binary64.numBits} (hb : b.toNat < 2 ^ 63) :
    Sign.ofBitVec (unpackSign b) = .positive := by
  have hfirst : unpackSign b = 0#1 := by
    refine BitVec.eq_of_toNat_eq ?_
    show b.toNat >>> 63 % 2 = 0
    rw [Nat.shiftRight_eq_div_pow, Nat.div_eq_of_lt hb]
  exact if_pos hfirst

/-- Bits of which the first is not set are read as a float without a minus sign. -/
theorem unsigned_unpack {b : BitVec Format.binary64.numBits} (hb : b.toNat < 2 ^ 63) :
    Unsigned (UnpackedFloat.unpack Format.binary64 b) := by
  have hsign := unpackSign_of_lt hb
  unfold UnpackedFloat.unpack
  exact unsigned_ite (unsigned_ite hsign trivial)
    (unsigned_ite (unsigned_dite (fun _ => hsign) (fun _ => hsign)) hsign)

/-- A float is stored and read with its sign. -/
theorem Unsigned.unpack_pack {u : UnpackedFloat} (hu : Unsigned u) :
    Unsigned (Float.Model.pack u).unpack :=
  unsigned_unpack (toNat_pack_lt hu)

/-! ## floats -/

/-- A float that is stored without a minus sign. -/
def Plus (x : Float) : Prop := Unsigned x.toModel.unpack

theorem Plus.mul {x y : Float} (hx : Plus x) (hy : Plus y) : Plus (x * y) :=
  (Unsigned.mul hx hy _).unpack_pack

theorem Plus.add {x y : Float} (hx : Plus x) (hy : Plus y) : Plus (x + y) :=
  (Unsigned.add hx hy _).unpack_pack

theorem Plus.div {x y : Float} (hx : Plus x) (hy : Plus y) : Plus (x / y) :=
  (Unsigned.div hx hy _).unpack_pack

theorem plus_toFloat (w : UInt64) : Plus w.toFloat :=
  (unsigned_ofNat _ w.toNat).unpack_pack

theorem Plus.toBits_div_lt {x y : Float} (hx : Plus x) (hy : Plus y) :
    (x / y).toBits.toNat < 2 ^ 63 :=
  toNat_pack_lt (Unsigned.div hx hy _)

theorem plus_ofBits {w : UInt64} (hw : w.toNat < 2 ^ 63) : Plus (Float.ofBits w) :=
  (unsigned_unpack hw).unpack_pack

/-- The float that a word stands for has no minus sign. -/
theorem plus_unitOfWord (w : UInt64) : Plus (unitOfWord w) :=
  (plus_toFloat (w >>> 11)).mul (plus_ofBits (by decide))

/-! ## comparing -/

/-- Without a minus sign a float is not less than what equals zero. -/
theorem Unsigned.compare_ne_lt {u v : UnpackedFloat} (hu : Unsigned u)
    (hv : v.compare (.zero .positive) = some .eq) : u.compare v ≠ some .lt := by
  cases v with
  | notANumber => contradiction
  | infinity sign | finite sign => cases sign <;> cases hv
  | zero sign =>
      intro hlt
      cases u with
      | notANumber | zero => cases hlt
      | infinity sign | finite sign =>
          obtain rfl : sign = .positive := hu
          cases hlt

/-- A float without a minus sign is not less than one that equals zero, of either sign. -/
theorem Plus.not_lt {x rate : Float} (hx : Plus x) (hrate : (rate == 0) = true) : ¬ x < rate := by
  have hzero : (rate.toModel.unpack.compare (0 : Float).toModel.unpack == some .eq) = true := hrate
  intro hlt
  have hless : (x.toModel.unpack.compare rate.toModel.unpack == some .lt) = true :=
    of_decide_eq_true hlt
  exact hx.compare_ne_lt (eq_of_beq hzero) (eq_of_beq hless)

theorem not_lt_of_unit {σ : Type} [WordSource σ] {supply rest : Supply σ} {chance rate : Float}
    (h : Draw.unit supply = .ok (chance, rest)) (hrate : (rate == 0) = true) : ¬ chance < rate := by
  unfold Draw.unit at h
  obtain ⟨⟨w, rest'⟩, _, h⟩ := Fault.bind_eq_ok_iff.1 h
  obtain ⟨rfl, _⟩ := Prod.mk.inj (Except.ok.inj h)
  exact (plus_unitOfWord w).not_lt hrate

end BalanceAttack.Random
