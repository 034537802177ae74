import BalanceAttack.Proofs.LinkDelay
import BalanceAttack.Proofs.Repeats
import BalanceAttack.Proofs.Rounding
import Mathlib.Algebra.Order.Floor.Semifield
import Mathlib.Data.Rat.Floor
import Std.Data.String.ToInt

/-!
# BalanceAttack.Proofs.Exactness

What is left of a measurement that has been a float before it is written.  A float
keeps 53 bits, so a long number comes back as the nearest one that ends in enough
zeros, and the largest ones are held at the end of the signed range:

* `rounded_eq_divNearest` — dropping bits is dividing by a power of two, to the nearest;
* `ofFloat_toFloat` — the number that comes back;
* `ofFloat_toFloat_eq_iff` — which numbers come back unchanged;
* `Report.field_of_measure` — the same for what stands in a table of single runs.
-/

namespace BalanceAttack

namespace Random

open Float.Model Float.Model.UnpackedFloat

/-! ## the nearest quotient -/

/-- The mantissa of a number is its whole part. -/
theorem Represents.mantissa_eq {em : ExtendedMantissa} {x : ℚ} (h : Represents em x) :
    em.mantissa = ⌊x⌋₊ := by
  have hpos : (0 : ℚ) ≤ em.mantissa := Nat.cast_nonneg _
  exact ((Nat.floor_eq_iff (hpos.trans h.bounds.1)).2 h.bounds).symm

/-- A mantissa that stands for a quotient is rounded to the nearest whole number. -/
theorem Represents.roundedMantissa_eq {em : ExtendedMantissa} {m d : Nat} (hd : 0 < d)
    (h : Represents em (m / d : ℚ)) : em.roundedMantissa = Decimal.divNearest m d := by
  have hquotient : em.mantissa = m / d := by rw [h.mantissa_eq, Nat.floor_div_eq_div]
  have hparts := cast_div_add_mod m hd
  have hbelow := mod_lt_half_iff m hd
  have habove := half_lt_mod_iff m hd
  unfold Decimal.divNearest
  rw [← hquotient]
  simp only [hbelow, habove]
  generalize ((m % d : Nat) / d : ℚ) = part at hparts
  rw [hparts, ← hquotient] at h
  obtain ⟨c, round, sticky⟩ := em
  cases round <;> cases sticky <;> simp only [Represents] at h <;>
    simp only [ExtendedMantissa.roundedMantissa, ExtendedMantissa.accuracy,
      Accuracy.roundToNearestEven] <;>
    split_ifs <;> first | rfl | linarith

/-- A long mantissa is divided by a power of two, to the nearest. -/
theorem rounded_eq_divNearest (m : Nat) : rounded m = Decimal.divNearest m (2 ^ excess m) :=
  Represents.roundedMantissa_eq (Nat.two_pow_pos _) (by exact_mod_cast represents_excess m)

/-! ## there and back -/

/-- The number of 53 bits, with zeros behind them, that is nearest to a number. -/
def nearest (n : Nat) : Nat := Decimal.divNearest n (2 ^ excess n) * 2 ^ excess n

/-- Nothing is lost of a number that ends in enough zeros. -/
theorem nearest_eq_iff {n : Nat} : nearest n = n ↔ 2 ^ excess n ∣ n := by
  have hpos := Nat.two_pow_pos (excess n)
  unfold nearest
  generalize 2 ^ excess n = d at hpos ⊢
  constructor
  · intro h
    exact ⟨_, h.symm.trans (Nat.mul_comm _ _)⟩
  · rintro ⟨q, rfl⟩
    rw [Nat.mul_comm d q, Decimal.divNearest_mul hpos]

/-- A short number has no bits in excess. -/
theorem excess_of_lt {n : Nat} (hn : n < 2 ^ 53) : excess n = 0 := by
  rcases Nat.eq_zero_or_pos n with rfl | hpos
  · rfl
  · have hlog : n.log2 < 53 := (Nat.log2_lt hpos.ne').2 hn
    rw [excess]
    omega

/-- A positive whole number is rounded to the nearest float. -/
theorem exists_full_nearest {n : Nat} (hpos : 0 < n) (hn : n < 2 ^ 64) :
    ∃ k e, Full (UnpackedFloat.ofNat Format.binary64 n) k e ∧ (k * 2 ^ e : ℚ) = nearest n ∧
      -52 ≤ e ∧ e ≤ 12 := by
  obtain ⟨k, e, hfull, hrounds, hbounds⟩ := exists_rounds_ofNat hpos hn
  refine ⟨k, e, hfull, ?_, hbounds⟩
  rw [hrounds.value, excess_mul_two_pow hpos]
  rcases Nat.lt_or_ge n (2 ^ 53) with hsmall | hlarge
  · have hnone := excess_of_lt hsmall
    have hexact : nearest n = n := nearest_eq_iff.2 (by rw [hnone]; exact one_dvd n)
    rw [(rounded_of_lt hpos hsmall).1, hexact, hnone]
    push_cast
    rw [mul_assoc, ← zpow_natCast, ← zpow_add₀ two_ne_zero]
    simp
  · have hlog : 53 ≤ n.log2 := (Nat.le_log2 hpos.ne').2 hlarge
    have hshort : 52 - n.log2 = 0 := by omega
    rw [hshort, pow_zero, mul_one, nearest, rounded_eq_divNearest]
    push_cast
    simp

/-- A float with a full mantissa, as a whole number, is without its fraction. -/
theorem Full.toInt_eq {u : UnpackedFloat} {k : Nat} {e : Int} (h : Full u k e) (low high : Int) :
    u.toInt low high = ⌊(k * 2 ^ e : ℚ)⌋₊ := by
  have hread : u.toInt low high = (ExtendedMantissa.ofMantissaAndAccuracy
      (k <<< (e - 0).toNat) .exact >>> (0 - (e - (e - 0).toNat)).toNat).mantissa := by
    rw [h.eq]
    rfl
  have hshift : (0 - (e - e.toNat)).toNat = (-e).toNat := by omega
  have hsplit : e = e.toNat - (-e).toNat := by omega
  have hvalue : ((k * 2 ^ e.toNat : Nat) / 2 ^ (-e).toNat : ℚ) = k * 2 ^ e := by
    conv_rhs => rw [hsplit, zpow_sub₀ two_ne_zero, zpow_natCast, zpow_natCast]
    push_cast
    ring
  rw [hread, Int.sub_zero, hshift, Nat.shiftLeft_eq, ← hvalue]
  exact congrArg Nat.cast ((represents_ofMantissa _).shiftRight _).mantissa_eq

/-- A word that has been a float is the nearest number, or the last word if that is less. -/
theorem toUInt64_toFloat (w : UInt64) :
    w.toFloat.toUInt64.toNat = min (nearest w.toNat) (2 ^ 64 - 1) := by
  have hread : w.toFloat.toUInt64 = (Float.Model.pack
      (UnpackedFloat.ofNat Format.binary64 w.toNat)).unpack.toUInt64 := rfl
  rw [hread]
  rcases Nat.eq_zero_or_pos w.toNat with hzero | hpos
  · rw [hzero]
    rfl
  · obtain ⟨k, e, hfull, hvalue, hlow, hhigh⟩ := exists_full_nearest hpos w.toNat_lt
    rw [hfull.unpack_pack (by omega) (by omega), UnpackedFloat.toUInt64, hfull.toInt_eq, hvalue,
      Nat.floor_natCast, Int.toNat_natCast]
    have hsize : UInt64.size = 2 ^ 64 := rfl
    rcases Nat.lt_or_ge (nearest w.toNat) UInt64.size with hlt | hge
    · rw [UInt64.toNat_ofNatClamp_of_lt hlt]
      omega
    · rw [UInt64.toNat_ofNatClamp_of_le hge]
      omega

end Random

namespace Whole

open BalanceAttack.Random

variable {n : Nat}

/-- **What comes back of a number** of 64 bits that has been a float is the nearest one of 53
bits, with zeros behind them, or the last signed number if that is less. -/
theorem ofFloat_toFloat (hn : n < 2 ^ 64) :
    ofFloat (toFloat n) = (min (nearest n) (2 ^ 63 - 1) : Nat) := by
  have hword : (UInt64.ofNat n).toNat = n := by
    rw [UInt64.toNat_ofNat', Nat.mod_eq_of_lt hn]
  rw [toFloat_of_nonneg (Int.natCast_nonneg n), Int.natAbs_natCast, ofFloat,
    if_neg ((plus_toFloat _).not_lt (by decide +kernel)), toUInt64_toFloat, hword]
  norm_num

/-- The numbers that are kept by floats: those that end in enough zeros, and the last signed
one, to which the next larger float is held. -/
def Kept (n : Nat) : Prop := 2 ^ excess n ∣ n ∨ n = 2 ^ 63 - 1

instance : DecidablePred Kept := fun _ => inferInstanceAs (Decidable (_ ∨ _))

/-- Numbers of 53 bits are kept, and the next one. -/
theorem kept_of_le (hn : n ≤ 2 ^ 53) : Kept n := by
  rcases Nat.lt_or_eq_of_le hn with hlt | rfl
  · exact .inl (by rw [excess_of_lt hlt]; exact one_dvd n)
  · decide +kernel

theorem ofFloat_toFloat_eq_iff (hn : n < 2 ^ 63) : ofFloat (toFloat n) = n ↔ Kept n := by
  rw [ofFloat_toFloat (by omega), Int.natCast_inj, Kept, ← nearest_eq_iff]
  constructor
  · omega
  · rintro (hexact | rfl)
    · omega
    · decide +kernel

end Whole

/-! ## tables of single runs -/

namespace Report

open BalanceAttack.Random

/-- **What a table of single runs shows of a measurement** of at most 63 bits: there is a row
for each run, and the number in it is the nearest one that a float keeps.  It is the number that
was measured if and only if that one is kept, as are all of at most 53 bits. -/
theorem field_of_measure {r : Report} (hnone : r.average = none) :
    r.table.fields.length = r.outcomes.length ∧
    ∀ (i j n : Nat) (o : Outcome) (m : Measure), r.outcomes[i]? = some o →
      r.table.columns[j]? = some (.measure m) → m.count o = n → n < 2 ^ 63 →
      ∃ row field, r.table.fields[i]? = some row ∧ row[j]? = some field ∧
        field = toString (min (nearest n) (2 ^ 63 - 1)) ∧
        (field = toString (m.count o) ↔ Whole.Kept n) ∧
        (n ≤ 2 ^ 53 → field = toString (m.count o)) := by
  have hfields : r.table.fields = r.outcomes.map fun o =>
      (r.table.columns.map (Column.cell none o [])).map Cell.render := by
    rw [fields_table, rowGroups, hnone, List.map_map]
    rfl
  refine ⟨by rw [hfields, List.length_map], fun i j n o m ho hm hn hbound => ?_⟩
  have hshown : Whole.ofFloat (m.value o) = (min (nearest n) (2 ^ 63 - 1) : Nat) := by
    rw [Measure.value, hn, Whole.ofFloat_toFloat (by omega)]
  have hkept : toString (Whole.ofFloat (m.value o)) = toString (m.count o) ↔ Whole.Kept n := by
    rw [← Whole.ofFloat_toFloat_eq_iff hbound, Measure.value, hn]
    exact Int.repr_inj
  have hrow : r.table.fields[i]? =
      some ((r.table.columns.map (Column.cell none o [])).map Cell.render) := by
    rw [hfields, List.getElem?_map, ho]
    rfl
  refine ⟨_, toString (Whole.ofFloat (m.value o)), hrow, ?_, ?_, hkept,
    fun hsmall => hkept.2 (Whole.kept_of_le hsmall)⟩
  · rw [List.getElem?_map, List.getElem?_map, hm]
    rfl
  · rw [hshown]
    rfl

/-- A run whose fork lasted for a number of milliseconds of 54 bits. -/
def longFork : Outcome where
  env := {}
  strategy := "Test"
  forkDuration := 9007199254740993
  convergedSide := some .left
  blocksMined := 10
  adversaryBlocks := 2
  releasedBlocks := 1
  withheldBlocks := 1
  borrowedBlocks := 0
  diameter := 300

/-- A table of that run. -/
def longReport : Report := selectAll { outcomes := [longFork], repeats := 1 } [.layout .csv]

theorem field_of_longFork :
    longReport.average = none ∧ longReport.outcomes[0]? = some longFork ∧
    (∃ row field, longReport.table.fields[0]? = some row ∧ row[1]? = some field ∧
      field ≠ toString (Measure.forkDuration.count longFork)) := by
  obtain ⟨_, h⟩ := field_of_measure (r := longReport) rfl
  obtain ⟨row, field, hrow, hfield, _, hkept, _⟩ :=
    h 0 1 9007199254740993 longFork .forkDuration rfl rfl rfl (by decide)
  exact ⟨rfl, rfl, row, field, hrow, hfield, fun hsame =>
    absurd (hkept.1 hsame) (by decide +kernel)⟩

/-- The table shows one millisecond less. -/
theorem altered_longFork :
    longReport.average = none ∧ longReport.table.rows.length = 1 ∧
    longReport.table.text = "Evil Rate,Fork Duration (ms)\n0.200000,9007199254740992" ∧
    toString (Measure.forkDuration.count longFork) = "9007199254740993" := by
  decide +kernel

end Report

end BalanceAttack
