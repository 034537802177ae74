import BalanceAttack.Proofs.LinkDelay
import BalanceAttack.Proofs.Pace

/-!
# BalanceAttack.Proofs.Waits

No wait for a block is negative.  A point across a layer of the ziggurat has no minus sign,
and neither has a draw from the tail, as long as the logarithm of a number below one is not
positive; nothing more is asked of the logarithm here.

* `plus_acrossOfWord` — a point across a layer;
* `Plus.sub_of_not_pos` — a draw from the tail;
* `Draw.plus_of_exponential` — an exponentially distributed draw;
* `Run.nonneg_of_drawWaits` — the waits that are drawn at the blocks of a run.
-/

namespace BalanceAttack

namespace Random

open Float.Model Float.Model.UnpackedFloat

/-! ## points across a layer -/

theorem toNat_oneTo (k : BitVec 52) :
    (packComponents Format.binary64 .positive 1023#11 k).toNat = 1023 * 2 ^ 52 + k.toNat := by
  show (0#1 ++ 1023#11 ++ k).toNat = _
  rw [BitVec.toNat_append, ← Nat.shiftLeft_add_eq_or_of_lt k.isLt]
  rfl

/-- The bits of a float between one and two, read. -/
theorem full_oneTo (k : BitVec 52) : Full (UnpackedFloat.unpack Format.binary64
    (packComponents Format.binary64 .positive 1023#11 k)) (2 ^ 52 + k.toNat) (-52) :=
  ⟨by omega, by omega, unpack_packComponents .positive k (by decide) (by decide) _⟩

/-- The high 52 bits of a word are the mantissa of a float between one and two. -/
theorem toBitVec_acrossOfWord (w : UInt64) : ((w >>> 12) ||| 0x3ff0000000000000).toBitVec =
    packComponents Format.binary64 .positive 1023#11 (BitVec.ofNat 52 (w.toNat / 2 ^ 12)) := by
  have hw := w.toNat_lt
  have hacross : (w >>> 12).toNat = w.toNat / 2 ^ 12 := by
    rw [UInt64.toNat_shiftRight, Nat.shiftRight_eq_div_pow]
    rfl
  have hlt : w.toNat / 2 ^ 12 < 2 ^ 52 := by omega
  apply BitVec.eq_of_toNat_eq
  rw [toNat_oneTo, BitVec.toNat_ofNat, Nat.mod_eq_of_lt hlt]
  show ((w >>> 12) ||| 0x3ff0000000000000).toNat = _
  rw [UInt64.toNat_or, hacross, Nat.or_comm]
  exact (Nat.shiftLeft_add_eq_or_of_lt hlt 1023).symm

/-- A point across a layer has no minus sign. -/
theorem plus_acrossOfWord (w : UInt64) : Plus (acrossOfWord w) := by
  have hlow : Full (Float.ofBits 0x3fefffffffffffff).toModel.unpack 0x1fffffffffffff (-53) :=
    ⟨by decide, by decide, rfl⟩
  have hhigh := full_oneTo (BitVec.ofNat 52 (w.toNat / 2 ^ 12))
  rw [← toBitVec_acrossOfWord] at hhigh
  have hread : (Float.ofBits ((w >>> 12) ||| 0x3ff0000000000000)).toModel.unpack =
      UnpackedFloat.unpack Format.binary64 ((w >>> 12) ||| 0x3ff0000000000000).toBitVec :=
    hhigh.unpack_pack (by decide) (by decide)
  rw [← hread] at hhigh
  exact (Ordered.full hlow hhigh (.inl (by decide))).unsigned_sub.unpack_pack

theorem plus_edge (i : Fin 257) : Plus (Ziggurat.edge i) := by
  have hbits : Ziggurat.edgeBits.toList.all (fun w => w.toNat < 2 ^ 63) = true := by
    decide +kernel
  have hmem : Ziggurat.edgeBits[i] ∈ Ziggurat.edgeBits.toList := by simp
  exact plus_ofBits (by simpa using List.all_eq_true.1 hbits _ hmem)

/-! ## the tail -/

/-- What is not positive can be taken from a positive number without a minus sign. -/
theorem Full.unsigned_sub {u v : UnpackedFloat} {m : Nat} {e : Int} (hu : Full u m e)
    (hv : v.compare (.zero .positive) ≠ some .gt) :
    Unsigned (UnpackedFloat.sub Format.binary64 u v) := by
  rw [hu.eq]
  cases v with
  | notANumber => trivial
  | zero sign => rfl
  | infinity sign =>
      cases sign with
      | positive => exact absurd rfl hv
      | negative => rfl
  | finite sign m' e' hm' =>
      cases sign with
      | positive => exact absurd rfl hv
      | negative =>
          refine unsigned_normalize _ ?_ _
          show (0 : Int) ≤ ((_ : Nat) : Int) - -((_ : Nat) : Int)
          rw [Int.sub_neg]
          exact Int.add_nonneg (Int.natCast_nonneg _) (Int.natCast_nonneg _)

theorem unpack_zero : (0 : Float).toModel.unpack = .zero .positive := rfl

/-- What is left of a float when one is taken from it that is not positive. -/
theorem Plus.sub_of_not_pos {x y : Float} {m : Nat} {e : Int} (hx : Full x.toModel.unpack m e)
    (hy : ¬ 0 < y) : Plus (x - y) := by
  have hcompare : y.toModel.unpack.compare (.zero .positive) ≠ some .gt := by
    intro hgt
    refine hy (lt_of_unpack ?_)
    rw [unpack_zero]
    cases hunpack : y.toModel.unpack with
    | notANumber | zero =>
        rw [hunpack] at hgt
        cases hgt
    | infinity sign | finite sign =>
        cases sign with
        | positive => rfl
        | negative =>
            rw [hunpack] at hgt
            cases hgt
  exact (hx.unsigned_sub hcompare).unpack_pack

/-- A number that is neither zero nor less has no minus sign. -/
theorem plus_of_pos {x : Float} (hpos : ¬ x ≤ 0) : Plus x := by
  have hle : ¬ x.toModel.unpack.le (.zero .positive) = true := fun h => hpos (le_of_unpack h)
  rw [Plus]
  cases hunpack : x.toModel.unpack with
  | notANumber => trivial
  | zero => exact absurd (hunpack ▸ rfl) hle
  | infinity sign | finite sign =>
      cases sign with
      | positive => rfl
      | negative => exact absurd (hunpack ▸ rfl) hle

theorem full_tailStart : Full Ziggurat.tailStart.toModel.unpack 0x1ec9d9297ebb83 (-50) :=
  ⟨by decide, by decide, rfl⟩

/-! ## draws -/

namespace Draw

variable {σ : Type} [WordSource σ] {supply rest : Supply σ} {x : Float} {mean : Float}
  {wait : Int}

/-- What the ziggurat answers has no minus sign, if no logarithm of a drawn number is positive. -/
theorem plus_of_exponential (hlog : ∀ w, ¬ 0 < Float.log (unitOfWord w))
    (h : exponential supply = .ok (x, rest)) : Plus x := by
  refine of_settle (fun answer => ∀ x, answer = .inr x → Plus x) ?_ (fun _ h => nomatch h) h x rfl
  intro _ supply answer rest _ hturn x hx
  subst hx
  unfold zigguratTurn at hturn
  obtain ⟨w, _, _, hturn⟩ := bind_eq_ok_iff.1 hturn
  have hacross : Plus (acrossOfWord w * Ziggurat.edge (layerOfWord w).castSucc) :=
    (plus_acrossOfWord w).mul (plus_edge _)
  split at hturn
  · obtain ⟨hx, _⟩ := Prod.mk.inj (Except.ok.inj hturn)
    exact Sum.inr.inj hx ▸ hacross
  · split at hturn
    · obtain ⟨u, _, hunit, hturn⟩ := bind_eq_ok_iff.1 hturn
      obtain ⟨w', _, _, hunit⟩ := bind_eq_ok_iff.1 hunit
      obtain ⟨rfl, _⟩ := Prod.mk.inj (Except.ok.inj hunit)
      obtain ⟨hx, _⟩ := Prod.mk.inj (Except.ok.inj hturn)
      exact Sum.inr.inj hx ▸ Plus.sub_of_not_pos full_tailStart (hlog w')
    · obtain ⟨up, _, _, hturn⟩ := bind_eq_ok_iff.1 hturn
      split at hturn
      · obtain ⟨hx, _⟩ := Prod.mk.inj (Except.ok.inj hturn)
        exact Sum.inr.inj hx ▸ hacross
      · obtain ⟨hx, _⟩ := Prod.mk.inj (Except.ok.inj hturn)
        exact absurd hx Sum.inl_ne_inr

theorem nonneg_of_interval (hmean : Plus mean) (hlog : ∀ w, ¬ 0 < Float.log (unitOfWord w))
    (h : interval mean supply = .ok (wait, rest)) : 0 ≤ wait := by
  obtain ⟨x, _, hx, h⟩ := bind_eq_ok_iff.1 h
  obtain ⟨rfl, _⟩ := Prod.mk.inj (Except.ok.inj h)
  have hone : Full (1 : Float).toModel.unpack (2 ^ 52) (-52) := ⟨le_rfl, by decide, rfl⟩
  have hscale : Plus (1 / (1 / mean)) := Plus.div hone.unsigned (Plus.div hone.unsigned hmean)
  exact Whole.ofFloat_nonneg ((plus_of_exponential hlog hx).mul hscale)

end Draw

end Random

theorem Environment.Valid.plus_blockPeriod {env : Environment} (h : env.Valid) :
    Random.Plus env.blockPeriod := by
  refine Random.plus_of_pos fun hle => ?_
  unfold Valid defect at h
  simp only [hle, decide_true, Bool.or_true, if_true] at h
  repeat' split at h
  all_goals contradiction

namespace Run

open BalanceAttack.Random

variable {α σ : Type} [WordSource σ] {run : Run α} {supply rest : Supply σ} {waits : List Int}

/-- **No wait is negative**, as long as no logarithm of a drawn number is positive. -/
theorem nonneg_of_drawWaits (hvalid : run.env.Valid)
    (hlog : ∀ w, ¬ 0 < Float.log (unitOfWord w)) {k : Nat}
    (h : run.drawWaits k supply = .ok (waits, rest)) : ∀ wait ∈ waits, 0 ≤ wait := by
  induction k generalizing waits rest with
  | zero =>
      obtain ⟨rfl, _⟩ := Prod.mk.inj (Except.ok.inj h)
      exact fun _ hwait => nomatch hwait
  | succ k ih =>
      obtain ⟨before, between, wait, hbefore, hblock, rfl⟩ := drawWaits_succ_iff.1 h
      rw [List.forall_mem_append, List.forall_mem_singleton]
      refine ⟨ih hbefore, ?_⟩
      obtain ⟨drawn, _, hdrawn, hblock⟩ := Draw.bind_eq_ok_iff.1 hblock
      have hnonneg := Draw.nonneg_of_interval hvalid.plus_blockPeriod hlog hdrawn
      obtain ⟨chance, _, _, hblock⟩ := Draw.bind_eq_ok_iff.1 hblock
      split at hblock
      · obtain ⟨rfl, _⟩ := Prod.mk.inj (Except.ok.inj hblock)
        exact hnonneg
      · obtain ⟨_, _, _, hblock⟩ := Draw.bind_eq_ok_iff.1 hblock
        obtain ⟨rfl, _⟩ := Prod.mk.inj (Except.ok.inj hblock)
        exact hnonneg

end Run

end BalanceAttack
