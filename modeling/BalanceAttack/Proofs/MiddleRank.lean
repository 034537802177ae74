import BalanceAttack.Report.Column
import Mathlib.Data.List.Basic

/-!
# BalanceAttack.Proofs.MiddleRank

The median is told by ranks alone.  No two floats of different bits have the same place
in the total order, so that only one list of given floats is sorted, and its elements are
told by how many come before them.

* `orderKey_injective` — bits with the same place are the same;
* `mergeSort_of_perm` — floats are sorted alike, whatever order they come in;
* `ranked_getElem` — what is at a place of a sorted list has its rank, and
  `Ranked.unique` — nothing else has;
* `isMiddle_medianOfBits` — the median for an odd and for an even number of floats;
* `median_of_repeats` — all of this, and that repeats may come in any order.
-/

namespace BalanceAttack

/-! ## the order of floats -/

/-- Does a float come strictly before another in the total order? -/
def Before (x y : UInt64) : Prop := orderKey x < orderKey y

instance : DecidableRel Before := fun x y => Int.decLt (orderKey x) (orderKey y)

theorem notAfter_iff {x y : UInt64} : notAfter x y = true ↔ ¬Before y x := by
  rw [notAfter, decide_eq_true_eq, Before, Int.not_lt]

/-- **Bits with the same place in the total order are the same.** -/
theorem orderKey_injective : Function.Injective orderKey := by
  intro x y h
  have hx := x.toNat_lt
  have hy := y.toNat_lt
  have hnat : Nat.pow 2 63 = 9223372036854775808 := rfl
  have hint : Int.pow 2 63 = 9223372036854775808 := rfl
  unfold orderKey at h
  rw [hnat, hint] at h
  refine UInt64.toNat_inj.1 ?_
  split at h <;> split at h <;> omega

/-- From the first to the last: a negative NaN, infinity, one and zero, then the same with
the other sign the other way round. -/
example : [0xfff8000000000000, 0xfff0000000000000, 0xbff0000000000000, 0x8000000000000000,
    0, 0x3ff0000000000000, 0x7ff0000000000000, 0x7ff8000000000000].Pairwise Before := by
  decide

/-! ## sorted floats -/

theorem pairwise_mergeSort (values : List UInt64) :
    (values.mergeSort notAfter).Pairwise fun x y => ¬Before y x := by
  have hsorted : (values.mergeSort notAfter).Pairwise fun x y => notAfter x y = true := by
    refine List.pairwise_mergeSort ?_ ?_ values
    · exact fun x y z => notAfter_trans
    · exact fun x y => Bool.or_eq_true_iff.2 (notAfter_total x y)
  exact hsorted.imp notAfter_iff.1

/-- **Floats are sorted alike**, whatever order they come in. -/
theorem mergeSort_of_perm {values others : List UInt64} (h : others.Perm values) :
    others.mergeSort notAfter = values.mergeSort notAfter := by
  have hperm : (others.mergeSort notAfter).Perm (values.mergeSort notAfter) :=
    (List.mergeSort_perm others notAfter).trans
      (h.trans (List.mergeSort_perm values notAfter).symm)
  refine hperm.eq_of_pairwise (fun x y _ _ hxy hyx => ?_) (pairwise_mergeSort others)
    (pairwise_mergeSort values)
  exact orderKey_injective (Int.le_antisymm (Int.not_lt.1 hxy) (Int.not_lt.1 hyx))

/-! ## ranks -/

/-- A float that is the `k`-th of some in the total order, counted from one. -/
structure Ranked (values : List UInt64) (k : Nat) (x : UInt64) : Prop where
  mem : x ∈ values
  /-- Fewer than `k` come before it. -/
  before : values.countP (fun y => Before y x) < k
  /-- At least `k` do not come after it, itself among them. -/
  upTo : k ≤ values.countP (fun y => ¬Before x y)

namespace Ranked

variable {values others : List UInt64} {k : Nat} {x y : UInt64}

/-- Ranks do not depend on the order in which floats come. -/
theorem of_perm (h : Ranked values k x) (hperm : values.Perm others) : Ranked others k x where
  mem := hperm.mem_iff.1 h.mem
  before := hperm.countP_eq _ ▸ h.before
  upTo := hperm.countP_eq _ ▸ h.upTo

theorem not_before (hx : Ranked values k x) (hy : Ranked values k y) : ¬Before x y := by
  intro hxy
  -- what does not come after `x` comes before `y`, but `k` are not too many for that
  have hle : values.countP (fun z => ¬Before x z) ≤ values.countP (fun z => Before z y) := by
    refine List.countP_mono_left fun z _ hz => ?_
    rw [decide_eq_true_eq] at hz ⊢
    exact Int.lt_of_le_of_lt (Int.not_lt.1 hz) hxy
  exact Nat.lt_irrefl k (Nat.lt_of_le_of_lt (Nat.le_trans hx.upTo hle) hy.before)

/-- Only one float has a rank. -/
theorem unique (hx : Ranked values k x) (hy : Ranked values k y) : x = y :=
  orderKey_injective
    (Int.le_antisymm (Int.not_lt.1 (hy.not_before hx)) (Int.not_lt.1 (hx.not_before hy)))

/-- As many come after a float as its rank leaves. -/
theorem after_le (h : Ranked values k x) :
    values.countP (fun y => Before x y) ≤ values.length - k := by
  have hlength := List.length_eq_countP_add_countP (fun y => decide (Before x y)) (l := values)
  have hupTo := h.upTo
  simp only [decide_not, Bool.not_eq_true, Bool.decide_eq_false] at hlength hupTo
  omega

end Ranked

theorem not_before_getElem {l : List UInt64} (hl : l.Pairwise fun x y => ¬Before y x) {i j : Nat}
    (hi : i < l.length) (hj : j < l.length) (hij : i ≤ j) : ¬Before l[j] l[i] := by
  rcases Nat.eq_or_lt_of_le hij with rfl | hlt
  · exact Int.lt_irrefl _
  · exact List.pairwise_iff_getElem.1 hl i j hi hj hlt

/-- What is at a place of a sorted list has its rank. -/
theorem ranked_getElem {l : List UInt64} (hl : l.Pairwise fun x y => ¬Before y x) {i : Nat}
    (hi : i < l.length) : Ranked l (i + 1) l[i] where
  mem := List.getElem_mem hi
  before := by
    have hlater : (l.drop i).countP (fun y => Before y l[i]) = 0 := by
      refine List.countP_eq_zero.2 fun y hy => ?_
      obtain ⟨j, hj, rfl⟩ := List.mem_drop_iff_getElem.1 hy
      simpa using not_before_getElem hl hi (by omega) (Nat.le_add_right i j)
    have hearlier : (l.take i).countP (fun y => Before y l[i]) ≤ i :=
      Nat.le_trans List.countP_le_length (List.length_take_le i l)
    have hsplit : l.countP (fun y => Before y l[i]) = (l.take i).countP (fun y => Before y l[i]) +
        (l.drop i).countP (fun y => Before y l[i]) := by
      rw [← List.countP_append, List.take_append_drop]
    omega
  upTo := by
    have hearlier : (l.take (i + 1)).countP (fun y => ¬Before l[i] y) =
        (l.take (i + 1)).length := by
      refine List.countP_eq_length.2 fun y hy => ?_
      obtain ⟨j, hj, rfl⟩ := List.mem_take_iff_getElem.1 hy
      simpa using not_before_getElem hl (by omega : j < l.length) hi (by omega)
    calc i + 1 = (l.take (i + 1)).length := by rw [List.length_take_of_le hi]
      _ = (l.take (i + 1)).countP (fun y => ¬Before l[i] y) := hearlier.symm
      _ ≤ l.countP (fun y => ¬Before l[i] y) := (List.take_sublist (i + 1) l).countP_le

/-! ## the median -/

/-- The middle of some floats: the one of middle rank, or half the sum of the two. -/
structure IsMiddle (values : List UInt64) (middle : Float) : Prop where
  odd : ∀ m, values.length = 2 * m + 1 → ∃ x ∈ values, middle = .ofBits x ∧
    values.countP (fun y => Before y x) ≤ m ∧ values.countP (fun y => Before x y) ≤ m
  even : ∀ m, values.length = 2 * m → ∃ x y, Ranked values m x ∧ Ranked values (m + 1) y ∧
    middle = (.ofBits x + .ofBits y) / 2

theorem medianOfBits_of_perm {values others : List UInt64} (h : others.Perm values) :
    medianOfBits others = medianOfBits values := by
  rw [medianOfBits, mergeSort_of_perm h, medianOfBits]

/-- What is at a place of the sorted floats has its rank among the floats. -/
theorem exists_ranked (values : List UInt64) {i : Nat} (hi : i < values.length) :
    ∃ x, Ranked values (i + 1) x ∧
      ((values.mergeSort notAfter).map Float.ofBits)[i]? = some (.ofBits x) := by
  have hi' : i < (values.mergeSort notAfter).length := by rwa [List.length_mergeSort]
  exact ⟨(values.mergeSort notAfter)[i],
    (ranked_getElem (pairwise_mergeSort values) hi').of_perm (List.mergeSort_perm _ _),
    by rw [List.getElem?_map, List.getElem?_eq_getElem hi', Option.map_some]⟩

/-- The median of floats is their middle. -/
theorem isMiddle_medianOfBits {values : List UInt64} (hne : values ≠ []) :
    IsMiddle values (medianOfBits values) where
  odd m hm := by
    obtain ⟨x, hx, hget⟩ := exists_ranked values (i := m) (by omega)
    refine ⟨x, hx.mem, ?_, Nat.le_of_lt_succ hx.before, ?_⟩
    · have hmiddle : (2 * m + 1) / 2 = m := by omega
      simp [medianOfBits, hm, hmiddle, hget]
    · have hafter := hx.after_le
      omega
  even m hm := by
    have hpos : 0 < m := by
      have hlength := List.length_pos_iff.2 hne
      omega
    obtain ⟨x, hx, hgetx⟩ := exists_ranked values (i := m - 1) (by omega)
    obtain ⟨y, hy, hgety⟩ := exists_ranked values (i := m) (by omega)
    rw [Nat.sub_add_cancel hpos] at hx
    refine ⟨x, y, hx, hy, ?_⟩
    simp [medianOfBits, hm, hgetx, hgety]

/-- **The median does not depend on the order of the repeats.**  It is the middle of floats
with any bits, and stays the same when they come in another order; so does the median that a
report shows of what was measured. -/
theorem median_of_repeats :
    (∀ values : List UInt64, values ≠ [] → IsMiddle values (medianOfBits values) ∧
      ∀ others : List UInt64, others.Perm values → medianOfBits others = medianOfBits values) ∧
    ∀ (m : Measure) (first other : Outcome) (rest others : List Outcome),
      (other :: others).Perm (first :: rest) →
      Column.cell (some .median) other others (.measure m) =
        Column.cell (some .median) first rest (.measure m) := by
  refine ⟨fun values hne => ⟨isMiddle_medianOfBits hne, fun _ => medianOfBits_of_perm⟩, ?_⟩
  intro m first other rest others hperm
  have hvalues := (hperm.map m.value).map Float.toBits
  simp only [Column.cell, Average.of, median, medianOfBits_of_perm hvalues]

/-- Of a negative and a positive NaN, two zeros and infinity, the middle one is zero,
whatever order they come in. -/
theorem median_of_repeats_signed :
    let values : List UInt64 := [0x7ff8000000000000, 0, 0x7ff0000000000000,
      0xfff8000000000000, 0x8000000000000000]
    medianOfBits values = .ofBits 0 ∧ medianOfBits values.reverse = .ofBits 0 := by
  intro values
  obtain ⟨hmiddle, hperm⟩ := median_of_repeats.1 values (by decide)
  obtain ⟨x, hx, hmedian, hbefore, hafter⟩ := hmiddle.odd 2 rfl
  have honly : values.filter (fun x => values.countP (fun y => Before y x) ≤ 2 ∧
      values.countP (fun y => Before x y) ≤ 2) = [0] := by decide
  have hmem : x ∈ [0] := by
    rw [← honly, List.mem_filter]
    exact ⟨hx, decide_eq_true ⟨hbefore, hafter⟩⟩
  obtain rfl := List.mem_singleton.1 hmem
  exact ⟨hmedian, (hperm _ (List.reverse_perm values)).trans hmedian⟩

end BalanceAttack
