import BalanceAttack.Proofs.Confluence
import BalanceAttack.Proofs.Loan
import BalanceAttack.Proofs.Potential
import Mathlib.Data.Fintype.EquivFin

/-!
# BalanceAttack.Proofs.TurningPoint

How far a view is from favoring the other side, in blocks that are still to be
delivered there.  A tie favors the left side, so that the right side has to get
ahead and the left side only to catch up:

* `Unseen.turnedBy_iff` — how many new blocks turn a view;
* `turningPoint_margin` — the margin of the balancing adversary tells apart views that
  turn with fewer than three blocks, with three, and with more.
-/

namespace BalanceAttack

namespace View

variable {v : View} {bs : List BlockId}

/-- Blocks that a view has not received, none of them twice. -/
structure Unseen (v : View) (bs : List BlockId) : Prop where
  nodup : bs.Nodup
  has_eq_false : ∀ b ∈ bs, v.has b = false

/-- The view favors another side once the blocks are delivered on the side that it does
not favor. -/
def TurnedBy (v : View) (bs : List BlockId) : Prop :=
  (v.deliverAll (bs.map fun b => (v.side.other, b))).2.side ≠ v.side

/-- There are as many new blocks as one likes. -/
theorem exists_unseen (v : View) (j : Nat) : ∃ bs, v.Unseen bs ∧ bs.length = j := by
  have : Infinite BlockId := Infinite.of_injective BlockId.mk fun _ _ => BlockId.mk.inj
  obtain ⟨t, hsub, hcard⟩ := Infinite.exists_superset_card_eq v.received.toList.toFinset
    (v.received.toList.toFinset.card + j) (Nat.le_add_right _ _)
  refine ⟨(t \ v.received.toList.toFinset).toList, ⟨Finset.nodup_toList _, fun b hb => ?_⟩, ?_⟩
  · have hnew : b ∉ v.received := by simp_all
    rwa [has, Bool.eq_false_iff, ne_eq, Std.TreeSet.contains_iff_mem]
  · rw [Finset.length_toList, Finset.card_sdiff_of_subset hsub, hcard]
    omega

/-- New blocks add their number to the weight of the side they are delivered on. -/
theorem Unseen.weight_deliverAll (h : v.Unseen bs) (s t : Side) :
    (v.deliverAll (bs.map fun b => (s, b))).2.weight t =
      v.weight t + if s = t then bs.length else 0 := by
  rw [deliverAll_snd, weight_foldl_record, onSide_map]
  · split <;> rfl
  · rw [map_snd_pair]
    exact h.nodup
  · rw [map_snd_pair]
    exact h.has_eq_false

/-- New blocks turn a view once the other side draws level, and one more is needed where the
left side is favored. -/
theorem Unseen.turnedBy_iff (h : v.Unseen bs) (hv : v.UpToDate) :
    v.TurnedBy bs ↔
      v.weight v.side + (if v.side = .left then 1 else 0) ≤ v.weight v.side.other + bs.length := by
  have hleft := hv.deliverAll (bs.map fun b => (v.side.other, b))
  rw [UpToDate, h.weight_deliverAll, h.weight_deliverAll] at hleft
  unfold TurnedBy
  cases hside : v.side with
  | left =>
      rw [hside] at hleft
      rw [ne_eq, hleft]
      simp only [Side.other, reduceCtorEq, if_true, if_false]
      omega
  | right =>
      rw [hside] at hleft
      have hright : ∀ s : Side, s ≠ .right ↔ s = .left := fun s => by cases s <;> simp
      rw [hright, hleft]
      simp only [Side.other, reduceCtorEq, if_true, if_false, Nat.add_zero]

end View

namespace Balancer

/-- The margin follows the least number of new blocks that turn the own view, whichever side
that favors. -/
theorem turningPoint_margin (b : Balancer) (hview : b.view.UpToDate) :
    ∃ k, IsLeast {j | ∃ bs, b.view.Unseen bs ∧ bs.length = j ∧ b.view.TurnedBy bs} k ∧
      (∀ bs, b.view.Unseen bs → (b.view.TurnedBy bs ↔ k ≤ bs.length)) ∧
      (b.margin = -1 ↔ k < 3) ∧ (b.margin = 0 ↔ k = 3) ∧ (b.margin = 1 ↔ 3 < k) := by
  obtain ⟨distance, hpos, hdistance, hmargin⟩ := exists_distance hview
  obtain ⟨k, rfl⟩ := Int.eq_ofNat_of_zero_le (show 0 ≤ distance by omega)
  have hturned : ∀ bs, b.view.Unseen bs → (b.view.TurnedBy bs ↔ k ≤ bs.length) := by
    intro bs hbs
    rw [hbs.turnedBy_iff hview]
    by_cases hside : b.view.side = .left
    · rw [if_pos hside, target] at hdistance
      rw [if_pos hside]
      omega
    · rw [if_neg hside, target] at hdistance
      rw [if_neg hside]
      omega
  refine ⟨k, ⟨?_, ?_⟩, hturned, ?_⟩
  · obtain ⟨bs, hbs, hlength⟩ := b.view.exists_unseen k
    exact ⟨bs, hbs, hlength, (hturned bs hbs).2 hlength.ge⟩
  · rintro j ⟨bs, hbs, rfl, hturn⟩
    exact (hturned bs hbs).1 hturn
  · rw [hmargin]
    split
    · omega
    · split <;> omega

/-- A view that is two blocks ahead on the left. -/
def twoAhead : View := ((View.fresh .adversary).deliverAll [(.left, ⟨1⟩), (.left, ⟨2⟩)]).2

theorem turningPoint_twoAhead :
    margin { view := twoAhead } = 0 ∧
      IsLeast {j | ∃ bs, twoAhead.Unseen bs ∧ bs.length = j ∧ twoAhead.TurnedBy bs} 3 := by
  have htallies : twoAhead.Tallies _ := View.tallies_deliverAll _ _
  have hmargin : margin { view := twoAhead } = 0 := by
    unfold margin
    rw [View.lead_eq, htallies.weight_eq, htallies.weight_eq]
    decide
  obtain ⟨k, hleast, -, -, hthree, -⟩ :=
    turningPoint_margin { view := twoAhead } ((View.upToDate_fresh _).deliverAll _)
  rw [hthree.1 hmargin] at hleast
  exact ⟨hmargin, hleast⟩

end Balancer

end BalanceAttack
