import BalanceAttack.Proofs.Exactness
import BalanceAttack.Proofs.Faithful
import BalanceAttack.Proofs.Headroom

/-!
# BalanceAttack.Proofs.Quota

The quotas of a release decision, computed in floats.  A mean lead is a quotient and
is rounded, and so are the two sums that make it a quota; but a quota that is not whole
misses the next whole number by at least one part in the size of a group, and floats
tell such numbers apart as long as groups and leads are of moderate size:

* `Near.neg`, `Near.add`, `Near.trans` — what negation, sums and rounding keep;
* `Near.ceil_eq` — numbers that lie near each other are rounded up to the same one;
* `floatCount_floatQuota` — the blocks asked for are those that the exact quota asks for;
* `floatCount_of_reaches` — so it is in runs with fewer than `2 ^ 25` nodes and blocks.
-/

namespace BalanceAttack

open BalanceAttack.Random

/-! ## numbers on either side of a grid -/

/-- Two numbers lie on the same sides of the multiples of `2 ^ -25` up to the one of `c`. -/
def Near (c : Int) (r v : ℚ) : Prop :=
  ∀ j : Int, |j| ≤ c → (r ≤ j / 2 ^ 25 → v ≤ j / 2 ^ 25) ∧ (j / 2 ^ 25 ≤ r → j / 2 ^ 25 ≤ v)

namespace Near

variable {c d : Int} {r v w : ℚ}

theorem of_faithful (h : Faithful r v) (hc : c ≤ 2 ^ 53) : Near c r v := by
  intro j hj
  refine h _ ⟨j, -25, hj.trans hc, ?_⟩
  rw [zpow_neg, div_eq_mul_inv]
  norm_cast

theorem trans (h : Near c r v) (h' : Near c v w) : Near c r w := fun j hj =>
  ⟨fun hle => (h' j hj).1 ((h j hj).1 hle), fun hle => (h' j hj).2 ((h j hj).2 hle)⟩

theorem neg (h : Near c r v) : Near c (-r) (-v) := by
  intro j hj
  obtain ⟨hle, hge⟩ := h (-j) (by rwa [abs_neg])
  rw [Int.cast_neg, neg_div] at hle hge
  exact ⟨fun hr => neg_le.1 (hge (neg_le.1 hr)), fun hr => le_neg.1 (hle (le_neg.1 hr))⟩

/-- A whole number is added to both. -/
theorem add (h : Near c r v) (n : Int) (hd : d + |n| * 2 ^ 25 ≤ c) : Near d (r + n) (v + n) := by
  intro j hj
  have hbound : |j - n * 2 ^ 25| ≤ c := by
    have htriangle := abs_sub j (n * 2 ^ 25)
    rw [abs_mul, abs_of_pos (by norm_num : (0 : Int) < 2 ^ 25)] at htriangle
    omega
  have hshift : ((j - n * 2 ^ 25 : Int) / 2 ^ 25 : ℚ) = j / 2 ^ 25 - n := by
    push_cast
    ring
  obtain ⟨hle, hge⟩ := h _ hbound
  rw [hshift] at hle hge
  exact ⟨fun hr => le_sub_iff_add_le.1 (hle (le_sub_iff_add_le.2 hr)),
    fun hr => sub_le_iff_le_add.1 (hge (sub_le_iff_le_add.2 hr))⟩

/-- Both are rounded up to the same whole number if the first one is a fraction with a small
denominator. -/
theorem ceil_eq (h : Near c r v) {n : Nat} (hn : 0 < n) (hn' : n ≤ 2 ^ 25) {t : Int}
    (ht : r * n = t) {k : Int} (hr : |r| ≤ k) (hk : (k + 2) * 2 ^ 25 ≤ c) : v.ceil = r.ceil := by
  obtain ⟨hlow, hhigh⟩ := abs_le.1 hr
  have hle : r.ceil ≤ k := Rat.ceil_le_iff.2 hhigh
  have hge : -k - 1 < r.ceil := Rat.lt_ceil_iff.2 (by push_cast; linarith)
  refine Int.le_antisymm ?_ ?_
  · -- the whole number above the first one is not below the second one
    have habove := (h (r.ceil * 2 ^ 25) (abs_le.2 ⟨by omega, by omega⟩)).1
    have hwhole : ((r.ceil * 2 ^ 25 : Int) / 2 ^ 25 : ℚ) = r.ceil := by
      push_cast
      ring
    rw [hwhole] at habove
    exact Rat.ceil_le_iff.2 (habove (Rat.ceil_le_iff.1 le_rfl))
  · -- the first one is at least one part in its denominator above the whole number below it
    have hbelow := (h ((r.ceil - 1) * 2 ^ 25 + 1) (abs_le.2 ⟨by omega, by omega⟩)).2
    have hpart : (((r.ceil - 1) * 2 ^ 25 + 1 : Int) / 2 ^ 25 : ℚ) =
        (r.ceil - 1 : Int) + 1 / 2 ^ 25 := by
      push_cast
      ring
    have hnq : (0 : ℚ) < n := Nat.cast_pos.2 hn
    have hstep : ((r.ceil - 1 : Int) + 1 / n : ℚ) ≤ r := by
      have hlt : ((r.ceil - 1 : Int) : ℚ) < r := Rat.lt_ceil_iff.1 (by omega)
      have hmul : (r.ceil - 1) * n < t := by
        rw [← Int.cast_lt (R := ℚ), ← ht]
        push_cast at hlt ⊢
        exact mul_lt_mul_of_pos_right hlt hnq
      have hnext : (((r.ceil - 1) * n + 1 : Int) : ℚ) ≤ r * n := by
        rw [ht]
        exact_mod_cast hmul
      rw [← div_le_iff₀ hnq] at hnext
      refine le_trans (le_of_eq ?_) hnext
      push_cast
      field_simp
    have hsmall : (1 / 2 ^ 25 : ℚ) ≤ 1 / n :=
      one_div_le_one_div_of_le hnq (by exact_mod_cast hn')
    rw [hpart] at hbelow
    have hv := hbelow (by linarith)
    have hlt : ((r.ceil - 1 : Int) : ℚ) < (r.ceil - 1 : Int) + 1 / 2 ^ 25 :=
      lt_add_of_pos_right _ (by norm_num)
    exact Int.le_of_sub_one_lt (Rat.lt_ceil_iff.2 (hlt.trans_le hv))

end Near

/-! ## counts of floats -/

/-- The number of blocks that are asked for to meet a quota: what it is without its fraction, and
one more if it has one, at most the largest word. -/
def floatCount (quota : Float) : Nat :=
  if 0 < quota then
    min (quota.toUInt64.toNat + if quota.toUInt64.toFloat < quota then 1 else 0) (2 ^ 64 - 1)
  else 0

variable {k : Int} {f g : Float} {r v : ℚ}

theorem reads_zero (k : Int) : Reads k 0 0 := Stands.zero .positive

theorem reads_one : Reads 52 1 1 := by
  have hword := reads_toFloat (n := 1) (by decide)
  rw [Nat.cast_one] at hword
  exact hword

/-- Above a whole number the next one is the first that is not less. -/
theorem ceil_eq_floor_add {x : ℚ} (hx : 0 ≤ x) :
    x.ceil = (⌊x⌋₊ + if (⌊x⌋₊ : ℚ) < x then 1 else 0 : Nat) := by
  have hlow := Nat.floor_le hx
  have hhigh := Nat.lt_floor_add_one x
  split
  · next hlt =>
      refine Int.le_antisymm (Rat.ceil_le_iff.2 (by push_cast; exact hhigh.le)) ?_
      exact Int.add_one_le_of_lt (Rat.lt_ceil_iff.2 hlt)
  · next hge =>
      have heq : x = ⌊x⌋₊ := le_antisymm (not_lt.1 hge) hlow
      refine Int.le_antisymm (Rat.ceil_le_iff.2 (by push_cast; linarith)) ?_
      exact Int.le_of_sub_one_lt (Rat.lt_ceil_iff.2 (by push_cast; linarith))

/-- A float is rounded up to the next whole number. -/
theorem floatCount_eq (h : Reads k f v) (hv : v < 2 ^ 52) : floatCount f = v.ceil.toNat := by
  unfold floatCount
  by_cases hpos : 0 < v
  · obtain ⟨m, e, hfull, hvalue, _, _⟩ := Stands.exists_full h hpos
    have hfloor : ⌊v⌋₊ < 2 ^ 52 := (Nat.floor_lt hpos.le).2 (by exact_mod_cast hv)
    have hword : f.toUInt64 = UInt64.ofNat ⌊v⌋₊ := by
      have hread : f.toUInt64 = f.toModel.unpack.toUInt64 := rfl
      have hsize : UInt64.size = 2 ^ 64 := rfl
      rw [hread, Float.Model.UnpackedFloat.toUInt64, hfull.toInt_eq, ← hvalue, Int.toNat_natCast]
      refine UInt64.toNat_inj.1 ?_
      rw [UInt64.toNat_ofNatClamp_of_lt (by omega), UInt64.toNat_ofNat',
        Nat.mod_eq_of_lt (by omega)]
    have hnat : (UInt64.ofNat ⌊v⌋₊).toNat = ⌊v⌋₊ := by
      rw [UInt64.toNat_ofNat', Nat.mod_eq_of_lt (by omega)]
    have hlt := (reads_toFloat (n := ⌊v⌋₊) (by omega)).lt_iff h (Nat.cast_nonneg _)
    rw [if_pos (((reads_zero k).lt_iff h le_rfl).2 hpos), hword, hnat, ceil_eq_floor_add hpos.le,
      Int.toNat_natCast]
    simp only [hlt]
    split <;> omega
  · rw [if_neg fun hlt => hpos (((reads_zero k).lt_iff h le_rfl).1 hlt)]
    have hceil : v.ceil ≤ 0 := Rat.ceil_le_iff.2 (by simpa using hpos)
    exact (Int.toNat_eq_zero.2 hceil).symm

/-! ## floats near fractions -/

/-- A float that is near a fraction of at most `size` with a small denominator. -/
structure Tracks (c size k : Int) (f : Float) (r : ℚ) : Prop where
  near : ∃ v, Near c r v ∧ Reads k f v
  fraction : ∃ (n : Nat) (t : Int), 0 < n ∧ n ≤ 2 ^ 25 ∧ r * n = t
  bound : |r| ≤ size

namespace Tracks

variable {c size : Int}

theorem zero (hsize : 0 ≤ size) (hc : c ≤ 2 ^ 53) : Tracks c size k 0 0 where
  near := ⟨0, .of_faithful (.refl 0) hc, reads_zero k⟩
  fraction := ⟨1, 0, by decide, by decide, by simp⟩
  bound := by
    rw [abs_zero]
    exact_mod_cast hsize

theorem neg (h : Tracks c size k f r) (hk : k ≤ 971) : Tracks c size k (-f) (-r) where
  near := by
    obtain ⟨v, hv, hf⟩ := h.near
    exact ⟨-v, hv.neg, hf.neg hk⟩
  fraction := by
    obtain ⟨n, t, hn, hn', ht⟩ := h.fraction
    exact ⟨n, -t, hn, hn', by rw [neg_mul, ht, Int.cast_neg]⟩
  bound := by
    rw [abs_neg]
    exact h.bound

/-- A whole number is added. -/
theorem add (h : Tracks c size k f r) {n : Int} (hg : Reads k g n) (hk : k ≤ 900)
    (hc : c ≤ 2 ^ 53) : Tracks (c - |n| * 2 ^ 25) (size + |n|) (k + 52) (f + g) (r + n) where
  near := by
    obtain ⟨v, hv, hf⟩ := h.near
    obtain ⟨z, hz, hsum⟩ := hf.exists_add hg hk
    have hle : c - |n| * 2 ^ 25 ≤ 2 ^ 53 := by
      have hn := abs_nonneg n
      omega
    exact ⟨z, (hv.add n (by omega)).trans (.of_faithful hz hle), hsum⟩
  fraction := by
    obtain ⟨d, t, hd, hd', ht⟩ := h.fraction
    exact ⟨d, t + n * d, hd, hd', by push_cast; rw [add_mul, ht]⟩
  bound := by
    push_cast
    exact (abs_add_le r n).trans (add_le_add_left h.bound _)

/-- As many blocks are asked for as for the fraction. -/
theorem floatCount_eq (h : Tracks c size k f r) (hsize : size ≤ 2 ^ 27)
    (hc : (size + 2) * 2 ^ 25 ≤ c) :
    floatCount f = Balancer.wholeQuota r ∧ (0 < f ↔ 0 < r) := by
  obtain ⟨v, hv, hf⟩ := h.near
  obtain ⟨n, t, hn, hn', ht⟩ := h.fraction
  have hceil := hv.ceil_eq hn hn' ht h.bound hc
  have hle : v ≤ size := by
    have hwhole : ((size * 2 ^ 25 : Int) / 2 ^ 25 : ℚ) = size := by
      push_cast
      ring
    have hnonneg : (0 : ℚ) ≤ size := (abs_nonneg r).trans h.bound
    have hsize' : 0 ≤ size := by exact_mod_cast hnonneg
    have habove := (hv (size * 2 ^ 25) (by rw [abs_of_nonneg (by omega)]; omega)).1
    rw [hwhole] at habove
    exact habove ((le_abs_self r).trans h.bound)
  have hsmall : v < 2 ^ 52 := by
    have hcast : (size : ℚ) ≤ 2 ^ 27 := by exact_mod_cast hsize
    exact lt_of_le_of_lt (hle.trans hcast) (by norm_num)
  have hsign : ∀ x : ℚ, 0 < x.ceil ↔ 0 < x := fun x => by
    rw [Rat.lt_ceil_iff, Int.cast_zero]
  rw [BalanceAttack.floatCount_eq hf hsmall, hceil, Balancer.wholeQuota_eq]
  refine ⟨rfl, ?_⟩
  rw [(reads_zero k).lt_iff hf le_rfl, ← hsign, hceil, hsign]

end Tracks

/-! ## quotas in floats -/

namespace Balancer

/-- The mean lead of the left side over the mirrors of some nodes, as a float. -/
def floatLead (b : Balancer) (nodes : List Nat) : Float :=
  if nodes = [] then 0 else Whole.toFloat (b.total nodes) / (UInt64.ofNat nodes.length).toFloat

/-- The number of blocks to send to a side, computed in floats. -/
def floatQuota (margin : Int) (b : Balancer) (side : Side) : Float :=
  if b.view.side = side then 0
  else
    match side with
    | .left => -b.floatLead b.partition.left + Whole.toFloat margin
    | .right => b.floatLead b.partition.right + 1 + Whole.toFloat margin

variable {b : Balancer} {c : Nat}

/-- The mean lead of a group of moderate size is near enough. -/
theorem tracks_floatLead (hb : ∀ v ∈ b.mirrors, v.Light c) (hc : c ≤ 2 ^ 25) {nodes : List Nat}
    (hnodes : nodes.length ≤ 2 ^ 25) :
    Tracks (2 ^ 52) (2 ^ 25) 158 (b.floatLead nodes) (b.averageLead nodes) := by
  unfold floatLead
  have hmean : b.averageLead nodes = (b.total nodes : ℚ) / (nodes.length : ℚ) := rfl
  split
  · next hnil =>
      rw [hmean, hnil, List.length_nil, Nat.cast_zero, div_zero]
      exact .zero (by decide) (by decide)
  · next hne =>
      have hlength := List.length_pos_of_ne_nil hne
      have hlengthq : (0 : ℚ) < nodes.length := Nat.cast_pos.2 hlength
      have htotal : (b.total nodes).natAbs < 2 ^ 53 := by
        obtain ⟨hlow, hhigh⟩ := total_bounds hb nodes
        have hproduct : nodes.length * c ≤ 2 ^ 25 * 2 ^ 25 := Nat.mul_le_mul hnodes hc
        rw [← Int.natCast_mul] at hlow hhigh
        omega
      obtain ⟨z, hz, hread⟩ := (reads_wholeToFloat htotal).exists_div
        (reads_toFloat (n := nodes.length) (by omega)) hlengthq (by decide)
      refine ⟨⟨z, ?_, hread⟩, ⟨nodes.length, b.total nodes, hlength, hnodes, ?_⟩, ?_⟩
      · rw [hmean]
        exact .of_faithful hz (by decide)
      · rw [hmean, div_mul_cancel₀ _ hlengthq.ne']
      · obtain ⟨hlow, hhigh⟩ := averageLead_bounds hb nodes
        have hcq : (c : ℚ) ≤ 2 ^ 25 := by exact_mod_cast hc
        push_cast
        exact abs_le.2 ⟨by linarith, by linarith⟩

/-- **Floats ask for the same blocks.**  Where the groups, the leads in the mirrors and the margin
are no larger than `2 ^ 25`, a quota computed in floats is met by as many blocks as the exact one,
and is positive if that is. -/
theorem floatCount_floatQuota (hb : ∀ v ∈ b.mirrors, v.Light c) (hc : c ≤ 2 ^ 25)
    (hleft : b.partition.left.length ≤ 2 ^ 25) (hright : b.partition.right.length ≤ 2 ^ 25)
    {margin : Int} (hmargin : |margin| ≤ 2 ^ 25) (side : Side) :
    floatCount (b.floatQuota margin side) = wholeQuota (b.quota margin side) ∧
      (0 < b.floatQuota margin side ↔ 0 < b.quota margin side) := by
  have hmargin' : margin.natAbs < 2 ^ 53 := by
    rw [Int.abs_eq_natAbs] at hmargin
    omega
  have hread : ∀ k, 52 ≤ k → Reads k (Whole.toFloat margin) margin := fun k hk =>
    (reads_wholeToFloat hmargin').mono hk
  unfold floatQuota quota
  split
  · have hzero : Tracks (2 ^ 52) 0 0 0 0 := .zero (by decide) (by decide)
    exact hzero.floatCount_eq (by decide) (by decide)
  · cases side with
    | left =>
        exact (((tracks_floatLead hb hc hleft).neg (by decide)).add (hread _ (by decide))
          (by decide) (by decide)).floatCount_eq (by omega) (by omega)
    | right =>
        have hone : Reads 158 1 (1 : Int) := by
          rw [Int.cast_one]
          exact reads_one.mono (by decide)
        have hunit : |(1 : Int)| = 1 := abs_one
        exact (((tracks_floatLead hb hc hright).add hone (by decide) (by decide)).add
          (hread _ (by decide)) (by decide) (by decide)).floatCount_eq (by omega) (by omega)

theorem abs_margin_le (b : Balancer) : |b.margin| ≤ 1 := by
  unfold margin
  dsimp only
  generalize (if b.view.lead < 0 then -b.view.lead else b.view.lead + 1) = distance
  split
  · decide
  · split <;> decide

/-- What the adversary asks for at an event of a run with fewer than `2 ^ 25` nodes and blocks it
also asks for in floats. -/
theorem floatCount_of_reaches {σ : Type} [WordSource σ] {env : Environment} {net : Network}
    {supply : Supply σ} {h : Run.History} {s : Run.State Balancer σ} {first : Scheduled}
    {agenda : Agenda} (hoff : env.allowBorrowing = false) (hsq : net.distances.Square net.size)
    (hr : (run env net margin).Reaches {} supply h s)
    (hq : s.world.agenda.next = some (first, agenda)) (hb : b = s.adversary.noting first.event)
    (hmined : s.world.mined < 2 ^ 25) (hsize : net.size ≤ 2 ^ 25) (side : Side) :
    floatCount (b.floatQuota b.margin side) = wholeQuota (b.quota b.margin side) ∧
      (0 < b.floatQuota b.margin side ↔ 0 < b.quota b.margin side) := by
  subst hb
  have hgroups : (s.adversary.partition.left ++ s.adversary.partition.right).length ≤ net.size :=
    Partition.length_nodes_le (partition_of_reaches hr) .left
  rw [← partition_noting first.event, List.length_append] at hgroups
  exact floatCount_floatQuota (light_noting hoff hsq hr hq).1 (by omega) (by omega) (by omega)
    ((abs_margin_le _).trans (by decide)) side

end Balancer

end BalanceAttack
