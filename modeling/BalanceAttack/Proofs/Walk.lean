import BalanceAttack.Network.ShortestPath
import Mathlib.Data.Finset.Card

/-!
# BalanceAttack.Proofs.Walk

Walks along the links of a table.  The nodes that a walk may pass through are
restricted to a set, so that the walks of one round of the search for shortest
paths can be told from those of the next; a `Trail` uses up the nodes it passes
through, and is therefore short:

* `Walk.split` — one more node is passed through at most once, or need not be;
* `Walk.exists_trail` — every walk can do without passing a node twice;
* `Walk.exists_short` — the least latency of a walk is that of few links.
-/

namespace BalanceAttack.Latencies

/-- There is a link from a node to another one. -/
def Linked (m : Latencies) (i j : Nat) : Prop := i ≠ j ∧ reaches (m.look i j) = true

/-- A walk from a node to another, its latency in all; every node between is of a given set. -/
inductive Walk (m : Latencies) (through : Finset Nat) : Nat → Nat → Int → Prop
  | link {i j : Nat} (linked : m.Linked i j) : Walk m through i j (m.look i j)
  | step {i x j : Nat} {t : Int} (linked : m.Linked i x) (allowed : x ∈ through)
      (rest : Walk m through x j t) : Walk m through i j (m.look i x + t)

/-- A walk that uses up every node it passes through. -/
inductive Trail (m : Latencies) : Finset Nat → Nat → Nat → Int → Prop
  | link {through : Finset Nat} {i j : Nat} (linked : m.Linked i j) :
      Trail m through i j (m.look i j)
  | step {through : Finset Nat} {i x j : Nat} {t : Int} (linked : m.Linked i x)
      (allowed : x ∈ through) (rest : Trail m (through.erase x) x j t) :
      Trail m through i j (m.look i x + t)

/-- A path from a node to another along the links of a table, and its latency.
It may pass through a node twice, which does not make it shorter. -/
abbrev Path (m : Latencies) : Nat → Nat → Int → Prop := Walk m (.range m.size)

variable {m : Latencies} {through more : Finset Nat} {i j k : Nat} {a b t : Int}

theorem reaches_iff : reaches t = true ↔ 0 ≤ t := by
  unfold reaches unreachable
  rw [decide_eq_true_iff]
  omega

theorem Linked.nonneg (h : m.Linked i j) : 0 ≤ m.look i j := reaches_iff.1 h.2

/-! ## walks -/

namespace Walk

theorem nonneg (h : Walk m through i j t) : 0 ≤ t := by
  induction h with
  | link linked => exact linked.nonneg
  | step linked _ _ ih =>
      have := linked.nonneg
      omega

theorem mono (h : Walk m through i j t) (hsub : through ⊆ more) : Walk m more i j t := by
  induction h with
  | link linked => exact .link linked
  | step linked allowed _ ih => exact .step linked (hsub allowed) ih

/-- Two walks one after the other, which meet in a node that may be passed through. -/
theorem append (h : Walk m through i k a) (hk : k ∈ through) (h' : Walk m through k j b) :
    Walk m through i j (a + b) := by
  induction h with
  | link linked => exact .step linked hk h'
  | step linked allowed _ ih =>
      rw [Int.add_assoc]
      exact .step linked allowed (ih hk h')

/-- Where every link has one back of the same latency, walks have as well. -/
theorem reverse (hback : ∀ i j, m.Linked i j → m.Linked j i ∧ m.look j i = m.look i j)
    (h : Walk m through i j t) : Walk m through j i t := by
  induction h with
  | link linked =>
      obtain ⟨hlinked, heq⟩ := hback _ _ linked
      exact heq ▸ .link hlinked
  | step linked allowed _ ih =>
      obtain ⟨hlinked, heq⟩ := hback _ _ linked
      rw [Int.add_comm, ← heq]
      exact ih.append allowed (.link hlinked)

/-- Where every link has one back there are walks back as well, of some latency. -/
theorem exists_reverse (hback : ∀ i j, m.Linked i j → m.Linked j i)
    (h : Walk m through i j t) : ∃ u, Walk m through j i u := by
  induction h with
  | link linked => exact ⟨_, .link (hback _ _ linked)⟩
  | step linked allowed _ ih =>
      obtain ⟨u, hu⟩ := ih
      exact ⟨_, hu.append allowed (.link (hback _ _ linked))⟩

/-- A walk does not leave a set of nodes that no link leads out of. -/
theorem mem_of_closed {s : Finset Nat} (hs : ∀ x ∈ s, ∀ y, m.Linked x y → y ∈ s)
    (h : Walk m through i j t) (hi : i ∈ s) : j ∈ s := by
  induction h with
  | link linked => exact hs _ hi _ linked
  | step linked _ _ ih => exact ih (hs _ hi _ linked)

/-- Where the same nodes are linked there are the same walks, of some latency. -/
theorem exists_of_linked {m' : Latencies} (hlinked : ∀ i j, m.Linked i j → m'.Linked i j)
    (h : Walk m through i j t) : ∃ u, Walk m' through i j u := by
  induction h with
  | link linked => exact ⟨_, .link (hlinked _ _ linked)⟩
  | step linked allowed _ ih =>
      obtain ⟨u, hu⟩ := ih
      exact ⟨_, .step (hlinked _ _ linked) allowed hu⟩

/-- A walk takes no less time than its first link. -/
theorem le_of_links {least : Int} (hleast : ∀ i j, m.Linked i j → least ≤ m.look i j)
    (h : Walk m through i j t) : least ≤ t := by
  cases h with
  | link linked => exact hleast _ _ linked
  | step linked _ rest =>
      have hfirst := hleast _ _ linked
      have hrest := rest.nonneg
      omega

/-- A walk does not pass through one more node, or goes there and then onward
without passing through it in between. -/
theorem split (h : Walk m (insert k through) i j t) :
    (∃ u ≤ t, Walk m through i j u) ∨
      ∃ a b, Walk m through i k a ∧ Walk m through k j b ∧ a + b ≤ t := by
  induction h with
  | link linked => exact .inl ⟨_, Int.le_refl _, .link linked⟩
  | @step i x j t linked allowed _ ih =>
      rcases Finset.mem_insert.1 allowed with rfl | hx
      · -- the first node between is the new one: what comes before its last visit is dropped
        refine .inr ?_
        rcases ih with ⟨u, hu, hw⟩ | ⟨a, b, ha, hb, hab⟩
        · exact ⟨_, u, .link linked, hw, Int.add_le_add_left hu _⟩
        · have := ha.nonneg
          exact ⟨_, b, .link linked, hb, by omega⟩
      · rcases ih with ⟨u, hu, hw⟩ | ⟨a, b, ha, hb, hab⟩
        · exact .inl ⟨_, Int.add_le_add_left hu _, .step linked hx hw⟩
        · exact .inr ⟨_, b, .step linked hx ha, hb, by omega⟩

end Walk

/-! ## trails -/

namespace Trail

theorem mono (h : Trail m through i j t) (hsub : through ⊆ more) : Trail m more i j t := by
  induction h generalizing more with
  | link linked => exact .link linked
  | step linked allowed _ ih =>
      exact .step linked (hsub allowed) (ih (Finset.erase_subset_erase _ hsub))

theorem walk (h : Trail m through i j t) : Walk m through i j t := by
  induction h with
  | link linked => exact .link linked
  | step linked allowed _ ih => exact .step linked allowed (ih.mono (Finset.erase_subset _ _))

/-- A trail does not pass through a node, or its part from there on does not. -/
theorem avoid (h : Trail m through i j t) (x : Nat) :
    ∃ u ≤ t, Trail m (through.erase x) i j u ∨ Trail m (through.erase x) x j u := by
  induction h with
  | link linked => exact ⟨_, Int.le_refl _, .inl (.link linked)⟩
  | @step through i y j t linked allowed rest ih =>
      have hy := linked.nonneg
      by_cases hxy : x = y
      · subst hxy
        exact ⟨t, by omega, .inr rest⟩
      · obtain ⟨u, hu, hw | hw⟩ := ih
        · rw [Finset.erase_right_comm] at hw
          refine ⟨_, Int.add_le_add_left hu _, .inl (.step linked ?_ hw)⟩
          exact Finset.mem_erase.2 ⟨fun h => hxy h.symm, allowed⟩
        · refine ⟨u, by omega, .inr (hw.mono ?_)⟩
          exact Finset.erase_subset_erase _ (Finset.erase_subset _ _)

/-- A trail need not pass through the node it starts from. -/
theorem avoid_first (h : Trail m through i j t) : ∃ u ≤ t, Trail m (through.erase i) i j u := by
  obtain ⟨u, hu, hw | hw⟩ := h.avoid i
  · exact ⟨u, hu, hw⟩
  · exact ⟨u, hu, hw⟩

/-- A trail need not pass through the node it ends at. -/
theorem avoid_last (h : Trail m through i j t) : ∃ u ≤ t, Trail m (through.erase j) i j u := by
  induction h with
  | link linked => exact ⟨_, Int.le_refl _, .link linked⟩
  | @step through i y j t linked allowed rest ih =>
      have hrest := rest.walk.nonneg
      by_cases hyj : y = j
      · subst hyj
        exact ⟨_, by omega, .link linked⟩
      · obtain ⟨u, hu, hw⟩ := ih
        rw [Finset.erase_right_comm] at hw
        exact ⟨_, Int.add_le_add_left hu _, .step linked (Finset.mem_erase.2 ⟨hyj, allowed⟩) hw⟩

/-- A trail has at most one link more than there are nodes to pass through. -/
theorem le_of_links {most : Int} (hmost : ∀ i j, m.Linked i j → m.look i j ≤ most)
    (h : Trail m through i j t) : t ≤ (through.card + 1) * most := by
  have hpos : ∀ i j, m.Linked i j → 0 ≤ most := fun i j hij =>
    Int.le_trans hij.nonneg (hmost i j hij)
  induction h with
  | @link through i j linked =>
      have hcard : 0 ≤ (through.card : Int) * most :=
        Int.mul_nonneg (Int.natCast_nonneg _) (hpos _ _ linked)
      have := hmost _ _ linked
      rw [Int.add_mul, Int.one_mul]
      omega
  | @step through i x j t linked allowed _ ih =>
      have := hmost _ _ linked
      have hcard : (((through.erase x).card + 1 : Nat) : Int) = through.card := by
        rw [Finset.card_erase_add_one allowed]
      rw [Int.natCast_add, Int.natCast_one] at hcard
      rw [hcard] at ih
      rw [Int.add_mul, Int.one_mul]
      omega

end Trail

/-- Every walk can do without passing through a node twice. -/
theorem Walk.exists_trail (h : Walk m through i j t) : ∃ u ≤ t, Trail m through i j u := by
  induction h with
  | link linked => exact ⟨_, Int.le_refl _, .link linked⟩
  | step linked allowed _ ih =>
      obtain ⟨u, hu, hw⟩ := ih
      obtain ⟨v, hv, hw⟩ := hw.avoid_first
      exact ⟨_, Int.add_le_add_left (Int.le_trans hv hu) _, .step linked allowed hw⟩

/-- There is a walk between two different nodes that takes no longer than a given one, and
no longer than a link to every other node. -/
theorem Walk.exists_short {n : Nat} {most : Int} (h : Walk m through i j t)
    (hsub : through ⊆ .range n) (hi : i < n) (hj : j < n) (hij : i ≠ j)
    (hmost : ∀ i j, m.Linked i j → m.look i j ≤ most) :
    ∃ u ≤ t, Walk m through i j u ∧ u ≤ ((n - 1 : Nat) : Int) * most := by
  obtain ⟨u, hu, htrail⟩ := h.exists_trail
  obtain ⟨v, hv, htrail⟩ := htrail.avoid_first
  obtain ⟨w, hw, htrail⟩ := htrail.avoid_last
  have hcard : ((through.erase i).erase j).card + 1 ≤ n - 1 := by
    have hle := Finset.card_le_card
      (Finset.erase_subset_erase j (Finset.erase_subset_erase i hsub))
    have hjmem : j ∈ (Finset.range n).erase i :=
      Finset.mem_erase.2 ⟨fun h => hij h.symm, Finset.mem_range.2 hj⟩
    have hn := Finset.card_range n
    have h₁ := Finset.card_erase_add_one (Finset.mem_range.2 hi)
    have h₂ := Finset.card_erase_add_one hjmem
    omega
  have hwalk := htrail.walk
  refine ⟨w, by omega, hwalk.mono ?_, ?_⟩
  · exact (Finset.erase_subset _ _).trans (Finset.erase_subset _ _)
  · refine Int.le_trans (htrail.le_of_links hmost) ?_
    have hnonneg : 0 ≤ most := by
      cases hwalk with
      | link linked => exact Int.le_trans linked.nonneg (hmost _ _ linked)
      | step linked => exact Int.le_trans linked.nonneg (hmost _ _ linked)
    have hcast : (((through.erase i).erase j).card : Int) + 1 ≤ ((n - 1 : Nat) : Int) := by
      omega
    exact Int.mul_le_mul_of_nonneg_right hcast hnonneg

end BalanceAttack.Latencies
