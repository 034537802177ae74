import BalanceAttack.Network.Graph
import BalanceAttack.Proofs.Walk
import Mathlib.Order.Bounds.Basic

/-!
# BalanceAttack.Proofs.ShortestPath

The search for shortest paths finds them.  After the rounds of the nodes below
`k` the table holds the least latencies of the walks that pass through these
nodes alone, and no sum that a round forms is longer than two walks without
detours:

* `look_relax` — what a round does to an entry;
* `sweep_eq_relax` — the rows may just as well be replaced one after the other;
* `Optimal.relax` — what a round does to the least latencies;
* `shortest_of_links` — the table of a network, and its diameter.
-/

namespace BalanceAttack.Latencies

variable {m d : Latencies} {n k i j : Nat}

/-! ## one round, entry by entry -/

theorem getD_of_getElem? {row : Array Int} (h : m[i]? = some row) : m.getD i #[] = row := by
  rw [Array.getD_eq_getD_getElem?, h]
  rfl

theorem Square.exists_row (h : m.Square n) (hi : i < n) :
    ∃ row, m[i]? = some row ∧ row.size = n ∧ ∀ j, m.look i j = row.getD j unreachable := by
  have him : i < m.size := by rw [h.1]; exact hi
  refine ⟨m[i], Array.getElem?_eq_getElem him, h.2 _ (Array.getElem_mem him), fun j => ?_⟩
  rw [look, ← Array.getElem_eq_getD (h := him)]

/-- Only the sum of two entries that stand for paths takes the place of an entry. -/
theorem shorter_cases (direct there onward : Int) :
    shorter direct there onward = direct ∨ reaches there = true ∧ reaches onward = true ∧
      shorter direct there onward = there + onward := by
  unfold shorter
  split
  · next hboth =>
      obtain ⟨hthere, honward⟩ := (Bool.and_eq_true _ _).mp hboth
      split
      · exact .inr ⟨hthere, honward, rfl⟩
      · exact .inl rfl
  · exact .inl rfl

theorem shorter_of_not_reaches {direct there onward : Int} (h : ¬ reaches there = true) :
    shorter direct there onward = direct := by
  rcases shorter_cases direct there onward with heq | ⟨hthere, _⟩
  · exact heq
  · exact absurd hthere h

/-- A pair is reached within a time if it was before, or if one can go there and then onward
within that time. -/
theorem shorter_le_iff {direct there onward t : Int} :
    (reaches (shorter direct there onward) = true ∧ shorter direct there onward ≤ t) ↔
      (reaches direct = true ∧ direct ≤ t) ∨
        reaches there = true ∧ reaches onward = true ∧ there + onward ≤ t := by
  unfold shorter
  simp only [Bool.and_eq_true, Bool.or_eq_true, Bool.not_eq_true', decide_eq_true_eq,
    ← Bool.not_eq_true, reaches_iff]
  split
  · split <;> omega
  · omega

/-- A stay of no time on the way makes nothing shorter. -/
theorem shorter_eq_self {direct there onward : Int} (hsum : there + onward = direct) :
    shorter direct there onward = direct := by
  rcases shorter_cases direct there onward with heq | ⟨_, _, heq⟩
  · exact heq
  · exact heq.trans hsum

theorem Square.lt_of_linked (h : m.Square n) (hij : m.Linked i j) : i < n ∧ j < n := by
  obtain ⟨_, hreach⟩ := hij
  by_cases hi : i < n
  · obtain ⟨row, _, hsize, hlook⟩ := h.exists_row hi
    refine ⟨hi, Nat.lt_of_not_le fun hj => ?_⟩
    rw [hlook, Array.getD_eq_getD_getElem?, Array.getElem?_eq_none (by omega)] at hreach
    contradiction
  · have hrow : m.getD i #[] = #[] := by
      rw [Array.getD_eq_getD_getElem?, Array.getElem?_eq_none (by rw [h.1]; omega)]
      rfl
    rw [look, hrow] at hreach
    contradiction

theorem size_relaxRow (n k : Nat) (onward row : Array Int) :
    (relaxRow n k onward row).size = row.size := by
  unfold relaxRow
  dsimp only
  split
  · exact Array.size_mapIdx
  · rfl

theorem getD_relaxRow {onward row : Array Int} (hrow : row.size = n) (hj : j < n) :
    (relaxRow n k onward row).getD j unreachable =
      shorter (row.getD j unreachable) (row.getD k unreachable) (onward.getD j unreachable) := by
  have hjr : j < row.size := by rw [hrow]; exact hj
  unfold relaxRow
  dsimp only
  by_cases hthere : reaches (row.getD k unreachable) = true
  · rw [if_pos hthere]
    simp [Array.getD_eq_getD_getElem?, hjr, hj]
  · rw [if_neg hthere, shorter_of_not_reaches hthere]

theorem square_relax (h : m.Square n) (k : Nat) : (m.relax k).Square n := by
  refine ⟨(m.size_relax k).trans h.1, fun row hrow => ?_⟩
  obtain ⟨row₀, hrow₀, rfl⟩ := Array.mem_map.1 hrow
  exact (size_relaxRow _ _ _ _).trans (h.2 row₀ hrow₀)

theorem look_relax (h : m.Square n) (hi : i < n) (hj : j < n) :
    (m.relax k).look i j = shorter (m.look i j) (m.look i k) (m.look k j) := by
  obtain ⟨row, hrow, hsize, hlook⟩ := h.exists_row hi
  have hrelaxed : (m.relax k).getD i #[] = relaxRow n k (m.getD k #[]) row := by
    refine getD_of_getElem? ?_
    rw [relax, h.1, Array.getElem?_map, hrow]
    rfl
  rw [look, hrelaxed, getD_relaxRow hsize hj, hlook j, hlook k]
  rfl

theorem square_zeroDiagonal (h : m.Square n) : m.zeroDiagonal.Square n := by
  refine ⟨m.size_zeroDiagonal.trans h.1, fun row hrow => ?_⟩
  obtain ⟨i, hi, rfl⟩ := Array.mem_mapIdx.1 hrow
  rw [Array.size_setIfInBounds]
  exact h.2 _ (Array.getElem_mem hi)

theorem look_zeroDiagonal (h : m.Square n) (hi : i < n) (j : Nat) :
    m.zeroDiagonal.look i j = if i = j ∧ j < n then 0 else m.look i j := by
  obtain ⟨row, hrow, hsize, hlook⟩ := h.exists_row hi
  have hzero : m.zeroDiagonal.getD i #[] = row.setIfInBounds i 0 := by
    refine getD_of_getElem? ?_
    rw [Latencies.zeroDiagonal, Array.getElem?_mapIdx, hrow]
    rfl
  rw [look, hzero, hlook, Array.getD_eq_getD_getElem?, Array.getElem?_setIfInBounds, hsize,
    Array.getD_eq_getD_getElem?]
  by_cases hij : i = j
  · subst hij
    simp [hi]
  · simp [hij]

/-- In a square table the search goes through all rounds. -/
theorem shortestPaths_of_square (h : m.Square n) :
    m.shortestPaths = (List.range n).foldlM round m.zeroDiagonal := by
  have hrows : ¬ (m.any fun row => row.size < m.size) = true := by
    rw [Array.any_eq_true']
    rintro ⟨row, hrow, hlt⟩
    rw [decide_eq_true_eq, h.2 row hrow, h.1] at hlt
    exact Nat.lt_irrefl n hlt
  rw [shortestPaths, if_neg hrows, h.1]

/-! ## rows in place -/

/-- A round in which the rows are replaced one after the other, each with the row of `k` as
it is by then. -/
def sweep (m : Latencies) (k : Nat) : Latencies :=
  (List.range m.size).foldl (fun d i => d.modify i (relaxRow m.size k (d.getD k #[]))) m

/-- The row of a node that reaches itself at once does not change in the round of the node. -/
theorem relaxRow_self (h : m.Square n) (hk : k < n) (hself : m.look k k = 0) :
    relaxRow n k (m.getD k #[]) (m.getD k #[]) = m.getD k #[] := by
  obtain ⟨row, hrow, hsize, hlook⟩ := h.exists_row hk
  rw [getD_of_getElem? hrow]
  refine Array.ext (size_relaxRow _ _ _ _) fun j hj hj' => ?_
  have hjn : j < n := by rw [← hsize]; exact hj'
  have hentry : (relaxRow n k row row).getD j unreachable =
      shorter (row.getD j unreachable) (row.getD k unreachable) (row.getD j unreachable) :=
    getD_relaxRow hsize hjn
  rw [hlook k] at hself
  rw [hself, shorter_eq_self (Int.zero_add _)] at hentry
  rw [Array.getElem_eq_getD unreachable, Array.getElem_eq_getD unreachable]
  exact hentry

/-- After some rows have been replaced, the row of `k` is what it was. -/
theorem foldl_modify_relaxRow (h : m.Square n) (hk : k < n) (hself : m.look k k = 0) {c : Nat}
    (hc : c ≤ n) :
    (List.range c).foldl (fun d i => d.modify i (relaxRow n k (d.getD k #[]))) m =
      m.mapIdx fun i row => if i < c then relaxRow n k (m.getD k #[]) row else row := by
  induction c with
  | zero => exact Array.ext (by simp) fun i hi hi' => by simp
  | succ c ih =>
      rw [List.range_succ, List.foldl_append, ih (by omega), List.foldl_cons, List.foldl_nil]
      obtain ⟨row, hrow, _, _⟩ := h.exists_row hk
      have hsame := relaxRow_self h hk hself
      rw [getD_of_getElem? hrow] at hsame ⊢
      have hkept : (m.mapIdx fun i r => if i < c then relaxRow n k row r else r).getD k #[] =
          row := by
        refine getD_of_getElem? ?_
        rw [Array.getElem?_mapIdx, hrow, Option.map_some, hsame, ite_self]
      rw [hkept]
      refine Array.ext (by simp) fun i hi hi' => ?_
      rw [Array.getElem_modify]
      simp only [Array.getElem_mapIdx]
      by_cases hci : c = i
      · subst hci
        rw [if_pos rfl, if_neg (Nat.lt_irrefl c), if_pos (Nat.lt_succ_self c)]
      · have hiff : i < c + 1 ↔ i < c := by omega
        simp only [if_neg hci, hiff]

/-- **Rows may be replaced in place.**  It does not matter that the row of `k` is replaced in
between, because its node reaches itself at once. -/
theorem sweep_eq_relax (h : m.Square n) (hk : k < n) (hself : m.look k k = 0) :
    m.sweep k = m.relax k := by
  rw [sweep, h.1, foldl_modify_relaxRow h hk hself (Nat.le_refl n), relax, h.1]
  refine Array.ext (by simp) fun i hi hi' => ?_
  have hin : i < n := by
    rw [← h.1]
    simpa using hi'
  simp only [Array.getElem_mapIdx, Array.getElem_map, if_pos hin]

/-! ## the least latencies -/

/-- The table holds the least latencies of the walks that pass through nodes below `k` alone,
and what it held before where there is no such walk. -/
structure Optimal (m : Latencies) (n k : Nat) (d : Latencies) : Prop where
  square : d.Square n
  self : ∀ i < n, d.look i i = 0
  walk : ∀ i < n, ∀ j < n, i ≠ j → reaches (d.look i j) = true →
    Walk m (.range k) i j (d.look i j)
  least : ∀ i < n, ∀ j < n, i ≠ j → ∀ t, Walk m (.range k) i j t →
    reaches (d.look i j) = true ∧ d.look i j ≤ t
  apart : ∀ i < n, ∀ j < n, i ≠ j → reaches (d.look i j) = false → d.look i j = m.look i j

namespace Optimal

theorem zeroDiagonal (h : m.Square n) : Optimal m n 0 m.zeroDiagonal := by
  have hother : ∀ i < n, ∀ j, i ≠ j → m.zeroDiagonal.look i j = m.look i j := by
    intro i hi j hij
    rw [look_zeroDiagonal h hi, if_neg fun h => hij h.1]
  refine
    { square := square_zeroDiagonal h
      self := fun i hi => ?_
      walk := fun i hi j hj hij hreach => ?_
      least := fun i hi j hj hij t ht => ?_
      apart := fun i hi j _ hij _ => hother i hi j hij }
  · rw [look_zeroDiagonal h hi, if_pos ⟨rfl, hi⟩]
  · rw [hother i hi j hij] at hreach ⊢
    exact .link ⟨hij, hreach⟩
  · rw [hother i hi j hij]
    cases ht with
    | link linked => exact ⟨linked.2, Int.le_refl _⟩
    | step _ allowed => exact absurd (Finset.mem_range.1 allowed) (Nat.not_lt_zero _)

/-- A walk to or from `k` gains nothing by passing through it. -/
theorem look_relax_of_end (h : Optimal m n k d) (hi : i < n) (hj : j < n) (hends : i = k ∨ j = k) :
    (d.relax k).look i j = d.look i j := by
  rw [look_relax h.square hi hj]
  rcases hends with rfl | rfl
  · rw [h.self i hi, shorter_eq_self (Int.zero_add _)]
  · rw [h.self j hj, shorter_eq_self (Int.add_zero _)]

/-- What a round writes is the latency of a walk that may pass through one more node. -/
theorem walk_relax (h : Optimal m n k d) (hk : k < n) (hi : i < n) (hj : j < n) (hij : i ≠ j)
    (hreach : reaches ((d.relax k).look i j) = true) :
    Walk m (.range (k + 1)) i j ((d.relax k).look i j) := by
  have hsub : Finset.range k ⊆ .range (k + 1) := Finset.range_subset_range.2 (Nat.le_succ k)
  by_cases hends : i = k ∨ j = k
  · rw [h.look_relax_of_end hi hj hends] at hreach ⊢
    exact (h.walk i hi j hj hij hreach).mono hsub
  · obtain ⟨hik, hjk⟩ := not_or.1 hends
    rw [look_relax h.square hi hj] at hreach ⊢
    rcases shorter_cases (d.look i j) (d.look i k) (d.look k j) with heq | ⟨hi', hj', heq⟩
    · rw [heq] at hreach ⊢
      exact (h.walk i hi j hj hij hreach).mono hsub
    · rw [heq]
      have hthere := (h.walk i hi k hk hik hi').mono hsub
      have honward := (h.walk k hk j hj (Ne.symm hjk) hj').mono hsub
      exact hthere.append (Finset.mem_range.2 (Nat.lt_succ_self k)) honward

/-- No walk that may pass through one more node takes less than what a round writes. -/
theorem least_relax (h : Optimal m n k d) (hk : k < n) (hi : i < n) (hj : j < n) (hij : i ≠ j)
    {t : Int} (ht : Walk m (.range (k + 1)) i j t) :
    reaches ((d.relax k).look i j) = true ∧ (d.relax k).look i j ≤ t := by
  rw [Finset.range_add_one] at ht
  by_cases hends : i = k ∨ j = k
  · rw [h.look_relax_of_end hi hj hends]
    rcases ht.split with ⟨u, hu, hw⟩ | ⟨a, b, ha, hb, hab⟩
    · obtain ⟨hreach, hle⟩ := h.least i hi j hj hij u hw
      exact ⟨hreach, Int.le_trans hle hu⟩
    · have hapos := ha.nonneg
      have hbpos := hb.nonneg
      rcases hends with rfl | rfl
      · obtain ⟨hreach, hle⟩ := h.least i hi j hj hij b hb
        exact ⟨hreach, by omega⟩
      · obtain ⟨hreach, hle⟩ := h.least i hi j hj hij a ha
        exact ⟨hreach, by omega⟩
  · obtain ⟨hik, hjk⟩ := not_or.1 hends
    rw [look_relax h.square hi hj, shorter_le_iff]
    rcases ht.split with ⟨u, hu, hw⟩ | ⟨a, b, ha, hb, hab⟩
    · obtain ⟨hreach, hle⟩ := h.least i hi j hj hij u hw
      exact .inl ⟨hreach, Int.le_trans hle hu⟩
    · obtain ⟨hthere, hthere_le⟩ := h.least i hi k hk hik a ha
      obtain ⟨honward, honward_le⟩ := h.least k hk j hj (Ne.symm hjk) b hb
      exact .inr ⟨hthere, honward, by omega⟩

/-- A round allows the walks to pass through one more node. -/
theorem relax (h : Optimal m n k d) (hk : k < n) : Optimal m n (k + 1) (d.relax k) := by
  refine
    { square := square_relax h.square k
      self := fun i hi => ?_
      walk := fun i hi j hj hij hreach => h.walk_relax hk hi hj hij hreach
      least := fun i hi j hj hij t ht => h.least_relax hk hi hj hij ht
      apart := fun i hi j hj hij hreach => ?_ }
  · -- a detour that comes back takes no less than nothing
    rw [look_relax h.square hi hi, h.self i hi]
    obtain ⟨hreach, hle⟩ : reaches (shorter 0 (d.look i k) (d.look k i)) = true ∧
        shorter 0 (d.look i k) (d.look k i) ≤ 0 := shorter_le_iff.2 (.inl ⟨rfl, Int.le_refl 0⟩)
    exact Int.le_antisymm hle (reaches_iff.1 hreach)
  · rw [look_relax h.square hi hj] at hreach ⊢
    rcases shorter_cases (d.look i j) (d.look i k) (d.look k j) with heq | ⟨hi', hj', heq⟩
    · rw [heq] at hreach ⊢
      exact h.apart i hi j hj hij hreach
    · have hsum := reaches_iff.2 (Int.add_nonneg (reaches_iff.1 hi') (reaches_iff.1 hj'))
      rw [heq, hsum] at hreach
      contradiction

/-- No entry is longer than a walk over all other nodes. -/
theorem le_of_links (h : Optimal m n k d) (hk : k ≤ n) {most : Int} (hpos : 0 ≤ most)
    (hmost : ∀ i j, m.Linked i j → m.look i j ≤ most) (hi : i < n) (hj : j < n)
    (hreach : reaches (d.look i j) = true) : d.look i j ≤ ((n - 1 : Nat) : Int) * most := by
  by_cases hij : i = j
  · subst hij
    rw [h.self i hi]
    exact Int.mul_nonneg (Int.natCast_nonneg _) hpos
  · obtain ⟨u, _, hw, hu⟩ := (h.walk i hi j hj hij hreach).exists_short
      (Finset.range_subset_range.2 hk) hi hj hij hmost
    exact Int.le_trans (h.least i hi j hj hij u hw).2 hu

/-- The sums of any round are no longer than two such walks. -/
theorem sumsFit {c : Nat} (h : Optimal m n c d) (hc : c ≤ n) (hk : k < n) {most : Int}
    (hpos : 0 ≤ most)
    (hmost : ∀ i j, m.Linked i j → m.look i j ≤ most)
    (hfits : 2 * ((n - 1 : Nat) : Int) * most ≤ Time.latest) : d.sumsFit k = true := by
  obtain ⟨onward, honward, hsize, hlook⟩ := h.square.exists_row hk
  rw [Latencies.sumsFit, getD_of_getElem? honward, Array.all_eq_true_iff_forall_mem]
  intro row hmem
  obtain ⟨i, hi⟩ := Array.mem_iff_getElem?.1 hmem
  have hin : i < n := by
    rw [← h.square.1]
    exact (Array.getElem?_eq_some_iff.1 hi).1
  have hthere : row.getD k unreachable = d.look i k := by
    rw [look, getD_of_getElem? hi]
  dsimp only
  rw [hthere, Bool.or_eq_true, Bool.not_eq_true', Array.all_eq_true_iff_forall_mem]
  cases hreach : reaches (d.look i k) with
  | false => exact .inl rfl
  | true =>
      refine .inr fun t ht => ?_
      obtain ⟨j, hj, rfl⟩ := Array.mem_iff_getElem.1 ht
      have hjn : j < n := by
        rw [← hsize]
        simp only [Array.take_eq_extract, Array.size_extract] at hj
        omega
      have hentry : (onward.take d.size)[j] = d.look k j := by
        rw [hlook j]
        simp [Array.getD_eq_getD_getElem?, hsize, hjn]
      rw [hentry, Bool.or_eq_true, Bool.not_eq_true', decide_eq_true_eq]
      cases hreach' : reaches (d.look k j) with
      | false => exact .inl rfl
      | true =>
          have hle := h.le_of_links hc hpos hmost hin hk hreach
          have hle' := h.le_of_links hc hpos hmost hk hjn hreach'
          rw [Int.mul_assoc] at hfits
          exact .inr (by omega)

end Optimal

/-! ## the whole search -/

/-- The rounds of the nodes below `c` answer, and may be carried out in place. -/
theorem optimal_of_rounds (h : m.Square n) {most : Int} (hpos : 0 ≤ most)
    (hmost : ∀ i j, m.Linked i j → m.look i j ≤ most)
    (hfits : 2 * ((n - 1 : Nat) : Int) * most ≤ Time.latest) (c : Nat) (hc : c ≤ n) :
    ∃ d, (List.range c).foldlM round m.zeroDiagonal = .ok d ∧
      (List.range c).foldl sweep m.zeroDiagonal = d ∧ Optimal m n c d := by
  induction c with
  | zero => exact ⟨_, rfl, rfl, .zeroDiagonal h⟩
  | succ c ih =>
      obtain ⟨d, hd, hsweep, hopt⟩ := ih (by omega)
      have hround : d.round c = .ok (d.relax c) :=
        if_pos (hopt.sumsFit (Nat.le_of_lt hc) hc hpos hmost hfits)
      refine ⟨d.relax c, ?_, ?_, hopt.relax hc⟩
      · rw [Fault.foldlM_range_succ hd, hround]
      · rw [List.range_succ, List.foldl_append, hsweep, List.foldl_cons, List.foldl_nil]
        exact sweep_eq_relax hopt.square hc (hopt.self c hc)

/-- Rounds that have answered have found the least latencies, however long the paths are. -/
theorem optimal_of_rounds_eq (h : m.Square n) {c : Nat} (hc : c ≤ n) {d : Latencies}
    (hd : (List.range c).foldlM round m.zeroDiagonal = .ok d) : Optimal m n c d := by
  induction c generalizing d with
  | zero =>
      obtain rfl := Except.ok.inj hd
      exact .zeroDiagonal h
  | succ c ih =>
      rw [List.range_succ, List.foldlM_append] at hd
      obtain ⟨d', hd', hround⟩ := Fault.bind_eq_ok_iff.1 hd
      rw [List.foldlM_cons] at hround
      obtain ⟨d'', hround, hlast⟩ := Fault.bind_eq_ok_iff.1 hround
      obtain rfl := Except.ok.inj hlast
      unfold round at hround
      split at hround
      · obtain rfl := Except.ok.inj hround
        exact (ih (Nat.le_of_succ_le hc) hd').relax hc
      · contradiction

/-- The table of the latencies of the shortest paths along the links of another one. -/
structure Shortest (links : Latencies) (n : Nat) (d : Latencies) : Prop where
  square : d.Square n
  /-- A node reaches itself at once. -/
  self : ∀ i < n, d.look i i = 0
  /-- A pair with a path between has the least latency of all paths. -/
  least : ∀ i < n, ∀ j < n, i ≠ j → (∃ t, links.Path i j t) →
    IsLeast {t | links.Path i j t} (d.look i j)
  /-- A pair without one keeps its entry. -/
  apart : ∀ i < n, ∀ j < n, i ≠ j → (¬ ∃ t, links.Path i j t) →
    d.look i j = links.look i j ∧ d.look i j ≤ -1

theorem Optimal.shortest (hm : m.Square n) (h : Optimal m n n d) : Shortest m n d where
  square := h.square
  self := h.self
  least := by
    rintro i hi j hj hij ⟨t, ht⟩
    rw [Path, hm.1] at ht ⊢
    have hreach := (h.least i hi j hj hij t ht).1
    exact ⟨h.walk i hi j hj hij hreach, fun u hu => (h.least i hi j hj hij u hu).2⟩
  apart := by
    intro i hi j hj hij hnone
    rw [Path, hm.1] at hnone
    have hreach : ¬ reaches (d.look i j) = true := fun hreach =>
      hnone ⟨_, h.walk i hi j hj hij hreach⟩
    refine ⟨h.apart i hi j hj hij (Bool.not_eq_true _ ▸ hreach), ?_⟩
    rw [reaches_iff] at hreach
    omega

/-- A search that has answered has found the shortest paths. -/
theorem shortest_of_shortestPaths (hsq : m.Square n) (h : m.shortestPaths = .ok d) :
    Shortest m n d := by
  rw [shortestPaths_of_square hsq] at h
  exact (optimal_of_rounds_eq hsq (Nat.le_refl n) h).shortest hsq

/-- A network that could be set up from links holds their shortest paths. -/
theorem shortest_of_ofLinks {links : Latencies} {net : Network} (hsq : links.Square n)
    (h : Network.ofLinks links = .ok net) : Shortest links n net.distances :=
  shortest_of_shortestPaths hsq (Network.ofLinks_eq_ok_iff.1 h).1

namespace Shortest

/-- An entry stands for a path if there is one, and on the diagonal. -/
theorem reaches_iff_path (h : Shortest m n d) (hi : i < n) (hj : j < n) :
    reaches (d.look i j) = true ↔ i = j ∨ ∃ t, m.Path i j t := by
  by_cases hij : i = j
  · subst hij
    rw [h.self i hi]
    exact iff_of_true rfl (.inl rfl)
  · rw [or_iff_right hij]
    refine ⟨fun hreach => ?_, fun hpath => ?_⟩
    · by_contra hnone
      have hapart := (h.apart i hi j hj hij hnone).2
      have hpos := reaches_iff.1 hreach
      omega
    · exact reaches_iff.2 (h.least i hi j hj hij hpath).1.nonneg

/-- To go there and then onward is a way to go, and no shorter than the shortest. -/
theorem triangle (h : Shortest m n d) (hsq : m.Square n) (hi : i < n) (hk : k < n) (hj : j < n)
    (hthere : reaches (d.look i k) = true) (honward : reaches (d.look k j) = true) :
    reaches (d.look i j) = true ∧ d.look i j ≤ d.look i k + d.look k j := by
  have hthere_pos := reaches_iff.1 hthere
  have honward_pos := reaches_iff.1 honward
  by_cases hij : i = j
  · subst hij
    rw [h.self i hi]
    exact ⟨rfl, Int.add_nonneg hthere_pos honward_pos⟩
  by_cases hik : i = k
  · subst hik
    rw [h.self i hi, Int.zero_add]
    exact ⟨honward, Int.le_refl _⟩
  by_cases hkj : k = j
  · subst hkj
    rw [h.self k hk, Int.add_zero]
    exact ⟨hthere, Int.le_refl _⟩
  have hleft := ((h.reaches_iff_path hi hk).1 hthere).resolve_left hik
  have hright := ((h.reaches_iff_path hk hj).1 honward).resolve_left hkj
  have hmem : k ∈ Finset.range m.size := Finset.mem_range.2 (hsq.1.symm ▸ hk)
  have hwalk := (h.least i hi k hk hik hleft).1.append hmem (h.least k hk j hj hkj hright).1
  exact ⟨(h.reaches_iff_path hi hj).2 (.inr ⟨_, hwalk⟩),
    (h.least i hi j hj hij ⟨_, hwalk⟩).2 hwalk⟩

end Shortest

/-! ## the diameter -/

theorem mem_entries_iff (h : m.Square n) {t : Int} :
    t ∈ m.toList.flatMap Array.toList ↔ ∃ i < n, ∃ j < n, m.look i j = t := by
  rw [List.mem_flatMap]
  constructor
  · rintro ⟨row, hrow, ht⟩
    obtain ⟨i, hi⟩ := Array.mem_iff_getElem?.1 (Array.mem_toList_iff.1 hrow)
    obtain ⟨j, hj⟩ := Array.mem_iff_getElem?.1 (Array.mem_toList_iff.1 ht)
    have hentry : m.entry i j = .ok t := entry_eq_ok_iff.2 ⟨row, hi, hj⟩
    have hin : i < n := by
      rw [← h.1]
      exact (Array.getElem?_eq_some_iff.1 hi).1
    have hjn : j < n := by
      rw [← h.2 row (Array.mem_of_getElem? hi)]
      exact (Array.getElem?_eq_some_iff.1 hj).1
    exact ⟨i, hin, j, hjn, look_of_entry hentry⟩
  · rintro ⟨i, hi, j, hj, rfl⟩
    obtain ⟨row, hrow, ht⟩ := entry_eq_ok_iff.1 (entry_of_square h hi hj)
    exact ⟨row, Array.mem_toList_iff.2 (Array.mem_of_getElem? hrow),
      Array.mem_toList_iff.2 (Array.mem_of_getElem? ht)⟩

theorem diameter_eq_zero (h : m.Square 0) : m.diameter = 0 := by
  have hnil : m.toList = [] := List.eq_nil_of_length_eq_zero h.1
  rw [diameter, hnil]
  rfl

/-- The diameter is the largest entry that stands for a path. -/
theorem isGreatest_diameter (h : m.Square n) (hn : n ≠ 0) (hself : m.look 0 0 = 0) :
    IsGreatest {t | -1 < t ∧ ∃ i < n, ∃ j < n, m.look i j = t} m.diameter := by
  have hpos : 0 < n := Nat.pos_of_ne_zero hn
  have hmem : ∀ t, t ∈ (m.toList.flatMap Array.toList).filter reaches ↔
      -1 < t ∧ ∃ i < n, ∃ j < n, m.look i j = t := by
    intro t
    rw [List.mem_filter, mem_entries_iff h, reaches_iff, and_comm]
    exact and_congr_left' (by omega)
  rw [diameter]
  cases hmax : ((m.toList.flatMap Array.toList).filter reaches).max? with
  | none =>
      rw [List.max?_eq_none_iff] at hmax
      have hzero := (hmem 0).2 ⟨by omega, 0, hpos, 0, hpos, hself⟩
      rw [hmax] at hzero
      contradiction
  | some t =>
      obtain ⟨ht, hle⟩ := List.max?_eq_some_iff.1 hmax
      exact ⟨(hmem t).1 ht, fun u hu => hle u ((hmem u).2 hu)⟩

/-! ## the network -/

/-- A bound on the latencies of the links is one that is not negative, though without links it
may have been. -/
theorem exists_bound_of_links {links : Latencies} {most : Int} (hsq : links.Square n)
    (hmost : ∀ i < n, ∀ j < n, i ≠ j → -1 < links.look i j → links.look i j ≤ most)
    (hfits : 2 * ((n - 1 : Nat) : Int) * most ≤ Time.latest) :
    ∃ bound, 0 ≤ bound ∧ (∀ i j, links.Linked i j → links.look i j ≤ bound) ∧
      2 * ((n - 1 : Nat) : Int) * bound ≤ Time.latest := by
  refine ⟨max most 0, Int.le_max_right _ _, fun i j hij => ?_, ?_⟩
  · have hreach := hij.nonneg
    have hin := hsq.lt_of_linked hij
    have hle := hmost i hin.1 j hin.2 hij.1 (by omega)
    omega
  · rcases Int.le_total 0 most with hpos | hneg
    · rw [Int.max_eq_left hpos]
      exact hfits
    · rw [Int.max_eq_right hneg, Int.mul_zero]
      decide

/-- Where twice the number of other nodes times the latency of any link is a time, the search
answers, and rows may be replaced in place. -/
theorem exists_optimal_of_links {links : Latencies} {most : Int} (hsq : links.Square n)
    (hmost : ∀ i < n, ∀ j < n, i ≠ j → -1 < links.look i j → links.look i j ≤ most)
    (hfits : 2 * ((n - 1 : Nat) : Int) * most ≤ Time.latest) :
    ∃ d, links.shortestPaths = .ok d ∧ (List.range n).foldl sweep links.zeroDiagonal = d ∧
      Optimal links n n d := by
  obtain ⟨bound, hpos, hlinks, hbound⟩ := exists_bound_of_links hsq hmost hfits
  obtain ⟨d, hd, hsweep, hopt⟩ := optimal_of_rounds hsq hpos hlinks hbound n (Nat.le_refl n)
  exact ⟨d, (shortestPaths_of_square hsq).trans hd, hsweep, hopt⟩

/-- **The search finds the shortest paths.**  Where twice the number of other nodes times the
latency of any link is a time, no round forms a sum that is not; whatever was on the diagonal, the
table holds the least latencies, which replacing the rows in place finds as well, and the
diameter is the largest of them. -/
theorem shortest_of_links {links : Latencies} {most : Int} (hsq : links.Square n)
    (hmost : ∀ i < n, ∀ j < n, i ≠ j → -1 < links.look i j → links.look i j ≤ most)
    (hfits : 2 * ((n - 1 : Nat) : Int) * most ≤ Time.latest) :
    ∃ net, Network.ofLinks links = .ok net ∧ links.shortestPaths = .ok net.distances ∧
      Shortest links n net.distances ∧
      (List.range n).foldl sweep links.zeroDiagonal = net.distances ∧
      (n = 0 → net.diameter = 0) ∧
      (n ≠ 0 → IsGreatest {t | -1 < t ∧ ∃ i < n, ∃ j < n, net.distances.look i j = t}
        net.diameter) := by
  obtain ⟨d, hpaths, hsweep, hopt⟩ := exists_optimal_of_links hsq hmost hfits
  refine ⟨⟨d, d.diameter⟩, Network.ofLinks_eq_ok_iff.2 ⟨hpaths, rfl⟩, hpaths, hopt.shortest hsq,
    hsweep, ?_, fun hn => ?_⟩
  · rintro rfl
    exact diameter_eq_zero hopt.square
  · exact isGreatest_diameter hopt.square hn (hopt.self 0 (Nat.pos_of_ne_zero hn))

/-- Four nodes with a shorter detour, a link in one direction only, and a node that no link
leads to. -/
def detour : Latencies :=
  #[#[7, 3, 10, -1], #[-1, -9, 4, -1], #[1, -1, 0, -4], #[5, -1, -1, -1]]

theorem shortest_detour :
    ∃ net, Network.ofLinks detour = .ok net ∧ Shortest detour 4 net.distances ∧
      IsGreatest {t | -1 < t ∧ ∃ i < 4, ∃ j < 4, net.distances.look i j = t} net.diameter := by
  have hsq : detour.Square 4 := ⟨rfl, by decide⟩
  have hmost : ∀ i < 4, ∀ j < 4, i ≠ j → -1 < detour.look i j → detour.look i j ≤ 10 := by decide
  obtain ⟨net, hnet, _, hshortest, _, _, hdiameter⟩ := shortest_of_links hsq hmost (by decide)
  exact ⟨net, hnet, hshortest, hdiameter (by decide)⟩

example : detour.shortestPaths.toOption =
    some #[#[0, 3, 7, -1], #[5, 0, 4, -1], #[1, 4, 0, -4], #[5, 8, 12, 0]] := by
  decide +kernel

end BalanceAttack.Latencies
