import BalanceAttack.Proofs.ShortestPath

/-!
# BalanceAttack.Proofs.Closure

The search for shortest paths finds nothing new in what it has found.  A table
is closed if going there and then onward is never shorter than its entry, and
never leads where the entry does not; no round changes such a table.  The table
of the shortest paths is closed, also for pairs that no path connects:

* `Closed.relax`, `Closed.shortestPaths_eq` — a closed table is kept by every round;
* `Optimal.closed` — the shortest paths are a closed table;
* `shortestPaths_idempotent` — the search twice over.
-/

namespace BalanceAttack.Latencies

variable {m d : Latencies} {n k i j : Nat}

/-- Square tables with the same entries are the same. -/
theorem Square.ext (hm : m.Square n) (hd : d.Square n)
    (hlook : ∀ i < n, ∀ j < n, m.look i j = d.look i j) : m = d := by
  refine Array.ext (hm.1.trans hd.1.symm) fun i hi hi' => ?_
  have hrow := hm.2 m[i] (Array.getElem_mem hi)
  have hrow' := hd.2 d[i] (Array.getElem_mem hi')
  refine Array.ext (hrow.trans hrow'.symm) fun j hj hj' => ?_
  have heq := hlook i (hm.1 ▸ hi) j (hrow ▸ hj)
  rwa [look, look, ← Array.getElem_eq_getD (h := hi), ← Array.getElem_eq_getD (h := hi'),
    ← Array.getElem_eq_getD (h := hj), ← Array.getElem_eq_getD (h := hj')] at heq

/-! ## closed tables -/

/-- A table in which to go there and then onward is a way that has an entry, and no shorter one. -/
structure Closed (d : Latencies) (n : Nat) : Prop where
  square : d.Square n
  self : ∀ i < n, d.look i i = 0
  triangle : ∀ i < n, ∀ k < n, ∀ j < n, reaches (d.look i k) = true →
    reaches (d.look k j) = true →
      reaches (d.look i j) = true ∧ d.look i j ≤ d.look i k + d.look k j

namespace Closed

theorem shorter_eq (h : d.Closed n) (hi : i < n) (hk : k < n) (hj : j < n) :
    shorter (d.look i j) (d.look i k) (d.look k j) = d.look i j := by
  unfold shorter
  split
  · next hboth =>
      obtain ⟨hthere, honward⟩ := (Bool.and_eq_true _ _).mp hboth
      obtain ⟨hreach, hle⟩ := h.triangle i hi k hk j hj hthere honward
      rw [hreach, Bool.not_true, Bool.false_or, if_neg]
      rw [decide_eq_true_eq]
      exact Int.not_lt.2 hle
  · rfl

/-- No round changes a closed table. -/
theorem relax (h : d.Closed n) (hk : k < n) : d.relax k = d := by
  refine (square_relax h.square k).ext h.square fun i hi j hj => ?_
  rw [look_relax h.square hi hj]
  exact h.shorter_eq hi hk hj

theorem zeroDiagonal (h : d.Closed n) : d.zeroDiagonal = d := by
  refine (square_zeroDiagonal h.square).ext h.square fun i hi j hj => ?_
  rw [look_zeroDiagonal h.square hi]
  split
  · next hij => rw [← hij.1, h.self i hi]
  · rfl

/-- Where no sum is too long, the search finds nothing new in a closed table. -/
theorem shortestPaths_eq (h : d.Closed n) (hfit : ∀ k < n, d.sumsFit k = true) :
    d.shortestPaths = .ok d := by
  have hrounds : ∀ c ≤ n, (List.range c).foldlM round d = .ok d := by
    intro c hc
    induction c with
    | zero => rfl
    | succ c ih =>
        rw [Fault.foldlM_range_succ (ih (Nat.le_of_succ_le hc)), round, if_pos (hfit c hc),
          h.relax hc]
  rw [shortestPaths_of_square h.square, h.zeroDiagonal]
  exact hrounds n (Nat.le_refl n)

end Closed

/-! ## the shortest paths -/

theorem Optimal.closed (h : Optimal m n n d) (hm : m.Square n) : d.Closed n where
  square := h.square
  self := h.self
  triangle := fun _ hi _ hk _ hj => (h.shortest hm).triangle hm hi hk hj

/-- **To search for shortest paths among shortest paths changes nothing.**  Where twice the
number of other nodes times the latency of any link is a time, neither search forms a sum that
is not, though the second one adds up whole paths. -/
theorem shortestPaths_idempotent {links : Latencies} {most : Int} (hsq : links.Square n)
    (hmost : ∀ i < n, ∀ j < n, i ≠ j → -1 < links.look i j → links.look i j ≤ most)
    (hfits : 2 * ((n - 1 : Nat) : Int) * most ≤ Time.latest) :
    ∃ d, links.shortestPaths = .ok d ∧ Shortest links n d ∧ d.shortestPaths = .ok d := by
  obtain ⟨d, hd, _, hopt⟩ := exists_optimal_of_links hsq hmost hfits
  obtain ⟨bound, hpos, hlinks, hbound⟩ := exists_bound_of_links hsq hmost hfits
  refine ⟨d, hd, hopt.shortest hsq, (hopt.closed hsq).shortestPaths_eq fun k hk => ?_⟩
  exact hopt.sumsFit (Nat.le_refl n) hk hpos hlinks hbound

/-- The table of `detour` has a link in one direction only and a node that no link leads to. -/
theorem shortestPaths_idempotent_detour :
    ∃ d, detour.shortestPaths = .ok d ∧ Shortest detour 4 d ∧ d.shortestPaths = .ok d := by
  have hsq : detour.Square 4 := ⟨rfl, by decide⟩
  have hmost : ∀ i < 4, ∀ j < 4, i ≠ j → -1 < detour.look i j → detour.look i j ≤ 10 := by decide
  exact shortestPaths_idempotent hsq hmost (by decide)

end BalanceAttack.Latencies
