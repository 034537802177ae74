import BalanceAttack.Network.Latencies

/-!
# BalanceAttack.Network.ShortestPath

Latencies of the shortest paths between all pairs of nodes, given the
latencies of the links.  Round `k` allows paths to pass through node `k`:
`relax` replaces each entry by the sum through `k` where that is possible and
shorter.  After the rounds of all nodes every path has been allowed.

A round is computed from the table before it.  The row of `k` does not change
in round `k`, because its own entry on the diagonal is zero, and so it does
not matter which of the rows are replaced first.
-/

namespace BalanceAttack.Latencies

/-- The shorter of a known latency and of going there and then onward. -/
def shorter (direct there onward : Int) : Int :=
  if reaches there && reaches onward then
    if !reaches direct || there + onward < direct then there + onward else direct
  else direct

/-- Allows the paths of a row to pass through node `k`, whose own row is `onward`.
Columns beyond the `n` nodes keep their entries. -/
def relaxRow (n k : Nat) (onward row : Array Int) : Array Int :=
  let there := row.getD k unreachable
  if reaches there then
    row.mapIdx fun j direct =>
      if j < n then shorter direct there (onward.getD j unreachable) else direct
  else row

/-- Allows all paths to pass through node `k`. -/
def relax (m : Latencies) (k : Nat) : Latencies :=
  m.map (relaxRow m.size k (m.getD k #[]))

/-- Are the sums that a round forms all times? -/
def sumsFit (m : Latencies) (k : Nat) : Bool :=
  let onward := (m.getD k #[]).take m.size
  m.all fun row =>
    let there := row.getD k unreachable
    !reaches there || onward.all fun t => !reaches t || there + t ≤ Time.latest

/-- One round of the search for shorter paths. -/
def round (m : Latencies) (k : Nat) : Except Fault Latencies :=
  if m.sumsFit k then .ok (m.relax k) else .error .overflow

/-- A node reaches itself at once. -/
def zeroDiagonal (m : Latencies) : Latencies :=
  m.mapIdx fun i row => row.setIfInBounds i 0

/-- The latencies of the shortest paths, where each row has an entry for every node. -/
def shortestPaths (m : Latencies) : Except Fault Latencies :=
  if m.any (·.size < m.size) then .error .outOfRange
  else (List.range m.size).foldlM round m.zeroDiagonal

/-! ## sizes -/

@[simp] theorem size_relax (m : Latencies) (k : Nat) : (m.relax k).size = m.size := by
  simp [relax]

@[simp] theorem size_zeroDiagonal (m : Latencies) : m.zeroDiagonal.size = m.size := by
  simp [zeroDiagonal]

end BalanceAttack.Latencies
