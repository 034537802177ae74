import BalanceAttack.Time

/-!
# BalanceAttack.Network.Latencies

Tables of latencies between nodes, by row for the sender and by column for the
receiver.  An entry of `unreachable` or less says that no path is known.

Tables are given from outside in any shape, so every access by index may
fault; `Square` is the shape of a proper table.
-/

namespace BalanceAttack

/-- Latencies between nodes, by sender and receiver. -/
abbrev Latencies := Array (Array Int)

namespace Latencies

/-- The entry of a pair with no known path. -/
def unreachable : Int := -1

/-- The entry of a link whose latency has not been drawn yet. -/
def linked : Int := 1

/-- Does an entry stand for a link or a path? -/
def reaches (t : Int) : Bool := unreachable < t

/-- One row of the right length for each node. -/
def Square (m : Latencies) (n : Nat) : Prop := m.size = n ∧ ∀ row ∈ m, row.size = n

/-- The table of `n` nodes with the same entry everywhere. -/
def uniform (n : Nat) (t : Int) : Latencies := Array.replicate n (Array.replicate n t)

/-- The entry of a pair. -/
def entry (m : Latencies) (i j : Nat) : Except Fault Int := do
  Fault.read (← Fault.read m i) j

/-- The entry of a pair, or `unreachable` outside the table. -/
def look (m : Latencies) (i j : Nat) : Int := (m.getD i #[]).getD j unreachable

/-- Overwrites an entry inside the table. -/
def set (m : Latencies) (i j : Nat) (t : Int) : Latencies :=
  m.modify i (·.setIfInBounds j t)

/-- Overwrites an entry, which must be inside the table. -/
def put (m : Latencies) (i j : Nat) (t : Int) : Except Fault Latencies := do
  let _ ← m.entry i j
  return m.set i j t

/-- The largest entry that stands for a path, `0` if there is none. -/
def diameter (m : Latencies) : Int :=
  ((m.toList.flatMap Array.toList).filter reaches).max?.getD 0

/-! ## entries -/

theorem square_uniform (n : Nat) (t : Int) : (uniform n t).Square n := by
  constructor
  · simp [uniform]
  · intro row h
    simp only [uniform, Array.mem_replicate] at h
    simp [h.2]

theorem entry_eq_ok_iff {m : Latencies} {i j : Nat} {t : Int} :
    m.entry i j = .ok t ↔ ∃ row, m[i]? = some row ∧ row[j]? = some t := by
  unfold entry
  cases h : m[i]? with
  | none => simp [Fault.read, h, bind, Except.bind]
  | some row => simp [Fault.read_eq_ok_iff.2 h, bind, Except.bind, Fault.read_eq_ok_iff]

theorem look_of_entry {m : Latencies} {i j : Nat} {t : Int} (h : m.entry i j = .ok t) :
    m.look i j = t := by
  obtain ⟨row, hrow, ht⟩ := entry_eq_ok_iff.1 h
  simp [look, Array.getD_eq_getD_getElem?, hrow, ht]

theorem entry_of_square {m : Latencies} {n i j : Nat} (h : m.Square n) (hi : i < n) (hj : j < n) :
    m.entry i j = .ok (m.look i j) := by
  have him : i < m.size := by rw [h.1]; exact hi
  have hjr : j < m[i].size := by rw [h.2 m[i] (Array.getElem_mem him)]; exact hj
  have he : m.entry i j = .ok m[i][j] :=
    entry_eq_ok_iff.2 ⟨m[i], by simp [him], by simp [hjr]⟩
  rw [look_of_entry he, he]

/-! ## overwriting -/

/-- An entry that is overwritten inside the table is the only one that changes. -/
theorem look_set {m : Latencies} {n i j : Nat} (h : m.Square n) (hi : i < n) (hj : j < n) (t : Int)
    (a b : Nat) : (m.set i j t).look a b = if i = a ∧ j = b then t else m.look a b := by
  have him : i < m.size := h.1.symm ▸ hi
  simp only [set, look, Array.getD_eq_getD_getElem?, Array.getElem?_modify]
  by_cases ha : i = a
  · subst ha
    have hrow := h.2 m[i] (Array.getElem_mem him)
    by_cases hb : j = b
    · subst hb
      simp [him, hrow, hj]
    · simp [him, hb]
  · simp [ha]

theorem square_set {m : Latencies} {n : Nat} (h : m.Square n) (i j : Nat) (t : Int) :
    (m.set i j t).Square n := by
  refine ⟨by rw [set, Array.size_modify, h.1], fun row hrow => ?_⟩
  obtain ⟨k, hrow⟩ := Array.mem_iff_getElem?.1 hrow
  rw [set, Array.getElem?_modify] at hrow
  split at hrow
  · obtain ⟨old, hold, rfl⟩ := Option.map_eq_some_iff.1 hrow
    rw [Array.size_setIfInBounds]
    exact h.2 old (Array.mem_of_getElem? hold)
  · exact h.2 row (Array.mem_of_getElem? hrow)

end Latencies

end BalanceAttack
