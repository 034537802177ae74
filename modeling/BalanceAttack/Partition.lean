import BalanceAttack.Block
import BalanceAttack.Network.Latencies

/-!
# BalanceAttack.Partition

How the adversary divides the honest nodes: those with even indices are to be
kept on the left side and the others on the right.  For each node it notes how
soon a message from the other group can arrive: `nearest_cases` says what that
is, and `exists_crossingTo` that every node has one.
-/

namespace BalanceAttack

/-- The honest nodes by the side they are to be kept on. -/
structure Partition where
  left : List Nat := []
  right : List Nat := []
  /-- The latency into each node from the nearest node of the other group. -/
  crossing : Array Int := #[]
  deriving DecidableEq, Repr

namespace Partition

/-- The partition of no nodes. -/
def empty : Partition := {}

/-- Are both groups empty? -/
def isEmpty (p : Partition) : Bool := p.left.isEmpty && p.right.isEmpty

/-- The nodes to be kept on a side. -/
def nodes (p : Partition) : Side → List Nat
  | .left => p.left
  | .right => p.right

/-- The nodes below `n` whose index has the given remainder by two. -/
def withParity (n parity : Nat) : List Nat := (List.range n).filter (· % 2 = parity)

/-- The least latency of a path to a node from one of the sources, `0` if there is none. -/
def nearest (distances : Latencies) (sources : List Nat) (node : Nat) : Except Fault Int := do
  let latencies ← sources.mapM fun source => distances.entry source node
  return (latencies.filter Latencies.reaches).min?.getD 0

/-- The partition of the nodes of a network; fewer than two are not divided. -/
def ofDistances (n : Nat) (distances : Latencies) : Except Fault Partition :=
  if n < 2 then .ok empty
  else do
    let crossing ← (List.range n).mapM fun node =>
      nearest distances (withParity n (1 - node % 2)) node
    return { left := withParity n 0, right := withParity n 1, crossing := crossing.toArray }

/-- The latency into a node from the other group. -/
def crossingTo (p : Partition) (node : Nat) : Except Fault Int := Fault.read p.crossing node

/-! ## the groups -/

/-- The remainder by two of the indices of the nodes to be kept on a side. -/
def parity : Side → Nat
  | .left => 0
  | .right => 1

theorem mem_withParity {n parity i : Nat} : i ∈ withParity n parity ↔ i < n ∧ i % 2 = parity := by
  simp [withParity]

theorem nodup_withParity (n parity : Nat) : (withParity n parity).Nodup :=
  List.nodup_range.filter _

/-- The groups of a partition hang on the number of nodes alone. -/
theorem nodes_of_ofDistances {n : Nat} {distances : Latencies} {p : Partition}
    (h : ofDistances n distances = .ok p) (s : Side) :
    p.nodes s = if n < 2 then [] else withParity n (parity s) := by
  unfold ofDistances at h
  by_cases hn : n < 2
  · rw [if_pos hn] at h ⊢
    obtain rfl := Except.ok.inj h
    cases s <;> rfl
  · rw [if_neg hn] at h ⊢
    obtain ⟨crossing, _, h⟩ := Fault.bind_eq_ok_iff.1 h
    obtain rfl := Except.ok.inj h
    cases s <;> rfl

/-- A node is in at most one group, and there once. -/
theorem nodup_nodes {n : Nat} {distances : Latencies} {p : Partition}
    (h : ofDistances n distances = .ok p) (s : Side) : (p.nodes s ++ p.nodes s.other).Nodup := by
  rw [nodes_of_ofDistances h, nodes_of_ofDistances h]
  by_cases hn : n < 2
  · simp [hn]
  · rw [if_neg hn, if_neg hn, List.nodup_append]
    refine ⟨nodup_withParity _ _, nodup_withParity _ _, fun i hi j hj hij => ?_⟩
    have hi' := (mem_withParity.1 hi).2
    have hj' := (mem_withParity.1 hj).2
    cases s <;> simp only [parity, Side.other] at hi' hj' <;> omega

/-- A group is the nodes with its parity. -/
theorem mem_nodes {n : Nat} {distances : Latencies} {p : Partition}
    (h : ofDistances n distances = .ok p) (s : Side) {i : Nat} :
    i ∈ p.nodes s ↔ 2 ≤ n ∧ i < n ∧ i % 2 = parity s := by
  rw [nodes_of_ofDistances h]
  by_cases hn : n < 2
  · rw [if_pos hn]
    exact ⟨fun hi => absurd hi List.not_mem_nil, fun hi => absurd hi.1 (Nat.not_le.2 hn)⟩
  · rw [if_neg hn, mem_withParity, and_iff_right (Nat.not_lt.1 hn)]

/-- Two or more nodes are all in a group. -/
theorem mem_nodes_iff {n : Nat} {distances : Latencies} {p : Partition}
    (h : ofDistances n distances = .ok p) (s : Side) {i : Nat} :
    i ∈ p.nodes s ++ p.nodes s.other ↔ 2 ≤ n ∧ i < n := by
  rw [List.mem_append, mem_nodes h, mem_nodes h]
  cases s <;> simp only [parity, Side.other] <;> omega

/-! ## the latencies between the groups -/

/-- The nearest of some nodes has the least latency of a path, if there is one at all. -/
theorem nearest_cases {distances : Latencies} {sources : List Nat} {node : Nat} {t : Int}
    (h : nearest distances sources node = .ok t) :
    (t = 0 ∧ ∀ source ∈ sources, ¬ Latencies.reaches (distances.look source node)) ∨
      (∃ source ∈ sources, distances.entry source node = .ok t ∧ Latencies.reaches t) ∧
        ∀ source ∈ sources, Latencies.reaches (distances.look source node) →
          t ≤ distances.look source node := by
  obtain ⟨latencies, hlatencies, h⟩ := Fault.bind_eq_ok_iff.1 h
  obtain rfl := Except.ok.inj h
  have hlooks : latencies = sources.map fun source => distances.look source node := by
    have hmap := Fault.map_of_mapM id (fun source => distances.look source node)
      (fun _ _ hentry => (Latencies.look_of_entry hentry).symm) hlatencies
    rw [← hmap, List.map_id]
  have hmem : ∀ source ∈ sources, Latencies.reaches (distances.look source node) →
      distances.look source node ∈ latencies.filter Latencies.reaches := fun source hs hreaches =>
    List.mem_filter.2 ⟨hlooks ▸ List.mem_map_of_mem hs, hreaches⟩
  cases hmin : (latencies.filter Latencies.reaches).min? with
  | none =>
      rw [List.min?_eq_none_iff] at hmin
      refine .inl ⟨rfl, fun source hs hreaches => ?_⟩
      exact List.not_mem_nil (hmin ▸ hmem source hs hreaches)
  | some m =>
      obtain ⟨hm, hleast⟩ := List.min?_eq_some_iff.1 hmin
      obtain ⟨hm, hreaches⟩ := List.mem_filter.1 hm
      obtain ⟨source, hs, hentry⟩ := Fault.exists_of_mem_mapM hlatencies hm
      exact .inr ⟨⟨source, hs, hentry, hreaches⟩, fun source hs hr => hleast _ (hmem source hs hr)⟩

/-- The latencies into the nodes come from the nearest nodes of the other groups. -/
theorem crossing_of_ofDistances {n : Nat} {distances : Latencies} {p : Partition}
    (h : ofDistances n distances = .ok p) :
    p.crossing.toList.map Except.ok = if n < 2 then [] else
      (List.range n).map fun node => nearest distances (withParity n (1 - node % 2)) node := by
  unfold ofDistances at h
  by_cases hn : n < 2
  · rw [if_pos hn] at h ⊢
    obtain rfl := Except.ok.inj h
    rfl
  · rw [if_neg hn] at h ⊢
    obtain ⟨crossing, hcrossing, h⟩ := Fault.bind_eq_ok_iff.1 h
    obtain rfl := Except.ok.inj h
    exact Fault.map_of_mapM Except.ok _ (fun _ _ hnode => hnode.symm) hcrossing

theorem exists_nearest_of_mem {n : Nat} {distances : Latencies} {p : Partition}
    (h : ofDistances n distances = .ok p) {t : Int} (ht : t ∈ p.crossing) :
    ∃ sources node, nearest distances sources node = .ok t := by
  have hmem : Except.ok t ∈ p.crossing.toList.map (Except.ok (ε := Fault)) :=
    List.mem_map_of_mem (Array.mem_toList_iff.2 ht)
  rw [crossing_of_ofDistances h] at hmem
  split at hmem
  · contradiction
  · obtain ⟨node, _, hnode⟩ := List.mem_map.1 hmem
    exact ⟨_, node, hnode⟩

/-- Of two or more nodes each one has a latency from the other group. -/
theorem exists_crossingTo {n : Nat} {distances : Latencies} {p : Partition}
    (h : ofDistances n distances = .ok p) (htwo : 2 ≤ n) {node : Nat} (hnode : node < n) :
    ∃ t, p.crossingTo node = .ok t ∧
      nearest distances (withParity n (1 - node % 2)) node = .ok t := by
  have hcrossing := crossing_of_ofDistances h
  rw [if_neg (Nat.not_lt.2 htwo)] at hcrossing
  have hread := congrArg (·[node]?) hcrossing
  rw [List.getElem?_map, List.getElem?_map, List.getElem?_range hnode, Option.map_some,
    Option.map_eq_some_iff] at hread
  obtain ⟨t, ht, hnearest⟩ := hread
  rw [Array.getElem?_toList] at ht
  exact ⟨t, Fault.read_eq_ok_iff.2 ht, hnearest.symm⟩

end Partition

end BalanceAttack
