import BalanceAttack.Proofs.LinkDelay
import BalanceAttack.Proofs.ShortestPath

/-!
# BalanceAttack.Proofs.Metric

The latencies of a network that is drawn are a metric, but for symmetry, which
they have where links cost the same in both directions.  Any two nodes of such
a network are on a path, so that all its latencies are those of shortest paths:

* `Network.metric_of_shortest` — what shortest paths between all nodes have in common;
* `Network.metric_of_draw` — the network that is drawn.
-/

namespace BalanceAttack

open BalanceAttack.Random

namespace Network

/-- The latencies between `n` nodes, a path between any two of which exists: no path is longer
than it would be through another node, and all take a time within bounds. -/
structure Metric (net : Network) (n : Nat) (least most : Int) : Prop where
  square : net.distances.Square n
  self : ∀ i < n, net.distances.look i i = 0
  reached : ∀ i < n, ∀ j < n, Latencies.unreachable < net.distances.look i j
  triangle : ∀ i < n, ∀ j < n, ∀ k < n,
    net.distances.look i j ≤ net.distances.look i k + net.distances.look k j
  bounds : ∀ i < n, ∀ j < n, i ≠ j →
    least ≤ net.distances.look i j ∧ net.distances.look i j ≤ most
  diameter_one : n = 1 → net.diameter = 0
  diameter : n ≠ 1 → least ≤ net.diameter ∧ net.diameter ≤ most

variable {links : Latencies} {net : Network} {n : Nat} {least most : Int}

/-! ## shortest paths between all nodes -/

section shortest

variable {d : Latencies} {i j k : Nat} (h : Latencies.Shortest links n d) (hsq : links.Square n)
  (hpath : ∀ i < n, ∀ j < n, i ≠ j → ∃ t, links.Path i j t)

include h hpath

/-- Every entry stands for a path. -/
theorem reaches_look (hi : i < n) (hj : j < n) : Latencies.reaches (d.look i j) = true :=
  (h.reaches_iff_path hi hj).2 (or_iff_not_imp_left.2 (hpath i hi j hj))

include hsq

/-- Going through another node takes no less time. -/
theorem look_triangle (hi : i < n) (hj : j < n) (hk : k < n) :
    d.look i j ≤ d.look i k + d.look k j :=
  (h.triangle hsq hi hk hj (reaches_look h hpath hi hk) (reaches_look h hpath hk hj)).2

/-- Between two nodes there is at least one link, and none need be taken twice. -/
theorem look_bounds
    (hlinks : ∀ i j, links.Linked i j → least ≤ links.look i j ∧ links.look i j ≤ most)
    (hi : i < n) (hj : j < n) (hij : i ≠ j) :
    least ≤ d.look i j ∧ d.look i j ≤ ((n - 1 : Nat) : Int) * most := by
  obtain ⟨hwalk, hle⟩ := h.least i hi j hj hij (hpath i hi j hj hij)
  have hsub : Finset.range links.size ⊆ Finset.range n := by rw [hsq.1]
  obtain ⟨u, _, hu, hmost⟩ := hwalk.exists_short hsub hi hj hij fun i j hij => (hlinks i j hij).2
  exact ⟨hwalk.le_of_links fun i j hij => (hlinks i j hij).1, (hle hu).trans hmost⟩

end shortest

/-- Shortest paths between all nodes are a metric, but for symmetry. -/
theorem metric_of_shortest (h : Latencies.Shortest links n net.distances) (hsq : links.Square n)
    (hn : 1 ≤ n) (hpath : ∀ i < n, ∀ j < n, i ≠ j → ∃ t, links.Path i j t)
    (hlinks : ∀ i j, links.Linked i j → least ≤ links.look i j ∧ links.look i j ≤ most)
    (hdiameter : net.diameter = net.distances.diameter) :
    net.Metric n least (((n - 1 : Nat) : Int) * most) := by
  have hgreatest := Latencies.isGreatest_diameter h.square (by omega) (h.self 0 hn)
  rw [← hdiameter] at hgreatest
  obtain ⟨⟨_, a, ha, b, hb, hab⟩, hle⟩ := hgreatest
  refine ⟨h.square, h.self, fun i hi j hj => ?_,
    fun i hi j hj k hk => look_triangle h hsq hpath hi hj hk,
    fun i hi j hj hij => look_bounds h hsq hpath hlinks hi hj hij, ?_, fun hne => ?_⟩
  · exact of_decide_eq_true (reaches_look h hpath hi hj)
  · rintro rfl
    obtain rfl : a = b := by omega
    rw [← hab, h.self a ha]
  · -- the nodes `0` and `1` are some way apart, and the diameter is no less
    have hapart := look_bounds h hsq hpath hlinks hn (show 1 < n by omega) Nat.zero_ne_one
    have hfar : net.distances.look 0 1 ≤ net.diameter :=
      hle ⟨of_decide_eq_true (reaches_look h hpath hn (show 1 < n by omega)),
        0, hn, 1, by omega, rfl⟩
    refine ⟨hapart.1.trans hfar, ?_⟩
    by_cases heq : a = b
    · subst heq
      rw [← hab, h.self a ha]
      have hfirst := reaches_look h hpath hn (show 1 < n by omega)
      exact (Latencies.reaches_iff.1 hfirst).trans hapart.2
    · rw [← hab]
      exact (look_bounds h hsq hpath hlinks ha hb heq).2

/-- Where links cost the same in both directions, so do shortest paths. -/
theorem symmetric_of_shortest {d : Latencies} (h : Latencies.Shortest links n d)
    (hpath : ∀ i < n, ∀ j < n, i ≠ j → ∃ t, links.Path i j t)
    (hback : ∀ i j, links.Linked i j → links.Linked j i ∧ links.look j i = links.look i j)
    {i j : Nat} (hi : i < n) (hj : j < n) : d.look i j = d.look j i := by
  by_cases hij : i = j
  · rw [hij]
  · obtain ⟨hthere, hleast⟩ := h.least i hi j hj hij (hpath i hi j hj hij)
    obtain ⟨hhome, hleast'⟩ := h.least j hj i hi (Ne.symm hij) (hpath j hj i hi (Ne.symm hij))
    exact le_antisymm (hleast (hhome.reverse hback)) (hleast' (hthere.reverse hback))

/-! ## the network that is drawn -/

variable {σ : Type} [WordSource σ] {topology : Topology} {degree : Nat} {base : Int}
  {supply rest : Supply σ}

/-- **A network that is drawn is a metric.**  Once nodes are linked, nothing but a lack of words
keeps their links from getting latencies, none of which takes a link away or makes a new one;
and if no sum of two paths can be too large, the network holds latencies between all its nodes
that obey the triangle law, and lie between that of the shortest link and that of as many
of the longest as there are other nodes. -/
theorem metric_of_draw (hn : 1 ≤ n) (hbase : 0 ≤ base)
    (hlinks : Latencies.connectivity n degree supply = .ok (links, rest)) :
    (∀ fault, links.drawLatencies topology base rest = .error fault → fault = .dry) ∧
    ∀ weighted rest', links.drawLatencies topology base rest = .ok (weighted, rest') →
      (∀ i j, weighted.Linked i j ↔ links.Linked i j) ∧
      ∀ least most, (∀ i j, weighted.Linked i j →
          least ≤ weighted.look i j ∧ weighted.look i j ≤ most) →
        2 * ((n - 1 : Nat) : Int) * most ≤ Time.latest →
        ∃ net, draw topology n degree base supply = .ok (net, rest') ∧
          net.Metric n least (((n - 1 : Nat) : Int) * most) ∧
          (topology = .random → ∀ i < n, ∀ j < n,
            net.distances.look i j = net.distances.look j i) := by
  have hwired := Latencies.wired_of_connectivity hlinks
  have hsq := hwired.square
  refine ⟨fun fault h => Latencies.dry_of_drawLatencies hsq hbase h,
    fun weighted rest' hweighted => ?_⟩
  have hdrawn := Latencies.weighted_of_drawLatencies hsq hbase hweighted
  have hiff : ∀ i j, weighted.Linked i j ↔ links.Linked i j :=
    fun i j => hdrawn.linked_iff hwired.toUndirected
  refine ⟨hiff, fun least most hbounds hfits => ?_⟩
  have hmost : ∀ i < n, ∀ j < n, i ≠ j → -1 < weighted.look i j → weighted.look i j ≤ most :=
    fun i _ j _ hij hreach => (hbounds i j ⟨hij, Latencies.reaches_iff.2 (by omega)⟩).2
  obtain ⟨d, hpaths, _, hopt⟩ := Latencies.exists_optimal_of_links hdrawn.square hmost hfits
  have hshortest := hopt.shortest hdrawn.square
  have hpath : ∀ i < n, ∀ j < n, i ≠ j → ∃ t, weighted.Path i j t := by
    intro i hi j hj hij
    obtain ⟨t, ht⟩ := hwired.connected i hi j hj hij
    rw [Latencies.Path, hdrawn.square.1]
    rw [Latencies.Path, hsq.1] at ht
    exact ht.exists_of_linked fun i j hij => (hiff i j).2 hij
  refine ⟨⟨d, d.diameter⟩, ?_, ?_, ?_⟩
  · refine Draw.bind_eq_ok_iff.2 ⟨links, rest, hlinks, Draw.bind_eq_ok_iff.2
      ⟨weighted, rest', hweighted, Draw.lift_eq_ok_iff.2 ⟨?_, rfl⟩⟩⟩
    exact ofLinks_eq_ok_iff.2 ⟨hpaths, rfl⟩
  · exact metric_of_shortest hshortest hdrawn.square hn hpath hbounds rfl
  · rintro rfl i hi j hj
    refine symmetric_of_shortest hshortest hpath (fun a b hab => ?_) hi hj
    obtain ⟨ha, hb⟩ := hdrawn.square.lt_of_linked hab
    have heq := hdrawn.symmetric hwired.toUndirected hb ha
    exact ⟨⟨hab.1.symm, heq ▸ hab.2⟩, heq⟩

/-- The links of the ring with their latencies. -/
def ringLatencies : Latencies :=
  #[#[-1, 112, 112, -1], #[112, -1, -1, 112], #[112, -1, -1, 112], #[-1, 112, 112, -1]]

theorem metric_ring :
    ∃ net rest, draw .random 4 2 100 (Latencies.ringSupply 0 20) = .ok (net, rest) ∧
      net.Metric 4 112 336 ∧
      ∀ i < 4, ∀ j < 4, net.distances.look i j = net.distances.look j i := by
  have hanswer : (Latencies.ring.drawLatencies .random 100
      (Latencies.ringSupply 4 16)).toOption.map Prod.fst = some ringLatencies := by
    decide +kernel
  obtain ⟨⟨weighted, rest⟩, hweighted, rfl⟩ := Option.map_eq_some_iff.1 hanswer
  obtain ⟨_, hspec⟩ := (metric_of_draw (by decide) (by decide) Latencies.connectivity_ring).2
    ringLatencies rest (Fault.eq_ok_of_toOption hweighted)
  have hsq : ringLatencies.Square 4 := ⟨rfl, by decide⟩
  have hlinks : ∀ i < 4, ∀ j < 4, Latencies.reaches (ringLatencies.look i j) = true →
      112 ≤ ringLatencies.look i j ∧ ringLatencies.look i j ≤ 112 := by decide
  have hbounds : ∀ i j, ringLatencies.Linked i j →
      112 ≤ ringLatencies.look i j ∧ ringLatencies.look i j ≤ 112 := fun i j hij =>
    hlinks i (hsq.lt_of_linked hij).1 j (hsq.lt_of_linked hij).2 hij.2
  obtain ⟨net, hnet, hmetric, hsymm⟩ := hspec 112 112 hbounds (by decide)
  exact ⟨net, rest, hnet, hmetric, hsymm rfl⟩

end Network

end BalanceAttack
