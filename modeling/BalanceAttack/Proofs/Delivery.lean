import BalanceAttack.Proofs.Flow

/-!
# BalanceAttack.Proofs.Delivery

Every block that is made public reaches every node, and none reaches a node in
any other way.  Each of two or more nodes has a public block or is going to be
delivered it once; only the genesis block may be delivered more often.  Nodes
to which nothing is on its way have therefore received the same.
-/

namespace BalanceAttack

open BalanceAttack.Random

/-- A node has received a block. -/
def World.Received {σ : Type} (w : World σ) (node : Nat) (b : BlockId) : Prop :=
  ∃ v, w.nodes[node]? = some v ∧ v.has b = true

/-- How often a block is on its way to a node. -/
def Agenda.delivering (q : Agenda) (node : Nat) (b : BlockId) : Nat :=
  ((q.arrivals node).map Prod.snd).count b

/-- Blocks have been made public to so many nodes, and nothing else is known to them. -/
structure Delivered {σ : Type} (n : Nat) (published : List (Side × BlockId)) (w : World σ) :
    Prop where
  /-- What is not public has not been received and is not on its way. -/
  secret : ∀ p < n, ∀ b, b ∉ published.map Prod.snd →
    ¬ w.Received p b ∧ w.agenda.delivering p b = 0
  /-- What is public has been received, or is on its way, once. -/
  once : ∀ p < n, ∀ b, b ∈ published.map Prod.snd → b ≠ .genesis →
    w.Received p b ∧ w.agenda.delivering p b = 0 ∨
      ¬ w.Received p b ∧ w.agenda.delivering p b = 1
  /-- The genesis block may be on its way more than once. -/
  genesis : ∀ p < n, w.Received p .genesis ∨ 1 ≤ w.agenda.delivering p .genesis
  /-- Where no delivery is pending, no two views can be told apart. -/
  alike : (∀ p, w.agenda.arrivals p = []) → ∀ u ∈ w.nodes, ∀ v ∈ w.nodes, u.Alike v

theorem World.received_iff {σ : Type} {w : World σ} {node : Nat} {v : View}
    (hv : w.nodes[node]? = some v) (b : BlockId) : w.Received node b ↔ v.has b = true := by
  constructor
  · rintro ⟨v', hv', hb⟩
    obtain rfl : v' = v := Option.some.inj (hv'.symm.trans hv)
    exact hb
  · exact fun hb => ⟨v, hv, hb⟩

namespace Balancer

variable {σ : Type} [WordSource σ] {supply : Supply σ} {env : Environment} {net : Network}
  {margin : Balancer → Int} {h : Run.History} {s : Run.State Balancer σ}

theorem published_eq (htwo : 2 ≤ net.size) :
    h.published = (.right, .genesis) :: h.addressed net.size := by
  rw [Run.History.published, Run.History.addressed, if_pos htwo]

/-- How often a node has a block, or has it coming. -/
theorem exists_count_of_reaches (hsq : net.distances.Square net.size) (htwo : 2 ≤ net.size)
    (hr : (run env net margin).Reaches {} supply h s) (hfits : Fits env s.adversary) {p : Nat}
    (hp : p < net.size) (b : BlockId) :
    ∃ got k, (s.world.Received p b ↔ got = 1) ∧ got ≤ 1 ∧ 0 < k ∧
      s.world.agenda.delivering p b + got =
        if b = .genesis then k else ((h.published).map Prod.snd).count b := by
  obtain ⟨v, m, hv, _, hf⟩ := account_of_reaches hsq hr hfits hp
  obtain ⟨k, hk, hcount⟩ := hf.count_coming
  have hgenesis := (List.nodup_cons.1 (nodup_addressed hr hfits net.size)).1
  have hgot : s.world.Received p b ↔ (v.has b).toNat = 1 := by
    rw [World.received_iff hv, Bool.toNat_eq_one]
  refine ⟨(v.has b).toNat, k, hgot, Bool.toNat_le _, hk htwo, ?_⟩
  have hb := hcount b
  rw [published_eq htwo, List.map_cons]
  by_cases hbg : b = .genesis
  · rw [if_pos hbg] at hb ⊢
    rw [hbg] at hb ⊢
    rw [List.count_eq_zero_of_not_mem hgenesis] at hb
    exact hb
  · rw [if_neg hbg, Nat.zero_add] at hb
    rw [if_neg hbg, List.count_cons_of_ne fun heq => hbg heq.symm]
    exact hb

/-- Nodes to which nothing is on its way cannot be told apart. -/
theorem alike_of_arrivals_nil (hsq : net.distances.Square net.size) (htwo : 2 ≤ net.size)
    (hr : (run env net margin).Reaches {} supply h s)
    (hfits : Fits env s.adversary)
    (hnil : ∀ p, s.world.agenda.arrivals p = []) {v w : View} (hv : v ∈ s.world.nodes)
    (hw : w ∈ s.world.nodes) : v.Alike w := by
  have hholds : ∀ u ∈ s.world.nodes, u.Holds ((.right, .genesis) :: h.addressed net.size) := by
    intro u hu
    obtain ⟨p, hp, hpu⟩ := Array.mem_iff_getElem.1 hu
    have hsize : s.world.nodes.size = net.size := size_nodes_of_reaches hsq hr
    obtain ⟨u', m, hu', _, hf⟩ := account_of_reaches hsq hr hfits (p := p) (by omega)
    have heq : u' = u := by
      rw [Array.getElem?_eq_getElem hp, hpu] at hu'
      exact (Option.some.inj hu').symm
    rw [heq, hnil p] at hf
    exact hf.holds_of_coming_nil htwo
  exact (hholds v hv).alike (hholds w hw)

/-- **No loss, no duplication, and the same views in the end.**  The blocks that
have been made public are the genesis block, those mined by honest nodes and those
the adversary has sent; blocks are lent only as long as their numbers fit. -/
theorem delivered_of_reaches (hsq : net.distances.Square net.size) (htwo : 2 ≤ net.size)
    (hr : (run env net margin).Reaches {} supply h s)
    (hfits : Fits env s.adversary) :
    Delivered net.size h.published s.world where
  secret := by
    intro p hp b hb
    obtain ⟨got, k, hgot, _, _, hcount⟩ := exists_count_of_reaches hsq htwo hr hfits hp b
    have hne : b ≠ .genesis := fun heq => hb (heq ▸ List.mem_cons_self)
    rw [if_neg hne, List.count_eq_zero_of_not_mem hb] at hcount
    rw [hgot]
    omega
  once := by
    intro p hp b hb hne
    obtain ⟨got, k, hgot, hle, _, hcount⟩ := exists_count_of_reaches hsq htwo hr hfits hp b
    have hnodup : (h.published.map Prod.snd).Nodup := by
      rw [published_eq htwo]
      exact nodup_addressed hr hfits net.size
    rw [if_neg hne, List.count_eq_one_of_mem hnodup hb] at hcount
    rw [hgot]
    omega
  genesis := by
    intro p hp
    obtain ⟨got, k, hgot, hle, hk, hcount⟩ := exists_count_of_reaches hsq htwo hr hfits hp .genesis
    rw [if_pos rfl] at hcount
    rw [hgot]
    omega
  alike := fun hnil _ hu _ hv => alike_of_arrivals_nil hsq htwo hr hfits hnil hu hv

/-- Delivery between two nodes, each of which waits for a block that the other one has. -/
theorem delivered_pair :
    ∃ h s, (run pairEnvironment pair Balancer.margin).Reaches {} pairSupply h s ∧ Midway h s ∧
      Delivered pair.size h.published s.world := by
  obtain ⟨h, s, hr, hmidway⟩ := exists_reaches_midway
  exact ⟨h, s, hr, hmidway,
    delivered_of_reaches square_pair (by decide) hr fun _ => hmidway.borrowed_lt⟩

end Balancer

end BalanceAttack
