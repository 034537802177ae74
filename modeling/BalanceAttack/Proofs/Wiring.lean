import BalanceAttack.Proofs.Hindrance
import BalanceAttack.Proofs.Search

/-!
# BalanceAttack.Proofs.Wiring

How nodes are linked at random.  Whatever the words, a link is made in both
directions and counted at both ends, so that the counts are the numbers of
links and stay below the bound; and a draft is kept only if the search from
node `0` has found every node, which is then on a path:

* `Wiring.Sound.link`, `Wiring.sound_of_draft` — what one link and what a whole
  draft preserve;
* `Latencies.turn_eq_inr_iff` — which drafts are kept;
* `Latencies.Wired.le_succ` — how many nodes can hang together with one link each;
* `Latencies.connectivity_spec` — the links of a network, and where there are none.
-/

namespace BalanceAttack

open BalanceAttack.Random

namespace Latencies

/-! ## undirected links -/

/-- The nodes that a node is linked to. -/
def peers (m : Latencies) (n i : Nat) : Finset Nat :=
  (Finset.range n).filter fun j => m.look i j = linked

/-- Undirected links between `n` nodes, none of them from a node to itself. -/
structure Undirected (m : Latencies) (n : Nat) : Prop where
  square : m.Square n
  entries : ∀ i < n, ∀ j < n, m.look i j = linked ∨ m.look i j = unreachable
  diagonal : ∀ i < n, m.look i i = unreachable
  symmetric : ∀ i < n, ∀ j < n, m.look i j = m.look j i

variable {m : Latencies} {n i j : Nat}

theorem mem_peers : j ∈ m.peers n i ↔ j < n ∧ m.look i j = linked := by
  rw [peers, Finset.mem_filter, Finset.mem_range]

/-- Before any link is made there is none. -/
theorem look_uniform_unreachable (n i j : Nat) :
    (uniform n unreachable).look i j = unreachable := by
  simp only [look, uniform, Array.getD_eq_getD_getElem?, Array.getElem?_replicate]
  by_cases hi : i < n <;> by_cases hj : j < n <;> simp [hi, hj]

namespace Undirected

theorem uniform (n : Nat) : (uniform n unreachable).Undirected n where
  square := square_uniform n unreachable
  entries := fun i _ j _ => .inr (look_uniform_unreachable n i j)
  diagonal := fun i _ => look_uniform_unreachable n i i
  symmetric := fun i _ j _ => by rw [look_uniform_unreachable, look_uniform_unreachable]

theorem mem_peers_of_linked (h : m.Undirected n) (hij : m.Linked i j) : j ∈ m.peers n i := by
  obtain ⟨hi, hj⟩ := h.square.lt_of_linked hij
  refine mem_peers.2 ⟨hj, (h.entries i hi j hj).resolve_right fun hnone => ?_⟩
  have hreach := hij.2
  rw [hnone] at hreach
  contradiction

theorem linked_symm (h : m.Undirected n) (i j : Nat) (hij : m.Linked i j) :
    m.Linked j i ∧ m.look j i = m.look i j := by
  obtain ⟨hi, hj⟩ := h.square.lt_of_linked hij
  have heq := h.symmetric j hj i hi
  exact ⟨⟨hij.1.symm, heq ▸ hij.2⟩, heq⟩

end Undirected

end Latencies

/-! ## a draft -/

namespace Wiring

variable {σ : Type} {n bound i peer : Nat} {w : Wiring}

/-- Undirected links, counted at both ends, no more than the bound at any. -/
structure Sound (w : Wiring) (n bound : Nat) : Prop where
  undirected : w.links.Undirected n
  size : w.degrees.size = n
  degree : ∀ i < n, (w.links.peers n i).card = w.degree i
  bounded : ∀ i < n, w.degree i ≤ bound

theorem sound_bare (n bound : Nat) : (bare n).Sound n bound := by
  have hdegree : ∀ i, (bare n).degree i = 0 := by
    intro i
    rw [degree, bare, Array.getD_eq_getD_getElem?, Array.getElem?_replicate]
    split <;> rfl
  refine ⟨.uniform n, by simp [bare], fun i _ => ?_, fun i _ => ?_⟩
  · rw [hdegree, Finset.card_eq_zero, Finset.eq_empty_iff_forall_notMem]
    intro j hj
    have hlinked := (Latencies.mem_peers.1 hj).2
    rw [bare, Latencies.look_uniform_unreachable] at hlinked
    contradiction
  · rw [hdegree]
    exact Nat.zero_le bound

/-- A link is made in both directions. -/
theorem look_link (h : w.links.Square n) (hi : i < n) (hpeer : peer < n) (a b : Nat) :
    (w.link i peer).links.look a b =
      if i = a ∧ peer = b ∨ peer = a ∧ i = b then Latencies.linked else w.links.look a b := by
  have hsq := Latencies.square_set h i peer Latencies.linked
  rw [link, Latencies.look_set hsq hpeer hi, Latencies.look_set h hi hpeer]
  by_cases hab : peer = a ∧ i = b <;> by_cases hba : i = a ∧ peer = b <;> simp [hab, hba]

/-- A link is counted at both ends. -/
theorem degree_link (hsize : w.degrees.size = n) (hi : i < n) (hpeer : peer < n) (hne : i ≠ peer)
    (a : Nat) : (w.link i peer).degree a = w.degree a + if i = a ∨ peer = a then 1 else 0 := by
  subst hsize
  simp only [degree, link, Array.getD_eq_getD_getElem?, Array.getElem?_modify]
  by_cases hia : i = a
  · subst hia
    simp [hi, hne.symm]
  · by_cases hpa : peer = a
    · subst hpa
      simp [hpeer, hia]
    · simp [hia, hpa]

namespace Sound

/-- Two nodes that are linked have each other as a peer, and no other node has one more. -/
theorem card_peers_link (h : w.Sound n bound) (hi : i < n) (hpeer : peer < n)
    (hnew : w.links.look i peer ≠ Latencies.linked) (a : Nat) :
    ((w.link i peer).links.peers n a).card =
      (w.links.peers n a).card + if i = a ∨ peer = a then 1 else 0 := by
  have hlook := look_link h.undirected.square hi hpeer
  -- at either end the other one is new
  have hend : ∀ b < n, w.links.look a b ≠ Latencies.linked →
      (∀ c, (i = a ∧ peer = c ∨ peer = a ∧ i = c) ↔ c = b) →
      ((w.link i peer).links.peers n a).card = (w.links.peers n a).card + 1 := by
    intro b hb hfree hcond
    have hset : (w.link i peer).links.peers n a = insert b (w.links.peers n a) := by
      ext c
      rw [Latencies.mem_peers, hlook, Finset.mem_insert, Latencies.mem_peers]
      by_cases hcb : c = b <;> simp [hcond, hcb, hb]
    rw [hset, Finset.card_insert_of_notMem fun hmem => hfree (Latencies.mem_peers.1 hmem).2]
  by_cases hia : i = a
  · subst hia
    rw [if_pos (.inl rfl), hend peer hpeer hnew (by omega)]
  · by_cases hpa : peer = a
    · subst hpa
      rw [if_pos (.inr rfl), hend i hi (by rwa [h.undirected.symmetric peer hpeer i hi]) (by omega)]
    · have hset : (w.link i peer).links.peers n a = w.links.peers n a := by
        ext c
        rw [Latencies.mem_peers, hlook, if_neg (by omega), Latencies.mem_peers]
      rw [if_neg (by omega), hset, Nat.add_zero]

/-- One more link between two nodes that are not linked and have links to spare. -/
theorem link (h : w.Sound n bound) (hi : i < n) (hspare : w.degree i < bound) (hpeer : peer < n)
    (haccepts : w.accepts bound i peer = true) : (w.link i peer).Sound n bound := by
  simp only [accepts, ne_eq, decide_not, Bool.and_eq_true, Bool.not_eq_true',
    decide_eq_false_iff_not] at haccepts
  obtain ⟨⟨hne, hfull⟩, hnew⟩ := haccepts
  have hlook := look_link h.undirected.square hi hpeer
  have hnew' : w.links.look i peer ≠ Latencies.linked := by
    intro hlinked
    rw [hlinked] at hnew
    contradiction
  refine ⟨⟨?_, fun a ha b hb => ?_, fun a ha => ?_, fun a ha b hb => ?_⟩, ?_, fun a ha => ?_,
    fun a ha => ?_⟩
  · exact Latencies.square_set (Latencies.square_set h.undirected.square _ _ _) _ _ _
  · rw [hlook]
    split
    · exact .inl rfl
    · exact h.undirected.entries a ha b hb
  · rw [hlook, if_neg (by omega)]
    exact h.undirected.diagonal a ha
  · rw [hlook, hlook, h.undirected.symmetric a ha b hb]
    simp only [and_comm, or_comm]
  · rw [Wiring.link, Array.size_modify, Array.size_modify]
    exact h.size
  · rw [h.card_peers_link hi hpeer hnew', degree_link h.size hi hpeer (Ne.symm hne),
      h.degree a ha]
  · rw [degree_link h.size hi hpeer (Ne.symm hne)]
    have hold := h.bounded a ha
    split
    · next hend =>
        rcases hend with rfl | rfl <;> omega
    · exact hold

variable [WordSource σ] {tried : Std.HashSet Nat} {supply rest : Supply σ}

/-- One try makes at most one link. -/
theorem tryPeer (h : w.Sound n bound) (hi : i < n)
    {x : (Std.HashSet Nat × Wiring) ⊕ Wiring}
    (hx : Wiring.tryPeer n bound i (tried, w) supply = .ok (x, rest)) :
    (x.elim Prod.snd id).Sound n bound := by
  unfold Wiring.tryPeer at hx
  dsimp only at hx
  split at hx
  · next hopen =>
      rw [Bool.and_eq_true, decide_eq_true_eq, decide_eq_true_eq] at hopen
      obtain ⟨peer, _, hpeer, hx⟩ := Draw.bind_eq_ok_iff.1 hx
      obtain ⟨rfl, _⟩ := Prod.mk.inj (Except.ok.inj hx)
      show Sound (if w.accepts bound i peer then w.link i peer else w) n bound
      split
      · next haccepts => exact h.link hi hopen.2 (Draw.index_lt hpeer) haccepts
      · exact h
  · obtain ⟨rfl, _⟩ := Prod.mk.inj (Except.ok.inj hx)
    exact h

theorem fill (h : w.Sound n bound) (hi : i < n) {w' : Wiring}
    (hfill : Wiring.fill n bound w i supply = .ok (w', rest)) : w'.Sound n bound := by
  unfold Wiring.fill at hfill
  exact Draw.of_settle (fun x => (x.elim Prod.snd id).Sound n bound)
    (fun _ _ _ _ hy hx => tryPeer hy hi hx) h hfill

end Sound

variable [WordSource σ] {supply rest : Supply σ}

/-- Whatever the words, a draft has undirected links, at most the bound at any node. -/
theorem sound_of_draft (h : draft n bound supply = .ok (w, rest)) : w.Sound n bound := by
  refine Draw.of_foldlM (fun _ w => w.Sound n bound) (fun done i todo _ _ _ _ hrange hw hfill => ?_)
    (sound_bare n bound) h
  have hi : i ∈ List.range n := by
    rw [hrange]
    exact List.mem_append_right _ List.mem_cons_self
  exact hw.fill (List.mem_range.1 hi) hfill

/-- A node that has tried every node is done, and so is one with its full number of links. -/
theorem tryPeer_of_done {tried : Std.HashSet Nat} (h : n ≤ tried.size ∨ bound ≤ w.degree i)
    (supply : Supply σ) : tryPeer n bound i (tried, w) supply = .ok (.inr w, supply) := by
  have hdone : (decide (tried.size < n) && decide (w.degree i < bound)) = false := by
    rw [Bool.and_eq_false_iff, decide_eq_false_iff_not, decide_eq_false_iff_not, Nat.not_lt,
      Nat.not_lt]
    exact h
  unfold tryPeer
  dsimp only
  rw [hdone]
  rfl

/-- Any other node tries one more. -/
theorem tryPeer_of_open {tried : Std.HashSet Nat} (hsize : tried.size < n)
    (hspare : w.degree i < bound) (supply : Supply σ) :
    tryPeer n bound i (tried, w) supply = (do
      let peer ← Draw.index n
      return .inl (tried.insert peer, if w.accepts bound i peer then w.link i peer else w) :
        Draw σ ((Std.HashSet Nat × Wiring) ⊕ Wiring)) supply := by
  unfold tryPeer
  dsimp only
  rw [decide_eq_true hsize, decide_eq_true hspare]
  rfl

theorem fill_eq (n bound : Nat) (w : Wiring) (i : Nat) (supply : Supply σ) :
    fill n bound w i supply =
      Draw.settleWithin (tryPeer n bound i) (supply.left + 1) (∅, w) supply := rfl

theorem fill_of_full (h : bound ≤ w.degree i) (supply : Supply σ) :
    fill n bound w i supply = .ok (w, supply) :=
  Draw.settleWithin_of_inr (tryPeer_of_done (.inr h) supply) supply.left

/-- A node with links to spare is linked to the peer that it finds. -/
theorem tryPeer_of_find {tried : Std.HashSet Nat} {supply between : Supply σ}
    (hsize : tried.size < n) (hspare : w.degree i < bound)
    (hpeer : Draw.index n supply = .ok (peer, between)) (haccepts : w.accepts bound i peer = true) :
    tryPeer n bound i (tried, w) supply =
      .ok (.inl (tried.insert peer, w.link i peer), between) := by
  rw [tryPeer_of_open hsize hspare]
  refine Draw.bind_eq_ok_iff.2 ⟨peer, between, hpeer, ?_⟩
  rw [if_pos haccepts]
  rfl

/-- A node that misses one link and finds a peer at once is done. -/
theorem fill_of_find {supply between : Supply σ} (hn : 0 < n) (hleft : 0 < supply.left)
    (hspare : w.degree i < bound) (hpeer : Draw.index n supply = .ok (peer, between))
    (haccepts : w.accepts bound i peer = true) (hfull : bound ≤ (w.link i peer).degree i) :
    fill n bound w i supply = .ok (w.link i peer, between) := by
  have hempty : (∅ : Std.HashSet Nat).size < n := by rwa [Std.HashSet.size_empty]
  obtain ⟨left, hleft⟩ := Nat.exists_eq_succ_of_ne_zero hleft.ne'
  rw [fill_eq, Draw.settleWithin_of_inl (tryPeer_of_find hempty hspare hpeer haccepts), hleft]
  exact Draw.settleWithin_of_inr (tryPeer_of_done (.inr hfull) between) left

/-- A draft has no fault but that the words run out. -/
theorem dry_of_draft {fault : Fault} (h : draft n bound supply = .error fault) : fault = .dry := by
  obtain ⟨done, i, todo, w, between, hrange, _, hfill⟩ := Draw.exists_of_foldlM_error h
  have hi : i ∈ List.range n := by
    rw [hrange]
    exact List.mem_append_right _ List.mem_cons_self
  have hn : n ≠ 0 := by
    rintro rfl
    contradiction
  refine Draw.dry_of_settle (fun y supply fault htry => ?_) hfill
  unfold tryPeer at htry
  dsimp only at htry
  split at htry
  · rcases Draw.bind_eq_error_iff.1 htry with htry | ⟨_, _, _, htry⟩
    · exact Draw.dry_of_index hn htry
    · contradiction
  · contradiction

end Wiring

/-! ## the network -/

namespace Latencies

variable {σ : Type} [WordSource σ] {n bound : Nat} {links : Latencies} {supply rest : Supply σ}

/-- The links of a network of `n` nodes: undirected, at most the bound at any node, and with a
path between any two nodes. -/
structure Wired (links : Latencies) (n bound : Nat) : Prop extends links.Undirected n where
  bounded : ∀ i < n, (links.peers n i).card ≤ bound
  connected : ∀ i < n, ∀ j < n, i ≠ j → ∃ t, links.Path i j t

/-- A draft is kept if the search has found all nodes. -/
theorem turn_eq_inr_iff :
    connectivityTurn n bound supply = .ok (.inr links, rest) ↔
      ∃ w, Wiring.draft n bound supply = .ok (w, rest) ∧ w.links = links ∧
        links.reachesAll = .ok true := by
  constructor
  · intro h
    obtain ⟨w, between, hdraft, h⟩ := Draw.bind_eq_ok_iff.1 h
    obtain ⟨all, _, hlift, h⟩ := Draw.bind_eq_ok_iff.1 h
    obtain ⟨hall, rfl⟩ := Draw.lift_eq_ok_iff.1 hlift
    cases all with
    | false =>
        obtain ⟨hleft, _⟩ := Prod.mk.inj (Except.ok.inj h)
        contradiction
    | true =>
        obtain ⟨hright, rfl⟩ := Prod.mk.inj (Except.ok.inj h)
        obtain rfl := Sum.inr.inj hright
        exact ⟨w, hdraft, rfl, hall⟩
  · rintro ⟨w, hdraft, rfl, hall⟩
    refine Draw.bind_eq_ok_iff.2 ⟨w, rest, hdraft, ?_⟩
    rw [hall]
    rfl

/-- A draft that is kept is a network. -/
theorem wired_of_turn (h : connectivityTurn n bound supply = .ok (.inr links, rest)) :
    links.Wired n bound := by
  obtain ⟨w, hdraft, rfl, hall⟩ := turn_eq_inr_iff.1 h
  obtain ⟨hlinks, _, hdegree, hbounded⟩ := Wiring.sound_of_draft hdraft
  refine ⟨hlinks, fun i hi => (hdegree i hi).trans_le (hbounded i hi), ?_⟩
  intro i hi j hj hij
  obtain ⟨all, hfound, hpath⟩ := exists_reachesAll_eq hlinks.square
  have hpath := hpath.1 (Except.ok.inj (hfound.symm.trans hall))
  -- from one node back to node `0`, and onward to the other
  rcases hpath i hi with rfl | ⟨a, ha⟩
  · exact (hpath j hj).resolve_left (Ne.symm hij)
  · rcases hpath j hj with rfl | ⟨b, hb⟩
    · exact ⟨a, ha.reverse hlinks.linked_symm⟩
    · have hzero : 0 ∈ Finset.range w.links.size :=
        Finset.mem_range.2 (hlinks.square.1.symm ▸ Nat.zero_lt_of_lt hi)
      exact ⟨a + b, (ha.reverse hlinks.linked_symm).append hzero hb⟩

/-- The first draft that is kept is the answer. -/
theorem connectivity_of_turn (h : connectivityTurn n bound supply = .ok (.inr links, rest)) :
    connectivity n bound supply = .ok (links, rest) := by
  unfold connectivity
  rw [Draw.settle_eq]
  exact Draw.settleWithin_of_inr h supply.left

/-- An attempt has no fault but that the words run out. -/
theorem dry_of_turn {fault : Fault} {supply : Supply σ}
    (h : connectivityTurn n bound supply = .error fault) : fault = .dry := by
  rcases Draw.bind_eq_error_iff.1 h with h | ⟨w, between, hdraft, h⟩
  · exact Wiring.dry_of_draft h
  · obtain ⟨all, hall, _⟩ := exists_reachesAll_eq (Wiring.sound_of_draft hdraft).undirected.square
    rcases Draw.bind_eq_error_iff.1 h with h | ⟨all', _, _, h⟩
    · have hread := Draw.lift_eq_error_iff.1 h
      rw [hall] at hread
      contradiction
    · cases all' <;> contradiction

/-- With at most one link to a node, no more than two nodes hang together. -/
theorem Wired.le_succ (h : links.Wired n bound) (hone : bound ≤ 1) : n ≤ bound + 1 := by
  rcases Nat.eq_zero_or_pos n with rfl | hpos
  · exact Nat.zero_le _
  -- no link leads out of node `0` and its peers
  have hclosed : ∀ x ∈ insert 0 (links.peers n 0), ∀ y, links.Linked x y →
      y ∈ insert 0 (links.peers n 0) := by
    intro x hx y hxy
    have hy := h.mem_peers_of_linked hxy
    rcases Finset.mem_insert.1 hx with rfl | hx
    · exact Finset.mem_insert_of_mem hy
    · have hback : 0 ∈ links.peers n x := by
        obtain ⟨hlt, hlook⟩ := mem_peers.1 hx
        exact mem_peers.2 ⟨hpos, (h.symmetric x hlt 0 hpos).trans hlook⟩
      have hcard := (h.bounded x (mem_peers.1 hx).1).trans hone
      rw [Finset.card_le_one.1 hcard y hy 0 hback]
      exact Finset.mem_insert_self _ _
  have hsub : Finset.range n ⊆ insert 0 (links.peers n 0) := by
    intro j hj
    by_cases hj0 : 0 = j
    · exact hj0 ▸ Finset.mem_insert_self _ _
    · obtain ⟨t, hpath⟩ := h.connected 0 hpos j (Finset.mem_range.1 hj) hj0
      exact hpath.mem_of_closed hclosed (Finset.mem_insert_self _ _)
  calc n = (Finset.range n).card := (Finset.card_range n).symm
    _ ≤ (insert 0 (links.peers n 0)).card := Finset.card_le_card hsub
    _ ≤ (links.peers n 0).card + 1 := Finset.card_insert_le _ _
    _ ≤ bound + 1 := Nat.succ_le_succ (h.bounded 0 hpos)

/-- What is drawn in the end is a draft that was kept. -/
theorem wired_of_connectivity (h : connectivity n bound supply = .ok (links, rest)) :
    links.Wired n bound := by
  refine Draw.of_settle (Sum.elim (fun _ => True) (·.Wired n bound)) ?_ trivial h
  intro _ _ x _ _ hx
  cases x with
  | inl => trivial
  | inr links => exact wired_of_turn hx

/-! ## four nodes in a ring -/

/-- Words that stand for the peers `1`, `2` and `3` of four nodes, and then for `3` only. -/
def ringWords (i : Nat) : UInt64 :=
  if i = 0 then 0x4000000000000000 else if i = 1 then 0x8000000000000000 else 0xc000000000000000

/-- So many of the words, from one of them on. -/
def ringSupply (first left : Nat) : Supply (Nat → UInt64) := ⟨fun i => ringWords (i + first), left⟩

/-- Four nodes, each linked to two others. -/
def ring : Latencies :=
  #[#[-1, 1, 1, -1], #[1, -1, -1, 1], #[1, -1, -1, 1], #[-1, 1, 1, -1]]

/-- The links that node `0` makes. -/
def ringStart : Wiring := ((Wiring.bare 4).link 0 1).link 0 2

/-- Node `0` finds two peers, and the next two nodes find one more each. -/
theorem exists_draft_ring :
    ∃ w, Wiring.draft 4 2 (ringSupply 0 20) = .ok (w, ringSupply 4 16) ∧ w.links = ring := by
  have hnone : (∅ : Std.HashSet Nat).size < 4 := by
    rw [Std.HashSet.size_empty]
    decide
  have hone : (Std.HashSet.insert (∅ : Std.HashSet Nat) 1).size < 4 := by
    rw [Std.HashSet.size_insert, if_neg Std.HashSet.not_mem_empty, Std.HashSet.size_empty]
    decide
  have hleft : Wiring.tryPeer 4 2 0 (∅, .bare 4) (ringSupply 0 20) =
      .ok (.inl (Std.HashSet.insert ∅ 1, (Wiring.bare 4).link 0 1), ringSupply 1 19) :=
    Wiring.tryPeer_of_find hnone (by decide) rfl (by decide)
  have hright : Wiring.tryPeer 4 2 0 (Std.HashSet.insert ∅ 1, (Wiring.bare 4).link 0 1)
      (ringSupply 1 19) =
        .ok (.inl (Std.HashSet.insert (Std.HashSet.insert ∅ 1) 2, ringStart), ringSupply 2 18) :=
    Wiring.tryPeer_of_find hone (by decide) rfl (by decide)
  have hfirst : Wiring.fill 4 2 (.bare 4) 0 (ringSupply 0 20) =
      .ok (ringStart, ringSupply 2 18) := by
    have hturns : (ringSupply 0 20).left + 1 = 18 + 1 + 1 + 1 := rfl
    rw [Wiring.fill_eq, hturns, Draw.settleWithin_of_inl hleft, Draw.settleWithin_of_inl hright]
    exact Draw.settleWithin_of_inr (Wiring.tryPeer_of_done (.inr (by decide)) _) 18
  have hsecond : Wiring.fill 4 2 ringStart 1 (ringSupply 2 18) =
      .ok (ringStart.link 1 3, ringSupply 3 17) :=
    Wiring.fill_of_find (by decide) (by decide) (by decide) rfl (by decide) (by decide)
  have hthird : Wiring.fill 4 2 (ringStart.link 1 3) 2 (ringSupply 3 17) =
      .ok ((ringStart.link 1 3).link 2 3, ringSupply 4 16) :=
    Wiring.fill_of_find (by decide) (by decide) (by decide) rfl (by decide) (by decide)
  have hfourth : Wiring.fill 4 2 ((ringStart.link 1 3).link 2 3) 3 (ringSupply 4 16) =
      .ok ((ringStart.link 1 3).link 2 3, ringSupply 4 16) :=
    Wiring.fill_of_full (by decide) _
  refine ⟨(ringStart.link 1 3).link 2 3, ?_, by decide +kernel⟩
  show [0, 1, 2, 3].foldlM (Wiring.fill 4 2) (Wiring.bare 4) (ringSupply 0 20) = _
  simp only [List.foldlM_cons, List.foldlM_nil, Draw.bind_eq_ok_iff]
  exact ⟨_, _, hfirst, _, _, hsecond, _, _, hthird, _, _, hfourth, rfl⟩

theorem connectivity_ring :
    connectivity 4 2 (ringSupply 0 20) = .ok (ring, ringSupply 4 16) := by
  obtain ⟨w, hdraft, hlinks⟩ := exists_draft_ring
  have hall : ring.reachesAll = .ok true := Fault.eq_ok_of_toOption (by decide +kernel)
  exact connectivity_of_turn (turn_eq_inr_iff.2 ⟨w, hdraft, hlinks, hall⟩)

/-! ## what is drawn -/

/-- **Every network that is drawn is undirected, has no more links to a node than the bound,
and hangs together.**  With too few links for so many nodes no draft is ever kept: whatever
the words, the attempts go on until these run out. -/
theorem connectivity_spec :
    (∀ (supply : Supply σ) links rest, connectivity n bound supply = .ok (links, rest) →
      links.Wired n bound) ∧
    (3 ≤ n ∧ bound = 1 ∨ 2 ≤ n ∧ bound = 0 → ∀ supply : Supply σ,
      (∀ links rest, connectivityTurn n bound supply ≠ .ok (.inr links, rest)) ∧
      connectivity n bound supply = .error .dry) := by
  refine ⟨fun supply links rest h => wired_of_connectivity h, fun hfew supply => ?_⟩
  have hnone : ∀ links : Latencies, ¬ links.Wired n bound := by
    intro links h
    have hle := h.le_succ (by omega)
    omega
  refine ⟨fun links rest h => hnone links (wired_of_turn h), ?_⟩
  cases h : (connectivity n bound : Draw σ Latencies) supply with
  | ok x => exact absurd (wired_of_connectivity h) (hnone x.1)
  | error fault => rw [Draw.dry_of_settle (fun _ _ _ h => dry_of_turn h) h]

theorem connectivity_spec_ring :
    (∃ links rest, connectivity 4 2 (ringSupply 0 20) = .ok (links, rest) ∧ links.Wired 4 2) ∧
      connectivity 4 1 (ringSupply 0 20) = .error .dry := by
  exact ⟨⟨_, _, connectivity_ring, connectivity_spec.1 _ _ _ connectivity_ring⟩,
    (connectivity_spec.2 (.inl ⟨by decide, rfl⟩) (ringSupply 0 20)).2⟩

end Latencies

end BalanceAttack
