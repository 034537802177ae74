import BalanceAttack.Proofs.Recurrence
import BalanceAttack.Proofs.Wiring
import Mathlib.Data.Finset.Lattice.Fold

/-!
# BalanceAttack.Proofs.Saturation

No link can be added to a network that is drawn.  A node stops looking for
peers when it has its full number of links or has tried every node, and a peer
that it could not link to once cannot be linked to later either: links are
kept, and so is a full number of them.

* `Wiring.Met.link`, `Wiring.met_of_draft` — what one link and what a whole draft
  leave of two nodes that are not linked;
* `Wiring.exists_draft_eq` — a draft ends where every peer recurs among those drawn;
* `Latencies.saturated_of_connectivity` — no link can be added, and with links
  enough for all nodes the first draft is kept.
-/

namespace BalanceAttack

open BalanceAttack.Random

namespace Wiring

variable {n bound i peer a b : Nat} {w : Wiring}

/-! ## links that cannot be added -/

/-- Two nodes are linked, or one of them has its full number of links. -/
def Met (w : Wiring) (bound i j : Nat) : Prop :=
  w.links.look i j = Latencies.linked ∨ w.degree i = bound ∨ w.degree j = bound

/-- A peer that is refused is linked already, or has its full number of links. -/
theorem met_of_refused (h : w.Sound n bound) (hne : i ≠ peer)
    (hrefused : ¬ w.accepts bound i peer = true) : w.Met bound i peer := by
  have hcause : ¬ w.degree peer = bound → Latencies.reaches (w.links.look i peer) = true := by
    simpa [accepts, Ne.symm hne] using hrefused
  by_cases hfull : w.degree peer = bound
  · exact .inr (.inr hfull)
  · exact .inl (Latencies.mem_peers.1 (h.undirected.mem_peers_of_linked ⟨hne, hcause hfull⟩)).2

/-- What keeps two nodes from being linked stays when others are. -/
theorem Met.link (hmet : w.Met bound a b) (h : w.Sound n bound) (hi : i < n)
    (hspare : w.degree i < bound) (hpeer : peer < n) (haccepts : w.accepts bound i peer = true)
    (ha : a < n) (hb : b < n) : (w.link i peer).Met bound a b := by
  have hlink := h.link hi hspare hpeer haccepts
  have hne : i ≠ peer := by
    rintro rfl
    simp [accepts] at haccepts
  -- the number of links does not go down, and stays within the bound
  have hfull : ∀ c < n, w.degree c = bound → (w.link i peer).degree c = bound := by
    intro c hc hfull
    have hmost := hlink.bounded c hc
    rw [degree_link h.size hi hpeer hne] at hmost ⊢
    omega
  rcases hmet with hlinked | hleft | hright
  · left
    rw [look_link h.undirected.square hi hpeer]
    split
    · rfl
    · exact hlinked
  · exact .inr (.inl (hfull a ha hleft))
  · exact .inr (.inr (hfull b hb hright))

/-! ## one node after the other -/

/-- Node `i` is being linked: no link can be added to the nodes before it, nor
between it and a peer that it has tried. -/
structure Filling (n bound : Nat) (before : List Nat) (i : Nat) (tried : Std.HashSet Nat)
    (w : Wiring) : Prop where
  sound : w.Sound n bound
  before : ∀ a ∈ before, a < n → ∀ b < n, a ≠ b → w.Met bound a b
  range : ∀ j ∈ tried, j < n
  tried : ∀ j ∈ tried, i ≠ j → w.Met bound i j

variable {before : List Nat} {tried : Std.HashSet Nat}

/-- As many peers as there are nodes include every one. -/
theorem mem_of_le_size (hrange : ∀ j ∈ tried, j < n) (hsize : n ≤ tried.size) {j : Nat}
    (hj : j < n) : j ∈ tried := by
  have hnodup : tried.toList.Nodup := tried.distinct_toList.imp fun hne => by simpa using hne
  refine Std.HashSet.mem_toList.1 (Latencies.mem_of_le_length hnodup ?_ (by simpa using hsize) hj)
  exact fun j hj => hrange j (Std.HashSet.mem_toList.1 hj)

/-- Peers that include every node are as many as there are nodes. -/
theorem le_size_of_mem (hall : ∀ j < n, j ∈ tried) : n ≤ tried.size := by
  have hle : n ≤ tried.toList.length :=
    Latencies.le_length_of_mem fun j hj => Std.HashSet.mem_toList.2 (hall j hj)
  simpa using hle

namespace Filling

/-- One more try. -/
theorem next (h : Filling n bound before i tried w) (hi : i < n) (hspare : w.degree i < bound)
    (hpeer : peer < n) : Filling n bound before i (tried.insert peer)
      (if w.accepts bound i peer then w.link i peer else w) := by
  have hrange : ∀ j ∈ tried.insert peer, j < n := by
    intro j hj
    rcases Std.HashSet.mem_insert.1 hj with hj | hj
    · exact (beq_iff_eq.1 hj) ▸ hpeer
    · exact h.range j hj
  by_cases haccepts : w.accepts bound i peer = true
  · rw [if_pos haccepts]
    refine ⟨h.sound.link hi hspare hpeer haccepts, fun a ha han b hb hab => ?_, hrange,
      fun j hj hij => ?_⟩
    · exact (h.before a ha han b hb hab).link h.sound hi hspare hpeer haccepts han hb
    · rcases Std.HashSet.mem_insert.1 hj with hj | hj
      · obtain rfl := beq_iff_eq.1 hj
        left
        rw [look_link h.sound.undirected.square hi hpeer, if_pos (.inl ⟨rfl, rfl⟩)]
      · exact (h.tried j hj hij).link h.sound hi hspare hpeer haccepts hi (h.range j hj)
  · rw [if_neg haccepts]
    refine ⟨h.sound, h.before, hrange, fun j hj hij => ?_⟩
    rcases Std.HashSet.mem_insert.1 hj with hj | hj
    · obtain rfl := beq_iff_eq.1 hj
      exact met_of_refused h.sound hij haccepts
    · exact h.tried j hj hij

/-- No link can be added to a node that is done. -/
theorem done (h : Filling n bound before i tried w) (hi : i < n)
    (hdone : n ≤ tried.size ∨ bound ≤ w.degree i) :
    ∀ a ∈ before ++ [i], a < n → ∀ b < n, a ≠ b → w.Met bound a b := by
  intro a ha han b hb hab
  rcases List.mem_append.1 ha with ha | ha
  · exact h.before a ha han b hb hab
  · obtain rfl := List.mem_singleton.1 ha
    rcases hdone with hsize | hfull
    · exact h.tried b (mem_of_le_size h.range hsize hb) hab
    · exact .inr (.inl (Nat.le_antisymm (h.sound.bounded a hi) hfull))

end Filling

variable {σ : Type} [WordSource σ] {supply rest : Supply σ}

theorem met_of_fill (h : w.Sound n bound)
    (hbefore : ∀ a ∈ before, a < n → ∀ b < n, a ≠ b → w.Met bound a b) (hi : i < n) {w' : Wiring}
    (hfill : fill n bound w i supply = .ok (w', rest)) :
    ∀ a ∈ before ++ [i], a < n → ∀ b < n, a ≠ b → w'.Met bound a b := by
  refine Draw.of_settle (Sum.elim (fun state => Filling n bound before i state.1 state.2)
    (fun w => ∀ a ∈ before ++ [i], a < n → ∀ b < n, a ≠ b → w.Met bound a b)) ?_ ?_ hfill
  · rintro ⟨tried, w⟩ supply x rest hfilling hx
    by_cases hopen : tried.size < n ∧ w.degree i < bound
    · rw [tryPeer_of_open hopen.1 hopen.2] at hx
      obtain ⟨peer, _, hpeer, hx⟩ := Draw.bind_eq_ok_iff.1 hx
      obtain ⟨rfl, _⟩ := Prod.mk.inj (Except.ok.inj hx)
      exact hfilling.next hi hopen.2 (Draw.index_lt hpeer)
    · have hdone : n ≤ tried.size ∨ bound ≤ w.degree i := by omega
      rw [tryPeer_of_done hdone] at hx
      obtain ⟨rfl, _⟩ := Prod.mk.inj (Except.ok.inj hx)
      exact hfilling.done hi hdone
  · exact ⟨h, hbefore, fun j hj => absurd hj Std.HashSet.not_mem_empty,
      fun j hj => absurd hj Std.HashSet.not_mem_empty⟩

/-- No link can be added to a draft. -/
theorem met_of_draft (h : draft n bound supply = .ok (w, rest)) (hi : i < n) {j : Nat}
    (hj : j < n) (hij : i ≠ j) : w.Met bound i j := by
  have hall := Draw.of_foldlM (fun done w => w.Sound n bound ∧
    ∀ a ∈ done, a < n → ∀ b < n, a ≠ b → w.Met bound a b)
    (fun done i todo _ _ _ _ hrange hw hfill => by
      have hi : i ∈ List.range n := by
        rw [hrange]
        exact List.mem_append_right _ List.mem_cons_self
      have hi := List.mem_range.1 hi
      exact ⟨hw.1.fill hi hfill, met_of_fill hw.1 hw.2 hi hfill⟩)
    ⟨sound_bare n bound, fun a ha => absurd ha List.not_mem_nil⟩ h
  exact hall.2 i (List.mem_range.2 hi) hi j hj hij

/-! ## drafts that end -/

open WordSource (after wordAt wordAt_after after_add)

variable {source : σ}

/-- Every peer has been tried or is among those that the next so many words stand for. -/
def Awaited (n : Nat) (tried : Std.HashSet Nat) (source : σ) (q : Nat) : Prop :=
  ∀ j < n, j ∈ tried ∨ ∃ k < q, indexOfWord n (wordAt source k) = some j

variable {q left turns : Nat}

/-- The next word brings a peer nearer, or is that of the peer. -/
theorem Awaited.next (h : Awaited n tried source (q + 1)) {j : Nat} (hj : j < n) :
    indexOfWord n (WordSource.next source).1 = some j ∨ j ∈ tried ∨
      ∃ k < q, indexOfWord n (wordAt (WordSource.next source).2 k) = some j := by
  rcases h j hj with hj | ⟨k, hk, hword⟩
  · exact .inr (.inl hj)
  · cases k with
    | zero => exact .inl hword
    | succ k => exact .inr (.inr ⟨k, Nat.lt_of_succ_lt_succ hk, hword⟩)

theorem Awaited.of_reject (h : Awaited n tried source (q + 1))
    (hword : indexOfWord n (WordSource.next source).1 = none) :
    Awaited n tried (WordSource.next source).2 q := by
  intro j hj
  refine (h.next hj).resolve_left fun hpeer => ?_
  rw [hword] at hpeer
  contradiction

theorem Awaited.of_accept (h : Awaited n tried source (q + 1))
    (hword : indexOfWord n (WordSource.next source).1 = some peer) :
    Awaited n (tried.insert peer) (WordSource.next source).2 q := by
  intro j hj
  rcases h.next hj with hpeer | hj | hlater
  · rw [hword] at hpeer
    exact .inl (Std.HashSet.mem_insert.2 (.inl (beq_iff_eq.2 (Option.some.inj hpeer))))
  · exact .inl (Std.HashSet.mem_insert.2 (.inr hj))
  · exact .inr hlater

/-- A word that is rejected is lost. -/
theorem tryPeer_of_reject (hsize : tried.size < n) (hspare : w.degree i < bound)
    (hword : indexOfWord n (WordSource.next source).1 = none) (left : Nat) :
    tryPeer n bound i (tried, w) ⟨source, left + 1⟩ =
      tryPeer n bound i (tried, w) ⟨(WordSource.next source).2, left⟩ := by
  have hindex := Draw.index_succ (Nat.ne_zero_of_lt hsize) source left
  rw [hword] at hindex
  rw [tryPeer_of_open hsize hspare, tryPeer_of_open hsize hspare]
  show (Draw.index n _ >>= fun y => _) = (Draw.index n _ >>= fun y => _)
  rw [hindex]

theorem tryPeer_of_accept (hsize : tried.size < n) (hspare : w.degree i < bound)
    (hword : indexOfWord n (WordSource.next source).1 = some peer) (left : Nat) :
    tryPeer n bound i (tried, w) ⟨source, left + 1⟩ =
      .ok (.inl (tried.insert peer, if w.accepts bound i peer then w.link i peer else w),
        ⟨(WordSource.next source).2, left⟩) := by
  have hindex := Draw.index_succ (Nat.ne_zero_of_lt hsize) source left
  rw [hword] at hindex
  rw [tryPeer_of_open hsize hspare]
  exact Draw.bind_eq_ok_iff.2 ⟨peer, _, hindex, rfl⟩

/-- A node is done once every peer has been drawn that it has not tried. -/
theorem exists_settleWithin_eq (bound i : Nat) (w : Wiring) (hawaited : Awaited n tried source q)
    (hleft : q ≤ left) (hturns : left < turns) : ∃ w' used, used ≤ q ∧
      Draw.settleWithin (tryPeer n bound i) turns (tried, w) ⟨source, left⟩ =
        .ok (w', ⟨after source used, left - used⟩) := by
  induction q generalizing tried w source turns left with
  | zero =>
      have hall : ∀ j < n, j ∈ tried := fun j hj =>
        (hawaited j hj).resolve_right fun ⟨k, hk, _⟩ => Nat.not_lt_zero k hk
      obtain ⟨turns, rfl⟩ := Nat.exists_eq_add_one.2 (Nat.zero_lt_of_lt hturns)
      exact ⟨w, 0, Nat.le_refl 0,
        Draw.settleWithin_of_inr (tryPeer_of_done (.inl (le_size_of_mem hall)) _) turns⟩
  | succ q ih =>
      obtain ⟨turns, rfl⟩ := Nat.exists_eq_add_one.2 (Nat.zero_lt_of_lt hturns)
      obtain ⟨left, rfl⟩ := Nat.exists_eq_add_one.2 (Nat.zero_lt_of_lt hleft)
      by_cases hopen : tried.size < n ∧ w.degree i < bound
      · cases hword : indexOfWord n (WordSource.next source).1 with
        | none =>
            -- the word is lost, but not the turn
            obtain ⟨w', used, hused, hw'⟩ := ih w (hawaited.of_reject hword)
              (Nat.le_of_succ_le_succ hleft) (Nat.lt_of_succ_lt hturns)
            refine ⟨w', used + 1, Nat.succ_le_succ hused, ?_⟩
            rw [Nat.add_sub_add_right,
              Draw.settleWithin_congr (tryPeer_of_reject hopen.1 hopen.2 hword left)]
            exact hw'
        | some peer =>
            obtain ⟨w', used, hused, hw'⟩ :=
              ih (if w.accepts bound i peer then w.link i peer else w)
              (hawaited.of_accept hword) (Nat.le_of_succ_le_succ hleft)
              (Nat.lt_of_succ_lt_succ hturns)
            refine ⟨w', used + 1, Nat.succ_le_succ hused, ?_⟩
            rw [Nat.add_sub_add_right,
              Draw.settleWithin_of_inl (tryPeer_of_accept hopen.1 hopen.2 hword left)]
            exact hw'
      · have hdone : n ≤ tried.size ∨ bound ≤ w.degree i := by omega
        exact ⟨w, 0, Nat.zero_le _, Draw.settleWithin_of_inr (tryPeer_of_done hdone _) turns⟩

/-- Beyond every place there is one before which every peer is drawn. -/
theorem exists_place (h : Draw.Recurs n source) (p : Nat) :
    ∃ q, p ≤ q ∧ ∀ j < n, ∃ k, p ≤ k ∧ k < q ∧ indexOfWord n (wordAt source k) = some j := by
  choose! place hplace hword using fun j (hj : j < n) => h.exists_word hj p
  refine ⟨p + (Finset.range n).sup place + 1, by omega, fun j hj =>
    ⟨place j, hplace j hj, ?_, hword j hj⟩⟩
  have hle : place j ≤ (Finset.range n).sup place := Finset.le_sup (Finset.mem_range.2 hj)
  omega

/-- Where every peer recurs, a draft ends. -/
theorem exists_draft_eq (h : Draw.Recurs n source) (bound : Nat) :
    ∃ enough, ∀ left, enough ≤ left →
      ∃ w rest, draft n bound ⟨source, left⟩ = .ok (w, rest) := by
  have hnodes : ∀ c, ∃ q, ∀ left, q ≤ left → ∃ w used, used ≤ q ∧
      (List.range c).foldlM (fill n bound) (bare n) ⟨source, left⟩ =
        .ok (w, ⟨after source used, left - used⟩) := by
    intro c
    induction c with
    | zero => exact ⟨0, fun left _ => ⟨bare n, 0, Nat.le_refl 0, rfl⟩⟩
    | succ c ih =>
        obtain ⟨p, hp⟩ := ih
        obtain ⟨q, hpq, hq⟩ := exists_place h p
        refine ⟨q, fun left hleft => ?_⟩
        obtain ⟨w, used, hused, hw⟩ := hp left (hpq.trans hleft)
        have hawaited : Awaited n ∅ (after source used) (q - used) := by
          intro j hj
          obtain ⟨k, hk, hkq, hword⟩ := hq j hj
          refine .inr ⟨k - used, by omega, ?_⟩
          rw [wordAt_after, Nat.add_sub_cancel' (hused.trans hk)]
          exact hword
        obtain ⟨w', used', hused', hw'⟩ := exists_settleWithin_eq bound c w hawaited
          (Nat.sub_le_sub_right hleft used) (Nat.lt_succ_self _)
        refine ⟨w', used + used', by omega, ?_⟩
        rw [List.range_succ, List.foldlM_append]
        refine Draw.bind_eq_ok_iff.2 ⟨w, _, hw, Draw.bind_eq_ok_iff.2 ⟨w', _, hw', ?_⟩⟩
        rw [after_add, Nat.sub_sub]
        rfl
  obtain ⟨q, hq⟩ := hnodes n
  refine ⟨q, fun left hleft => ?_⟩
  obtain ⟨w, used, _, hw⟩ := hq left hleft
  exact ⟨w, _, hw⟩

end Wiring

namespace Latencies

variable {links : Latencies} {n bound : Nat}

/-! ## what is drawn -/

/-- Links to which none can be added under a bound. -/
structure Saturated (links : Latencies) (n bound : Nat) : Prop where
  /-- Of two nodes that are not linked, one has its full number of links. -/
  full : ∀ i < n, ∀ j < n, i ≠ j → links.look i j ≠ linked →
    (links.peers n i).card = bound ∨ (links.peers n j).card = bound
  /-- No more nodes have links to spare than the bound. -/
  spare : ((Finset.range n).filter fun i => (links.peers n i).card < bound).card ≤ bound
  /-- With links enough for all nodes, any two of them are linked. -/
  complete : n ≤ bound + 1 → ∀ i < n, ∀ j < n, i ≠ j → links.look i j = linked

section

variable (h : links.Undirected n)
  (hfull : ∀ i < n, ∀ j < n, i ≠ j → links.look i j ≠ linked →
    (links.peers n i).card = bound ∨ (links.peers n j).card = bound)

include h in
/-- A node that is not linked to another one has two peers less than there are nodes. -/
theorem card_peers_add_two_le {i j : Nat} (hi : i < n) (hj : j < n) (hij : i ≠ j)
    (hnone : links.look i j ≠ linked) : (links.peers n i).card + 2 ≤ n := by
  have hself : i ∉ links.peers n i := fun hmem => by
    have hlinked := (mem_peers.1 hmem).2
    rw [h.diagonal i hi] at hlinked
    contradiction
  have hother : j ∉ insert i (links.peers n i) := fun hmem =>
    (Finset.mem_insert.1 hmem).elim (fun hji => hij hji.symm) fun hmem =>
      hnone (mem_peers.1 hmem).2
  have hsub : insert j (insert i (links.peers n i)) ⊆ Finset.range n := by
    intro x hx
    rcases Finset.mem_insert.1 hx with rfl | hx
    · exact Finset.mem_range.2 hj
    · rcases Finset.mem_insert.1 hx with rfl | hx
      · exact Finset.mem_range.2 hi
      · exact Finset.mem_range.2 (mem_peers.1 hx).1
  have hcard := Finset.card_le_card hsub
  rwa [Finset.card_insert_of_notMem hother, Finset.card_insert_of_notMem hself,
    Finset.card_range] at hcard

include hfull in
/-- Nodes with links to spare are linked to one another. -/
theorem card_spare_le :
    ((Finset.range n).filter fun i => (links.peers n i).card < bound).card ≤ bound := by
  generalize hspare : ((Finset.range n).filter fun i => (links.peers n i).card < bound) = spare
  have hmem : ∀ {i}, i ∈ spare ↔ i < n ∧ (links.peers n i).card < bound := by
    intro i
    rw [← hspare, Finset.mem_filter, Finset.mem_range]
  rcases spare.eq_empty_or_nonempty with rfl | ⟨i, hi⟩
  · exact Nat.zero_le bound
  · obtain ⟨hin, hilt⟩ := hmem.1 hi
    have hsub : spare.erase i ⊆ links.peers n i := by
      intro j hj
      obtain ⟨hji, hj⟩ := Finset.mem_erase.1 hj
      obtain ⟨hjn, hjlt⟩ := hmem.1 hj
      refine mem_peers.2 ⟨hjn, ?_⟩
      by_contra hnone
      rcases hfull i hin j hjn (Ne.symm hji) hnone with hcard | hcard <;> omega
    have hle := Finset.card_le_card hsub
    have hcard := Finset.card_erase_add_one hi
    omega

include h hfull in
theorem look_eq_linked (hn : n ≤ bound + 1) {i j : Nat} (hi : i < n) (hj : j < n) (hij : i ≠ j) :
    links.look i j = linked := by
  by_contra hnone
  have hback : links.look j i ≠ linked := h.symmetric i hi j hj ▸ hnone
  have hleft := card_peers_add_two_le h hi hj hij hnone
  have hright := card_peers_add_two_le h hj hi (Ne.symm hij) hback
  rcases hfull i hi j hj hij hnone with hcard | hcard <;> omega

end

variable {σ : Type} [WordSource σ] {supply rest : Supply σ}

/-- No link can be added to a draft. -/
theorem saturated_of_draft {w : Wiring} (h : Wiring.draft n bound supply = .ok (w, rest)) :
    w.links.Saturated n bound := by
  have hsound := Wiring.sound_of_draft h
  have hfull : ∀ i < n, ∀ j < n, i ≠ j → w.links.look i j ≠ linked →
      (w.links.peers n i).card = bound ∨ (w.links.peers n j).card = bound := by
    intro i hi j hj hij hnone
    rw [hsound.degree i hi, hsound.degree j hj]
    exact (Wiring.met_of_draft h hi hj hij).resolve_left hnone
  exact ⟨hfull, card_spare_le hfull, fun hn i hi j hj hij =>
    look_eq_linked hsound.undirected hfull hn hi hj hij⟩

/-- A draft in which any two nodes are linked is kept. -/
theorem turn_of_complete {w : Wiring} (h : Wiring.draft n bound supply = .ok (w, rest))
    (hcomplete : ∀ i < n, ∀ j < n, i ≠ j → w.links.look i j = linked) :
    connectivityTurn n bound supply = .ok (.inr w.links, rest) := by
  obtain ⟨all, hall, hpath⟩ := exists_reachesAll_eq (Wiring.sound_of_draft h).undirected.square
  have hfound : all = true := by
    refine hpath.2 fun j hj => or_iff_not_imp_left.2 fun hne => ⟨_, .link ⟨Ne.symm hne, ?_⟩⟩
    rw [hcomplete 0 (Nat.zero_lt_of_lt hj) j hj (Ne.symm hne)]
    rfl
  exact turn_eq_inr_iff.2 ⟨w, h, rfl, hfound ▸ hall⟩

/-- **No link can be added to a network that is drawn.**  Of any two nodes that are not linked one
has its full number of links; so at most as many nodes as the bound have links to spare, and with
links enough for all nodes any two are linked.  In that case the first draft ends and is kept,
whatever the words, if only every peer recurs among those that are drawn. -/
theorem saturated_of_connectivity :
    (∀ (supply : Supply σ) links rest, connectivity n bound supply = .ok (links, rest) →
      links.Saturated n bound) ∧
    (n ≤ bound + 1 → ∀ source : σ, Draw.Recurs n source →
      ∃ enough, ∀ left, enough ≤ left → ∃ links rest,
        connectivityTurn n bound ⟨source, left⟩ = .ok (.inr links, rest) ∧
        connectivity n bound ⟨source, left⟩ = .ok (links, rest)) := by
  refine ⟨fun supply links rest h => ?_, fun hn source hrecurs => ?_⟩
  · refine Draw.of_settle (Sum.elim (fun _ => True) (·.Saturated n bound)) ?_ trivial h
    intro _ _ x _ _ hx
    cases x with
    | inl => trivial
    | inr links =>
        obtain ⟨w, hdraft, rfl, _⟩ := turn_eq_inr_iff.1 hx
        exact saturated_of_draft hdraft
  · obtain ⟨enough, hdraft⟩ := Wiring.exists_draft_eq hrecurs bound
    refine ⟨enough, fun left hleft => ?_⟩
    obtain ⟨w, rest, hw⟩ := hdraft left hleft
    have hturn := turn_of_complete hw ((saturated_of_draft hw).complete hn)
    exact ⟨w.links, rest, hturn, connectivity_of_turn hturn⟩

/-- Words that stand for the peers of four nodes, round and round. -/
def roundWords (i : Nat) : UInt64 := UInt64.ofNat (i % 4 * 0x4000000000000000)

theorem recurs_roundWords : Draw.Recurs 4 roundWords := by
  have haccept : ∀ j, indexOfWord 4 (WordSource.wordAt roundWords j) = some (j % 4) := by
    intro j
    rw [WordSource.wordAt_sequence, roundWords]
    have hlt : j % 4 < 4 := Nat.mod_lt j (by decide)
    generalize j % 4 = peer at hlt ⊢
    revert peer
    decide
  refine Draw.recurs_of_accept (by decide) haccept fun i hi k => ⟨4 * k + i, by omega, ?_⟩
  rw [Nat.mul_add_mod, Nat.mod_eq_of_lt hi]

/-- The ring cannot get a link across, and four nodes with three links each are all linked. -/
theorem saturated_of_connectivity_ring :
    ring.Saturated 4 2 ∧ ∃ enough, ∀ left, enough ≤ left → ∃ links rest,
      connectivityTurn 4 3 ⟨roundWords, left⟩ = .ok (.inr links, rest) ∧
      connectivity 4 3 ⟨roundWords, left⟩ = .ok (links, rest) :=
  ⟨saturated_of_connectivity.1 _ _ _ connectivity_ring,
    saturated_of_connectivity.2 (by decide) roundWords recurs_roundWords⟩

end Latencies

end BalanceAttack
