import BalanceAttack.Network.Connectivity
import BalanceAttack.Proofs.ShortestPath

/-!
# BalanceAttack.Proofs.Search

The search from node `0` finds the nodes on a path from it, all of them and no
others.  A node is found once, by way of a link from one that was found before;
what stands at a place of the order stays there, so that the places can be
visited one after the other while the order grows.  When all of them have been
visited no link leads out of the nodes found:

* `Search.Sound.look`, `Search.Sound.visit` — what one look and one visit find;
* `Search.exists_swept` — after some visits no link leads out of the places visited;
* `exists_reachesAll_eq` — what the search answers;
* `reachesAll_iff_closure` — it answers as the shortest paths do.
-/

namespace BalanceAttack.Latencies

variable {m d : Latencies} {n : Nat}

section

variable {l : List Nat}

theorem subperm_range (hnodup : l.Nodup) (hlt : ∀ v ∈ l, v < n) : l.Subperm (List.range n) :=
  List.subperm_of_subset hnodup fun v hv => List.mem_range.2 (hlt v hv)

/-- Different numbers below a bound are no more than it says. -/
theorem length_le_of_nodup (hnodup : l.Nodup) (hlt : ∀ v ∈ l, v < n) : l.length ≤ n := by
  simpa using (subperm_range hnodup hlt).length_le

/-- As many different numbers below a bound as it says are all of them. -/
theorem mem_of_le_length (hnodup : l.Nodup) (hlt : ∀ v ∈ l, v < n) (hle : n ≤ l.length) {v : Nat}
    (hv : v < n) : v ∈ l := by
  have hperm := (subperm_range hnodup hlt).perm_of_length_le (by simpa using hle)
  exact hperm.mem_iff.2 (List.mem_range.2 hv)

/-- Numbers that include all below a bound are as many as it says, or more. -/
theorem le_length_of_mem (hall : ∀ v < n, v ∈ l) : n ≤ l.length := by
  have hsub : List.range n ⊆ l := fun v hv => hall v (List.mem_range.1 hv)
  simpa using (List.subperm_of_subset List.nodup_range hsub).length_le

end

namespace Search

/-- A search that has found nodes on paths from node `0`, each of them once, and marked these. -/
structure Sound (m : Latencies) (s : Search) : Prop where
  nodup : s.found.toList.Nodup
  marked : ∀ v < m.size, s.seen.getD v true = true ↔ v ∈ s.found
  first : 0 ∈ s.found
  reached : ∀ v ∈ s.found, v < m.size ∧ (v = 0 ∨ ∃ t, m.Path 0 v t)

/-- What stands at a place of the order stays there. -/
def Extends (s s' : Search) : Prop :=
  ∀ place node : Nat, s.found[place]? = some node → s'.found[place]? = some node

/-- All nodes that a node is linked to have been found. -/
def Exhausts (m : Latencies) (s : Search) (node : Nat) : Prop :=
  ∀ peer, m.Linked node peer → peer ∈ s.found

variable {s s' s'' : Search} {node peer : Nat}

theorem Extends.refl (s : Search) : s.Extends s := fun _ _ h => h

theorem Extends.trans (h : s.Extends s') (h' : s'.Extends s'') : s.Extends s'' :=
  fun _ _ hplace => h' _ _ (h _ _ hplace)

theorem Extends.mem (h : s.Extends s') (hnode : node ∈ s.found) : node ∈ s'.found := by
  obtain ⟨place, hplace⟩ := Array.mem_iff_getElem?.1 hnode
  exact Array.mem_of_getElem? (h _ _ hplace)

/-- A new node is found behind all others. -/
theorem extends_push (s : Search) (peer : Nat) (seen : Array Bool) :
    s.Extends { found := s.found.push peer, seen } := by
  intro place node hplace
  have hlt : place < s.found.size := (Array.getElem?_eq_some_iff.1 hplace).1
  rw [Array.getElem?_push, if_neg (Nat.ne_of_lt hlt)]
  exact hplace

theorem Exhausts.mono (h : s.Exhausts m node) (hs : s.Extends s') : s'.Exhausts m node :=
  fun peer hlinked => hs.mem (h peer hlinked)

theorem sound_start (hn : m.size ≠ 0) : (start m.size).Sound m where
  nodup := by simp [start]
  marked := by
    intro v hv
    simp only [start, Array.getD_eq_getD_getElem?, Array.getElem?_setIfInBounds,
      Array.size_replicate, Array.getElem?_replicate, List.mem_toArray, List.mem_singleton]
    by_cases hzero : v = 0
    · simp [hzero, Nat.pos_of_ne_zero hn]
    · simp [hzero, Ne.symm hzero, hv]
  first := by simp [start]
  reached := by
    intro v hv
    obtain rfl : v = 0 := by simpa [start] using hv
    exact ⟨Nat.pos_of_ne_zero hn, .inl rfl⟩

/-! ## looking and visiting -/

/-- A node that is found is one link further on. -/
theorem Sound.found (h : s.Sound m) (hsq : m.Square m.size) (hnode : node ∈ s.found)
    (hlinked : m.Linked node peer) (hnew : ¬ s.seen.getD peer true = true) :
    Sound m { found := s.found.push peer, seen := s.seen.setIfInBounds peer true } := by
  obtain ⟨hlt, hpath⟩ := h.reached node hnode
  have hpeer : peer < m.size := (hsq.lt_of_linked hlinked).2
  refine ⟨?_, fun v hv => ?_, Array.mem_push_of_mem _ h.first, fun v hv => ?_⟩
  · rw [Array.toList_push, List.nodup_append]
    refine ⟨h.nodup, List.nodup_singleton _, fun v hv w hw hvw => ?_⟩
    rw [hvw, List.mem_singleton.1 hw] at hv
    exact hnew ((h.marked peer hpeer).2 (Array.mem_toList_iff.1 hv))
  · have hold := h.marked v hv
    rw [Array.getD_eq_getD_getElem?] at hold
    rw [Array.getD_eq_getD_getElem?, Array.getElem?_setIfInBounds, Array.mem_push]
    by_cases hpv : peer = v
    · subst hpv
      rw [if_pos rfl]
      refine iff_of_true ?_ (.inr rfl)
      split <;> rfl
    · rw [if_neg hpv, hold, or_iff_left (Ne.symm hpv)]
  · rcases Array.mem_push.1 hv with hv | rfl
    · exact h.reached v hv
    · refine ⟨hpeer, .inr ?_⟩
      rcases hpath with rfl | ⟨t, hpath⟩
      · exact ⟨_, .link hlinked⟩
      · exact ⟨_, hpath.append (Finset.mem_range.2 hlt) (.link hlinked)⟩

/-- To look at a peer has no fault in a square table, and finds it if there is a link. -/
theorem Sound.look (h : s.Sound m) (hsq : m.Square m.size) (hnode : node ∈ s.found)
    (hpeer : peer < m.size) : ∃ s', Search.look m node s peer = .ok s' ∧ s'.Sound m ∧
      s.Extends s' ∧ (m.Linked node peer → peer ∈ s'.found) := by
  unfold Search.look
  by_cases hseen : s.seen.getD peer true = true
  · rw [if_pos hseen]
    exact ⟨s, rfl, h, .refl s, fun _ => (h.marked peer hpeer).1 hseen⟩
  · rw [if_neg hseen, entry_of_square hsq (h.reached node hnode).1 hpeer]
    have hne : node ≠ peer := by
      rintro rfl
      exact hseen ((h.marked node hpeer).2 hnode)
    by_cases hreach : reaches (m.look node peer) = true
    · refine ⟨_, if_pos hreach, h.found hsq hnode ⟨hne, hreach⟩ hseen, extends_push s peer _, ?_⟩
      exact fun _ => Array.mem_push_self
    · exact ⟨s, if_neg hreach, h, .refl s, fun hlinked => absurd hlinked.2 hreach⟩

/-- Of a node that is visited all peers are found. -/
theorem Sound.visit (h : s.Sound m) (hsq : m.Square m.size) {place : Nat}
    (hplace : s.found[place]? = some node) : ∃ s', Search.visit m s place = .ok s' ∧
      s'.Sound m ∧ s.Extends s' ∧ s'.Exhausts m node := by
  have hmem : node ∈ s.found := Array.mem_of_getElem? hplace
  -- after the peers below `c` have been looked at
  have hpeers : ∀ c ≤ m.size, ∃ s', (List.range c).foldlM (Search.look m node) s = .ok s' ∧
      s'.Sound m ∧ s.Extends s' ∧ ∀ peer < c, m.Linked node peer → peer ∈ s'.found := by
    intro c hc
    induction c with
    | zero => exact ⟨s, rfl, h, .refl s, fun peer hpeer => absurd hpeer (Nat.not_lt_zero _)⟩
    | succ c ih =>
        obtain ⟨s₁, hs₁, hsound₁, hext₁, hfound₁⟩ := ih (Nat.le_of_succ_le hc)
        obtain ⟨s₂, hs₂, hsound₂, hext₂, hfound₂⟩ := hsound₁.look hsq (hext₁.mem hmem) hc
        refine ⟨s₂, ?_, hsound₂, hext₁.trans hext₂, fun peer hpeer hlinked => ?_⟩
        · rw [Fault.foldlM_range_succ hs₁, hs₂]
        · rcases Nat.lt_succ_iff_lt_or_eq.1 hpeer with hlt | rfl
          · exact hext₂.mem (hfound₁ peer hlt hlinked)
          · exact hfound₂ hlinked
  obtain ⟨s', hs', hsound, hext, hfound⟩ := hpeers m.size (Nat.le_refl _)
  refine ⟨s', ?_, hsound, hext, fun peer hlinked => ?_⟩
  · unfold Search.visit
    rw [hplace]
    exact hs'
  · exact hfound peer (hsq.lt_of_linked hlinked).2 hlinked

/-! ## the whole search -/

/-- After some visits all peers of the nodes at the places visited have been found. -/
theorem exists_swept (hn : m.size ≠ 0) (hsq : m.Square m.size) (c : Nat) :
    ∃ s, (List.range c).foldlM (visit m) (start m.size) = .ok s ∧ s.Sound m ∧
      ∀ place < c, ∀ node, s.found[place]? = some node → s.Exhausts m node := by
  induction c with
  | zero =>
      exact ⟨_, rfl, sound_start hn, fun place hplace => absurd hplace (Nat.not_lt_zero _)⟩
  | succ c ih =>
      obtain ⟨s, hs, hsound, hswept⟩ := ih
      rw [Fault.foldlM_range_succ hs]
      cases hplace : s.found[c]? with
      | none =>
          -- the order has ended, and does not grow any more
          have hvisit : visit m s c = .ok s := by
            unfold visit
            rw [hplace]
          refine ⟨s, hvisit, hsound, fun place hlt node hnode => ?_⟩
          have hend := Array.getElem?_eq_none_iff.1 hplace
          have hin := (Array.getElem?_eq_some_iff.1 hnode).1
          exact hswept place (by omega) node hnode
      | some next =>
          obtain ⟨s', hvisit, hsound', hext, hexhausts⟩ := hsound.visit hsq hplace
          refine ⟨s', hvisit, hsound', fun place hlt node hnode => ?_⟩
          have hlater := hext _ _ hplace
          rcases Nat.lt_succ_iff_lt_or_eq.1 hlt with hlt | rfl
          · have hin := (Array.getElem?_eq_some_iff.1 hplace).1
            have hearlier : s.found[place]? = some s.found[place] :=
              Array.getElem?_eq_getElem (Nat.lt_trans hlt hin)
            obtain rfl := Option.some.inj ((hext _ _ hearlier).symm.trans hnode)
            exact (hswept place hlt _ hearlier).mono hext
          · obtain rfl := Option.some.inj (hlater.symm.trans hnode)
            exact hexhausts

/-- A whole search has no fault, and finds the nodes on a path from node `0`. -/
theorem exists_search_eq (hn : m.size ≠ 0) (hsq : m.Square m.size) :
    ∃ s, (List.range m.size).foldlM (visit m) (start m.size) = .ok s ∧ s.found.toList.Nodup ∧
      ∀ v, v ∈ s.found ↔ v < m.size ∧ (v = 0 ∨ ∃ t, m.Path 0 v t) := by
  obtain ⟨s, hs, hsound, hswept⟩ := exists_swept hn hsq m.size
  refine ⟨s, hs, hsound.nodup, fun v => ⟨hsound.reached v, fun ⟨_, hpath⟩ => ?_⟩⟩
  -- there are no more places than nodes, so that all places have been visited
  have hsize : s.found.toList.length ≤ m.size := length_le_of_nodup hsound.nodup fun v hv =>
    (hsound.reached v (Array.mem_toList_iff.1 hv)).1
  rw [Array.length_toList] at hsize
  have hclosed : ∀ x ∈ s.found.toList.toFinset, ∀ y, m.Linked x y →
      y ∈ s.found.toList.toFinset := by
    intro x hx y hxy
    rw [List.mem_toFinset, Array.mem_toList_iff] at hx ⊢
    obtain ⟨place, hplace⟩ := Array.mem_iff_getElem?.1 hx
    have hin := (Array.getElem?_eq_some_iff.1 hplace).1
    exact hswept place (by omega) x hplace y hxy
  rcases hpath with rfl | ⟨t, hpath⟩
  · exact hsound.first
  · have hmem := hpath.mem_of_closed hclosed
      (List.mem_toFinset.2 (Array.mem_toList_iff.2 hsound.first))
    exact Array.mem_toList_iff.1 (List.mem_toFinset.1 hmem)

end Search

/-- The search answers, and says whether all nodes are on a path from node `0`. -/
theorem exists_reachesAll_eq (hsq : m.Square n) :
    ∃ b, m.reachesAll = .ok b ∧ (b = true ↔ ∀ j < n, j = 0 ∨ ∃ t, m.Path 0 j t) := by
  obtain rfl := hsq.1
  unfold reachesAll
  by_cases hn : m.size = 0
  · rw [if_pos hn]
    exact ⟨true, rfl, iff_of_true rfl fun j hj => by omega⟩
  · obtain ⟨s, hs, hnodup, hfound⟩ := Search.exists_search_eq hn hsq
    rw [if_neg hn, hs]
    refine ⟨_, rfl, ?_⟩
    rw [decide_eq_true_eq, ← Array.length_toList]
    have hlt : ∀ v ∈ s.found.toList, v < m.size := fun v hv =>
      ((hfound v).1 (Array.mem_toList_iff.1 hv)).1
    constructor
    · intro hsize j hj
      have hmem := mem_of_le_length hnodup hlt (Nat.le_of_eq hsize.symm) hj
      exact ((hfound j).1 (Array.mem_toList_iff.1 hmem)).2
    · intro hall
      refine Nat.le_antisymm (length_le_of_nodup hnodup hlt) (le_length_of_mem fun j hj => ?_)
      exact Array.mem_toList_iff.2 ((hfound j).2 ⟨hj, hall j hj⟩)

/-! ## the search and the shortest paths -/

/-- **The search and the shortest paths agree on what is reached.**  The search answers whether
every node is on a path from node `0`, which is whether the table of shortest paths has a path in
every entry of the row of node `0`; where links go both ways, whether it has one in every entry. -/
theorem reachesAll_iff_closure (hsq : m.Square n) (hn : 0 < n) (hd : m.shortestPaths = .ok d) :
    ∃ b, m.reachesAll = .ok b ∧
      (b = true ↔ ∀ j < n, j = 0 ∨ ∃ t, m.Path 0 j t) ∧
      (b = true ↔ ∀ j < n, unreachable < d.look 0 j) ∧
      ((∀ i < n, ∀ j < n, i ≠ j →
          (unreachable < m.look i j ↔ unreachable < m.look j i)) →
        (b = true ↔ ∀ i < n, ∀ j < n, unreachable < d.look i j)) := by
  have hshortest := shortest_of_shortestPaths hsq hd
  obtain ⟨b, hb, hpath⟩ := exists_reachesAll_eq hsq
  have hreach : ∀ {t : Int}, unreachable < t ↔ reaches t = true := decide_eq_true_iff.symm
  have hrow : b = true ↔ ∀ j < n, unreachable < d.look 0 j := by
    rw [hpath]
    refine forall₂_congr fun j hj => ?_
    rw [hreach, hshortest.reaches_iff_path hn hj, eq_comm]
  refine ⟨b, hb, hpath, hrow, fun hback => ⟨fun hall i hi j hj => ?_, fun hall => ?_⟩⟩
  · -- from one node back to node `0`, and onward to the other
    have hlinked : ∀ i j, m.Linked i j → m.Linked j i := by
      intro i j hij
      obtain ⟨hi, hj⟩ := hsq.lt_of_linked hij
      exact ⟨hij.1.symm, hreach.1 ((hback i hi j hj hij.1).1 (hreach.2 hij.2))⟩
    have hthere : reaches (d.look i 0) = true := by
      rw [hshortest.reaches_iff_path hi hn]
      refine (hpath.1 hall i hi).imp id fun ⟨t, ht⟩ => ht.exists_reverse hlinked
    exact hreach.2 (hshortest.triangle hsq hi hn hj hthere (hreach.1 (hrow.1 hall j hj))).1
  · exact hrow.2 fun j hj => hall 0 hn j hj

/-- Three nodes in a line, with other latencies back than forth. -/
def line : Latencies := #[#[9, 3, -1], #[4, -7, 2], #[-2, 6, 0]]

theorem reachesAll_iff_closure_line :
    line.reachesAll = .ok true ∧ (∀ j < 3, j = 0 ∨ ∃ t, line.Path 0 j t) ∧
      ∃ d, line.shortestPaths = .ok d ∧ ∀ i < 3, ∀ j < 3, unreachable < d.look i j := by
  have hd : line.shortestPaths = .ok #[#[0, 3, 5], #[4, 0, 2], #[10, 6, 0]] :=
    Fault.eq_ok_of_toOption (by decide +kernel)
  have hfound : line.reachesAll = .ok true := Fault.eq_ok_of_toOption (by decide +kernel)
  obtain ⟨b, hb, hpath, _, hall⟩ := reachesAll_iff_closure ⟨rfl, by decide⟩ (by decide) hd
  obtain rfl : b = true := Except.ok.inj (hb.symm.trans hfound)
  exact ⟨hfound, hpath.1 rfl, _, hd, (hall (by decide)).1 rfl⟩

end BalanceAttack.Latencies
