import BalanceAttack.Proofs.Sequel
import BalanceAttack.Proofs.Stock

/-!
# BalanceAttack.Proofs.Flow

The way of a block to one node and from there to the adversary.  Whatever is
addressed to a node is on its way, or the node has it and the adversary is
going to be told, or the adversary was told; the genesis block, which every
root sends to all others, may be on its way more than once.

* `Flow` — this account of a node, and `Flow.mine` to `Flow.tell`, the moves in it;
* `Account.turn` — a turn makes at most one of these moves for each node;
* `account_of_reaches` — the account of every node, in every state of a run.
-/

namespace BalanceAttack

open BalanceAttack.Random

/-! ## the account of one node -/

/-- The account of a node with view `v` and mirror `m`. -/
structure Flow (divided : Prop) (v m : View)
    (coming untold told addressed : List (Side × BlockId)) : Prop where
  node : v.Holds (untold ++ told)
  mirror : m.Holds told
  whole : ∃ k, (divided → 0 < k) ∧ (coming ++ untold ++ told).Perm
    (List.replicate k (.right, .genesis) ++ addressed)

namespace Flow

variable {divided : Prop} {v m : View} {coming coming' untold untold' told addressed addressed' :
  List (Side × BlockId)} {s : Side} {b : BlockId}

/-- The order of blocks matters nowhere but in what the adversary was told. -/
theorem perm (h : Flow divided v m coming untold told addressed) (hc : coming'.Perm coming)
    (hu : untold'.Perm untold) (ha : addressed.Perm addressed') :
    Flow divided v m coming' untold' told addressed' where
  node := h.node.perm (hu.symm.append_right _)
  mirror := h.mirror
  whole := by
    obtain ⟨k, hk, hp⟩ := h.whole
    exact ⟨k, hk, ((hc.append hu).append_right _).trans (hp.trans (ha.append_left _))⟩

/-- All that a node is concerned with was addressed to it, or is the genesis block. -/
theorem mem_addressed (h : Flow divided v m coming untold told addressed) {x : Side × BlockId}
    (hx : x ∈ coming ++ untold ++ told) : x = (.right, .genesis) ∨ x ∈ addressed := by
  obtain ⟨k, _, hp⟩ := h.whole
  rcases List.mem_append.1 (hp.mem_iff.1 hx) with hx | hx
  · exact .inl (List.eq_of_mem_replicate hx)
  · exact .inr hx

/-- What was not addressed to a node, neither it nor its mirror has received. -/
theorem has_eq_false (h : Flow divided v m coming untold told addressed)
    (hb : b ∉ BlockId.genesis :: addressed.map Prod.snd) : v.has b = false ∧ m.has b = false := by
  have hnot : b ∉ (untold ++ told).map Prod.snd := by
    intro hmem
    obtain ⟨x, hx, rfl⟩ := List.mem_map.1 hmem
    have hx' : x ∈ coming ++ untold ++ told := by
      rw [List.append_assoc]
      exact List.mem_append_right _ hx
    rcases h.mem_addressed hx' with rfl | hx'
    · exact hb List.mem_cons_self
    · exact hb (List.mem_cons_of_mem _ (List.mem_map_of_mem hx'))
  refine ⟨h.node.has_eq_false hnot, h.mirror.has_eq_false fun hmem => hnot ?_⟩
  rw [List.map_append]
  exact List.mem_append_right _ hmem

/-- A block is on its way to a node as often as it was addressed to it, less once if it has it. -/
theorem count_coming (h : Flow divided v m coming untold told addressed) :
    ∃ k, (divided → 0 < k) ∧ ∀ b, (coming.map Prod.snd).count b + (v.has b).toNat =
      (if b = .genesis then k else 0) + (addressed.map Prod.snd).count b := by
  obtain ⟨k, hk, hp⟩ := h.whole
  refine ⟨k, hk, fun b => ?_⟩
  have hcount := (hp.map Prod.snd).count_eq b
  simp only [List.map_append, List.count_append, List.map_replicate, List.count_replicate] at hcount
  have hhas : ((untold ++ told).map Prod.snd).count b = (v.has b).toNat := by
    cases hb : v.has b with
    | true => exact List.count_eq_one_of_mem h.node.nodup ((h.node.has_iff b).1 hb)
    | false =>
        refine List.count_eq_zero_of_not_mem fun hmem => ?_
        rw [(h.node.has_iff b).2 hmem] at hb
        contradiction
  have hroots : (if (BlockId.genesis == b) = true then k else 0) =
      if b = .genesis then k else 0 := by
    simp only [beq_iff_eq, @eq_comm _ b]
  rw [List.map_append, List.count_append] at hhas
  rw [hroots] at hcount
  omega

/-- A node to which nothing is on its way has the genesis block and all that was addressed to it. -/
theorem holds_of_coming_nil (h : Flow divided v m [] untold told addressed) (hd : divided) :
    v.Holds ((.right, .genesis) :: addressed) := by
  obtain ⟨k, hk, hp⟩ := h.whole
  have hnode := h.node.perm hp
  obtain ⟨j, rfl⟩ := Nat.exists_eq_add_of_lt (hk hd)
  cases j with
  | zero => exact hnode
  | succ j =>
      -- the genesis block cannot be held twice
      have hnodup := hnode.nodup
      rw [Nat.zero_add, List.replicate_succ, List.replicate_succ, List.cons_append,
        List.cons_append, List.map_cons, List.map_cons, List.nodup_cons] at hnodup
      exact absurd List.mem_cons_self hnodup.1

/-! ## the moves -/

theorem perm_front (x : Side × BlockId) (coming untold told : List (Side × BlockId)) :
    (coming ++ x :: untold ++ told).Perm (x :: (coming ++ untold ++ told)) := by
  rw [List.append_assoc, List.append_assoc]
  exact List.perm_middle

/-- The node mines a block of its own. -/
theorem mine (h : Flow divided v m coming untold told addressed)
    (hb : b ∉ BlockId.genesis :: addressed.map Prod.snd) :
    Flow divided (v.record b s) m coming ((s, b) :: untold) told (addressed ++ [(s, b)]) where
  node := h.node.record (h.has_eq_false hb).1 s
  mirror := h.mirror
  whole := by
    obtain ⟨k, hk, hp⟩ := h.whole
    refine ⟨k, hk, ?_⟩
    rw [← List.append_assoc]
    exact (perm_front _ _ _ _).trans ((hp.cons _).trans (List.perm_append_singleton _ _).symm)

/-- Blocks are sent to the node. -/
theorem send (h : Flow divided v m coming untold told addressed) (l : List (Side × BlockId)) :
    Flow divided v m (l ++ coming) untold told (addressed ++ l) where
  node := h.node
  mirror := h.mirror
  whole := by
    obtain ⟨k, hk, hp⟩ := h.whole
    refine ⟨k, hk, ?_⟩
    rw [List.append_assoc, List.append_assoc, ← List.append_assoc coming, ← List.append_assoc _ _ l]
    exact (hp.append_left l).trans List.perm_append_comm

/-- Only the genesis block is delivered to a node that has it. -/
theorem known (h : Flow divided v m ((s, b) :: coming) untold told addressed)
    (hids : (BlockId.genesis :: addressed.map Prod.snd).Nodup) (hb : v.has b = true) :
    Flow divided v m coming untold told addressed := by
  obtain ⟨k, _, hp⟩ := h.whole
  rw [List.cons_append, List.cons_append] at hp
  obtain ⟨hgenesis, hnodup⟩ := List.nodup_cons.1 hids
  have hhas : b ∈ (coming ++ untold ++ told).map Prod.snd := by
    rw [List.append_assoc, List.map_append]
    exact List.mem_append_right _ ((h.node.has_iff b).1 hb)
  have hroot : (s, b) = (Side.right, BlockId.genesis) := by
    rcases h.mem_addressed List.mem_cons_self with hx | hx
    · exact hx
    · -- a block other than the genesis block is accounted for once, and the node has this one
      exfalso
      have hne : b ≠ .genesis := fun heq => hgenesis (heq ▸ List.mem_map_of_mem hx)
      obtain ⟨_, _, hcount⟩ := h.count_coming
      have hcount := hcount b
      have hle := List.nodup_iff_count_le_one.1 hnodup b
      rw [if_neg hne, hb, Bool.toNat_true, List.map_cons, List.count_cons_self] at hcount
      omega
  have hmem : (Side.right, BlockId.genesis) ∉ addressed := fun hx =>
    hgenesis (List.mem_map_of_mem hx)
  rw [hroot] at hp
  cases k with
  | zero => exact absurd (hp.mem_iff.1 List.mem_cons_self) hmem
  | succ k =>
      rw [List.replicate_succ, List.cons_append] at hp
      have hrest := hp.cons_inv
      refine ⟨h.node, h.mirror, k, fun _ => Nat.pos_of_ne_zero fun hk => ?_, hrest⟩
      -- the genesis block that the node has is accounted for
      obtain ⟨x, hx, hxb⟩ := List.mem_map.1 hhas
      rw [hk, List.replicate_zero, List.nil_append] at hrest
      have hxg : x.2 = .genesis := hxb.trans (congrArg Prod.snd hroot)
      exact hgenesis (hxg ▸ List.mem_map_of_mem (hrest.mem_iff.1 hx))

/-- A new block is delivered to the node. -/
theorem new (h : Flow divided v m ((s, b) :: coming) untold told addressed)
    (hb : v.has b = false) :
    Flow divided (v.record b s) m coming ((s, b) :: untold) told addressed where
  node := h.node.record hb s
  mirror := h.mirror
  whole := by
    obtain ⟨k, hk, hp⟩ := h.whole
    exact ⟨k, hk, (perm_front _ _ _ _).trans hp⟩

/-- The adversary is told of a block that the node has. -/
theorem tell (h : Flow divided v m coming ((s, b) :: untold) told addressed) :
    Flow divided v (m.record b s) coming untold (told ++ [(s, b)]) addressed where
  node := by
    refine h.node.perm ?_
    rw [← List.append_assoc]
    exact (List.perm_append_singleton _ _).symm
  mirror := by
    have hnodup := h.node.nodup
    rw [List.cons_append, List.map_cons, List.nodup_cons, List.map_append] at hnodup
    have hnew : m.has b = false := h.mirror.has_eq_false fun hmem =>
      hnodup.1 (List.mem_append_right _ hmem)
    exact (h.mirror.record hnew s).perm (List.perm_append_singleton _ _).symm
  whole := by
    obtain ⟨k, hk, hp⟩ := h.whole
    refine ⟨k, hk, .trans ?_ hp⟩
    rw [← List.append_assoc]
    exact (List.perm_append_singleton _ _).trans (perm_front _ _ _ _).symm

end Flow

/-! ## the accounts of a run -/

/-- The blocks addressed to each of so many nodes; a single node gets nothing from the adversary. -/
def Run.History.addressed (n : Nat) (h : History) : List (Side × BlockId) :=
  h.mined ++ if 2 ≤ n then h.sent else []

/-- What is addressed to a node has been made public. -/
theorem Run.History.addressed_sublist (n : Nat) (h : History) :
    (h.addressed n).Sublist (h.mined ++ h.sent) := by
  refine List.Sublist.append_left ?_ _
  by_cases hn : 2 ≤ n
  · rw [if_pos hn]
  · rw [if_neg hn]
    exact List.nil_sublist _

theorem Run.History.addressed_append (n : Nat) (h : History) (e : Entry) :
    (h.addressed n ++ ((e.mined.map Prod.snd).toList ++ if 2 ≤ n then e.sent else [])).Perm
      (addressed n (h ++ [e])) := by
  unfold addressed
  rw [History.mined_append, History.sent_append]
  have hsent : (if 2 ≤ n then h.sent ++ e.sent else []) =
      (if 2 ≤ n then h.sent else []) ++ if 2 ≤ n then e.sent else [] := by
    by_cases hn : 2 ≤ n
    · rw [if_pos hn, if_pos hn, if_pos hn]
    · rw [if_neg hn, if_neg hn, if_neg hn, List.append_nil]
  rw [hsent, List.append_assoc, List.append_assoc]
  refine List.Perm.append_left _ ?_
  rw [← List.append_assoc, ← List.append_assoc]
  exact List.perm_append_comm.append_right _

/-- Where nothing is mined or sent, nothing is addressed to anyone. -/
theorem Run.History.addressed_of_quiet {e : Entry} (hmined : e.mined = none) (hsent : e.sent = [])
    (n : Nat) (h : History) : addressed n (h ++ [e]) = h.addressed n := by
  unfold addressed
  rw [History.mined_append, History.sent_append, hmined, hsent, Option.map_none,
    Option.toList_none, List.append_nil, List.append_nil]

namespace Balancer

variable {σ : Type} {env : Environment} {net : Network} {margin : Balancer → Int} {n p : Nat}
  {h : Run.History} {b : Balancer} {w : World σ} {event : Event} {e : Run.Entry}
  {s : Run.State Balancer σ}

/-- The account of node `p` while an event is due that is no longer on the agenda. -/
def Account (n p : Nat) (h : Run.History) (due : Event) (b : Balancer) (w : World σ) : Prop :=
  ∃ v m, w.nodes[p]? = some v ∧ b.mirrors[p]? = some m ∧
    Flow (2 ≤ n) v m ((due.arrivalAt p).toList ++ w.agenda.arrivals p)
      ((due.reportOn p).toList ++ w.agenda.reports p)
      (startsFrom b.partition.right p ++ h.reported p) (h.addressed n)

/-- The next event on the agenda becomes due. -/
theorem Account.next (ha : Account n p h .idle b w) {first : Scheduled} {q : Agenda}
    (hq : w.agenda.next = some (first, q)) :
    Account n p h first.event b { w with clock := first.time, agenda := q } := by
  obtain ⟨v, m, hv, hm, hf⟩ := ha
  have harrivals := Agenda.pick_next hq fun _ e => e.arrivalAt p
  have hreports := Agenda.pick_next hq fun _ e => e.reportOn p
  exact ⟨v, m, hv, hm, hf.perm harrivals.symm hreports.symm (.refl _)⟩

/-- A node that is not concerned by an event gets what is sent meanwhile, and no more. -/
theorem Account.aside {b' : Balancer} {w' : World σ} (ha : Account n p h event b w)
    (harrival : event.arrivalAt p = none) (hreport : event.reportOn p = none)
    (hevent : e.event = event) (hnodes : w'.nodes[p]? = w.nodes[p]?)
    (hmirrors : b'.mirrors[p]? = b.mirrors[p]?) (hpartition : b'.partition = b.partition)
    (harrivals : (w'.agenda.arrivals p).Perm
      ((e.mined.map Prod.snd).toList ++ (if 2 ≤ n then e.sent else []) ++ w.agenda.arrivals p))
    (hreports : (w'.agenda.reports p).Perm (w.agenda.reports p)) :
    Account n p (h ++ [e]) .idle b' w' := by
  obtain ⟨v, m, hv, hm, hf⟩ := ha
  rw [harrival, hreport] at hf
  refine ⟨v, m, hnodes.trans hv, hmirrors.trans hm, ?_⟩
  rw [hpartition, Run.History.reported_of_none (by rw [hevent, hreport])]
  exact (hf.send _).perm harrivals hreports (h.addressed_append n e)

/-- A block that an honest node mines is its own, and is on its way to all others. -/
theorem Account.honest (hsq : net.distances.Square n) (hp : p < n) {t u : Int} {miner : Nat}
    {view : View} {block : BlockId} {supply : Supply σ} {events : List (Int × Event)}
    (ha : Account n p h .mine b w) (hread : w.nodes[miner]? = some view)
    (hnew : block ∉ BlockId.genesis :: (h.addressed n).map Prod.snd)
    (hevents : World.arrivals net w.clock miner view.side block = .ok events) :
    Account n p
      (h ++ [{ time := w.clock, event := .mine, mined := some (miner, view.side, block) }]) .idle b
      { w with
        supply
        nodes := w.nodes.modify miner (·.record block view.side)
        agenda := (w.agenda.push t .mine).pushAll
          (events ++ [(u, .observe view.side block miner)])
        mined := w.mined + 1 } := by
  have harrivals := Agenda.pick_pushAll (w.agenda.push t .mine) (fun _ e => e.arrivalAt p)
    (events ++ [(u, .observe view.side block miner)])
  have hreports := Agenda.pick_pushAll (w.agenda.push t .mine) (fun _ e => e.reportOn p)
    (events ++ [(u, .observe view.side block miner)])
  have hdel := World.arrivals_events hsq hevents
  rw [List.filterMap_append, filterMap_arrivalAt (List.nodup_range.filter _) p hdel] at harrivals
  rw [List.filterMap_append,
    List.filterMap_eq_nil_iff.2 fun _ hx => reportOn_of_deliveries hdel p hx] at hreports
  have harrivals₀ := Agenda.pick_push w.agenda (fun _ e => e.arrivalAt p) t .mine
  have hreports₀ := Agenda.pick_push w.agenda (fun _ e => e.reportOn p) t .mine
  by_cases hminer : miner = p
  · subst hminer
    obtain ⟨v, m, hv, hm, hf⟩ := ha
    obtain rfl : view = v := Option.some.inj (hread.symm.trans hv)
    have hnode := View.getElem?_record hv block view.side
    have hself : miner ∉ (List.range n).filter (· ≠ miner) := by simp
    rw [if_neg hself] at harrivals
    have hreport : [((u, .observe view.side block miner) : Int × Event)].filterMap
        (fun x => x.2.reportOn miner) = [(view.side, block)] := by simp [Event.reportOn]
    rw [hreport] at hreports
    have haddressed := h.addressed_append n
      { time := w.clock, event := .mine, mined := some (miner, view.side, block) }
    rw [ite_self, List.append_nil] at haddressed
    refine ⟨_, m, hnode, hm, ?_⟩
    rw [Run.History.reported_of_none rfl]
    exact (hf.mine hnew).perm (harrivals.trans harrivals₀) (hreports.trans (hreports₀.cons _))
      haddressed
  · have hnode : (w.nodes.modify miner (·.record block view.side))[p]? = w.nodes[p]? :=
      View.getElem?_record_of_ne hminer block view.side
    have hne : ¬ p = miner := fun h => hminer h.symm
    have hother : p ∈ (List.range n).filter (· ≠ miner) := by simp [hp, hne]
    rw [if_pos hother] at harrivals
    have hreport : [((u, .observe view.side block miner) : Int × Event)].filterMap
        (fun x => x.2.reportOn p) = [] := by simp [Event.reportOn, hminer]
    rw [hreport] at hreports
    refine ha.aside rfl rfl rfl hnode rfl rfl ?_ (hreports.trans hreports₀)
    rw [ite_self]
    exact harrivals.trans (harrivals₀.cons _)

/-- A new block that is delivered to a node is the node's, and the adversary will be told. -/
theorem Account.new {t : Int} {peer : Nat} {side : Side} {block : BlockId} {view : View}
    (ha : Account n p h (.deliver peer side block) b w) (hread : w.nodes[peer]? = some view)
    (hhas : view.has block = false) :
    Account n p (h ++ [{ time := w.clock, event := .deliver peer side block }]) .idle b
      { w with
        nodes := w.nodes.modify peer (·.record block side)
        agenda := w.agenda.push t (.observe side block peer) } := by
  have harrivals := Agenda.pick_push w.agenda (fun _ e => e.arrivalAt p) t
    (.observe side block peer)
  have hreports := Agenda.pick_push w.agenda (fun _ e => e.reportOn p) t (.observe side block peer)
  by_cases hpeer : peer = p
  · subst hpeer
    obtain ⟨v, m, hv, hm, hf⟩ := ha
    obtain rfl : view = v := Option.some.inj (hread.symm.trans hv)
    have hnode := View.getElem?_record hv block side
    have harrival : (Event.deliver peer side block).arrivalAt peer = some (side, block) :=
      if_pos rfl
    have hreport : (Event.observe side block peer).reportOn peer = some (side, block) := if_pos rfl
    rw [harrival] at hf
    rw [hreport] at hreports
    refine ⟨_, m, hnode, hm, ?_⟩
    rw [Run.History.reported_of_none rfl, Run.History.addressed_of_quiet rfl rfl]
    exact (hf.new hhas).perm harrivals hreports (.refl _)
  · have hnode : (w.nodes.modify peer (·.record block side))[p]? = w.nodes[p]? :=
      View.getElem?_record_of_ne hpeer block side
    have harrival : (Event.deliver peer side block).arrivalAt p = none := if_neg hpeer
    have hreport : (Event.observe side block peer).reportOn p = none := if_neg hpeer
    rw [hreport] at hreports
    refine ha.aside harrival rfl rfl hnode rfl rfl ?_ hreports
    rw [ite_self]
    exact harrivals

/-- A node that is delivered a block it has is left as it was. -/
theorem Account.known {peer : Nat} {side : Side} {block : BlockId} {view : View}
    (ha : Account n p h (.deliver peer side block) b w) (hread : w.nodes[peer]? = some view)
    (hids : (BlockId.genesis :: (h.addressed n).map Prod.snd).Nodup)
    (hhas : view.has block = true) :
    Account n p (h ++ [{ time := w.clock, event := .deliver peer side block }]) .idle b w := by
  by_cases hpeer : peer = p
  · subst hpeer
    obtain ⟨v, m, hv, hm, hf⟩ := ha
    obtain rfl : view = v := Option.some.inj (hread.symm.trans hv)
    have harrival : (Event.deliver peer side block).arrivalAt peer = some (side, block) :=
      if_pos rfl
    rw [harrival] at hf
    refine ⟨view, m, hv, hm, ?_⟩
    rw [Run.History.reported_of_none rfl, Run.History.addressed_of_quiet rfl rfl]
    exact hf.known hids hhas
  · have harrival : (Event.deliver peer side block).arrivalAt p = none := if_neg hpeer
    refine ha.aside harrival rfl rfl rfl rfl rfl ?_ (.refl _)
    rw [ite_self]
    exact .refl _

/-- The adversary is told of a block that a node has, and what it sends is on
its way to all nodes. -/
theorem Account.told (hp : p < n) (hpart : Partition.ofDistances n net.distances = .ok b.partition)
    {b' : Balancer} {t : Int} {peer : Nat} {side : Side} {block : BlockId} {released : Nat}
    {kept sent : List (Side × BlockId)} {events : List (List (Int × Event))}
    (ha : Account n p h (.observe side block peer) b w)
    (hex : Exchange (b.observe side block peer) kept sent b')
    (hevents : sent.mapM (World.releaseArrivals b'.partition t) = .ok events) :
    Account n p
      (h ++ [{ time := w.clock, event := .observe side block peer, kept, sent }]) .idle b'
      { w with released, agenda := w.agenda.pushAll events.flatten } := by
  have hpartition : b'.partition = b.partition := hex.partition
  rw [hpartition] at hevents
  have harrivals := Agenda.pick_pushAll w.agenda (fun _ e => e.arrivalAt p) events.flatten
  rw [World.filterMap_released hpart hp hevents] at harrivals
  have hquiet : ∀ x ∈ events.flatten, x.2.reportOn p = none := by
    intro x hx
    obtain ⟨y, _, q, hy⟩ := World.mem_released hevents hx
    rw [hy]
    rfl
  have hreports := Agenda.pick_pushAll_of_none w.agenda (f := fun _ e => e.reportOn p) hquiet
  have hmirrors : b'.mirrors = b.mirrors.modify peer (·.record block side) := hex.mirrors
  by_cases hpeer : peer = p
  · subst hpeer
    obtain ⟨v, m, hv, hm, hf⟩ := ha
    have hmirror : b'.mirrors[peer]? = some (m.record block side) := by
      rw [hmirrors]
      exact View.getElem?_record hm block side
    have hreport : (Event.observe side block peer).reportOn peer = some (side, block) := if_pos rfl
    rw [hreport] at hf
    have haddressed := h.addressed_append n
      { time := w.clock, event := .observe side block peer, kept, sent }
    refine ⟨v, _, hv, hmirror, ?_⟩
    rw [hpartition, Run.History.reported_append, hreport, ← List.append_assoc]
    exact (hf.tell.send _).perm harrivals hreports haddressed
  · have hmirror : b'.mirrors[p]? = b.mirrors[p]? := by
      rw [hmirrors]
      exact View.getElem?_record_of_ne hpeer block side
    have hreport : (Event.observe side block peer).reportOn p = none := if_neg hpeer
    exact ha.aside rfl hreport rfl rfl hmirror hpartition harrivals hreports

/-- A turn leaves every account in order. -/
theorem Account.turn (hsq : net.distances.Square net.size) (hp : p < net.size)
    (hpart : Partition.ofDistances net.size net.distances = .ok b.partition)
    (ha : Account net.size p h event b w)
    (hids : (BlockId.genesis :: (h.addressed net.size).map Prod.snd).Nodup)
    (hnext : (⟨(w.mined + 1 : Nat)⟩ : BlockId) ∉
      BlockId.genesis :: (h.addressed net.size).map Prod.snd)
    (hturn : Run.Turn (run env net margin) b w event e s) :
    Account net.size p (h ++ [e]) .idle s.adversary s.world := by
  have hex := exchange_of_turn hturn
  cases hturn with
  | evil =>
      refine ha.aside rfl rfl rfl rfl (by rw [hex.mirrors]; rfl) hex.partition ?_
        (Agenda.pick_push _ (fun _ e => e.reportOn p) _ _)
      rw [ite_self]
      exact Agenda.pick_push _ (fun _ e => e.arrivalAt p) _ _
  | honest hread hevents => exact ha.honest hsq hp hread hnext hevents
  | known hread hhas => exact ha.known hread hids hhas
  | new hread hhas => exact ha.new hread hhas
  | told _ _ hevents => exact ha.told hp hpart hex hevents
  | checked =>
      refine ha.aside rfl rfl rfl rfl rfl rfl ?_
        (Agenda.pick_push _ (fun _ e => e.reportOn p) _ _)
      rw [ite_self]
      exact Agenda.pick_push _ (fun _ e => e.arrivalAt p) _ _
  | idle =>
      refine ha.aside rfl rfl rfl rfl rfl rfl ?_ (.refl _)
      rw [ite_self]
      exact .refl _

/-- The genesis block is addressed to every node of two or more by another root. -/
theorem account_of_opening (hp : p < net.size) (hopen : Opening net s) :
    Account net.size p [] .idle s.adversary s.world := by
  have hnode : p < s.world.nodes.size := by
    rw [hopen.nodes.size_eq]
    exact hp
  have hmirror : p < s.adversary.mirrors.size := by
    rw [hopen.mirrors.size_eq]
    exact hp
  refine ⟨_, _, Array.getElem?_eq_getElem hnode, Array.getElem?_eq_getElem hmirror, ?_⟩
  have hreports : (Event.idle.reportOn p).toList ++ s.world.agenda.reports p = [] := hopen.reports p
  have haddressed : Run.History.addressed net.size [] = [] := by simp [Run.History.addressed]
  rw [hreports, haddressed, Run.History.reported_nil, List.append_nil]
  refine ⟨hopen.nodes.holds p _ (Array.getElem?_eq_getElem hnode),
    hopen.mirrors.holds p _ (Array.getElem?_eq_getElem hmirror), ?_⟩
  have harrivals := hopen.arrivals p hp
  rw [List.append_nil, startsFrom]
  by_cases hroot : p ∈ s.adversary.partition.right
  · rw [if_pos hroot]
    refine ⟨s.adversary.partition.right.countP (· ≠ p) + 1, fun _ => Nat.succ_pos _, ?_⟩
    rw [List.append_nil, List.replicate_succ]
    exact (List.perm_append_singleton _ _).trans (harrivals.cons _)
  · rw [if_neg hroot]
    refine ⟨s.adversary.partition.right.countP (· ≠ p), fun htwo => ?_, ?_⟩
    · -- node 1 is a root, and not this one
      have hone : 1 ∈ s.adversary.partition.right := by
        have hright := Partition.nodes_of_ofDistances hopen.partition .right
        rw [if_neg (by omega)] at hright
        have hmem : 1 ∈ Partition.withParity net.size (Partition.parity .right) :=
          Partition.mem_withParity.2 ⟨by omega, rfl⟩
        rw [← hright] at hmem
        exact hmem
      refine List.countP_pos_iff.2 ⟨1, hone, ?_⟩
      rw [decide_eq_true_iff]
      exact fun heq => hroot (heq ▸ hone)
    · rw [List.append_nil, List.append_nil]
      exact harrivals

variable [WordSource σ] {supply : Supply σ}

/-- The partition stays that of the network. -/
theorem partition_of_reaches (hr : (run env net margin).Reaches {} supply h s) :
    Partition.ofDistances net.size net.distances = .ok s.adversary.partition := by
  induction hr with
  | start hprep hstart =>
      obtain ⟨partition, hpart, rfl⟩ := setUp_of_prepare hprep
      obtain ⟨hstarted, _⟩ := Run.exists_prelude_of_start hstart
      obtain ⟨mirrors, view, hb⟩ := exists_start_eq (setUp net.size partition {})
      rw [← Except.ok.inj hstarted, hb]
      exact hpart
  | step _ hstep ih =>
      obtain ⟨first, agenda, _, _, hturn⟩ := Run.exists_turn_of_step hstep
      have hpartition := (exchange_of_turn hturn).partition
      rw [partition_noting] at hpartition
      rw [hpartition]
      exact ih

theorem size_mirrors_of_reaches (hsq : net.distances.Square net.size)
    (hr : (run env net margin).Reaches {} supply h s) : s.adversary.mirrors.size = net.size := by
  induction hr with
  | start hprep hstart => exact (opening_of_start hsq hprep hstart).mirrors.size_eq
  | step _ hstep ih =>
      obtain ⟨first, agenda, _, _, hturn⟩ := Run.exists_turn_of_step hstep
      rw [(exchange_of_turn hturn).mirrors, size_mirrors_noting]
      exact ih

/-- What is addressed to a node has a number of its own. -/
theorem nodup_addressed (hr : (run env net margin).Reaches {} supply h s)
    (hfits : Fits env s.adversary) (n : Nat) :
    (BlockId.genesis :: (h.addressed n).map Prod.snd).Nodup := by
  have hnodup := nodup_published_stock hr hfits
  refine List.Nodup.sublist ?_ hnodup
  rw [List.map_append]
  exact .trans (.cons_cons _ ((h.addressed_sublist n).map _)) (List.sublist_append_left _ _)

/-- What is addressed to a node has come into being. -/
theorem addressed_subset_minted (hr : (run env net margin).Reaches {} supply h s) (n : Nat) :
    h.addressed n ⊆ h.minted := by
  intro x hx
  rw [h.minted_perm.mem_iff, List.mem_append]
  rcases List.mem_append.1 ((h.addressed_sublist n).subset hx) with hx | hx
  · exact .inl hx
  · exact .inr ((kept_perm_of_reaches hr).mem_iff.2 (List.mem_append_left _ hx))

/-- **Every node has its account in every state of a run.** -/
theorem account_of_reaches (hsq : net.distances.Square net.size)
    (hr : (run env net margin).Reaches {} supply h s)
    (hfits : Fits env s.adversary) (hp : p < net.size) :
    Account net.size p h .idle s.adversary s.world := by
  induction hr with
  | start hprep hstart => exact account_of_opening hp (opening_of_start hsq hprep hstart)
  | step hr hstep ih =>
      obtain ⟨first, agenda, hq, _, hturn⟩ := Run.exists_turn_of_step hstep
      have hfits' := hfits.of_turn hturn
      have hpart := partition_of_reaches hr
      have hids := nodup_addressed hr hfits' net.size
      refine ((ih hfits').next hq).turn hsq hp hpart hids (fun hmem => ?_) hturn
      refine (numbered_of_reaches hr hfits').next_not_mem ?_
      exact List.cons_subset_cons _ (List.map_subset _ (addressed_subset_minted hr _)) hmem

end Balancer

end BalanceAttack
