import BalanceAttack.Proofs.Contents
import BalanceAttack.Proofs.Exchange
import BalanceAttack.Run.Reach
import Mathlib.Algebra.Group.Nat.Defs

/-!
# BalanceAttack.Proofs.Opening

The state before the first event.  The genesis block is given to the nodes to
be kept on the right side twice over, by the run to the nodes and by the
adversary to its mirrors of them, and both come to the same:

* `Rooted.record` — what giving it to one more view does to all views;
* `seeded_of_seedAll` — the nodes, and the deliveries to all others;
* `opening_of_start` — the whole state, for the balancing adversary.
-/

namespace BalanceAttack

open BalanceAttack.Random

/-- The blocks that a node starts from. -/
def startsFrom (roots : List Nat) (node : Nat) : List (Side × BlockId) :=
  if node ∈ roots then [(.right, .genesis)] else []

/-- One view for each node, and the genesis block in those of some of them. -/
structure Rooted (n : Nat) (roots : List Nat) (views : Array View) : Prop where
  size_eq : views.size = n
  holds : ∀ (p : Nat) (v : View), views[p]? = some v → v.Holds (startsFrom roots p)

theorem rooted_fresh (n : Nat) :
    Rooted n [] ((Array.range n).map fun i => .fresh (.node i)) where
  size_eq := by simp
  holds := by
    intro p v hv
    obtain ⟨i, _, rfl⟩ := Array.mem_map.1 (Array.mem_of_getElem? hv)
    exact View.holds_fresh _

theorem Rooted.record {n : Nat} {roots : List Nat} {views : Array View}
    (h : Rooted n roots views) (node : Nat) :
    Rooted n (roots ++ [node]) (views.modify node (·.record .genesis .right)) where
  size_eq := by rw [Array.size_modify, h.size_eq]
  holds := by
    intro p v hv
    rw [Array.getElem?_modify] at hv
    by_cases hp : node = p
    · subst hp
      rw [if_pos rfl] at hv
      obtain ⟨v₀, hv₀, rfl⟩ := Option.map_eq_some_iff.1 hv
      have hroot : startsFrom (roots ++ [node]) node = [(.right, .genesis)] := by
        simp [startsFrom]
      have hholds := h.holds node v₀ hv₀
      rw [hroot]
      by_cases hmem : node ∈ roots
      · -- the node has the block already
        rw [startsFrom, if_pos hmem] at hholds
        rw [View.record_of_has ((hholds.has_iff _).2 List.mem_cons_self)]
        exact hholds
      · rw [startsFrom, if_neg hmem] at hholds
        exact hholds.record (hholds.has_eq_false List.not_mem_nil) _
    · rw [if_neg hp] at hv
      have hne : ¬ p = node := fun h => hp h.symm
      have hroot : startsFrom (roots ++ [node]) p = startsFrom roots p := by
        simp [startsFrom, hne]
      rw [hroot]
      exact h.holds p v hv

/-! ## the nodes -/

/-- Whatever the table of latencies looks like, a run starts with the genesis block
at the nodes that send it, and nothing has been mined or drawn. -/
theorem rooted_of_start {α σ : Type} {run : Run α} {a : α} {supply : Supply σ}
    {s : Run.State α σ} (h : run.start a supply = .ok s) :
    Rooted run.network.size (run.adversary.partition a).right s.world.nodes ∧
      s.world.mined = 0 ∧ s.world.supply = supply := by
  obtain ⟨w, hw, _, hworld⟩ := Run.of_start h
  have hseeds : Rooted run.network.size (run.adversary.partition a).right w.nodes ∧
      w.mined = 0 ∧ w.supply = supply :=
    Run.of_seedAll (fun roots (w : World σ) => Rooted run.network.size roots w.nodes ∧
      w.mined = 0 ∧ w.supply = supply) ⟨rooted_fresh _, rfl, rfl⟩
      (fun hw _ => ⟨hw.1.record _, hw.2⟩) hw
  rw [hworld]
  exact hseeds

/-- A world in which some nodes have been given the genesis block and have sent it. -/
structure Seeded {σ : Type} (n : Nat) (supply : Supply σ) (roots : List Nat) (w : World σ) :
    Prop where
  rooted : Rooted n roots w.nodes
  sound : w.agenda.Sound
  deliveries : ∀ x ∈ w.agenda.toList, ∃ peer, x.event = .deliver peer .right .genesis
  arrivals : ∀ p < n, (w.agenda.arrivals p).Perm
    (List.replicate (roots.countP (· ≠ p)) (.right, .genesis))
  rest : w = { World.fresh n supply with nodes := w.nodes, agenda := w.agenda }

variable {σ : Type} {net : Network} {supply : Supply σ} {n : Nat} {roots : List Nat}

theorem seeded_fresh (n : Nat) (supply : Supply σ) : Seeded n supply [] (World.fresh n supply) where
  rooted := rooted_fresh n
  sound := Agenda.sound_empty
  deliveries := fun _ hx => absurd hx List.not_mem_nil
  arrivals := fun _ _ => .refl _
  rest := rfl

/-- One more node is given the genesis block and sends it to all others. -/
theorem Seeded.seed (hsq : net.distances.Square n) {w : World σ} {node : Nat}
    {events : List (Int × Event)} (hw : Seeded n supply roots w)
    (hevents : World.arrivals net 0 node .right .genesis = .ok events) :
    Seeded n supply (roots ++ [node]) { w with
      nodes := w.nodes.modify node (·.record .genesis .right)
      agenda := w.agenda.pushAll events } := by
  have hdel := World.arrivals_events hsq hevents
  refine ⟨hw.rooted.record node, Agenda.sound_pushAll hw.sound events, ?_, ?_, ?_⟩
  · intro x hx
    rcases Agenda.mem_pushAll hx with hx | hx
    · exact hw.deliveries x hx
    · exact exists_deliver_eq hdel hx
  · intro p hp
    refine (Agenda.pick_pushAll w.agenda (fun _ e => e.arrivalAt p) events).trans ?_
    rw [filterMap_arrivalAt (List.nodup_range.filter _) p hdel, List.countP_append]
    by_cases hpn : p = node
    · have hcount : [node].countP (· ≠ p) = 0 := by simp [hpn]
      have hnot : p ∉ (List.range n).filter (· ≠ node) := by simp [hpn]
      rw [hcount, if_neg hnot]
      exact hw.arrivals p hp
    · have hcount : [node].countP (· ≠ p) = 1 := by
        have hne : ¬ node = p := fun h => hpn h.symm
        simp [hne]
      have hmem : p ∈ (List.range n).filter (· ≠ node) := by simp [hpn, hp]
      rw [hcount, if_pos hmem, List.replicate_succ]
      exact (hw.arrivals p hp).cons _
  · exact congrArg (fun w₀ : World σ => { w₀ with
      nodes := w.nodes.modify node (·.record .genesis .right)
      agenda := w.agenda.pushAll events }) hw.rest

theorem seeded_of_seedAll {α : Type} {run : Run α} {p : Partition} {w : World σ}
    (hsq : run.network.distances.Square run.network.size) (h : run.seedAll p supply = .ok w) :
    Seeded run.network.size supply p.right w :=
  Run.of_seedAll (Seeded run.network.size supply) (seeded_fresh _ supply)
    (fun hw hevents => hw.seed hsq hevents) h

/-- A run starts with its nodes seeded, and with the first block and the first check to come. -/
theorem exists_seeded_of_start {α : Type} {run : Run α} {a : α} {s : Run.State α σ}
    (hsq : run.network.distances.Square run.network.size) (h : run.start a supply = .ok s) :
    ∃ w, Seeded run.network.size supply (run.adversary.partition a).right w ∧
      run.adversary.start a = .ok s.adversary ∧
      s.world = w.schedule [(0, .mine), (Run.firstCheck, .check)] := by
  obtain ⟨w, hw, ha, hworld⟩ := Run.of_start h
  exact ⟨w, seeded_of_seedAll hsq hw, ha, hworld⟩

/-- The number of nodes stays that of the network. -/
theorem size_nodes_of_reaches {α : Type} [WordSource σ] {run : Run α} {fresh : α}
    {h : Run.History} {s : Run.State α σ} (hsq : run.network.distances.Square run.network.size)
    (hr : run.Reaches fresh supply h s) : s.world.nodes.size = run.network.size := by
  induction hr with
  | start _ hstart =>
      obtain ⟨w, hw, _, hworld⟩ := exists_seeded_of_start hsq hstart
      rw [hworld]
      exact hw.rooted.size_eq
  | step _ hstep ih =>
      obtain ⟨first, agenda, _, _, hturn⟩ := Run.exists_turn_of_step hstep
      exact (Run.size_nodes_of_turn hturn).trans ih

/-! ## the balancing adversary -/

namespace Balancer

/-- Observing the genesis block at some nodes changes their mirrors and the own view alone. -/
theorem rooted_observe {n : Nat} {roots : List Nat} {b : Balancer} (h : Rooted n roots b.mirrors)
    (peers : List Nat) {b' : Balancer}
    (hb' : b' = peers.foldl (fun b peer => b.observe .right .genesis peer) b) :
    Rooted n (roots ++ peers) b'.mirrors ∧
      (∀ x, b'.view.has x = true ↔ b.view.has x = true ∨ x = .genesis ∧ peers ≠ []) ∧
      b' = { b with mirrors := b'.mirrors, view := b'.view } := by
  induction peers generalizing roots b with
  | nil =>
      subst hb'
      rw [List.append_nil]
      exact ⟨h, by simp, rfl⟩
  | cons peer peers ih =>
      rw [List.foldl_cons] at hb'
      obtain ⟨hmirrors, hview, hrest⟩ := ih (h.record peer) hb'
      rw [List.append_cons]
      refine ⟨hmirrors, fun x => ?_, hrest⟩
      have hhas : (b.observe .right .genesis peer).view.has x = true ↔
          x = .genesis ∨ b.view.has x = true := by
        rw [observe, View.has_record, Bool.or_eq_true, beq_iff_eq, eq_comm]
      rw [hview, hhas]
      constructor
      · rintro ((hx | hx) | ⟨hx, _⟩)
        · exact .inr ⟨hx, List.cons_ne_nil _ _⟩
        · exact .inl hx
        · exact .inr ⟨hx, List.cons_ne_nil _ _⟩
      · rintro (hx | ⟨hx, _⟩)
        · exact .inl (.inr hx)
        · exact .inl (.inl hx)

/-- The state of a run before the first event. -/
structure Opening (net : Network) (s : Run.State Balancer σ) : Prop where
  partition : Partition.ofDistances net.size net.distances = .ok s.adversary.partition
  nodes : Rooted net.size s.adversary.partition.right s.world.nodes
  mirrors : Rooted net.size s.adversary.partition.right s.adversary.mirrors
  view : ∀ x, s.adversary.view.has x = true ↔
    x = .genesis ∧ s.adversary.partition.right ≠ []
  pendingOn : ∀ side, s.adversary.pendingOn side = []
  arrivals : ∀ p < net.size, (s.world.agenda.arrivals p).Perm
    (List.replicate (s.adversary.partition.right.countP (· ≠ p)) (.right, .genesis))
  reports : ∀ p, s.world.agenda.reports p = []
  carried : ∀ b ∈ s.world.agenda.carried, b = .genesis
  mined : s.world.mined = 0
  adversaryMined : s.world.adversaryMined = 0
  released : s.world.released = 0

theorem setUp_of_prepare {env : Environment} {margin : Balancer → Int} {b b' : Balancer}
    (h : (run env net margin).prepare b = .ok b') :
    ∃ partition, Partition.ofDistances net.size net.distances = .ok partition ∧
      b' = b.setUp net.size partition := by
  unfold Run.prepare at h
  split at h
  · contradiction
  · split at h
    · contradiction
    · have hset := Run.orFail_eq_ok_iff.1 h
      dsimp only [run, adversary] at hset
      split at hset
      · next partition hpart => exact ⟨partition, hpart, (Except.ok.inj hset).symm⟩
      · contradiction

/-- To take up the attack changes the mirrors and the own view alone. -/
theorem exists_start_eq (b : Balancer) : ∃ mirrors view, b.start = { b with mirrors, view } := by
  have hfold : ∀ (peers : List Nat) (b : Balancer), ∃ mirrors view,
      peers.foldl (fun b peer => b.observe .right .genesis peer) b = { b with mirrors, view } := by
    intro peers
    induction peers with
    | nil => exact fun b => ⟨_, _, rfl⟩
    | cons peer peers ih =>
        intro b
        obtain ⟨mirrors, view, h⟩ := ih (b.observe .right .genesis peer)
        exact ⟨mirrors, view, h⟩
  exact hfold b.partition.right b

/-- Before the first event nothing is kept back, whatever the network. -/
theorem pendingOn_of_start {env : Environment} {margin : Balancer → Int} {b : Balancer}
    {s : Run.State Balancer σ} (hprep : (run env net margin).prepare {} = .ok b)
    (hstart : (run env net margin).start b supply = .ok s) (side : Side) :
    s.adversary.pendingOn side = [] := by
  obtain ⟨_, _, rfl⟩ := setUp_of_prepare hprep
  obtain ⟨_, _, hstarted, _⟩ := Run.of_start hstart
  obtain ⟨mirrors, view, hb⟩ := exists_start_eq (setUp net.size _ {})
  rw [← Except.ok.inj hstarted, hb]
  cases side <;> rfl

/-- Before the first event nothing has been lacking. -/
theorem borrowed_of_start {env : Environment} {margin : Balancer → Int} {b : Balancer}
    {s : Run.State Balancer σ} (hprep : (run env net margin).prepare {} = .ok b)
    (hstart : (run env net margin).start b supply = .ok s) : s.adversary.borrowed = 0 := by
  obtain ⟨_, _, rfl⟩ := setUp_of_prepare hprep
  obtain ⟨_, _, hstarted, _⟩ := Run.of_start hstart
  obtain ⟨mirrors, view, hb⟩ := exists_start_eq (setUp net.size _ {})
  rw [← Except.ok.inj hstarted, hb]
  rfl

theorem opening_of_start {env : Environment} {margin : Balancer → Int} {b : Balancer}
    {s : Run.State Balancer σ} (hsq : net.distances.Square net.size)
    (hprep : (run env net margin).prepare {} = .ok b)
    (hstart : (run env net margin).start b supply = .ok s) : Opening net s := by
  obtain ⟨partition, hpart, hb⟩ := setUp_of_prepare hprep
  obtain ⟨w, hw, hstarted, hworld⟩ := exists_seeded_of_start hsq hstart
  have hfold : b.start = s.adversary := Except.ok.inj hstarted
  have hfresh : Rooted net.size [] b.mirrors := by
    rw [hb]
    exact rooted_fresh net.size
  obtain ⟨hmirrors, hview, hrest⟩ := rooted_observe hfresh b.partition.right hfold.symm
  have hpartition : s.adversary.partition = b.partition := by rw [hrest]
  -- the block to be mined and the check are neither deliveries nor reports
  have hpick : ∀ {β : Type} (f : Int → Event → Option β), f 0 .mine = none →
      f Run.firstCheck .check = none → (s.world.agenda.pick f).Perm (w.agenda.pick f) := by
    intro β f hmine hcheck
    rw [hworld]
    refine Agenda.pick_pushAll_of_none _ fun x hx => ?_
    rcases List.mem_cons.1 hx with rfl | hx
    · exact hmine
    · obtain rfl := List.mem_singleton.1 hx
      exact hcheck
  refine
    { partition := by
        rw [hpartition, hb]
        exact hpart
      nodes := by
        rw [hworld, hpartition]
        exact hw.rooted
      mirrors := by
        rw [hpartition]
        exact hmirrors
      view := fun x => ?_
      pendingOn := fun side => ?_
      arrivals := fun p hp => ?_
      reports := fun p => ?_
      carried := fun x hx => ?_
      mined := ?_
      adversaryMined := ?_
      released := ?_ }
  · rw [hview, hpartition, hb]
    simp [setUp]
  · exact pendingOn_of_start hprep hstart side
  · rw [hpartition]
    exact (hpick (fun _ e => e.arrivalAt p) rfl rfl).trans (hw.arrivals p hp)
  · have hnil : w.agenda.reports p = [] := by
      refine Agenda.pick_eq_nil fun x hx => ?_
      obtain ⟨peer, hpeer⟩ := hw.deliveries x hx
      rw [hpeer]
      rfl
    have hperm := hpick (fun _ e => e.reportOn p) rfl rfl
    exact (hperm.trans (.of_eq hnil)).eq_nil
  · have hmem := (hpick (fun _ e => e.block) rfl rfl).mem_iff.1 hx
    obtain ⟨y, hy, hyx⟩ := List.mem_filterMap.1 hmem
    obtain ⟨peer, hpeer⟩ := hw.deliveries y hy
    rw [hpeer] at hyx
    exact (Option.some.inj hyx).symm
  · rw [hworld, hw.rest]
    rfl
  · rw [hworld, hw.rest]
    rfl
  · rw [hworld, hw.rest]
    rfl

/-! ## a small run -/

/-- Two nodes, five milliseconds apart. -/
def pair : Network where
  distances := #[#[0, 5], #[5, 0]]
  diameter := 5

/-- Two dozen milliseconds with a block in every fourth.  Half of the blocks are the
adversary's, which is nearer to the nodes than they are to each other. -/
def pairEnvironment : Environment where
  nodes := 2
  degree := 1
  blockPeriod := 4
  evilRate := 1 / 2
  oneWayLatency := 2
  allowBorrowing := true
  termination := 24

/-- A tenth of a second in which all blocks are the honest nodes', and fewer are found. -/
def honestEnvironment : Environment :=
  { pairEnvironment with blockPeriod := 20, evilRate := 0, oneWayLatency := 5, termination := 100 }

/-- Words that are far enough apart to choose both nodes. -/
def pairSupply : Supply (Nat → UInt64) where
  source := fun i => 0x123456789abcdef0 * i.toUInt64
  left := 100

theorem square_pair : pair.distances.Square pair.size := by
  constructor
  · rfl
  · decide

/-- What the run has come to after twenty milliseconds.  Of the blocks of either side some are
sent and some kept back, two of those sent were lent, and both nodes wait for a block and have
one to report. -/
structure Midway (h : Run.History) (s : Run.State Balancer (Nat → UInt64)) : Prop where
  mined : h.mined = [(.right, ⟨5⟩), (.right, ⟨6⟩), (.left, ⟨10⟩), (.left, ⟨11⟩)]
  kept : h.kept = [(.left, ⟨1⟩), (.right, ⟨2⟩), (.left, ⟨3⟩), (.right, ⟨4⟩), (.left, ⟨-1⟩),
    (.left, ⟨-2⟩), (.left, ⟨7⟩), (.right, ⟨8⟩), (.left, ⟨9⟩)]
  sent : h.sent = [(.left, ⟨1⟩), (.left, ⟨3⟩), (.left, ⟨-1⟩), (.left, ⟨-2⟩), (.right, ⟨2⟩)]
  borrowed : s.adversary.borrowed = 2
  arrivals : [0, 1].map s.world.agenda.arrivals =
    [[(.left, ⟨10⟩), (.right, ⟨2⟩)], [(.right, ⟨2⟩), (.left, ⟨11⟩)]]
  reports : [0, 1].map s.world.agenda.reports = [[(.left, ⟨11⟩)], [(.left, ⟨10⟩)]]

instance (h : Run.History) (s : Run.State Balancer (Nat → UInt64)) : Decidable (Midway h s) :=
  decidable_of_iff (h.mined = _ ∧ h.kept = _ ∧ h.sent = _ ∧ s.adversary.borrowed = 2 ∧
      [0, 1].map s.world.agenda.arrivals = _ ∧ [0, 1].map s.world.agenda.reports = _)
    ⟨fun ⟨mined, kept, sent, borrowed, arrivals, reports⟩ =>
      ⟨mined, kept, sent, borrowed, arrivals, reports⟩,
      fun h => ⟨h.mined, h.kept, h.sent, h.borrowed, h.arrivals, h.reports⟩⟩

/-- The run gets there with its thirty-sixth event. -/
theorem exists_reaches_midway :
    ∃ h s, (run pairEnvironment pair margin).Reaches {} pairSupply h s ∧ Midway h s := by
  have hfollow : ((run pairEnvironment pair margin).follow {} pairSupply 36).any
      (fun x => Midway x.1 x.2) = true := by
    decide +kernel
  obtain ⟨h, s, hr, hmidway⟩ := Run.exists_reaches_of_any hfollow
  exact ⟨h, s, hr, of_decide_eq_true hmidway⟩

theorem Midway.borrowed_lt {h : Run.History} {s : Run.State Balancer (Nat → UInt64)}
    (hm : Midway h s) : s.adversary.borrowed < 2 ^ 63 := by
  rw [hm.borrowed]
  decide

end Balancer

end BalanceAttack
