import BalanceAttack.Proofs.Conservation
import BalanceAttack.Proofs.Ledger
import BalanceAttack.Proofs.Termination
import Mathlib.Algebra.BigOperators.Group.Finset.Piecewise
import Mathlib.Algebra.Order.BigOperators.Group.Finset
import Mathlib.Algebra.Order.Field.Rat
import Mathlib.Tactic.Linarith
import Mathlib.Tactic.Ring

/-!
# BalanceAttack.Proofs.Headroom

How large the numbers of a run can get.  With borrowing off there are no more
blocks than have been found, and so no view weighs more; each node is reported
to have received each of them once at most, and at no report more blocks are
lacking than it takes to turn the heaviest mirrors:

* `light_of_reaches` — the weights of all views, and `total_bounds`, their sums;
* `demand_le`, `borrowed_le_of_reaches` — how many blocks can be lacking;
* `headroom_of_timely` — a run with room for that fits into 64 bits, reads no
  table outside its bounds and is hindered by a lack of words alone.
-/

namespace BalanceAttack

open BalanceAttack.Random

/-- An integer of 64 signed bits. -/
def Narrow (z : Int) : Prop := -2 ^ 63 ≤ z ∧ z < 2 ^ 63

/-- A view of no more than `c` blocks. -/
def View.Light (c : Nat) (v : View) : Prop := v.weight .left + v.weight .right ≤ c

theorem View.Light.lead_bounds {c : Nat} {v : View} (h : v.Light c) : -c ≤ v.lead ∧ v.lead ≤ c := by
  unfold Light at h
  rw [lead_eq]
  omega

/-- How often the adversary was told of one of `n` nodes. -/
def Run.History.reports (n : Nat) (h : History) : Nat :=
  ∑ p ∈ Finset.range n, (h.reported p).length

/-- A report is counted for the node it is about. -/
theorem Run.History.reports_append_of_lt {n : Nat} (h : History) {e : Entry} {side : Side}
    {block : BlockId} {peer : Nat} (he : e.event = .observe side block peer) (hpeer : peer < n) :
    reports n (h ++ [e]) = h.reports n + 1 := by
  have hone : ∀ p, (reported p (h ++ [e])).length =
      (h.reported p).length + if peer = p then 1 else 0 := by
    intro p
    rw [reported_append, List.length_append, he, Event.reportOn]
    split <;> rfl
  simp only [reports, hone, Finset.sum_add_distrib, Finset.sum_ite_eq, Finset.mem_range,
    if_pos hpeer]

theorem Run.History.reports_append_of_none {n : Nat} (h : History) {e : Entry}
    (he : ∀ p, e.event.reportOn p = none) : reports n (h ++ [e]) = h.reports n :=
  Finset.sum_congr rfl fun p _ => congrArg List.length (reported_of_none (he p) h)

namespace Balancer

variable {b : Balancer} {c : Nat}

/-! ## leads -/

/-- The leads of the left side in the mirrors of some nodes, added up one after the other. -/
def total (b : Balancer) (nodes : List Nat) : Int :=
  nodes.foldl (fun total node => total + b.mirroredLead node) 0

theorem mirroredLead_bounds (hb : ∀ v ∈ b.mirrors, v.Light c) (node : Nat) :
    -c ≤ b.mirroredLead node ∧ b.mirroredLead node ≤ c := by
  unfold mirroredLead
  cases hv : b.mirrors[node]? with
  | none => exact ⟨by simp, by simp⟩
  | some v => exact (hb v (Array.mem_of_getElem? hv)).lead_bounds

theorem total_bounds (hb : ∀ v ∈ b.mirrors, v.Light c) (nodes : List Nat) :
    -(nodes.length * c : Int) ≤ b.total nodes ∧ b.total nodes ≤ nodes.length * c := by
  have hfrom : ∀ (nodes : List Nat) (t : Int),
      t - nodes.length * c ≤ nodes.foldl (fun total node => total + b.mirroredLead node) t ∧
        nodes.foldl (fun total node => total + b.mirroredLead node) t ≤ t + nodes.length * c := by
    intro nodes
    induction nodes with
    | nil => exact fun t => ⟨by simp, by simp⟩
    | cons node nodes ih =>
        intro t
        have hlead := mirroredLead_bounds hb node
        have hrest := ih (t + b.mirroredLead node)
        rw [List.foldl_cons, List.length_cons, Int.natCast_add, Int.add_mul]
        omega
  have hzero := hfrom nodes 0
  unfold total
  omega

/-- The mean lead of some mirrors is none that a mirror of the given size cannot have. -/
theorem averageLead_bounds (hb : ∀ v ∈ b.mirrors, v.Light c) (nodes : List Nat) :
    -(c : Rat) ≤ b.averageLead nodes ∧ b.averageLead nodes ≤ c := by
  have hmean : b.averageLead nodes = (b.total nodes : Rat) / (nodes.length : Rat) := rfl
  obtain ⟨hlow, hhigh⟩ := total_bounds hb nodes
  have hlow' : (-b.total nodes : Rat) ≤ c * nodes.length := by
    rw [mul_comm]
    exact_mod_cast Int.neg_le_of_neg_le hlow
  have hhigh' : (b.total nodes : Rat) ≤ c * nodes.length := by
    rw [mul_comm]
    exact_mod_cast hhigh
  have hlength : (0 : Rat) ≤ nodes.length := Nat.cast_nonneg _
  have hc : (0 : Rat) ≤ c := Nat.cast_nonneg _
  rw [hmean]
  refine ⟨?_, div_le_of_le_mul₀ hlength hc hhigh'⟩
  rw [neg_le, ← neg_div]
  exact div_le_of_le_mul₀ hlength hc hlow'

theorem margin_le (b : Balancer) : b.margin ≤ 1 := by
  unfold margin
  dsimp only
  generalize (if b.view.lead < 0 then -b.view.lead else b.view.lead + 1) = distance
  split
  · decide
  · split <;> decide

/-- No more blocks are demanded than turn the heaviest mirrors, and a margin. -/
theorem demand_le (hb : ∀ v ∈ b.mirrors, v.Light c) : b.demand b.margin ≤ c + 2 := by
  have hdistance : b.distanceToTurn b.target ≤ c + 1 := by
    cases b.target with
    | left =>
        have hmean := (averageLead_bounds hb b.partition.left).1
        dsimp only [distanceToTurn]
        linarith
    | right =>
        have hmean := (averageLead_bounds hb b.partition.right).2
        dsimp only [distanceToTurn]
        linarith
  have hmargin : (b.margin : Rat) ≤ 1 := by exact_mod_cast b.margin_le
  unfold demand
  refine Int.toNat_le.2 (Rat.ceil_le_iff.2 ?_)
  push_cast
  linarith

/-! ## the blocks of a run -/

variable {σ : Type} {env : Environment} {net : Network} {supply rest : Supply σ}
  {margin : Balancer → Int} {h : Run.History} {s : Run.State Balancer σ}

section

variable [WordSource σ]

/-- With borrowing off there are no blocks but the genesis block and those that have been found. -/
theorem length_ledger (hoff : env.allowBorrowing = false)
    (hsq : net.distances.Square net.size)
    (hr : (run env net margin).Reaches {} supply h s) :
    h.ledger.length = s.world.mined + 1 := by
  have hcounted := counted_of_reaches hsq hr
  have hunlent := hcounted.unlent hoff
  have hmined := hcounted.mined
  have hminted := h.minted_perm.length_eq
  rw [List.length_append] at hminted
  rw [Run.History.ledger, List.length_cons]
  omega

/-- No view weighs more than all blocks together. -/
theorem light_of_reaches (hoff : env.allowBorrowing = false)
    (hsq : net.distances.Square net.size)
    (hr : (run env net margin).Reaches {} supply h s) {v : View} (hv : Watches s v) :
    v.Light (s.world.mined + 1) := by
  rw [View.Light, ← length_ledger hoff hsq hr]
  exact ((recorded_of_reaches hr).drawn hv).weight_add_le

/-- The same holds of the adversary's views once it is told of the next event. -/
theorem light_noting (hoff : env.allowBorrowing = false)
    (hsq : net.distances.Square net.size)
    (hr : (run env net margin).Reaches {} supply h s) {first : Scheduled} {agenda : Agenda}
    (hq : s.world.agenda.next = some (first, agenda)) :
    (∀ v ∈ (s.adversary.noting first.event).mirrors, v.Light (s.world.mined + 1)) ∧
      (s.adversary.noting first.event).view.Light (s.world.mined + 1) := by
  have hrecorded := recorded_of_reaches hr
  have hnoting := hrecorded.adversary.noting (hrecorded.world.next hq).2
  unfold View.Light
  rw [← length_ledger hoff hsq hr]
  exact ⟨fun v hv => (hnoting.mirrors v hv).weight_add_le, hnoting.view.weight_add_le⟩

/-- No node is reported to have received more than all blocks. -/
theorem length_reported_le (hoff : env.allowBorrowing = false)
    (hsq : net.distances.Square net.size)
    (hr : (run env net margin).Reaches {} supply h s) {p : Nat} (hp : p < net.size) :
    (h.reported p).length ≤ s.world.mined + 1 := by
  obtain ⟨_, m, _, hm, hflow⟩ :=
    account_of_reaches hsq hr (fits_of_not_allowBorrowing hoff s.adversary) hp
  have hlight : m.Light (s.world.mined + 1) :=
    light_of_reaches hoff hsq hr (.inr (.inl (Array.mem_of_getElem? hm)))
  unfold View.Light at hlight
  rw [hflow.mirror.weight_add, List.length_append] at hlight
  omega

end

/-! ## the blocks that are lacking -/

/-- Only at a report blocks can be lacking, and no more than are demanded. -/
theorem borrowed_of_turn (hoff : env.allowBorrowing = false) {w : World σ} {event : Event}
    {e : Run.Entry} (hturn : Run.Turn (run env net margin) b w event e s) :
    (∃ side block peer, event = .observe side block peer ∧ peer < b.mirrors.size ∧
      s.adversary.borrowed ≤ b.borrowed + (b.noting event).demand (margin (b.noting event))) ∨
    ((∀ p, event.reportOn p = none) ∧ s.adversary.borrowed = b.borrowed) := by
  cases hturn with
  | @evil _ _ side _ _ hside hkept =>
      obtain ⟨_, rfl⟩ := Prod.mk.inj (Except.ok.inj hside)
      obtain rfl := Except.ok.inj hkept
      refine .inr ⟨fun _ => rfl, ?_⟩
      cases side <;> rfl
  | @told peer side block a₁ a₂ _ _ _ hobs hdecided =>
      obtain ⟨hpeer, rfl⟩ := observe_eq_ok_iff.1 hobs
      rw [blocksToSend_of_not_allowBorrowing hoff] at hdecided
      obtain ⟨_, rfl⟩ := Prod.mk.inj (Except.ok.inj hdecided)
      refine .inl ⟨side, block, peer, rfl, hpeer, ?_⟩
      rw [borrowed_carryOut, borrowed_observe]
      exact Nat.add_le_add_left (Nat.sub_le _ _) _
  | honest | known | new | checked | idle => exact .inr ⟨fun _ => rfl, rfl⟩

variable [WordSource σ]

/-- At each report no more blocks are lacking than turn a view of all blocks, and a margin. -/
theorem borrowed_le_of_reaches (hoff : env.allowBorrowing = false)
    (hsq : net.distances.Square net.size)
    (hr : (run env net Balancer.margin).Reaches {} supply h s) :
    s.adversary.borrowed ≤ h.reports net.size * (s.world.mined + 3) := by
  induction hr with
  | start hprep hstart =>
      rw [borrowed_of_start hprep hstart]
      exact Nat.zero_le _
  | @step h s s' e hr hstep ih =>
      obtain ⟨first, agenda, hq, _, hturn⟩ := Run.exists_turn_of_step hstep
      have hevent := Run.event_of_turn hturn
      have hmined : s.world.mined ≤ s'.world.mined :=
        (Run.mined_of_turn hturn).symm ▸ Nat.le_add_right _ _
      have hgrown := Nat.mul_le_mul_left (h.reports net.size) (Nat.add_le_add_right hmined 3)
      rcases borrowed_of_turn hoff hturn with ⟨side, block, peer, hobs, hpeer, hle⟩ | ⟨hnone, hsame⟩
      · have hdemand := demand_le (light_noting hoff hsq hr hq).1
        rw [size_mirrors_of_reaches hsq hr] at hpeer
        rw [Run.History.reports_append_of_lt h (hevent.trans hobs) hpeer, Nat.succ_mul]
        omega
      · rw [Run.History.reports_append_of_none h fun p => hevent ▸ hnone p]
        omega

/-- Each node is reported to have received each block once at most. -/
theorem reports_le (hoff : env.allowBorrowing = false)
    (hsq : net.distances.Square net.size)
    (hr : (run env net margin).Reaches {} supply h s) :
    h.reports net.size ≤ net.size * (s.world.mined + 1) := by
  have hsum := Finset.sum_le_card_nsmul (Finset.range net.size)
    (fun p => (h.reported p).length) (s.world.mined + 1) fun p hp =>
      length_reported_le hoff hsq hr (Finset.mem_range.1 hp)
  rwa [Finset.card_range, Nat.nsmul_eq_mul] at hsum

end Balancer

/-! ## the numbers of a state -/

/-- The weights of a view, and what is worked out from them. -/
structure View.Narrow (v : View) : Prop where
  weight : ∀ side, BalanceAttack.Narrow (v.weight side)
  lead : BalanceAttack.Narrow v.lead
  /-- How far the view is from favoring the other side. -/
  distance : BalanceAttack.Narrow (if v.lead < 0 then -v.lead else v.lead + 1)

theorem View.Light.narrow {c : Nat} {v : View} (h : v.Light c) (hc : c + 1 < 2 ^ 63) :
    v.Narrow := by
  have hlead := h.lead_bounds
  unfold Light at h
  refine ⟨fun side => ?_, ?_, ?_⟩
  · unfold BalanceAttack.Narrow
    cases side <;> omega
  · unfold BalanceAttack.Narrow
    omega
  · unfold BalanceAttack.Narrow
    split <;> omega

/-- What the adversary holds, and what it works out in order to choose a side and
to decide what to send. -/
structure Balancer.Narrow (b : Balancer) : Prop where
  mirrors : ∀ v ∈ b.mirrors, v.Narrow
  view : b.view.Narrow
  potential : ∀ side, BalanceAttack.Narrow (b.potential side)
  /-- The leads over a group, added up as far as any of its nodes. -/
  total : ∀ side k, BalanceAttack.Narrow (b.total ((b.partition.nodes side).take k))
  demand : BalanceAttack.Narrow (b.demand b.margin)
  borrowed : BalanceAttack.Narrow b.borrowed
  withheld : BalanceAttack.Narrow b.withheld

/-- The times and the counters of the world. -/
structure World.Narrow {σ : Type} (w : World σ) : Prop where
  clock : BalanceAttack.Narrow w.clock
  due : ∀ x ∈ w.agenda.toList, BalanceAttack.Narrow x.time
  order : ∀ x ∈ w.agenda.toList, x.order < 2 ^ 64
  nodes : ∀ v ∈ w.nodes, v.Narrow
  /-- The number of the next block. -/
  next : BalanceAttack.Narrow (w.mined + 1)
  adversaryMined : BalanceAttack.Narrow w.adversaryMined
  released : BalanceAttack.Narrow w.released

namespace Balancer

variable {σ : Type} [WordSource σ] {env : Environment} {net : Network} {supply rest : Supply σ}
  {h : Run.History} {s : Run.State Balancer σ} {reach pause : Int}

/-- A state of a run, with all that its next event asks for. -/
structure Headroom (run : Run Balancer) (s : Run.State Balancer σ) : Prop where
  /-- Nothing but a lack of words keeps the run from going on. -/
  dry : ∀ c, run.step s = .error c → c.fault = .dry
  world : s.world.Narrow
  adversary : s.adversary.Narrow
  /-- The adversary decides once it is told of the next event. -/
  noting : ∀ {first : Scheduled} {agenda : Agenda}, s.world.agenda.next = some (first, agenda) →
    (s.adversary.noting first.event).Narrow
  /-- A check works out for how long the nodes have agreed. -/
  elapsed : ∀ {first : Scheduled} {agenda : Agenda} {since : Int} {side : Side},
    s.world.agenda.next = some (first, agenda) → first.event = .check →
    s.world.agreement = some (since, side) → BalanceAttack.Narrow (first.time - since)
  equipped : Equipped run.network s.adversary s.world
  /-- The latency from the other group is known of all nodes that blocks are sent to. -/
  crossing : ∀ side, ∀ peer ∈ s.adversary.partition.nodes side,
    peer < run.network.size ∧ peer < s.adversary.partition.crossing.size

omit [WordSource σ] in
theorem le_room {n : Nat} (hn : n ≠ 0) (m : Nat) : 4 * m + 3 ≤ n * (m + 1) * (m + 3) := by
  have hexpand : (m + 1) * (m + 3) = m * m + (4 * m + 3) := by ring
  rw [Nat.mul_assoc, hexpand]
  exact (Nat.le_add_left _ _).trans (Nat.le_mul_of_pos_left _ (Nat.pos_of_ne_zero hn))

omit [WordSource σ] in
/-- An adversary with views of few blocks holds small numbers alone. -/
theorem narrow_of_light {b : Balancer} {n m : Nat} {distances : Latencies} (hn : n ≠ 0)
    (hpart : Partition.ofDistances n distances = .ok b.partition)
    (hmirrors : ∀ v ∈ b.mirrors, v.Light (m + 1)) (hview : b.view.Light (m + 1))
    (hwithheld : b.withheld ≤ m) (hborrowed : b.borrowed ≤ n * (m + 1) * (m + 3))
    (hroom : n * (m + 1) * (m + 3) < 2 ^ 63) : b.Narrow := by
  have hsum : n * (m + 1) ≤ n * (m + 1) * (m + 3) := Nat.le_mul_of_pos_right _ (Nat.succ_pos _)
  have hmany := le_room hn m
  have hlight : m + 1 + 1 < 2 ^ 63 := by omega
  refine
    { mirrors := fun v hv => (hmirrors v hv).narrow hlight
      view := hview.narrow hlight
      potential := fun side => ?_
      total := fun side k => ?_
      demand := ?_
      borrowed := ?_
      withheld := ?_ }
  · have hbacklog : (b.backlog side).size ≤ b.withheld := by
      cases side
      · exact Nat.le_add_right _ _
      · exact Nat.le_add_left _ _
    have hweight : b.view.weight side ≤ m + 1 := by
      unfold View.Light at hview
      cases side <;> omega
    unfold potential BalanceAttack.Narrow
    omega
  · have hlength : ((b.partition.nodes side).take k).length ≤ n := by
      have hgroups := Partition.length_nodes_le hpart side
      rw [List.length_append] at hgroups
      exact (List.length_take_le' _ _).trans (by omega)
    have hbounds := total_bounds hmirrors ((b.partition.nodes side).take k)
    have hscaled := Nat.mul_le_mul_right (m + 1) hlength
    unfold BalanceAttack.Narrow
    push_cast at hbounds
    zify at hscaled hsum hroom
    omega
  · have hdemand := demand_le hmirrors
    unfold BalanceAttack.Narrow
    omega
  · unfold BalanceAttack.Narrow
    omega
  · unfold BalanceAttack.Narrow
    omega

/-- Where there is room for all the blocks that can be lacking, all numbers of a state fit. -/
theorem headroom_of_reaches (hoff : env.allowBorrowing = false)
    (hsq : net.distances.Square net.size) (hsize : net.size ≠ 0)
    (ht : (run env net Balancer.margin).Timely {} supply reach pause)
    (hr : (run env net Balancer.margin).Reaches {} supply h s)
    (hscheduled : s.world.agenda.scheduled < 2 ^ 64)
    (hroom : net.size * (s.world.mined + 1) * (s.world.mined + 3) < 2 ^ 63) :
    Headroom (run env net Balancer.margin) s := by
  have hpart := partition_of_reaches hr
  have hmined := (counted_of_reaches hsq hr).mined
  have hreleased := released_add_withheld hsq hr hoff
  have hwithheld : s.adversary.withheld ≤ s.world.mined := by omega
  have hborrowed : s.adversary.borrowed ≤
      net.size * (s.world.mined + 1) * (s.world.mined + 3) :=
    (borrowed_le_of_reaches hoff hsq hr).trans (Nat.mul_le_mul_right _ (reports_le hoff hsq hr))
  have hadversary : s.adversary.Narrow := narrow_of_light hsize hpart
    (fun v hv => light_of_reaches hoff hsq hr (.inr (.inl hv)))
    (light_of_reaches hoff hsq hr (.inr (.inr rfl))) hwithheld hborrowed hroom
  have hdue := due_of_reaches ht hsq hsize hr
  have htime : ∀ {t : Int}, 0 ≤ t ∧ t ≤ (run env net Balancer.margin).deadline reach pause →
      BalanceAttack.Narrow t := by
    intro t hbounds
    have hlatest := ht.deadline_le
    unfold Time.latest at hlatest
    unfold BalanceAttack.Narrow
    omega
  refine
    { dry := fun c => dry_of_step hoff ht hsq hsize hr
      world := ?_
      adversary := hadversary
      noting := fun {first agenda} hq => ?_
      elapsed := fun {first agenda since side} hq hcheck hnote => ?_
      equipped := equipped_of_reaches hsq hr
      crossing := fun side peer hpeer => ?_ }
  · have hmany := le_room hsize s.world.mined
    refine
      { clock := htime (clock_of_reaches ht hsq hsize hr)
        due := fun x hx => htime (hdue x hx)
        order := fun x hx => ((Run.sound_of_reaches hr).order_lt x hx).trans hscheduled
        nodes := fun v hv => (light_of_reaches hoff hsq hr (.inl hv)).narrow (by omega)
        next := ?_
        adversaryMined := ?_
        released := ?_ } <;> unfold BalanceAttack.Narrow <;> omega
  · obtain ⟨hmirrors, hview⟩ := light_noting hoff hsq hr hq
    exact narrow_of_light hsize (by rwa [partition_noting]) hmirrors hview
      (by rwa [withheld_noting])
      (by rwa [borrowed_noting]) hroom
  · have hnoted := (Run.tracked_of_reaches hsq hr).noted
    rw [hnote] at hnoted
    obtain ⟨j, hj, hsince, _⟩ := hnoted
    have htimes := Run.time_of_check hr hq hcheck
    have hfirst := htime (hdue first ((Agenda.toList_next hq).mem_iff.2 List.mem_cons_self))
    unfold checkTime Run.firstCheck Run.checkInterval at hsince htimes
    unfold BalanceAttack.Narrow at hfirst ⊢
    omega
  · exact ⟨((Partition.mem_nodes_iff hpart side).1 (List.mem_append_left _ hpeer)).2,
      Partition.lt_size_crossing hpart hpeer⟩

/-- **No panic under explicit bounds.**  With borrowing off, a run that stays in the
range of time, with latencies up to `reach` and waits up to `pause`, can be started;
if it finds at most `b` blocks, and there is room for those, then nothing but a lack of
words can keep it from going on, and all its numbers and indices are in range. -/
theorem headroom_of_timely (hvalid : env.Valid) (hoff : env.allowBorrowing = false)
    (hsq : net.distances.Square net.size) (hsize : net.size ≠ 0)
    (ht : (run env net Balancer.margin).Timely {} supply reach pause) {b : Nat}
    (hmined : ∀ h s, (run env net Balancer.margin).Reaches {} supply h s → s.world.mined ≤ b)
    (hscheduled : ∀ h s, (run env net Balancer.margin).Reaches {} supply h s →
      s.world.agenda.scheduled < 2 ^ 64)
    (hroom : net.size * (b + 1) * (b + 3) < 2 ^ 63) :
    (∃ a s, (run env net Balancer.margin).prepare {} = .ok a ∧
      (run env net Balancer.margin).start a supply = .ok s) ∧
    (∀ events a c, (run env net Balancer.margin).prepare {} = .ok a →
      (run env net Balancer.margin).simulate events a supply = .error (.crash c) →
      c.fault = .dry) ∧
    ∀ h s, (run env net Balancer.margin).Reaches {} supply h s →
      Headroom (run env net Balancer.margin) s := by
  refine ⟨exists_start hvalid ht hsq hsize, fun events a c hprep hsim =>
    dry_of_simulate hvalid hoff ht hsq hsize hprep hsim, fun h s hr => ?_⟩
  refine headroom_of_reaches hoff hsq hsize ht hr (hscheduled h s hr) (Nat.lt_of_le_of_lt ?_ hroom)
  have hle := hmined h s hr
  exact Nat.mul_le_mul (Nat.mul_le_mul_left _ (Nat.add_le_add_right hle 1))
    (Nat.add_le_add_right hle 3)

/-- A tenth of a second in which at most twenty-five blocks are found. -/
theorem headroom_instant :
    ∃ b, (∀ h s, (run ownEnvironment instant Balancer.margin).Reaches {} steadySupply h s →
        s.world.mined ≤ b ∧ s.world.agenda.scheduled < 2 ^ 64) ∧
      instant.size * (b + 1) * (b + 3) < 2 ^ 63 ∧
      ∀ h s, (run ownEnvironment instant Balancer.margin).Reaches {} steadySupply h s →
        Headroom (run ownEnvironment instant Balancer.margin) s := by
  obtain ⟨waits, rest, hwaits, hsum⟩ := exists_drawWaits_instant
  have hmined : ∀ h s, (run ownEnvironment instant Balancer.margin).Reaches {} steadySupply h s →
      s.world.mined ≤ 25 := fun h s hr => Run.mined_le_of_reaches hwaits hsum hr
  have hscheduled : ∀ h s,
      (run ownEnvironment instant Balancer.margin).Reaches {} steadySupply h s →
      s.world.agenda.scheduled < 2 ^ 64 := fun h s hr =>
    Nat.lt_of_le_of_lt (scheduled_le rfl square_instant hwaits hsum hr) (by decide)
  have hroom : instant.size * (25 + 1) * (25 + 3) < 2 ^ 63 := by decide
  exact ⟨25, fun h s hr => ⟨hmined h s hr, hscheduled h s hr⟩, hroom,
    (headroom_of_timely valid_own rfl square_instant (by decide) timely_instant hmined hscheduled
      hroom).2.2⟩

end Balancer

end BalanceAttack
