import BalanceAttack.Proofs.Settlement
import Mathlib.Tactic.Linarith

/-!
# BalanceAttack.Proofs.Loan

What becomes of the blocks that the balancing adversary lends itself.  A reaction
that lacks blocks of a side lends itself as many and decides once more, but what it
has sent in between may have turned its own view.  If it has not, the two decisions
together send what the first one asked for; if it has, the second one looks after
the other side, and the blocks that were lent stay where they are:

* `loan`, `synthetic_eq_loan` — the numbers of the blocks that are lent;
* `exists_distance`, `margin_le_of_weight` — the margin falls by no more than what was sent;
* `lent_of_lend` — what is kept back once the blocks are lent;
* `loaned_of_blocksToSend` — when the request is met in full.
-/

namespace BalanceAttack

/-- The numbers of synthetic blocks that follow the first so many. -/
def loan (first count : Nat) : List BlockId :=
  (List.range' first count).map fun (k : Nat) => ⟨-((k : Int) + 1)⟩

@[simp] theorem length_loan (first count : Nat) : (loan first count).length = count := by
  simp [loan]

theorem loan_append (first m n : Nat) :
    loan first m ++ loan (first + m) n = loan first (m + n) := by
  rw [loan, loan, loan, ← List.map_append, List.range'_append_1]

/-- The blocks lent for a shortfall take up the numbers that follow. -/
theorem synthetic_eq_loan {first count : Nat} (htotal : first + count < 2 ^ 63) :
    Run.synthetic count (first + count) = loan first count := by
  have hcount : Whole.signed count = count := Whole.signed_of_le (by omega)
  have hlowest : Whole.signed (first + count) = first + count := Whole.signed_of_le (by omega)
  rw [Run.synthetic, hcount, hlowest, Int.toNat_natCast]
  refine List.ext_getElem (by simp) fun i hi hi' => ?_
  have hlt : i < count := by simpa using hi'
  simp only [loan, List.getElem_map, List.getElem_reverse, List.getElem_range,
    List.getElem_range', List.length_range, BlockId.mk.injEq]
  omega

/-- Blocks that are delivered add no more to the weights than there are. -/
theorem View.weight_foldl_record_bounds (l : List (Side × BlockId)) (v : View) (s : Side) :
    v.weight s ≤ (l.foldl (fun v x => v.record x.2 x.1) v).weight s ∧
      (l.foldl (fun v x => v.record x.2 x.1) v).weight s ≤ v.weight s + (onSide s l).length := by
  induction l generalizing v with
  | nil => exact ⟨Nat.le_refl _, Nat.le_refl _⟩
  | cons x l ih =>
      have hrest := ih (v.record x.2 x.1)
      have hfirst : v.weight s ≤ (v.record x.2 x.1).weight s ∧
          (v.record x.2 x.1).weight s ≤ v.weight s + if s = x.1 then 1 else 0 := by
        cases hhas : v.has x.2 with
        | true =>
            rw [record_of_has hhas]
            omega
        | false =>
            rw [weight_record hhas]
            omega
      have hlength : (onSide s (x :: l)).length =
          (onSide s l).length + if s = x.1 then 1 else 0 := by
        by_cases hs : s = x.1
        · simp [onSide, hs]
        · simp [onSide, hs, Ne.symm hs]
      rw [List.foldl_cons, hlength]
      omega

namespace Balancer

variable {b b' : Balancer} {m : Int} {env : Environment} {net : Network}
  {margin : Balancer → Int} {time : Int}

/-! ## the second decision -/

/-- The margin hangs on the number of blocks of the target side that turn the own view. -/
theorem exists_distance (hview : b.view.UpToDate) :
    ∃ distance : Int, 1 ≤ distance ∧
      distance = (b.view.weight b.view.side : Int) - b.view.weight b.target +
        (if b.view.side = .left then 1 else 0) ∧
      b.margin = if distance < 3 then -1 else if distance = 3 then 0 else 1 := by
  have hleft : b.view.side = .left ↔ _ := hview
  have hlead := b.view.lead_eq
  unfold margin target
  cases hside : b.view.side with
  | left =>
      have hle := hleft.1 hside
      refine ⟨b.view.lead + 1, by omega, by rw [hlead]; rfl, ?_⟩
      dsimp only
      rw [if_neg (show ¬ b.view.lead < 0 by omega)]
  | right =>
      have hlt : ¬ b.view.weight .right ≤ b.view.weight .left := fun hle => by
        rw [hleft.2 hle] at hside
        contradiction
      refine ⟨-b.view.lead, by omega, by rw [hlead, Int.neg_sub, Side.other]; simp, ?_⟩
      dsimp only
      rw [if_pos (show b.view.lead < 0 by omega)]

/-- The margin falls by no more than the weight that the target side has gained, as long as
the own view has not turned. -/
theorem margin_le_of_weight {gained : Nat} (hview : b.view.UpToDate)
    (hview' : b'.view.UpToDate) (hside : b'.view.side = b.view.side)
    (hgained : b'.view.weight b.target = b.view.weight b.target + gained)
    (hother : b'.view.weight b.target.other = b.view.weight b.target.other) :
    b.margin ≤ b'.margin + gained := by
  obtain ⟨distance, _, hdistance, hmargin⟩ := exists_distance hview
  obtain ⟨distance', hpos, hdistance', hmargin'⟩ := exists_distance hview'
  have htarget : b'.target = b.target := congrArg Side.other hside
  rw [target, Side.other_other] at hother
  rw [hside, htarget, hgained, hother] at hdistance'
  have hless : distance = distance' + gained := by omega
  rw [hmargin, hmargin']
  split_ifs <;> omega

/-- If the margin falls by no more than `n`, so does what is demanded of the same side. -/
theorem demand_le_add {m' : Int} {n : Nat} (htarget : b'.target = b.target)
    (hdistance : b'.distanceToTurn b.target = b.distanceToTurn b.target) (hmargin : m ≤ m' + n) :
    b.demand m ≤ b'.demand m' + n := by
  rw [demand, demand, htarget, hdistance]
  have hceil : b.distanceToTurn b.target + (m' : Rat) ≤
      ((b.distanceToTurn b.target + (m' : Rat)).ceil : Int) := Rat.le_ceil
  have hnat : (b.distanceToTurn b.target + (m' : Rat)).ceil ≤
      (b.distanceToTurn b.target + (m' : Rat)).ceil.toNat := Int.self_le_toNat _
  have hcast : (m : Rat) ≤ m' + n := by exact_mod_cast hmargin
  refine Int.toNat_le.2 (Int.le_trans (Rat.ceil_le_iff.2 ?_) (Int.add_le_add_right hnat n))
  push_cast
  linarith

/-! ## a reaction that lends -/

/-- What a decision leaves of the target side. -/
theorem pendingOn_carryOut (m : Int) (b : Balancer) :
    (b.carryOut (b.decision m)).pendingOn b.target = (b.pendingOn b.target).drop (b.demand m) := by
  rw [pendingOn, pending_carryOut, List.map_drop]
  rfl

/-- A decision that lacks blocks of the target side, or just none, sends all that is left of it. -/
theorem release_all (hall : (b.pendingOn b.target).length ≤ b.demand m) :
    (b.decision m).sent = (b.pendingOn b.target).map (fun x => (b.target, x)) ∧
      (b.carryOut (b.decision m)).pendingOn b.target = [] := by
  rw [sent_decision, pendingOn_carryOut, List.take_of_length_le hall, List.drop_of_length_le hall]
  exact ⟨rfl, rfl⟩

theorem shortfall_eq (m : Int) (b : Balancer) :
    (b.decision m).shortfall.blocks = b.demand m - (b.pendingOn b.target).length := by
  rw [blocks_decision, pendingOn, List.length_map]
  omega

/-- The adversary once it has lent itself the blocks that its decision lacked. -/
structure Lent (m : Int) (b b₂ : Balancer) : Prop where
  pending : b₂.pendingOn b.target = loan b.borrowed (b.decision m).shortfall.blocks
  pending_other : b₂.pendingOn b.target.other = b.pendingOn b.target.other
  view : b₂.view = (b.carryOut (b.decision m)).view
  mirrors : b₂.mirrors = b.mirrors
  partition : b₂.partition = b.partition
  borrowed : b₂.borrowed = b.borrowed + (b.decision m).shortfall.blocks

variable {b₂ : Balancer}

theorem Lent.distanceToTurn (h : Lent m b b₂) (s : Side) :
    b₂.distanceToTurn s = b.distanceToTurn s := by
  cases s <;> simp only [Balancer.distanceToTurn, averageLead, mirroredLead, h.mirrors, h.partition]

/-- Blocks whose numbers fit can be lent. -/
theorem exists_lend (env : Environment) (net : Network) (margin : Balancer → Int) (s : Side)
    (time : Int) (b : Balancer) {blocks : List BlockId}
    (hvalid : ∀ x ∈ blocks, Time.Valid x.number) :
    ∃ b₂, (run env net margin).lend s blocks time b = .ok b₂ := by
  induction blocks generalizing b with
  | nil => exact ⟨b, rfl⟩
  | cons x blocks ih =>
      obtain ⟨b₂, hlend⟩ := ih (b.withhold s x time) fun y hy =>
        hvalid y (List.mem_cons_of_mem _ hy)
      have hnumber : Time.ofInt x.number = .ok x.number :=
        Time.ofInt_eq_ok_iff.2 ⟨hvalid x List.mem_cons_self, rfl⟩
      refine ⟨b₂, ?_⟩
      unfold Run.lend
      rw [List.foldlM_cons, hnumber]
      exact hlend

/-- Numbers that fit 64 signed bits are lent. -/
theorem valid_loan {first count : Nat} (hfits : first + count < 2 ^ 63) :
    ∀ x ∈ loan first count, Time.Valid x.number := by
  intro x hx
  obtain ⟨k, hk, rfl⟩ := List.mem_map.1 hx
  obtain ⟨_, hlt⟩ := List.mem_range'_1.1 hk
  simp only [Time.Valid, Time.earliest, Time.latest]
  omega

/-- A decision that lacks blocks of the target side leads to a loan of as many. -/
theorem lent_of_lend (hshort : 0 < (b.decision m).shortfall.blocks)
    (hlend : (run env net margin).lend b.target
      (loan b.borrowed (b.decision m).shortfall.blocks) time (b.carryOut (b.decision m)) = .ok b₂) :
    Lent m b b₂ := by
  obtain ⟨hexchange, hborrowed, hview⟩ := exchange_of_lend hlend
  have hall : (b.pendingOn b.target).length ≤ b.demand m := by
    rw [shortfall_eq] at hshort
    omega
  have hrelease := Exchange.release m b
  constructor
  case pending =>
    have h := hexchange.backlog b.target
    rw [onSide_map, if_pos rfl, (release_all hall).2] at h
    exact h.symm
  case pending_other =>
    have h := hexchange.backlog b.target.other
    rw [onSide_map, if_neg (Side.other_ne _).symm, List.append_nil, onSide_nil,
      List.nil_append] at h
    rw [← h, pendingOn, backlog_other_carryOut]
    rfl
  case view => exact hview
  case mirrors => exact hexchange.mirrors.trans hrelease.mirrors
  case partition => exact hexchange.partition.trans hrelease.partition
  case borrowed => rw [hborrowed, borrowed_carryOut]

/-- A reaction that lacks no blocks decides once. -/
theorem blocksToSend_of_full (env : Environment) (net : Network) (margin : Balancer → Int)
    (time : Int) (hfull : (b.decision (margin b)).shortfall.blocks = 0) :
    (run env net margin).blocksToSend time b =
      .ok (([], (b.decision (margin b)).sent), b.carryOut (b.decision (margin b))) := by
  have hcond : ¬ (env.allowBorrowing && decide (0 < (b.decision (margin b)).shortfall.blocks)) =
      true := by
    rw [hfull]
    simp
  unfold Run.blocksToSend
  dsimp only
  rw [release_adversary]
  refine Fault.bind_eq_ok_iff.2 ⟨_, rfl, ?_⟩
  dsimp only
  rw [if_neg hcond]
  rfl

/-- **A reaction that lacks blocks lends itself as many and decides once more.** -/
theorem blocksToSend_of_short (net : Network) (margin : Balancer → Int) (time : Int)
    (hallow : env.allowBorrowing = true)
    (hshort : 0 < (b.decision (margin b)).shortfall.blocks)
    (hfits : b.borrowed + (b.decision (margin b)).shortfall.blocks < 2 ^ 63) :
    ∃ b₂, Lent (margin b) b b₂ ∧ (run env net margin).blocksToSend time b =
      .ok (((loan b.borrowed (b.decision (margin b)).shortfall.blocks).map fun x => (b.target, x),
        (b.decision (margin b)).sent ++ (b₂.decision (margin b₂)).sent),
        b₂.carryOut (b₂.decision (margin b₂))) := by
  have hside := side_shortfall_decision hshort
  have hcond : (env.allowBorrowing && decide (0 < (b.decision (margin b)).shortfall.blocks)) =
      true := by
    rw [hallow, decide_eq_true hshort]
    rfl
  obtain ⟨b₂, hlend⟩ := exists_lend env net margin b.target time
    (b.carryOut (b.decision (margin b))) (valid_loan hfits)
  refine ⟨b₂, lent_of_lend hshort hlend, ?_⟩
  have hlent : Run.synthetic (b.decision (margin b)).shortfall.blocks
      ((adversary margin).borrowed (b.carryOut (b.decision (margin b)))) =
        loan b.borrowed (b.decision (margin b)).shortfall.blocks := by
    rw [← synthetic_eq_loan hfits, ← borrowed_carryOut]
    rfl
  unfold Run.blocksToSend
  dsimp only
  rw [release_adversary]
  refine Fault.bind_eq_ok_iff.2 ⟨_, rfl, ?_⟩
  dsimp only
  rw [if_pos hcond, hside, hlent]
  refine Fault.bind_eq_ok_iff.2 ⟨b₂, hlend, ?_⟩
  rw [release_adversary]
  rfl

/-! ## when the request is met -/

/-- The blocks `sent` meet the quota that the adversary had in the state `b`, all blocks `lent`
for it are among them, and in the state `b'` none of these is kept back. -/
structure Meets (b : Balancer) (lent : List BlockId) (sent : List (Side × BlockId))
    (b' : Balancer) : Prop where
  length : sent.length = wholeQuota (b.quota b.margin b.target)
  side : ∀ x ∈ sent, x.1 = b.target
  all_lent : ∀ x ∈ lent, (b.target, x) ∈ sent
  none_left : ∀ x ∈ lent, x ∉ b'.pendingOn b.target

/-- What comes of a reaction that lends itself blocks: it sends the blocks `sent` and leads
from `b` to `b'`. -/
structure Loaned (b : Balancer) (lent : List BlockId) (sent : List (Side × BlockId))
    (b' : Balancer) : Prop where
  /-- If the first decision leaves the own view as it is, all that there is of the target side
  is sent, and all that was lent. -/
  steady : (b.sendOut b.margin #[]).2.view.side = b.view.side →
    sent = (b.pendingOn b.target ++ lent).map (fun x => (b.target, x)) ∧
      b'.pendingOn b.target = []
  /-- If it turns the own view, nothing that was lent is sent. -/
  turned : (b.sendOut b.margin #[]).2.view.side ≠ b.view.side →
    onSide b.target sent = b.pendingOn b.target ∧ b'.pendingOn b.target = lent
  /-- The request is met if, and only if, the own view has not turned. -/
  meets_iff : Meets b lent sent b' ↔ (b.sendOut b.margin #[]).2.view.side = b.view.side

variable {lent : List BlockId} {sent : List (Side × BlockId)}

/-- All that there is of the target side and all that was lent meets the request, if it is as
much as was asked for. -/
theorem Loaned.of_steady (hside : (b.sendOut b.margin #[]).2.view.side = b.view.side)
    (hsent : sent = (b.pendingOn b.target ++ lent).map fun x => (b.target, x))
    (hnone : b'.pendingOn b.target = [])
    (hlength : (b.pendingOn b.target).length + lent.length =
      wholeQuota (b.quota b.margin b.target)) : Loaned b lent sent b' where
  steady := fun _ => ⟨hsent, hnone⟩
  turned := fun hne => absurd hside hne
  meets_iff := by
    refine iff_of_true ?_ hside
    rw [hsent]
    constructor
    case length => rw [List.length_map, List.length_append, hlength]
    case side =>
      intro x hx
      obtain ⟨_, _, rfl⟩ := List.mem_map.1 hx
      rfl
    case all_lent => exact fun x hx => List.mem_map_of_mem (List.mem_append_right _ hx)
    case none_left =>
      rw [hnone]
      exact fun _ _ => List.not_mem_nil

/-- What was lent and is kept back does not meet the request. -/
theorem Loaned.of_turned (hside : (b.sendOut b.margin #[]).2.view.side ≠ b.view.side)
    (hsent : onSide b.target sent = b.pendingOn b.target) (hleft : b'.pendingOn b.target = lent)
    (hlent : lent ≠ []) : Loaned b lent sent b' where
  steady := fun heq => absurd heq hside
  turned := fun _ => ⟨hsent, hleft⟩
  meets_iff := by
    refine iff_of_false (fun hmeets => ?_) hside
    obtain ⟨x, hx⟩ := List.exists_mem_of_ne_nil lent hlent
    exact hmeets.none_left x hx (hleft ▸ hx)

/-- All that is sent first adds at most as many blocks to the target side of the own view. -/
theorem exists_weight_carryOut (m : Int) (b : Balancer) :
    ∃ gained ≤ (b.pendingOn b.target).length,
      (b.carryOut (b.decision m)).view.weight b.target = b.view.weight b.target + gained ∧
      (b.carryOut (b.decision m)).view.weight b.target.other =
        b.view.weight b.target.other := by
  have hbounds := View.weight_foldl_record_bounds (b.decision m).sent b.view
  have htarget := hbounds b.target
  have hother := hbounds b.target.other
  rw [← view_carryOut, sent_decision, onSide_map, if_pos rfl, List.length_take] at htarget
  rw [← view_carryOut, sent_decision, onSide_map, if_neg (Side.other_ne _).symm,
    List.length_nil] at hother
  refine ⟨(b.carryOut (b.decision m)).view.weight b.target - b.view.weight b.target, ?_, ?_, ?_⟩ <;>
    omega

/-- As long as the own view has not turned, the second decision sends all that was lent. -/
theorem release_lent (hview : b.view.UpToDate) (hlent : Lent b.margin b b₂)
    (hside : b₂.view.side = b.view.side) (hshort : 0 < (b.decision b.margin).shortfall.blocks) :
    (b₂.decision b₂.margin).sent = (b₂.pendingOn b.target).map (fun x => (b.target, x)) ∧
      (b₂.carryOut (b₂.decision b₂.margin)).pendingOn b.target = [] := by
  have htarget : b₂.target = b.target := congrArg Side.other hside
  have hview₂ : b₂.view.UpToDate := by
    rw [hlent.view, view_carryOut]
    exact hview.foldl_record _
  obtain ⟨gained, hgained, hweight, hother⟩ := exists_weight_carryOut b.margin b
  rw [← hlent.view] at hweight hother
  have hdemand := demand_le_add htarget (hlent.distanceToTurn _)
    (margin_le_of_weight hview hview₂ hside hweight hother)
  rw [shortfall_eq] at hshort
  have hall : (b₂.pendingOn b₂.target).length ≤ b₂.demand b₂.margin := by
    rw [htarget, hlent.pending, length_loan, shortfall_eq]
    omega
  have hrelease := release_all hall
  rwa [htarget] at hrelease

/-- Once the own view has turned, the second decision sends nothing that was lent. -/
theorem release_turned (m : Int) (hside : b₂.view.side ≠ b.view.side) :
    onSide b.target (b₂.decision m).sent = [] ∧
      (b₂.carryOut (b₂.decision m)).pendingOn b.target = b₂.pendingOn b.target := by
  have htarget : b.target = b₂.target.other := by
    rw [target, target, Side.other_other]
    exact (Side.eq_other_of_ne hside).symm
  rw [htarget]
  constructor
  · rw [sent_decision, onSide_map, if_neg (Side.other_ne _).symm]
  · rw [pendingOn, backlog_other_carryOut]
    rfl

/-- **A reaction that lends itself blocks meets the request they were lent for**, unless the
blocks it has sent before have turned its own view. -/
theorem loaned_of_blocksToSend (hview : b.view.UpToDate)
    (hallow : env.allowBorrowing = true) {short : Nat}
    (hreport : (b.sendOut b.margin #[]).1.shortfall.blocks = short) (hshort : 0 < short)
    (hfits : b.borrowed + short < 2 ^ 63) :
    ∃ sent b', (run env net Balancer.margin).blocksToSend time b =
        .ok (((loan b.borrowed short).map fun x => (b.target, x), sent), b') ∧
      Loaned b (loan b.borrowed short) sent b' := by
  have hlacking : (b.decision b.margin).shortfall.blocks = short := by
    rw [sendOut_eq] at hreport
    exact hreport
  subst hlacking
  obtain ⟨b₂, hlent, hblocks⟩ :=
    blocksToSend_of_short net Balancer.margin time hallow hshort hfits
  have hviews : (b.sendOut b.margin #[]).2.view = b₂.view := by
    rw [sendOut_eq, hlent.view]
  have hcount := shortfall_eq b.margin b
  obtain ⟨hfirst, _⟩ := release_all (m := b.margin) (b := b) (by omega)
  refine ⟨_, _, hblocks, ?_⟩
  by_cases hside : b₂.view.side = b.view.side
  · obtain ⟨hsecond, hnone⟩ := release_lent hview hlent hside hshort
    refine .of_steady (hviews ▸ hside) ?_ hnone ?_
    · rw [hfirst, hsecond, hlent.pending, List.map_append]
    · rw [length_loan, wholeQuota_target]
      omega
  · obtain ⟨hsecond, hleft⟩ := release_turned b₂.margin hside
    refine .of_turned (hviews ▸ hside) ?_ (hleft.trans hlent.pending) ?_
    · rw [onSide_append, hfirst, onSide_map, if_pos rfl, hsecond, List.append_nil]
    · rw [Ne, ← List.length_eq_zero_iff, length_loan]
      exact Nat.ne_of_gt hshort

/-! ## two small loans -/

/-- Where four blocks are asked for and one is kept back, three are lent and all four sent. -/
theorem loaned_scarce :
    ∃ b b', Calls Balancer.margin {} [] b ∧
      (run pairEnvironment pair Balancer.margin).blocksToSend 0 b =
        .ok (((loan 0 3).map fun x => (.left, x),
          [(.left, ⟨4⟩), (.left, ⟨-1⟩), (.left, ⟨-2⟩), (.left, ⟨-3⟩)]), b') ∧
      Meets b (loan 0 3) [(.left, ⟨4⟩), (.left, ⟨-1⟩), (.left, ⟨-2⟩), (.left, ⟨-3⟩)] b' := by
  have hreport : ((scarce {}).sendOut (scarce {}).margin #[]).1.shortfall.blocks = 3 := by
    decide +kernel
  have hpending : (scarce {}).pendingOn .left = [⟨4⟩] := by decide +kernel
  have htarget : (scarce {}).target = .left := by decide +kernel
  have hnone : (scarce {}).borrowed = 0 := by decide +kernel
  have hsteady : ((scarce {}).sendOut (scarce {}).margin #[]).2.view.side =
      (scarce {}).view.side := by decide +kernel
  obtain ⟨sent, b', hblocks, hloaned⟩ := @loaned_of_blocksToSend (scarce {}) pairEnvironment pair 0
    (calls_scarce.upToDate (View.upToDate_fresh _)) rfl 3 hreport (by decide)
    (by rw [hnone]; decide)
  rw [hnone] at hblocks hloaned
  rw [htarget] at hblocks
  have hmeets := hloaned.meets_iff.2 hsteady
  obtain ⟨hsent, _⟩ := hloaned.steady hsteady
  rw [htarget, hpending] at hsent
  subst hsent
  exact ⟨_, b', calls_scarce, hblocks, hmeets⟩

/-- Two nodes, the one on the right side three left blocks ahead of the genesis block, with
the own view level and one block on the right side that is kept back. -/
def overtaken (fresh : Balancer) : Balancer :=
  let b := (setUp 2 { left := [0], right := [1], crossing := #[0, 0] } fresh).start
  let b := ((b.observe .left ⟨1⟩ 1).observe .left ⟨2⟩ 1).observe .left ⟨3⟩ 1
  let b := (b.observe .right ⟨4⟩ 0).observe .right ⟨5⟩ 0
  b.withhold .right ⟨6⟩ 7

theorem calls_overtaken : Calls Balancer.margin {} [] (overtaken {}) :=
  (((((Calls.refl.setUp 2 _).start.observe .left ⟨1⟩ 1 (by decide +kernel)).observe .left ⟨2⟩ 1
    (by decide +kernel)).observe .left ⟨3⟩ 1 (by decide +kernel)).observe .right ⟨4⟩ 0
    (by decide +kernel)).observe .right ⟨5⟩ 0 (by decide +kernel) |>.withhold .right ⟨6⟩ 7

/-- Two blocks of the right side are asked for.  The one that is kept back turns the own view,
and the one that is lent for the other is kept back in its stead. -/
theorem unmet_overtaken :
    ∃ b b', Calls Balancer.margin {} [] b ∧
      wholeQuota (b.quota b.margin b.target) = 2 ∧
      (b.sendOut b.margin #[]).1.shortfall = ⟨.right, 1⟩ ∧
      (run pairEnvironment pair Balancer.margin).blocksToSend 0 b =
        .ok (([(.right, ⟨-1⟩)], [(.right, ⟨6⟩)]), b') ∧
      b'.pendingOn .right = [⟨-1⟩] ∧ ¬ Meets b [⟨-1⟩] [(.right, ⟨6⟩)] b' := by
  have hquota : wholeQuota ((overtaken {}).quota (overtaken {}).margin (overtaken {}).target) =
      2 := by decide +kernel
  have hreport : ((overtaken {}).sendOut (overtaken {}).margin #[]).1.shortfall =
      ⟨.right, 1⟩ := by decide +kernel
  have hsent : ((overtaken {}).decision (overtaken {}).margin).sent = [(.right, ⟨6⟩)] := by
    decide +kernel
  have hshort : ((overtaken {}).decision (overtaken {}).margin).shortfall.blocks = 1 := by
    decide +kernel
  have htarget : (overtaken {}).target = .right := by decide +kernel
  have hbefore : (overtaken {}).view.side = .left := by decide +kernel
  have hafter : ((overtaken {}).carryOut
      ((overtaken {}).decision (overtaken {}).margin)).view.side = .right := by decide +kernel
  have hbelow : (overtaken {}).pendingOn (overtaken {}).target.other = [] := by decide +kernel
  obtain ⟨b₂, hlent, hblocks⟩ := @blocksToSend_of_short (overtaken {}) pairEnvironment pair
    Balancer.margin 0 rfl (by rw [hshort]; decide) (by rw [hshort]; decide +kernel)
  have hside : b₂.view.side ≠ (overtaken {}).view.side := by
    rw [hlent.view, hafter, hbefore]
    decide
  have hsecond : (b₂.decision b₂.margin).sent = [] := by
    have hother : b₂.target = (overtaken {}).target.other := by
      rw [target, hlent.view, hafter, htarget]
    rw [sent_decision, hother, hlent.pending_other, hbelow, List.take_nil, List.map_nil]
  have hpending := (release_turned b₂.margin hside).2
  rw [hlent.pending, hshort, htarget] at hpending
  rw [hshort, hsent, hsecond, htarget] at hblocks
  refine ⟨overtaken {}, _, calls_overtaken, hquota, hreport, hblocks, hpending, fun hmeets => ?_⟩
  have hlength := hmeets.length
  rw [hquota] at hlength
  contradiction

end Balancer

end BalanceAttack
