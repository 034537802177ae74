import BalanceAttack.Adversary.Balancer
import Mathlib.Algebra.Order.Field.Rat

/-!
# BalanceAttack.Proofs.Decision

The release decision in one piece.  The adversary sends its blocks one at a time
and counts what is lacking of either side in one place.  As one of the two sides
has no quota, it comes to the same to take the front of the other backlog at once:

* `repeat_sendOldest` — what blocks sent one after the other come to;
* `wholeQuota_target`, `wholeQuota_side` — which side has a quota;
* `sendOut_eq` — what is sent is decided first and carried out then.
-/

namespace BalanceAttack

namespace Balancer

/-- The side the adversary's own view does not favor, to which blocks are sent. -/
def target (b : Balancer) : Side := b.view.side.other

/-- The number of blocks to send, for a margin. -/
def demand (margin : Int) (b : Balancer) : Nat :=
  (b.distanceToTurn b.target + (margin : Rat)).ceil.toNat

/-- The decision for a margin: the oldest blocks of the target side, as many
as are demanded.  A decision to send nothing lacks nothing, of the right side. -/
def decision (margin : Int) (b : Balancer) : Release :=
  let count := b.demand margin
  let sent := ((b.backlog b.target).oldest count).map fun w => (b.target, w.block)
  { sent
    shortfall := { side := if count = 0 then .right else b.target, blocks := count - sent.length } }

/-- The state once a decision is carried out. -/
def carryOut (r : Release) (b : Balancer) : Balancer :=
  let b := b.dropFrom b.target r.sent.length
  let b := b.borrow r.shortfall.side r.shortfall.blocks
  { b with view := r.sent.foldl (fun v (side, block) => v.record block side) b.view }

variable (b : Balancer) (m : Int)

/-! ## one side -/

@[simp] theorem backlog_mk_view (v : View) (s : Side) :
    { b with view := v }.backlog s = b.backlog s := by
  cases s <;> rfl

@[simp] theorem backlog_dropFrom (s : Side) (count : Nat) :
    (b.dropFrom s count).backlog s = (b.backlog s).drop count := by
  cases s <;> rfl

theorem dropFrom_zero (s : Side) : b.dropFrom s 0 = b := by
  cases s <;> simp [dropFrom, Backlog.drop_zero]

theorem dropFrom_mk_view (v : View) (s : Side) (k count : Nat) :
    { b.dropFrom s k with view := v }.dropFrom s count =
      { b.dropFrom s (k + count) with view := v } := by
  cases s <;> simp [dropFrom, Backlog.drop_drop]

theorem dropFrom_min_size (s : Side) (count : Nat) :
    b.dropFrom s (min count (b.backlog s).size) = b.dropFrom s count := by
  cases s <;> simp [dropFrom, backlog, Backlog.drop_min_size]

/-- Blocks of a side that are sent one after the other come from the front of its
backlog, as long as there are any; beyond that they are lacking. -/
theorem repeat_sendOldest (s : Side) (count : Nat) (sent : Array (Side × BlockId)) :
    Nat.repeat (Releasing.sendOldest s) count { balancer := b, sent } =
      { balancer := { b.dropFrom s count with
          view := ((b.backlog s).oldest count).foldl (fun v w => v.record w.block s) b.view }
        sent := sent ++ ((b.backlog s).oldest count).map fun w => (s, w.block)
        lacking := count - (b.backlog s).size } := by
  induction count with
  | zero =>
      have hnone : (b.backlog s).oldest 0 = [] := by rw [Backlog.oldest_eq, List.take_zero]
      rw [hnone, dropFrom_zero]
      simp [Nat.repeat]
  | succ count ih =>
      rw [Nat.repeat, ih, Releasing.sendOldest, backlog_mk_view, backlog_dropFrom,
        Backlog.oldest_succ]
      cases hfirst : ((b.backlog s).drop count).first? with
      | none =>
          have hsize := ((b.backlog s).first?_drop_eq_none_iff count).1 hfirst
          have hdrop : b.dropFrom s (count + 1) = b.dropFrom s count := by
            rw [← dropFrom_min_size, ← dropFrom_min_size b s count, Nat.min_eq_right hsize,
              Nat.min_eq_right (Nat.le_succ_of_le hsize)]
          rw [hdrop, Option.toList_none, List.append_nil, Nat.succ_sub hsize]
      | some w =>
          have hsize : ¬ (b.backlog s).size ≤ count := fun hle => by
            rw [((b.backlog s).first?_drop_eq_none_iff count).2 hle] at hfirst
            contradiction
          have hlacking : count + 1 - (b.backlog s).size = count - (b.backlog s).size := by omega
          rw [hlacking]
          simp [dropFrom_mk_view, ← Array.toList_inj]

/-! ## both sides -/

/-- A quota that is not positive asks for nothing. -/
theorem wholeQuota_eq (quota : Rat) : wholeQuota quota = quota.ceil.toNat := by
  unfold wholeQuota
  split
  · rfl
  · next hq =>
      have hceil : quota.ceil ≤ 0 := Rat.ceil_le_iff.2 (by simpa using hq)
      exact (Int.toNat_eq_zero.2 hceil).symm

/-- The side that the own view favors has no quota. -/
theorem wholeQuota_side : wholeQuota (b.quota m b.view.side) = 0 := by
  rw [quota, if_pos rfl]
  rfl

/-- The quota of the other side is what is demanded. -/
theorem wholeQuota_target : wholeQuota (b.quota m b.target) = b.demand m := by
  have hother : ¬ b.view.side = b.target := (Side.other_ne b.view.side).symm
  rw [quota, if_neg hother, wholeQuota_eq, demand]

/-- Something is demanded if there is a quota. -/
theorem quota_target_pos_iff : 0 < b.quota m b.target ↔ b.demand m ≠ 0 := by
  rw [← wholeQuota_target, wholeQuota_eq, Ne, Int.toNat_eq_zero, Int.not_le, Rat.lt_ceil_iff]
  simp

/-- The side that a shortfall counts for. -/
theorem short_eq : (if 0 < b.quota m .left then Side.left else .right) =
    if b.demand m = 0 then .right else b.target := by
  have hquota := b.quota_target_pos_iff m
  cases hside : b.view.side with
  | left =>
      have htarget : b.target = .right := congrArg Side.other hside
      have hnone : b.quota m .left = 0 := if_pos hside
      rw [hnone, htarget]
      simp
  | right =>
      have htarget : b.target = .left := congrArg Side.other hside
      rw [htarget] at hquota ⊢
      by_cases hdemand : b.demand m = 0 <;> simp_all

/-- To meet the quotas of both sides is to send blocks of the target side alone. -/
theorem meet_meet (sent : Array (Side × BlockId)) :
    Releasing.meet (b.quota m .right) .right
        (.meet (b.quota m .left) .left { balancer := b, sent }) =
      Nat.repeat (Releasing.sendOldest b.target) (b.demand m) { balancer := b, sent } := by
  have htarget := b.wholeQuota_target m
  have hside := b.wholeQuota_side m
  unfold Releasing.meet
  cases hview : b.view.side with
  | left =>
      have hright : b.target = .right := congrArg Side.other hview
      rw [hview] at hside
      rw [hright] at htarget ⊢
      rw [htarget, hside]
      rfl
  | right =>
      have hleft : b.target = .left := congrArg Side.other hview
      rw [hview] at hside
      rw [hleft] at htarget ⊢
      rw [htarget, hside]
      rfl

theorem borrow_mk_view (v : View) (s : Side) (count : Nat) :
    { b with view := v }.borrow s count = { b.borrow s count with view := v } := by
  cases s <;> rfl

/-- **What is sent is decided at once and then carried out**, after whatever else
there is to send. -/
theorem sendOut_eq (sent : Array (Side × BlockId)) :
    b.sendOut m sent =
      ({ b.decision m with sent := sent.toList ++ (b.decision m).sent },
        b.carryOut (b.decision m)) := by
  have hlength : (b.decision m).sent.length = min (b.demand m) (b.backlog b.target).size := by
    rw [decision, List.length_map, Backlog.length_oldest]
  have hlacking : (b.decision m).shortfall.blocks = b.demand m - (b.backlog b.target).size := by
    have hblocks : (b.decision m).shortfall.blocks =
        b.demand m - (b.decision m).sent.length := rfl
    rw [hblocks, hlength]
    omega
  have hview : (b.decision m).sent.foldl (fun v x => v.record x.2 x.1) b.view =
      ((b.backlog b.target).oldest (b.demand m)).foldl
        (fun v w => v.record w.block b.target) b.view := List.foldl_map
  have hside : (b.decision m).shortfall.side = if b.demand m = 0 then .right else b.target := rfl
  rw [sendOut, meet_meet, repeat_sendOldest, short_eq, ← hside, ← hlacking]
  refine Prod.ext ?_ ?_
  · simp [decision]
  · -- neither what is dropped nor what is lacking shows in the own view
    have hold : ((b.dropFrom b.target (b.demand m)).borrow (b.decision m).shortfall.side
        (b.decision m).shortfall.blocks).view = b.view := by
      cases b.target <;> cases (b.decision m).shortfall.side <;> rfl
    rw [carryOut, hlength, dropFrom_min_size, hold, hview]
    exact borrow_mk_view _ _ _ _

end Balancer

end BalanceAttack
