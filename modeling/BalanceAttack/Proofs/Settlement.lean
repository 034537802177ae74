import BalanceAttack.Proofs.Potential

/-!
# BalanceAttack.Proofs.Settlement

What a release of the balancing adversary comes to, whatever it is in.  Blocks of
one side only leave its backlog, the oldest first, and what was asked for beyond
them is noted as lacking on that side:

* `served_of_sendOut` — one release, with all that it changes and all that it keeps;
* `Calls` — the states that calls of the adversary lead to, with the shortfalls
  reported on the way;
* `Calls.borrowedOn_eq` — the notes of what was lacking are the sums of the shortfalls;
* `Calls.upToDate` — the own view keeps the side that its weights favor.
-/

namespace BalanceAttack

namespace Balancer

/-! ## one release -/

/-- The blocks that a release for a margin takes: the oldest of the target side, at
most as many as its quota asks for. -/
def due (m : Int) (b : Balancer) : List Withheld :=
  (b.backlog b.target).pending.take (wholeQuota (b.quota m b.target))

/-- What a release for a margin does, after other blocks that are to be sent: it reports
`r` and leads from `b` to `b'`. -/
structure Served (m : Int) (out : Array (Side × BlockId)) (b : Balancer) (r : Release)
    (b' : Balancer) : Prop where
  /-- The blocks that are due are sent, in order, and no others. -/
  sent : r.sent = out.toList ++ (b.due m).map fun w => (b.target, w.block)
  /-- The others of the target side stay in its backlog. -/
  pending : (b'.backlog b.target).pending =
    (b.backlog b.target).pending.drop (wholeQuota (b.quota m b.target))
  /-- The blocks of the other side are left alone. -/
  pending_other : b'.backlog b.target.other = b.backlog b.target.other
  /-- The own view takes up what is sent ... -/
  has : ∀ x, b'.view.has x = true ↔ b.view.has x = true ∨ x ∈ (b.due m).map Withheld.block
  /-- ... and all of it weighs, on the target side. -/
  weight : ∀ s, b'.view.weight s = b.view.weight s + if s = b.target then (b.due m).length else 0
  mirrors : b'.mirrors = b.mirrors
  partition : b'.partition = b.partition
  /-- What the quota asks for beyond the backlog is lacking ... -/
  blocks : r.shortfall.blocks = wholeQuota (b.quota m b.target) -
    min (wholeQuota (b.quota m b.target)) (b.backlog b.target).pending.length
  /-- ... on the target side ... -/
  side : 0 < r.shortfall.blocks → r.shortfall.side = b.target
  /-- ... and noted there. -/
  borrowedOn : ∀ s, b'.borrowedOn s =
    b.borrowedOn s + if s = b.target then r.shortfall.blocks else 0

variable {m : Int} {b : Balancer}

theorem borrowedOn_borrow (t : Side) (count : Nat) (b : Balancer) (s : Side) :
    (b.borrow t count).borrowedOn s = b.borrowedOn s + if s = t then count else 0 := by
  cases s <;> cases t <;> rfl

/-- A decision carried out notes what it lacks, on the side it lacks it of. -/
theorem borrowedOn_carryOut (r : Release) (b : Balancer) (s : Side) :
    (b.carryOut r).borrowedOn s =
      b.borrowedOn s + if s = r.shortfall.side then r.shortfall.blocks else 0 := by
  have hdrop : (b.dropFrom b.target r.sent.length).borrowedOn s = b.borrowedOn s := by
    cases b.target <;> cases s <;> rfl
  rw [← hdrop]
  exact borrowedOn_borrow _ _ _ _

/-- Blocks that leave a backlog leave the other one alone. -/
theorem backlog_other_carryOut (r : Release) (b : Balancer) :
    (b.carryOut r).backlog b.target.other = b.backlog b.target.other := by
  unfold carryOut
  cases b.target <;> cases r.shortfall.side <;> rfl

/-- The side that a shortfall counts for is the target side, if there is one. -/
theorem side_shortfall_decision (h : 0 < (b.decision m).shortfall.blocks) :
    (b.decision m).shortfall.side = b.target := by
  have hdemand : b.demand m ≠ 0 := by
    intro hzero
    have hblocks : (b.decision m).shortfall.blocks ≤ b.demand m := Nat.sub_le _ _
    omega
  exact if_neg hdemand

theorem sent_decision_due (m : Int) (b : Balancer) :
    (b.decision m).sent = (b.due m).map fun w => (b.target, w.block) := by
  rw [decision, due, Backlog.oldest_eq, wholeQuota_target]

theorem blocks_decision (m : Int) (b : Balancer) :
    (b.decision m).shortfall.blocks = b.demand m -
      min (b.demand m) (b.backlog b.target).pending.length := by
  have hblocks : (b.decision m).shortfall.blocks = b.demand m - (b.decision m).sent.length := rfl
  rw [hblocks, sent_decision_due, List.length_map, due, List.length_take, wholeQuota_target]

theorem pending_carryOut (m : Int) (b : Balancer) :
    ((b.carryOut (b.decision m)).backlog b.target).pending =
      (b.backlog b.target).pending.drop (b.demand m) := by
  have hlength : (b.decision m).sent.length = min (b.demand m) (b.backlog b.target).size := by
    rw [sent_decision_due, List.length_map, due, List.length_take, wholeQuota_target,
      Backlog.length_pending]
  have hdrop : (b.carryOut (b.decision m)).backlog b.target =
      (b.dropFrom b.target (b.decision m).sent.length).backlog b.target := by
    unfold carryOut
    cases b.target <;> cases (b.decision m).shortfall.side <;> rfl
  rw [hdrop, hlength, dropFrom_min_size, backlog_dropFrom, Backlog.pending_drop]

/-- **A release takes the oldest blocks of the target side**, as many as its quota asks
for, and reports what is lacking of them. -/
theorem served_of_sendOut (m : Int) (out : Array (Side × BlockId))
    (hnodup : (b.pendingOn b.target).Nodup)
    (hnew : ∀ x ∈ b.pendingOn b.target, b.view.has x = false) :
    Served m out b (b.sendOut m out).1 (b.sendOut m out).2 := by
  have hids : (b.decision m).sent.map Prod.snd = (b.due m).map Withheld.block := by
    rw [sent_decision_due, List.map_map]
    rfl
  have hsub : ((b.decision m).sent.map Prod.snd).Sublist (b.pendingOn b.target) := by
    rw [hids]
    exact (List.take_sublist _ _).map _
  have hexchange := Exchange.release m b
  rw [sendOut_eq]
  constructor
  case sent => rw [← sent_decision_due]
  case pending => rw [pending_carryOut, wholeQuota_target]
  case pending_other => exact backlog_other_carryOut _ _
  case has => exact fun x => by rw [hexchange.view, hids]
  case weight =>
    intro s
    rw [view_carryOut, View.weight_foldl_record (hnodup.sublist hsub)
      fun x hx => hnew x (hsub.subset hx), sent_decision_due]
    by_cases hs : s = b.target
    · simp [onSide, List.filter_map, Function.comp_def, hs]
    · simp [onSide, List.filter_map, Function.comp_def, hs, Ne.symm hs]
  case mirrors => exact hexchange.mirrors
  case partition => exact hexchange.partition
  case blocks => rw [wholeQuota_target]; exact blocks_decision m b
  case side => exact side_shortfall_decision
  case borrowedOn =>
    intro s
    rw [borrowedOn_carryOut]
    rcases Nat.eq_zero_or_pos (b.decision m).shortfall.blocks with hzero | hpos
    · dsimp only
      rw [hzero, ite_self, ite_self]
    · rw [side_shortfall_decision hpos]

/-! ## one call after the other -/

/-- From one state of the adversary calls lead to another, and report these shortfalls.
The choice of a side to mine on is left out, as it changes nothing. -/
inductive Calls (margin : Balancer → Int) (b : Balancer) : List Shortfall → Balancer → Prop where
  | refl : Calls margin b [] b
  | setUp {l b'} (h : Calls margin b l b') (nodes : Nat) (partition : Partition) :
      Calls margin b l (b'.setUp nodes partition)
  | start {l b'} (h : Calls margin b l b') : Calls margin b l b'.start
  | withhold {l b'} (h : Calls margin b l b') (side : Side) (block : BlockId) (time : Int) :
      Calls margin b l (b'.withhold side block time)
  | observe {l b'} (h : Calls margin b l b') (side : Side) (block : BlockId) (peer : Nat)
      (hpeer : b'.mirrorsNode peer = true) : Calls margin b l (b'.observe side block peer)
  | release {l b'} (h : Calls margin b l b') (out : Array (Side × BlockId)) :
      Calls margin b (l ++ [(b'.sendOut (margin b') out).1.shortfall])
        (b'.sendOut (margin b') out).2

variable {margin : Balancer → Int} {b' b₁ : Balancer} {l l' : List Shortfall}

theorem Calls.trans (h : Calls margin b l b₁) (h' : Calls margin b₁ l' b') :
    Calls margin b (l ++ l') b' := by
  induction h' with
  | refl => rwa [List.append_nil]
  | setUp _ nodes partition ih => exact ih.setUp nodes partition
  | start _ ih => exact ih.start
  | withhold _ side block time ih => exact ih.withhold side block time
  | observe _ side block peer hpeer ih => exact ih.observe side block peer hpeer
  | release _ out ih =>
      rw [← List.append_assoc]
      exact ih.release out

/-- The start of the attack keeps the side of the own view up to date. -/
theorem upToDate_start (h : b.view.UpToDate) : b.start.view.UpToDate := by
  have hfold : ∀ (peers : List Nat) (b : Balancer), b.view.UpToDate →
      (peers.foldl (fun b peer => b.observe .right .genesis peer) b).view.UpToDate := by
    intro peers
    induction peers with
    | nil => exact fun _ h => h
    | cons peer peers ih => exact fun b h => ih _ (h.record _ _)
  exact hfold b.partition.right b h

/-- No call leaves the own view on a side that its weights do not favor. -/
theorem Calls.upToDate (h : Calls margin b l b') (hb : b.view.UpToDate) : b'.view.UpToDate := by
  induction h with
  | refl | setUp _ _ _ ih => assumption
  | start _ ih => exact upToDate_start ih
  | withhold _ side _ _ ih => cases side <;> exact ih
  | observe _ side block _ _ ih => exact ih.record block side
  | release _ out ih =>
      rw [sendOut_eq, view_carryOut]
      exact ih.foldl_record _

/-- The start of the attack leaves the notes of what was lacking as they are. -/
theorem borrowedOn_start (b : Balancer) (s : Side) : b.start.borrowedOn s = b.borrowedOn s := by
  obtain ⟨mirrors, view, hstart⟩ := exists_start_eq b
  rw [hstart]
  cases s <;> rfl

theorem borrowedOn_sendOut (m : Int) (out : Array (Side × BlockId)) (b : Balancer) (s : Side) :
    (b.sendOut m out).2.borrowedOn s = b.borrowedOn s +
      if s = (b.sendOut m out).1.shortfall.side then (b.sendOut m out).1.shortfall.blocks
      else 0 := by
  rw [sendOut_eq]
  exact borrowedOn_carryOut _ _ _

/-- What is noted on a side is what the shortfalls of that side come to. -/
theorem Calls.borrowedOn_eq (h : Calls margin b l b') (s : Side) :
    b'.borrowedOn s =
      b.borrowedOn s + ((l.filter (·.side = s)).map Shortfall.blocks).sum := by
  induction h with
  | refl => rfl
  | setUp _ _ _ ih => rw [← ih]; cases s <;> rfl
  | start _ ih => rw [← ih, borrowedOn_start]
  | withhold _ side _ _ ih => rw [← ih]; cases s <;> cases side <;> rfl
  | observe _ _ _ _ _ ih => rw [← ih]; cases s <;> rfl
  | @release l b' _ out ih =>
      rw [borrowedOn_sendOut, ih, List.filter_append, List.map_append, List.sum_append,
        Nat.add_assoc]
      congr 1
      by_cases hs : s = (b'.sendOut (margin b') out).1.shortfall.side
      · simp [hs]
      · simp [hs, Ne.symm hs]

/-- The two sides together make up all shortfalls. -/
theorem sum_blocks (l : List Shortfall) :
    ((l.filter (·.side = .left)).map Shortfall.blocks).sum +
      ((l.filter (·.side = .right)).map Shortfall.blocks).sum = (l.map Shortfall.blocks).sum := by
  induction l with
  | nil => rfl
  | cons x l ih =>
      rw [List.map_cons, List.sum_cons, ← ih]
      cases hside : x.side <;> simp [hside] <;> omega

theorem Calls.borrowed_eq (h : Calls margin b l b') :
    b'.borrowed = b.borrowed + (l.map Shortfall.blocks).sum := by
  have hleft : b'.leftBorrowed = _ := h.borrowedOn_eq .left
  have hright : b'.rightBorrowed = _ := h.borrowedOn_eq .right
  rw [borrowed, borrowed, hleft, hright, ← sum_blocks l]
  simp only [borrowedOn]
  omega

/-- **Each release settles its quota from the backlog of the target side**, where the blocks
kept back there are new to the own view; and over any calls after it, whatever they find, the
notes of what was lacking only grow and sum up all shortfalls. -/
theorem settled_of_calls {b₀ : Balancer} (hcalls : Calls margin b₀ l b)
    (out : Array (Side × BlockId)) :
    ((b.pendingOn b.target).Nodup → (∀ x ∈ b.pendingOn b.target, b.view.has x = false) →
      Served (margin b) out b (b.sendOut (margin b) out).1 (b.sendOut (margin b) out).2) ∧
      ∀ {l' b'}, Calls margin b l' b' → (∀ s, b.borrowedOn s ≤ b'.borrowedOn s) ∧
        b'.borrowed = b₀.borrowed + ((l ++ l').map Shortfall.blocks).sum := by
  refine ⟨served_of_sendOut (margin b) out, fun h => ⟨fun s => ?_, ?_⟩⟩
  · rw [h.borrowedOn_eq]
    exact Nat.le_add_right _ _
  · exact (hcalls.trans h).borrowed_eq

/-- Two nodes, three blocks on the right side that the left one has received, and one
block on the left side that is kept back. -/
def scarce (fresh : Balancer) : Balancer :=
  let b := (setUp 2 { left := [0], right := [1], crossing := #[0, 0] } fresh).start
  let b := ((b.observe .right ⟨1⟩ 0).observe .right ⟨2⟩ 0).observe .right ⟨3⟩ 0
  b.withhold .left ⟨4⟩ 7

theorem calls_scarce : Calls Balancer.margin {} [] (scarce {}) :=
  (((Calls.refl.setUp 2 _).start.observe .right ⟨1⟩ 0 (by decide +kernel)).observe .right ⟨2⟩ 0
    (by decide +kernel)).observe .right ⟨3⟩ 0 (by decide +kernel) |>.withhold .left ⟨4⟩ 7

/-- Four blocks are asked for where one is kept back, and three are lacking. -/
theorem settled_scarce :
    ∃ b b', Calls Balancer.margin {} [] b ∧
      b.sendOut b.margin #[] = ({ sent := [(.left, ⟨4⟩)], shortfall := ⟨.left, 3⟩ }, b') ∧
      Served b.margin #[] b { sent := [(.left, ⟨4⟩)], shortfall := ⟨.left, 3⟩ } b' ∧
      b'.borrowed = 3 := by
  have hpending : (scarce {}).pendingOn (scarce {}).target = [⟨4⟩] := by decide +kernel
  have hview : (scarce {}).view.has ⟨4⟩ = false := by decide +kernel
  have hreport : ((scarce {}).sendOut (scarce {}).margin #[]).1 =
      { sent := [(.left, ⟨4⟩)], shortfall := ⟨.left, 3⟩ } := by decide +kernel
  have hnodup : ((scarce {}).pendingOn (scarce {}).target).Nodup := by
    rw [hpending]
    exact List.nodup_singleton _
  have hnew : ∀ x ∈ (scarce {}).pendingOn (scarce {}).target, (scarce {}).view.has x = false := by
    rw [hpending]
    exact fun x hx => List.mem_singleton.1 hx ▸ hview
  obtain ⟨hserves, hcalls⟩ := settled_of_calls calls_scarce #[]
  have hserved := hserves hnodup hnew
  have htotal := (hcalls (Calls.refl.release #[])).2
  rw [List.nil_append, List.nil_append, hreport] at htotal
  rw [hreport] at hserved
  exact ⟨_, _, calls_scarce, Prod.ext hreport rfl, hserved, htotal⟩

end Balancer

end BalanceAttack
