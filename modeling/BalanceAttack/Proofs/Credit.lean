import BalanceAttack.Proofs.Loan
import BalanceAttack.Proofs.Onlooker

/-!
# BalanceAttack.Proofs.Credit

An adversary that lives on credit: it mines nothing and may lend itself what it
lacks.  Whenever it lends itself blocks there are no others, so that it sends all
of them at once and lacks no more of them, and the numbers of all blocks it has sent
count down from `-1` without a gap:

* `Lent.margin_eq`, `Lent.demand_eq` — with nothing sent in between, the second
  decision is the first one;
* `drained_of_blocksToSend`, `drained_of_turn` — what is lent is sent at once;
* `credit_of_reaches` — the accounts in every state of a run.
-/

namespace BalanceAttack

open BalanceAttack.Random

theorem isSynthetic_of_mem_loan {first count : Nat} {x : BlockId} (hx : x ∈ loan first count) :
    x.isSynthetic = true := by
  obtain ⟨k, _, rfl⟩ := List.mem_map.1 hx
  rw [BlockId.isSynthetic, decide_eq_true_eq]
  dsimp only
  omega

namespace Balancer

variable {σ : Type} {env : Environment} {net : Network} {b b' b₂ : Balancer} {w : World σ}
  {kept sent : List (Side × BlockId)} {time : Int}

/-! ## a reaction -/

/-- With nothing kept back a decision sends nothing, and the own view stays as it is. -/
theorem view_carryOut_of_none (hnone : ∀ side, b.pendingOn side = []) (m : Int) :
    (b.carryOut (b.decision m)).view = b.view := by
  rw [view_carryOut, sent_decision_eq_nil hnone]
  rfl

theorem Lent.margin_eq (hlent : Lent b.margin b b₂) (hnone : ∀ side, b.pendingOn side = []) :
    b₂.margin = b.margin := by
  unfold margin
  rw [hlent.view, view_carryOut_of_none hnone]

/-- What was lacking is demanded once more, and neither more nor less. -/
theorem Lent.demand_eq (hlent : Lent b.margin b b₂) (hnone : ∀ side, b.pendingOn side = []) :
    b₂.target = b.target ∧ b₂.demand b₂.margin = (b.decision b.margin).shortfall.blocks := by
  have htarget : b₂.target = b.target := by
    rw [target, target, hlent.view, view_carryOut_of_none hnone]
  refine ⟨htarget, ?_⟩
  rw [demand, htarget, hlent.margin_eq hnone, hlent.distanceToTurn, shortfall_eq, hnone]
  rfl

/-- With nothing kept back a decision leaves nothing. -/
theorem pendingOn_carryOut_of_none (hnone : ∀ side, b.pendingOn side = []) (m : Int) (side : Side) :
    (b.carryOut (b.decision m)).pendingOn side = [] := by
  have hback := (Exchange.release m b).backlog side
  rw [hnone, onSide_nil, List.append_nil] at hback
  exact (List.append_eq_nil_iff.1 hback.symm).2

/-- The notes of what was lacking keep up with a reaction. -/
theorem borrowed_add_short_le {margin : Balancer → Int}
    (h : (run env net margin).blocksToSend time b = .ok ((kept, sent), b')) :
    b.borrowed + (b.decision (margin b)).shortfall.blocks ≤ b'.borrowed := by
  obtain ⟨r, b₁, rfl, rfl, ⟨_, _, rfl⟩ | ⟨_, b₂, _, hlend, _, rfl⟩⟩ := cases_of_blocksToSend h
  · rw [borrowed_carryOut]
  · rw [borrowed_carryOut, (exchange_of_lend hlend).2.1, borrowed_carryOut]
    exact Nat.le_add_right _ _

/-- From one moment to the next the adversary sends the blocks that it has lent itself in the
meantime, and keeps back none. -/
structure Drained (b : Balancer) (sent : List (Side × BlockId)) (b' : Balancer) : Prop where
  sent : ∃ count, b'.borrowed = b.borrowed + count ∧ sent.map Prod.snd = loan b.borrowed count
  pendingOn : ∀ side, b'.pendingOn side = []

theorem Drained.refl (hnone : ∀ side, b.pendingOn side = []) : Drained b [] b :=
  ⟨⟨0, rfl, rfl⟩, hnone⟩

/-- With nothing kept back a reaction sends all that it lends itself, and only that. -/
theorem drained_of_blocksToSend (hallow : env.allowBorrowing = true)
    (hnone : ∀ side, b.pendingOn side = [])
    (h : (run env net Balancer.margin).blocksToSend time b = .ok ((kept, sent), b'))
    (hfits : b'.borrowed < 2 ^ 63) : Drained b sent b' := by
  rcases Nat.eq_zero_or_pos (b.decision b.margin).shortfall.blocks with hfull | hshort
  · have hblocks := blocksToSend_of_full env net Balancer.margin time hfull
    obtain ⟨hlists, rfl⟩ := Prod.mk.inj (Except.ok.inj (h.symm.trans hblocks))
    obtain ⟨_, rfl⟩ := Prod.mk.inj hlists
    refine ⟨⟨0, ?_, ?_⟩, pendingOn_carryOut_of_none hnone _⟩
    · rw [borrowed_carryOut, hfull]
    · rw [sent_decision_eq_nil hnone]
      rfl
  · obtain ⟨b₂, hlent, hblocks⟩ := blocksToSend_of_short net Balancer.margin time hallow hshort
      (Nat.lt_of_le_of_lt (borrowed_add_short_le h) hfits)
    obtain ⟨hlists, rfl⟩ := Prod.mk.inj (Except.ok.inj (h.symm.trans hblocks))
    obtain ⟨_, rfl⟩ := Prod.mk.inj hlists
    obtain ⟨htarget, hdemand⟩ := hlent.demand_eq hnone
    have hlength : (b₂.pendingOn b₂.target).length = b₂.demand b₂.margin := by
      rw [htarget, hlent.pending, length_loan, hdemand]
    obtain ⟨hsent, hempty⟩ := release_all (Nat.le_of_eq hlength)
    refine ⟨⟨(b.decision b.margin).shortfall.blocks, ?_, ?_⟩, fun side => ?_⟩
    · rw [borrowed_carryOut, shortfall_eq _ b₂, hlength, Nat.sub_self, Nat.add_zero, hlent.borrowed]
    · rw [sent_decision_eq_nil hnone, List.nil_append, hsent, map_snd_pair, htarget, hlent.pending]
    · -- the blocks of the other side are as they were
      by_cases hside : side = b₂.target
      · rw [hside, hempty]
      · have hother : side = b₂.target.other := Side.eq_other_of_ne hside
        rw [hother, pendingOn, backlog_other_carryOut, ← pendingOn, htarget, hlent.pending_other,
          hnone]

/-! ## a run -/

/-- The adversary sends what it lends itself in a turn, unless it mines a block. -/
theorem drained_of_turn (hallow : env.allowBorrowing = true)
    (hnone : ∀ side, b.pendingOn side = []) {event : Event} {e : Run.Entry}
    {s : Run.State Balancer σ}
    (hturn : Run.Turn (run env net Balancer.margin) b w event e s)
    (hhonest : s.world.adversaryMined = w.adversaryMined) (hfits : s.adversary.borrowed < 2 ^ 63) :
    Drained b e.sent s.adversary := by
  cases hturn with
  | evil => exact absurd hhonest (Nat.succ_ne_self _)
  | honest | known | new | checked | idle => exact .refl hnone
  | @told peer side block _ _ _ _ _ hobs hdecided =>
      obtain ⟨_, rfl⟩ := observe_eq_ok_iff.1 hobs
      have hnone' : ∀ t, (b.observe side block peer).pendingOn t = [] := hnone
      obtain ⟨hsent, hempty⟩ := drained_of_blocksToSend hallow hnone' hdecided hfits
      rw [borrowed_observe] at hsent
      exact ⟨hsent, hempty⟩

/-- The accounts of an adversary that mines nothing and lends itself what it lacks. -/
structure OnCredit (h : Run.History) (s : Run.State Balancer σ) : Prop where
  /-- Nothing is kept back. -/
  pendingOn : ∀ side, s.adversary.pendingOn side = []
  released : s.world.released = 0
  adversaryMined : s.world.adversaryMined = 0
  /-- What was sent was lent, each block once and in the order of their numbers. -/
  sent : h.sent.map Prod.snd = loan 0 s.adversary.borrowed

variable [WordSource σ] {supply : Supply σ} {h : Run.History} {s : Run.State Balancer σ}

/-- The blocks sent so far are the synthetic ones, counted down by what was lacking. -/
theorem sent_of_reaches (hrate : (env.evilRate == 0) = true) (hallow : env.allowBorrowing = true)
    (hsq : net.distances.Square net.size)
    (hr : (run env net Balancer.margin).Reaches {} supply h s)
    (hfits : s.adversary.borrowed < 2 ^ 63) :
    (∀ side, s.adversary.pendingOn side = []) ∧
      h.sent.map Prod.snd = loan 0 s.adversary.borrowed := by
  induction hr with
  | start hprep hstart =>
      refine ⟨pendingOn_of_start hprep hstart, ?_⟩
      rw [borrowed_of_start hprep hstart]
      rfl
  | step hr hstep ih =>
      obtain ⟨first, agenda, _, _, hturn⟩ := Run.exists_turn_of_step hstep
      obtain ⟨hnone, hsent⟩ := ih (Nat.lt_of_le_of_lt (borrowed_le_of_turn hturn) hfits)
      have hhonest := (adversaryMined_of_reaches hrate hsq (hr.step hstep)).trans
        (adversaryMined_of_reaches hrate hsq hr).symm
      obtain ⟨⟨count, hborrowed, hnew⟩, hempty⟩ := drained_of_turn hallow hnone hturn hhonest hfits
      refine ⟨hempty, ?_⟩
      rw [Run.History.sent_append, List.map_append, hsent, hnew, hborrowed, ← loan_append,
        Nat.zero_add]

/-- **An adversary without blocks of its own sends each block it lends itself once**, at the
moment at which it lends it, and counts them down from `-1`. -/
theorem credit_of_reaches (hrate : (env.evilRate == 0) = true)
    (hallow : env.allowBorrowing = true) (hsq : net.distances.Square net.size)
    (hr : (run env net Balancer.margin).Reaches {} supply h s)
    (hfits : s.adversary.borrowed < 2 ^ 63) : OnCredit h s where
  pendingOn := (sent_of_reaches hrate hallow hsq hr hfits).1
  released := by
    rw [(counted_of_reaches hsq hr).released, List.countP_eq_zero]
    intro x hx
    have hlent : x.2 ∈ loan 0 s.adversary.borrowed :=
      (sent_of_reaches hrate hallow hsq hr hfits).2 ▸ List.mem_map_of_mem hx
    simp [isSynthetic_of_mem_loan hlent]
  adversaryMined := adversaryMined_of_reaches hrate hsq hr
  sent := (sent_of_reaches hrate hallow hsq hr hfits).2

/-- Without a block of its own the adversary of two nodes has sent four blocks, two of either
side, when its thirty-two first events are over. -/
theorem credit_pair :
    (honestEnvironment.evilRate == 0) = true ∧ honestEnvironment.allowBorrowing = true ∧
      pair.distances.Square pair.size ∧
      ∃ h s, (run honestEnvironment pair Balancer.margin).Reaches {} pairSupply h s ∧
        h.sent = [(.right, ⟨-1⟩), (.right, ⟨-2⟩), (.left, ⟨-3⟩), (.left, ⟨-4⟩)] ∧
        s.adversary.borrowed = 4 ∧ OnCredit h s := by
  have hrate : (honestEnvironment.evilRate == 0) = true := by decide +kernel
  have hfollow : ((run honestEnvironment pair Balancer.margin).follow {} pairSupply 32).any
      (fun x => x.1.sent = [(.right, ⟨-1⟩), (.right, ⟨-2⟩), (.left, ⟨-3⟩), (.left, ⟨-4⟩)] ∧
        x.2.adversary.borrowed = 4) = true := by
    decide +kernel
  obtain ⟨h, s, hr, hlast⟩ := Run.exists_reaches_of_any hfollow
  obtain ⟨hsent, hborrowed⟩ := of_decide_eq_true hlast
  exact ⟨hrate, rfl, square_pair, h, s, hr, hsent, hborrowed,
    credit_of_reaches hrate rfl square_pair hr (by rw [hborrowed]; decide)⟩

end Balancer

end BalanceAttack
