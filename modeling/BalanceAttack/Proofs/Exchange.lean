import BalanceAttack.Proofs.Contents
import BalanceAttack.Proofs.Decision
import BalanceAttack.Proofs.Turn

/-!
# BalanceAttack.Proofs.Exchange

What goes into the keeping of the balancing adversary and what comes out of it.
An `Exchange` relates two of its states by the blocks it was given and those it
sent between them; exchanges compose, so that a whole reaction, with or without
lending, is one:

* `Exchange.withhold`, `Exchange.release` — the two acts that move blocks;
* `exchange_of_blocksToSend` — a reaction is an exchange of what it notes;
* `kept_of_blocksToSend` — only lending adds to the backlog in a reaction, and
  it takes numbers below all that have been lacking before.
-/

namespace BalanceAttack

/-- The blocks of one side among others, in order. -/
def onSide (s : Side) (l : List (Side × BlockId)) : List BlockId :=
  (l.filter (·.1 = s)).map Prod.snd

@[simp] theorem onSide_nil (s : Side) : onSide s [] = [] := rfl

@[simp] theorem onSide_append (s : Side) (l m : List (Side × BlockId)) :
    onSide s (l ++ m) = onSide s l ++ onSide s m := by
  simp [onSide]

theorem mem_onSide {s : Side} {l : List (Side × BlockId)} {b : BlockId} :
    b ∈ onSide s l ↔ (s, b) ∈ l := by
  simp [onSide]

/-- Of blocks that are all of one side, the other side has none. -/
theorem onSide_map (s t : Side) (l : List BlockId) :
    onSide s (l.map fun b => (t, b)) = if t = s then l else [] := by
  by_cases h : t = s
  · subst h
    simp [onSide, List.filter_map, Function.comp_def]
  · simp [onSide, List.filter_map, Function.comp_def, h]

theorem map_snd_pair (s : Side) (l : List BlockId) :
    (l.map fun b => (s, b)).map Prod.snd = l := by
  rw [List.map_map]
  exact List.map_id l

namespace Balancer

/-- The attack of the balancing adversary on a network. -/
abbrev run (env : Environment) (network : Network) (margin : Balancer → Int) : Run Balancer where
  env := env
  network := network
  adversary := adversary margin

/-- The blocks of a side that are kept back, the oldest first. -/
def pendingOn (b : Balancer) (s : Side) : List BlockId :=
  (b.backlog s).pending.map Withheld.block

theorem withheld_eq (b : Balancer) :
    b.withheld = (b.pendingOn .left).length + (b.pendingOn .right).length := by
  simp [withheld, pendingOn, backlog, Backlog.length_pending]

/-! ## exchanges -/

/-- The blocks the adversary was given, and those it sent, from one state to another. -/
structure Exchange (b : Balancer) (kept sent : List (Side × BlockId)) (b' : Balancer) : Prop where
  backlog : ∀ s, b.pendingOn s ++ onSide s kept = onSide s sent ++ b'.pendingOn s
  view : ∀ x, b'.view.has x = true ↔ b.view.has x = true ∨ x ∈ sent.map Prod.snd
  mirrors : b'.mirrors = b.mirrors
  partition : b'.partition = b.partition
  borrowed_le : b.borrowed ≤ b'.borrowed

variable {b b' b₁ b₂ : Balancer} {kept kept₁ kept₂ sent sent₁ sent₂ : List (Side × BlockId)}

theorem Exchange.refl (b : Balancer) : Exchange b [] [] b where
  backlog := by simp
  view := by simp
  mirrors := rfl
  partition := rfl
  borrowed_le := Nat.le_refl _

theorem Exchange.trans (h₁ : Exchange b kept₁ sent₁ b₁) (h₂ : Exchange b₁ kept₂ sent₂ b₂) :
    Exchange b (kept₁ ++ kept₂) (sent₁ ++ sent₂) b₂ where
  backlog := by
    intro s
    rw [onSide_append, onSide_append, ← List.append_assoc, h₁.backlog, List.append_assoc,
      h₂.backlog, List.append_assoc]
  view := by
    intro x
    rw [h₂.view, h₁.view, List.map_append, List.mem_append, or_assoc]
  mirrors := h₂.mirrors.trans h₁.mirrors
  partition := h₂.partition.trans h₁.partition
  borrowed_le := Nat.le_trans h₁.borrowed_le h₂.borrowed_le

/-- A block that is kept back goes to the end of its backlog. -/
theorem Exchange.withhold (b : Balancer) (s : Side) (x : BlockId) (t : Int) :
    Exchange b [(s, x)] [] (b.withhold s x t) where
  backlog := by
    intro r
    cases s <;> cases r <;>
      simp [pendingOn, Balancer.backlog, Balancer.withhold, Backlog.pending_push, onSide]
  view := by cases s <;> simp [Balancer.withhold]
  mirrors := by cases s <;> rfl
  partition := by cases s <;> rfl
  borrowed_le := by cases s <;> exact Nat.le_refl _

/-- A decision sends the oldest blocks of the target side. -/
theorem sent_decision (m : Int) (b : Balancer) :
    (b.decision m).sent =
      ((b.pendingOn b.target).take (b.demand m)).map fun x => (b.target, x) := by
  simp [decision, pendingOn, Backlog.oldest_eq, Function.comp_def]

/-- What a decision sends comes from the front of the backlog. -/
theorem pendingOn_decision (m : Int) (b : Balancer) (s : Side) :
    b.pendingOn s =
      onSide s (b.decision m).sent ++
        (b.dropFrom b.target (b.decision m).sent.length).pendingOn s := by
  rw [sent_decision, onSide_map, List.length_map]
  generalize b.demand m = count
  generalize b.target = t
  by_cases h : t = s
  · subst h
    have hsize : (b.pendingOn t).length = (b.backlog t).size := by
      rw [pendingOn, List.length_map, Backlog.length_pending]
    have hdrop : (b.dropFrom t (min count (b.pendingOn t).length)).pendingOn t =
        (b.pendingOn t).drop count := by
      rw [hsize, dropFrom_min_size, pendingOn, backlog_dropFrom, Backlog.pending_drop,
        List.map_drop]
      rfl
    rw [if_pos rfl, List.length_take, hdrop, List.take_append_drop]
  · rw [if_neg h, List.nil_append]
    cases t <;> cases s <;> first | exact absurd rfl h | rfl

theorem pendingOn_borrow (t : Side) (count : Nat) (b : Balancer) (s : Side) :
    (b.borrow t count).pendingOn s = b.pendingOn s := by
  cases s <;> cases t <;> rfl

theorem borrowed_borrow (t : Side) (count : Nat) (b : Balancer) :
    (b.borrow t count).borrowed = b.borrowed + count := by
  cases t
  · exact Nat.add_right_comm _ _ _
  · exact (Nat.add_assoc _ _ _).symm

/-- A decision carried out lacks what it says it lacks. -/
theorem borrowed_carryOut (r : Release) (b : Balancer) :
    (b.carryOut r).borrowed = b.borrowed + r.shortfall.blocks := by
  have hdrop : (b.dropFrom b.target r.sent.length).borrowed = b.borrowed := by
    cases b.target <;> rfl
  rw [← hdrop]
  exact borrowed_borrow _ _ _

/-- What does not hang on the backlogs stays the same when blocks are dropped and
noted as lacking. -/
theorem eq_of_borrow_dropFrom {β : Type} (f : Balancer → β)
    (hf : ∀ (b : Balancer) l r m n, f { b with
      leftBacklog := l, rightBacklog := r, leftBorrowed := m, rightBorrowed := n } = f b)
    (b : Balancer) (s t : Side) (m n : Nat) : f ((b.dropFrom s m).borrow t n) = f b := by
  cases s <;> cases t <;> exact hf b _ _ _ _

/-- The own view takes up what is sent, one block after the other. -/
theorem view_carryOut (r : Release) (b : Balancer) :
    (b.carryOut r).view = r.sent.foldl (fun v x => v.record x.2 x.1) b.view := by
  have hview : (b.carryOut r).view = r.sent.foldl (fun v x => v.record x.2 x.1)
      ((b.dropFrom b.target r.sent.length).borrow r.shortfall.side r.shortfall.blocks).view := rfl
  rw [hview, eq_of_borrow_dropFrom Balancer.view (fun _ _ _ _ _ => rfl)]

/-- A decision carried out gives away its blocks and takes none. -/
theorem Exchange.release (m : Int) (b : Balancer) :
    Exchange b [] (b.decision m).sent (b.carryOut (b.decision m)) where
  backlog := by
    intro s
    rw [onSide_nil, List.append_nil, pendingOn_decision m b s]
    exact congrArg _ (pendingOn_borrow _ _ _ _).symm
  view := by
    intro x
    rw [view_carryOut, View.has_foldl_record]
  mirrors := eq_of_borrow_dropFrom Balancer.mirrors (fun _ _ _ _ _ => rfl) b _ _ _ _
  partition := eq_of_borrow_dropFrom Balancer.partition (fun _ _ _ _ _ => rfl) b _ _ _ _
  borrowed_le := by
    rw [borrowed_carryOut]
    omega

/-! ## reactions -/

variable {env : Environment} {net : Network} {margin : Balancer → Int}

/-- Blocks lent are kept back one after the other. -/
theorem exchange_of_lend {s : Side} {blocks : List BlockId} {time : Int} {b b' : Balancer}
    (h : (run env net margin).lend s blocks time b = .ok b') :
    Exchange b (blocks.map fun x => (s, x)) [] b' ∧ b'.borrowed = b.borrowed ∧
      b'.view = b.view := by
  induction blocks generalizing b with
  | nil =>
      obtain rfl := Except.ok.inj h
      exact ⟨.refl b, rfl, rfl⟩
  | cons x blocks ih =>
      unfold Run.lend at h
      rw [List.foldlM_cons] at h
      obtain ⟨b₁, hkeep, h⟩ := Fault.bind_eq_ok_iff.1 h
      obtain ⟨number, hnumber, hkeep⟩ := Fault.bind_eq_ok_iff.1 hkeep
      obtain ⟨_, rfl⟩ := Time.ofInt_eq_ok_iff.1 (Fault.orCrash_eq_ok_iff.1 hnumber)
      obtain rfl := Except.ok.inj hkeep
      obtain ⟨hex, hborrowed, hview⟩ := ih h
      refine ⟨(Exchange.withhold b s x time).trans hex, hborrowed.trans ?_, hview.trans ?_⟩ <;>
        cases s <;> rfl

theorem release_adversary (time : Int) (b : Balancer) :
    (adversary margin).release time b =
      .ok (b.decision (margin b), b.carryOut (b.decision (margin b))) :=
  congrArg Except.ok (b.sendOut_eq (margin b) #[])

/-- A reaction decides once, or lends what it lacked and decides once more. -/
theorem cases_of_blocksToSend {time : Int} {b b' : Balancer}
    (h : (run env net margin).blocksToSend time b = .ok ((kept, sent), b')) :
    ∃ r b₁, r = b.decision (margin b) ∧ b₁ = b.carryOut r ∧
      (kept = [] ∧ sent = r.sent ∧ b' = b₁ ∨
      env.allowBorrowing = true ∧ ∃ b₂,
        kept = (Run.synthetic r.shortfall.blocks b₁.borrowed).map
          (fun x => (r.shortfall.side, x)) ∧
        (run env net margin).lend r.shortfall.side
          (Run.synthetic r.shortfall.blocks b₁.borrowed) time b₁ = .ok b₂ ∧
        sent = r.sent ++ (b₂.decision (margin b₂)).sent ∧
        b' = b₂.carryOut (b₂.decision (margin b₂))) := by
  unfold Run.blocksToSend at h
  dsimp only at h
  rw [release_adversary] at h
  obtain ⟨_, hx, h⟩ := Fault.bind_eq_ok_iff.1 h
  obtain rfl := Except.ok.inj hx
  refine ⟨_, _, rfl, rfl, ?_⟩
  dsimp only at h
  split at h
  · next hborrow =>
      obtain ⟨b₂, hlend, h⟩ := Fault.bind_eq_ok_iff.1 h
      rw [release_adversary] at h
      obtain ⟨_, hy, h⟩ := Fault.bind_eq_ok_iff.1 h
      obtain rfl := Except.ok.inj hy
      obtain ⟨hlists, hb'⟩ := Prod.mk.inj (Except.ok.inj h)
      obtain ⟨hkept, hsent⟩ := Prod.mk.inj hlists
      rw [Bool.and_eq_true] at hborrow
      exact .inr ⟨hborrow.1, b₂, hkept.symm, hlend, hsent.symm, hb'.symm⟩
  · obtain ⟨hlists, hb'⟩ := Prod.mk.inj (Except.ok.inj h)
    obtain ⟨hkept, hsent⟩ := Prod.mk.inj hlists
    exact .inl ⟨hkept.symm, hsent.symm, hb'.symm⟩

/-- A reaction is an exchange of the blocks it notes. -/
theorem exchange_of_blocksToSend {time : Int} {b b' : Balancer}
    (h : (run env net margin).blocksToSend time b = .ok ((kept, sent), b')) :
    Exchange b kept sent b' := by
  obtain ⟨r, b₁, hr, hb₁, h⟩ := cases_of_blocksToSend h
  have hrelease := Exchange.release (margin b) b
  rw [← hr, ← hb₁] at hrelease
  rcases h with ⟨hk, hs, hb'⟩ | ⟨_, b₂, hk, hlend, hs, hb'⟩
  · rw [hk, hs, hb']
    exact hrelease
  · have hex := (hrelease.trans (exchange_of_lend hlend).1).trans (.release (margin b₂) b₂)
    rw [List.nil_append, List.append_nil, List.append_nil] at hex
    rw [hk, hs, hb']
    exact hex

/-- In a reaction the own view takes up what is sent, and nothing else. -/
theorem view_of_blocksToSend {time : Int} {b b' : Balancer}
    (h : (run env net margin).blocksToSend time b = .ok ((kept, sent), b')) :
    b'.view = sent.foldl (fun v x => v.record x.2 x.1) b.view := by
  obtain ⟨r, b₁, _, hb₁, ⟨_, hs, hb'⟩ | ⟨_, b₂, _, hlend, hs, hb'⟩⟩ := cases_of_blocksToSend h
  · rw [hs, hb', hb₁, view_carryOut]
  · rw [hs, hb', view_carryOut, (exchange_of_lend hlend).2.2, hb₁, view_carryOut, List.foldl_append]

/-- A reaction only takes blocks it may lend itself, as many as it lacked, with
numbers that go down from the total that was lacking before. -/
theorem kept_of_blocksToSend {time : Int} {b b' : Balancer}
    (h : (run env net margin).blocksToSend time b = .ok ((kept, sent), b')) :
    kept = [] ∨ env.allowBorrowing = true ∧ ∃ side short,
      kept = (Run.synthetic short (b.borrowed + short)).map (fun x => (side, x)) ∧
      b.borrowed + short ≤ b'.borrowed := by
  obtain ⟨r, b₁, hr, hb₁, h⟩ := cases_of_blocksToSend h
  have hborrowed : b₁.borrowed = b.borrowed + r.shortfall.blocks := by
    rw [hb₁, borrowed_carryOut]
  rcases h with ⟨hk, _, _⟩ | ⟨hborrow, b₂, hk, hlend, _, hb'⟩
  · exact .inl hk
  · refine .inr ⟨hborrow, r.shortfall.side, r.shortfall.blocks, ?_, ?_⟩
    · rw [hk, hborrowed]
    · have hle := (Exchange.release (margin b₂) b₂).borrowed_le
      rw [(exchange_of_lend hlend).2.1, hborrowed] at hle
      rw [hb']
      exact hle

/-! ## turns -/

/-- The adversary once it knows of an event, if that is one it is told of. -/
def noting (event : Event) (b : Balancer) : Balancer :=
  match event with
  | .observe side block peer => b.observe side block peer
  | _ => b

@[simp] theorem pendingOn_noting (event : Event) (b : Balancer) (s : Side) :
    (b.noting event).pendingOn s = b.pendingOn s := by
  cases event <;> rfl

@[simp] theorem partition_noting (event : Event) (b : Balancer) :
    (b.noting event).partition = b.partition := by
  cases event <;> rfl

@[simp] theorem size_mirrors_noting (event : Event) (b : Balancer) :
    (b.noting event).mirrors.size = b.mirrors.size := by
  cases event with
  | observe => exact Array.size_modify
  | mine | deliver | check | idle => rfl

@[simp] theorem borrowed_observe (side : Side) (block : BlockId) (peer : Nat) (b : Balancer) :
    (b.observe side block peer).borrowed = b.borrowed := rfl

@[simp] theorem borrowed_noting (event : Event) (b : Balancer) :
    (b.noting event).borrowed = b.borrowed := by
  cases event <;> rfl

theorem observe_eq_ok_iff {side : Side} {block : BlockId} {peer : Nat} :
    (adversary margin).observe side block peer b = .ok b' ↔
      peer < b.mirrors.size ∧ b' = b.observe side block peer := by
  simp only [adversary, mirrorsNode, decide_eq_true_eq]
  by_cases h : peer < b.mirrors.size
  · rw [if_pos h, Except.ok.injEq, eq_comm]
    exact ⟨fun hb => ⟨h, hb⟩, And.right⟩
  · rw [if_neg h]
    exact ⟨fun hb => by contradiction, fun hb => absurd hb.1 h⟩

/-- Every turn is an exchange of what its entry notes. -/
theorem exchange_of_turn {σ : Type} {w : World σ} {event : Event} {e : Run.Entry}
    {s : Run.State Balancer σ} (h : Run.Turn (run env net margin) b w event e s) :
    Exchange (b.noting event) e.kept e.sent s.adversary := by
  cases h with
  | evil hside hkept =>
      obtain ⟨_, rfl⟩ := Prod.mk.inj (Except.ok.inj hside)
      obtain rfl := Except.ok.inj hkept
      exact .withhold _ _ _ _
  | honest => exact .refl b
  | known => exact .refl b
  | new => exact .refl b
  | told hobs hdecided =>
      obtain ⟨_, rfl⟩ := observe_eq_ok_iff.1 hobs
      exact exchange_of_blocksToSend hdecided
  | checked => exact .refl b
  | idle => exact .refl b

/-- In a turn the own view takes up what is observed and then what is sent. -/
theorem view_of_turn {σ : Type} {w : World σ} {event : Event} {e : Run.Entry}
    {s : Run.State Balancer σ} (h : Run.Turn (run env net margin) b w event e s) :
    s.adversary.view = e.sent.foldl (fun v x => v.record x.2 x.1) (b.noting event).view := by
  cases h with
  | @evil _ _ side _ _ hside hkept =>
      obtain ⟨_, rfl⟩ := Prod.mk.inj (Except.ok.inj hside)
      obtain rfl := Except.ok.inj hkept
      cases side <;> rfl
  | told hobs hdecided =>
      obtain ⟨_, rfl⟩ := observe_eq_ok_iff.1 hobs
      exact view_of_blocksToSend hdecided
  | honest | known | new | checked | idle => rfl

end Balancer

end BalanceAttack
