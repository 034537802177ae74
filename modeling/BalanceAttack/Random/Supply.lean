import BalanceAttack.Fault

/-!
# BalanceAttack.Random.Supply

Random words and the computations that draw them.

A *source* yields 64-bit words for ever.  A *supply* is a source of which only
so many words may be drawn; drawing more is the fault `dry`.  The bound makes
every computation that repeats itself until the words suit it a total
function, and a computation that answers at all answers the same under any
larger bound.

A `Draw` threads a supply through its steps, so that the order of the draws is
the order of the program.
-/

namespace BalanceAttack.Random

/-- Types whose values yield an endless sequence of 64-bit words. -/
class WordSource (σ : Type) where
  /-- The next word, and the source after it. -/
  next : σ → UInt64 × σ

/-- A source together with the number of words that may still be drawn from it. -/
structure Supply (σ : Type) where
  source : σ
  left : Nat

/-- More words than can be drawn in a lifetime. -/
def Supply.ample : Nat := Nat.pow 2 62

/-- The supply of a source that never runs dry in practice. -/
def Supply.ofSource {σ : Type} (source : σ) : Supply σ := ⟨source, Supply.ample⟩

/-- A computation that draws words from a supply. -/
abbrev Draw (σ : Type) := StateT (Supply σ) (Except Fault)

/-- A sequence of words is a source of its terms. -/
instance : WordSource (Nat → UInt64) := ⟨fun w => (w 0, fun i => w (i + 1))⟩

namespace Draw

variable {σ α β : Type}

/-- A draw in two parts answers when both parts do. -/
theorem bind_eq_ok_iff {x : Draw σ α} {f : α → Draw σ β} {supply rest : Supply σ} {b : β} :
    (x >>= f) supply = .ok (b, rest) ↔
      ∃ a between, x supply = .ok (a, between) ∧ f a between = .ok (b, rest) := by
  have hbind : (x >>= f) supply = x supply >>= fun y => f y.1 y.2 := rfl
  rw [hbind, Fault.bind_eq_ok_iff, Prod.exists]

/-- A draw in two parts faults when either part does. -/
theorem bind_eq_error_iff {x : Draw σ α} {f : α → Draw σ β} {supply : Supply σ} {fault : Fault} :
    (x >>= f) supply = .error fault ↔
      x supply = .error fault ∨
        ∃ a between, x supply = .ok (a, between) ∧ f a between = .error fault := by
  have hbind : (x >>= f) supply = x supply >>= fun y => f y.1 y.2 := rfl
  rw [hbind, Fault.bind_eq_error_iff, Prod.exists]

@[simp] theorem lift_ok_bind (a : α) (f : α → Draw σ β) :
    (liftM (.ok a : Except Fault α) >>= f : Draw σ β) = f a := rfl

/-- What needs no words leaves the supply as it is. -/
theorem lift_eq_ok_iff {x : Except Fault α} {supply rest : Supply σ} {a : α} :
    (liftM x : Draw σ α) supply = .ok (a, rest) ↔ x = .ok a ∧ rest = supply := by
  cases x with
  | error => exact ⟨fun h => (nomatch h), fun h => (nomatch h.1)⟩
  | ok b =>
      constructor
      · intro h
        obtain ⟨rfl, rfl⟩ := Prod.mk.inj (Except.ok.inj h)
        exact ⟨rfl, rfl⟩
      · rintro ⟨h, rfl⟩
        rw [Except.ok.inj h]
        rfl

theorem lift_eq_error_iff {x : Except Fault α} {supply : Supply σ} {fault : Fault} :
    (liftM x : Draw σ α) supply = .error fault ↔ x = .error fault := by
  cases x with
  | error e => exact ⟨fun h => congrArg Except.error (Except.error.inj h), fun h => h ▸ rfl⟩
  | ok a => exact ⟨fun h => (nomatch h), fun h => (nomatch h)⟩

/-- Draws one word. -/
def word [WordSource σ] : Draw σ UInt64 := fun supply =>
  match supply.left with
  | 0 => .error .dry
  | left + 1 =>
    let (w, source) := WordSource.next supply.source
    .ok (w, { source, left })

/-- Repeats a step at most so many times, until it settles on an answer. -/
def settleWithin (step : β → Draw σ (β ⊕ α)) : Nat → β → Draw σ α
  | 0, _ => throw .dry
  | n + 1, b => do
    match ← step b with
    | .inl b => settleWithin step n b
    | .inr a => pure a

/-- Repeats a step until it settles on an answer.  A step that draws a word
each time runs out of words before it runs out of turns. -/
def settle (step : β → Draw σ (β ⊕ α)) (b : β) : Draw σ α := do
  settleWithin step ((← get).left + 1) b

/-- There is a turn for every word, and one more. -/
theorem settle_eq (step : β → Draw σ (β ⊕ α)) (b : β) (supply : Supply σ) :
    settle step b supply = settleWithin step (supply.left + 1) b supply := rfl

/-- Where the next turn comes out the same, all turns do. -/
theorem settleWithin_congr {step : β → Draw σ (β ⊕ α)} {b : β} {supply supply' : Supply σ}
    (h : step b supply = step b supply') (n : Nat) :
    settleWithin step (n + 1) b supply = settleWithin step (n + 1) b supply' := by
  show (step b supply >>= fun y => _) = (step b supply' >>= fun y => _)
  rw [h]

/-- A turn that does not settle is followed by the next. -/
theorem settleWithin_of_inl {step : β → Draw σ (β ⊕ α)} {b b' : β} {supply between : Supply σ}
    (h : step b supply = .ok (.inl b', between)) (n : Nat) :
    settleWithin step (n + 1) b supply = settleWithin step n b' between := by
  show (step b supply >>= fun y => _) = _
  rw [h]
  rfl

/-- A turn that settles is the last. -/
theorem settleWithin_of_inr {step : β → Draw σ (β ⊕ α)} {b : β} {a : α} {supply rest : Supply σ}
    (h : step b supply = .ok (.inr a, rest)) (n : Nat) :
    settleWithin step (n + 1) b supply = .ok (a, rest) := by
  show (step b supply >>= fun y => _) = _
  rw [h]
  rfl

/-! ## what repeating and folding preserve -/

/-- What holds at first and after every turn holds of the answer that is settled on. -/
theorem of_settle {step : β → Draw σ (β ⊕ α)} (motive : β ⊕ α → Prop)
    (hstep : ∀ b supply x rest, motive (.inl b) → step b supply = .ok (x, rest) → motive x)
    {b : β} {supply rest : Supply σ} {a : α} (hb : motive (.inl b))
    (h : settle step b supply = .ok (a, rest)) : motive (.inr a) := by
  have hwithin : ∀ (n : Nat) (b : β) (supply : Supply σ), motive (.inl b) →
      settleWithin step n b supply = .ok (a, rest) → motive (.inr a) := by
    intro n
    induction n with
    | zero =>
        intro b supply _ h
        contradiction
    | succ n ih =>
        intro b supply hb h
        obtain ⟨x, between, hx, h⟩ := bind_eq_ok_iff.1 h
        have hmotive := hstep b supply x between hb hx
        cases x with
        | inl b => exact ih b between hmotive h
        | inr c =>
            obtain ⟨rfl, _⟩ := Prod.mk.inj (Except.ok.inj h)
            exact hmotive
  exact hwithin (supply.left + 1) b supply hb h

/-- What holds at first, and after a step if before it, holds at the end of a fold that answers. -/
theorem of_foldlM {f : β → α → Draw σ β} (motive : List α → β → Prop) {as : List α}
    (hf : ∀ done a todo b supply b' rest, as = done ++ a :: todo → motive done b →
      f b a supply = .ok (b', rest) → motive (done ++ [a]) b') {b b' : β} {supply rest : Supply σ}
    (hb : motive [] b) (h : as.foldlM f b supply = .ok (b', rest)) : motive as b' := by
  have hfrom : ∀ (todo done : List α) (b : β) (supply : Supply σ), as = done ++ todo →
      motive done b → todo.foldlM f b supply = .ok (b', rest) → motive as b' := by
    intro todo
    induction todo with
    | nil =>
        intro done b supply has hb h
        obtain ⟨rfl, _⟩ := Prod.mk.inj (Except.ok.inj h)
        rw [has, List.append_nil]
        exact hb
    | cons a todo ih =>
        intro done b supply has hb h
        rw [List.foldlM_cons] at h
        obtain ⟨b₁, between, hb₁, h⟩ := bind_eq_ok_iff.1 h
        have hb₁ := hf done a todo b supply b₁ between has hb hb₁
        exact ih _ _ _ (has.trans (List.append_cons done a todo)) hb₁ h
  exact hfrom as [] b supply rfl hb h

/-- A fold that does not answer stops at some step. -/
theorem exists_of_foldlM_error {f : β → α → Draw σ β} {as : List α} {b : β} {supply : Supply σ}
    {fault : Fault} (h : as.foldlM f b supply = .error fault) :
    ∃ done a todo b' between, as = done ++ a :: todo ∧
      done.foldlM f b supply = .ok (b', between) ∧ f b' a between = .error fault := by
  induction as generalizing b supply with
  | nil => contradiction
  | cons a as ih =>
      rw [List.foldlM_cons] at h
      rcases bind_eq_error_iff.1 h with h | ⟨b₁, between, hb₁, h⟩
      · exact ⟨[], a, as, b, supply, rfl, rfl, h⟩
      · obtain ⟨done, a', todo, b', between', rfl, hdone, hstop⟩ := ih h
        refine ⟨a :: done, a', todo, b', between', rfl, ?_, hstop⟩
        rw [List.foldlM_cons]
        exact bind_eq_ok_iff.2 ⟨b₁, between, hb₁, hdone⟩

end Draw

end BalanceAttack.Random
