/-!
# BalanceAttack.Fault

Why a computation of this library can stop without an answer.  Each cause is
one constructor; nothing else is ever thrown.
-/

namespace BalanceAttack

/-- Why a computation stopped without an answer. -/
inductive Fault where
  /-- A time or a block number left the range of 64-bit signed integers. -/
  | overflow
  /-- A table was read outside its bounds. -/
  | outOfRange
  /-- A random choice was asked for from an empty range. -/
  | emptyRange
  /-- The supply of random words ran out. -/
  | dry
  deriving DecidableEq, Repr

/-- What an array holds at an index; reading outside the array is a fault. -/
def Fault.read {α : Type} (xs : Array α) (i : Nat) : Except Fault α :=
  match xs[i]? with
  | some x => .ok x
  | none => .error .outOfRange

theorem Fault.read_eq_ok_iff {α : Type} {xs : Array α} {i : Nat} {x : α} :
    Fault.read xs i = .ok x ↔ xs[i]? = some x := by
  unfold Fault.read
  split <;> simp_all

theorem Fault.read_of_lt {α : Type} {xs : Array α} {i : Nat} (h : i < xs.size) :
    Fault.read xs i = .ok xs[i] := by
  simp [Fault.read_eq_ok_iff, h]

/-! ## computations that answer -/

/-- A computation whose answer is known has that answer. -/
theorem Fault.eq_ok_of_toOption {ε α : Type} {x : Except ε α} {a : α} (h : x.toOption = some a) :
    x = .ok a := by
  cases x with
  | error e => contradiction
  | ok b => exact congrArg Except.ok (Option.some.inj h)

/-- A computation in two parts answers when both parts do. -/
theorem Fault.bind_eq_ok_iff {ε α β : Type} {x : Except ε α} {f : α → Except ε β} {b : β} :
    (x >>= f) = .ok b ↔ ∃ a, x = .ok a ∧ f a = .ok b := by
  cases x <;> simp [bind, Except.bind]

/-- A computation in two parts faults when either part does. -/
theorem Fault.bind_eq_error_iff {ε α β : Type} {x : Except ε α} {f : α → Except ε β} {e : ε} :
    (x >>= f) = .error e ↔ x = .error e ∨ ∃ a, x = .ok a ∧ f a = .error e := by
  cases x <;> simp [bind, Except.bind]

/-- What is seen of the answers is known when it is known of each. -/
theorem Fault.map_of_mapM {ε α β γ : Type} {f : α → Except ε β} (seen : β → γ) (g : α → γ)
    (hf : ∀ a b, f a = .ok b → seen b = g a) {as : List α} {bs : List β}
    (h : as.mapM f = .ok bs) : bs.map seen = as.map g := by
  induction as generalizing bs with
  | nil =>
      rw [List.mapM_nil] at h
      obtain rfl := Except.ok.inj h
      rfl
  | cons a as ih =>
      rw [List.mapM_cons] at h
      obtain ⟨b, hb, h⟩ := Fault.bind_eq_ok_iff.1 h
      obtain ⟨rest, hrest, h⟩ := Fault.bind_eq_ok_iff.1 h
      obtain rfl := Except.ok.inj h
      rw [List.map_cons, List.map_cons, hf a b hb, ih hrest]

/-- Every answer is the answer for one of the questions. -/
theorem Fault.exists_of_mem_mapM {ε α β : Type} {f : α → Except ε β} {as : List α} {bs : List β}
    (h : as.mapM f = .ok bs) {b : β} (hb : b ∈ bs) : ∃ a ∈ as, f a = .ok b := by
  induction as generalizing bs with
  | nil =>
      rw [List.mapM_nil] at h
      obtain rfl := Except.ok.inj h
      contradiction
  | cons a as ih =>
      rw [List.mapM_cons] at h
      obtain ⟨c, hc, h⟩ := Fault.bind_eq_ok_iff.1 h
      obtain ⟨rest, hrest, h⟩ := Fault.bind_eq_ok_iff.1 h
      obtain rfl := Except.ok.inj h
      rcases List.mem_cons.1 hb with rfl | hb
      · exact ⟨a, List.mem_cons_self, hc⟩
      · obtain ⟨a', ha', hfa'⟩ := ih hrest hb
        exact ⟨a', List.mem_cons_of_mem _ ha', hfa'⟩

/-- Questions that are not all answered include one that is not. -/
theorem Fault.exists_of_mapM_error {ε α β : Type} {f : α → Except ε β} {as : List α} {e : ε}
    (h : as.mapM f = .error e) : ∃ a ∈ as, f a = .error e := by
  induction as with
  | nil => contradiction
  | cons a as ih =>
      rw [List.mapM_cons] at h
      rcases Fault.bind_eq_error_iff.1 h with h | ⟨b, _, h⟩
      · exact ⟨a, List.mem_cons_self, h⟩
      · rcases Fault.bind_eq_error_iff.1 h with h | ⟨rest, _, h⟩
        · obtain ⟨a', ha', hfa'⟩ := ih h
          exact ⟨a', List.mem_cons_of_mem _ ha', hfa'⟩
        · contradiction

/-- Questions that are all answered are answered together. -/
theorem Fault.exists_mapM_eq {ε α β : Type} {f : α → Except ε β} {as : List α}
    (h : ∀ a ∈ as, ∃ b, f a = .ok b) : ∃ bs, as.mapM f = .ok bs := by
  cases hf : as.mapM f with
  | ok bs => exact ⟨bs, rfl⟩
  | error e =>
      obtain ⟨a, ha, hfa⟩ := Fault.exists_of_mapM_error hf
      obtain ⟨b, hb⟩ := h a ha
      rw [hfa] at hb
      contradiction

/-- A fold that does not answer stops at some step. -/
theorem Fault.exists_of_foldlM_error {ε α β : Type} {f : β → α → Except ε β} {as : List α} {b : β}
    {e : ε} (h : as.foldlM f b = .error e) :
    ∃ done a rest b', as = done ++ a :: rest ∧ done.foldlM f b = .ok b' ∧ f b' a = .error e := by
  induction as generalizing b with
  | nil => contradiction
  | cons a as ih =>
      rw [List.foldlM_cons] at h
      rcases Fault.bind_eq_error_iff.1 h with h | ⟨b₁, hb₁, h⟩
      · exact ⟨[], a, as, b, rfl, rfl, h⟩
      · obtain ⟨done, a', rest, b', rfl, hdone, hstop⟩ := ih h
        refine ⟨a :: done, a', rest, b', rfl, ?_, hstop⟩
        rw [List.foldlM_cons, hb₁]
        exact hdone

/-- What holds at first, and after a step if before it, holds at the end of a fold that answers. -/
theorem Fault.of_foldlM {ε α β : Type} {f : β → α → Except ε β} (motive : List α → β → Prop)
    (hf : ∀ done b a b', motive done b → f b a = .ok b' → motive (done ++ [a]) b') {as : List α}
    {b b' : β} (hb : motive [] b) (h : as.foldlM f b = .ok b') : motive as b' := by
  have hfrom : ∀ (rest done : List α) (b : β), motive done b → rest.foldlM f b = .ok b' →
      motive (done ++ rest) b' := by
    intro rest
    induction rest with
    | nil =>
        intro done b hb h
        obtain rfl := Except.ok.inj h
        rw [List.append_nil]
        exact hb
    | cons a rest ih =>
        intro done b hb h
        rw [List.foldlM_cons] at h
        obtain ⟨b₁, hb₁, h⟩ := Fault.bind_eq_ok_iff.1 h
        rw [List.append_cons]
        exact ih _ _ (hf done b a b₁ hb hb₁) h
  exact hfrom as [] b hb h

/-- A fold over the first numbers goes on to the next one. -/
theorem Fault.foldlM_range_succ {ε β : Type} {f : β → Nat → Except ε β} {c : Nat} {b b' : β}
    (h : (List.range c).foldlM f b = .ok b') : (List.range (c + 1)).foldlM f b = f b' c := by
  rw [List.range_succ, List.foldlM_append, h]
  show List.foldlM f b' [c] = _
  rw [List.foldlM_cons]
  simp only [List.foldlM_nil, bind_pure]

end BalanceAttack
