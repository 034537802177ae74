import BalanceAttack.Run.Outcome

/-!
# BalanceAttack.Run.Reach

The states a run passes through between two events.  A state is reached with
the history of all that was done before it; `follow` computes both, and every
outcome is reported of a step taken from a state that is reached.
-/

namespace BalanceAttack.Run

open BalanceAttack.Random

variable {α σ : Type} [WordSource σ]

/-- The states of a run between two events, each with the history that led to
it.  The adversary is set up from its fresh state before the first of them. -/
inductive Reaches (run : Run α) (fresh : α) (supply : Supply σ) :
    History → State α σ → Prop where
  | start {a : α} {s : State α σ} (prepared : run.prepare fresh = .ok a)
      (started : run.start a supply = .ok s) : Reaches run fresh supply [] s
  | step {h : History} {s s' : State α σ} {e : Entry} (reached : Reaches run fresh supply h s)
      (stepped : run.step s = .ok (.running e s')) : Reaches run fresh supply (h ++ [e]) s'

/-- The history and the state after so many events, unless the run is over by then. -/
def follow (run : Run α) (fresh : α) (supply : Supply σ) : Nat → Option (History × State α σ)
  | 0 =>
    match run.prepare fresh with
    | .ok a =>
      match run.start a supply with
      | .ok s => some ([], s)
      | .error _ => none
    | .error _ => none
  | n + 1 =>
    match run.follow fresh supply n with
    | some (h, s) =>
      match run.step s with
      | .ok (.running e s) => some (h ++ [e], s)
      | _ => none
    | none => none

variable {run : Run α} {fresh : α} {supply : Supply σ}

theorem reaches_of_follow {n : Nat} {h : History} {s : State α σ}
    (hf : run.follow fresh supply n = some (h, s)) : run.Reaches fresh supply h s := by
  induction n generalizing h s with
  | zero =>
      unfold follow at hf
      split at hf
      · next a hprep =>
          split at hf
          · next s₀ hstart =>
              obtain ⟨rfl, rfl⟩ := Prod.mk.inj (Option.some.inj hf)
              exact .start hprep hstart
          · contradiction
      · contradiction
  | succ n ih =>
      unfold follow at hf
      split at hf
      · next h₀ s₀ hn =>
          split at hf
          · next e s₁ hstep =>
              obtain ⟨rfl, rfl⟩ := Prod.mk.inj (Option.some.inj hf)
              exact .step (ih hn) hstep
          · contradiction
      · contradiction

/-- A run that has been followed is in a state with the property that was tested. -/
theorem exists_reaches_of_any {n : Nat} {p : History × State α σ → Bool}
    (h : (run.follow fresh supply n).any p = true) :
    ∃ h s, run.Reaches fresh supply h s ∧ p (h, s) = true := by
  obtain ⟨⟨h, s⟩, hf, hp⟩ := (Option.any_eq_true _ _).1 h
  exact ⟨h, s, reaches_of_follow hf, hp⟩

/-- The last step of a run that has been followed has the property that was tested. -/
theorem exists_step_of_any {n : Nat} {p : Entry → Bool}
    (h : (run.follow fresh supply n).any (fun x => x.1.getLast?.any p) = true) :
    ∃ h s e s', run.Reaches fresh supply h s ∧ run.step s = .ok (.running e s') ∧ p e = true := by
  obtain ⟨h', s', hr, hlast⟩ := exists_reaches_of_any h
  cases hr with
  | start => contradiction
  | @step h s _ e hr hstep =>
      rw [List.getLast?_concat] at hlast
      exact ⟨h, s, e, s', hr, hstep, hlast⟩

theorem follow_of_reaches {h : History} {s : State α σ} (hr : run.Reaches fresh supply h s) :
    run.follow fresh supply h.length = some (h, s) := by
  induction hr with
  | start hprep hstart =>
      rw [List.length_nil, follow, hprep]
      dsimp only
      rw [hstart]
  | step _ hstep ih =>
      rw [List.length_append, List.length_singleton, follow, ih]
      dsimp only
      rw [hstep]

/-- A run has states only if its parameters are in order. -/
theorem Reaches.valid {h : History} {s : State α σ} (hr : run.Reaches fresh supply h s) :
    run.env.Valid := by
  induction hr with
  | start hprep _ => exact valid_of_prepare hprep
  | step _ _ ih => exact ih

/-- Before anything has been done a run is where it starts. -/
theorem Reaches.exists_start {s : State α σ} (hr : run.Reaches fresh supply [] s) :
    ∃ a, run.prepare fresh = .ok a ∧ run.start a supply = .ok s := by
  generalize hnil : ([] : History) = h at hr
  cases hr with
  | start hprep hstart => exact ⟨_, hprep, hstart⟩
  | step => exact absurd hnil.symm (List.append_ne_nil_of_right_ne_nil _ (List.cons_ne_nil _ _))

/-! ## a run is determined -/

/-- After a number of events there is one history and one state. -/
theorem Reaches.unique {h h' : History} {s s' : State α σ} (hr : run.Reaches fresh supply h s)
    (hr' : run.Reaches fresh supply h' s') (hlength : h.length = h'.length) : h = h' ∧ s = s' := by
  have hf := follow_of_reaches hr
  rw [hlength, follow_of_reaches hr'] at hf
  obtain ⟨heq, hseq⟩ := Prod.mk.inj (Option.some.inj hf)
  exact ⟨heq.symm, hseq.symm⟩

/-- A longer history has gone on from the state of a shorter one. -/
theorem Reaches.exists_step {h h' : History} {s s' : State α σ} (hr : run.Reaches fresh supply h s)
    (hr' : run.Reaches fresh supply h' s') (hlength : h.length < h'.length) :
    ∃ e s₁, run.step s = .ok (.running e s₁) ∧ (h ++ [e]).IsPrefix h' := by
  induction hr' with
  | start => contradiction
  | step hr₁ hstep ih =>
      rw [List.length_append, List.length_singleton] at hlength
      rcases Nat.lt_or_eq_of_le (Nat.le_of_lt_succ hlength) with hlt | heq
      · obtain ⟨e, s₁, hs₁, hprefix⟩ := ih hlt
        exact ⟨e, s₁, hs₁, hprefix.trans (List.prefix_append _ _)⟩
      · obtain ⟨rfl, rfl⟩ := hr.unique hr₁ heq
        exact ⟨_, _, hstep, List.prefix_refl _⟩

/-- What was done at first is still part of what has been done later. -/
theorem Reaches.isPrefix {h h' : History} {s s' : State α σ} (hr : run.Reaches fresh supply h s)
    (hr' : run.Reaches fresh supply h' s') (hle : h.length ≤ h'.length) : h.IsPrefix h' := by
  rcases Nat.lt_or_eq_of_le hle with hlt | heq
  · obtain ⟨e, _, _, hprefix⟩ := hr.exists_step hr' hlt
    exact (List.prefix_append h [e]).trans hprefix
  · obtain ⟨rfl, _⟩ := hr.unique hr' heq
    exact List.prefix_refl h

/-- A run ends in one state, and goes no further. -/
theorem length_le_of_finished (hr : run.Reaches fresh supply h s)
    (hr' : run.Reaches fresh supply h' s') {v : Verdict} {s₁ : State α σ}
    (hstep : run.step s' = .ok (.finished v s₁)) : h.length ≤ h'.length := by
  refine Nat.not_lt.1 fun hlt => ?_
  obtain ⟨e, s₂, hstep', _⟩ := hr'.exists_step hr hlt
  rw [hstep] at hstep'
  have hprogress := Except.ok.inj hstep'
  contradiction

/-- A run has one end. -/
theorem finished_unique (hr : run.Reaches fresh supply h s)
    (hr' : run.Reaches fresh supply h' s') {v v' : Verdict} {s₁ s₁' : State α σ}
    (hstep : run.step s = .ok (.finished v s₁)) (hstep' : run.step s' = .ok (.finished v' s₁')) :
    v = v' ∧ s₁ = s₁' := by
  have hlength := Nat.le_antisymm (length_le_of_finished hr hr' hstep')
    (length_le_of_finished hr' hr hstep)
  obtain ⟨_, rfl⟩ := hr.unique hr' hlength
  exact Progress.finished.inj (Except.ok.inj (hstep.symm.trans hstep'))

/-! ## outcomes -/

theorem exists_reaches_of_loop {n : Nat} {h : History} {s s' : State α σ} {v : Verdict}
    (hs : run.Reaches fresh supply h s) (hl : run.loop n s = .ok (some v, s')) :
    ∃ h₁ s₁, run.Reaches fresh supply h₁ s₁ ∧ run.step s₁ = .ok (.finished v s') := by
  induction n generalizing h s with
  | zero => cases hl
  | succ n ih =>
      unfold loop at hl
      split at hl
      · cases hl
      · next e s₁ hstep => exact ih (.step hs hstep) hl
      · next v₁ s₁ hstep =>
          cases hl
          exact ⟨h, s, hs, hstep⟩

/-- An outcome is reported of a step that ends the run. -/
theorem exists_reaches_of_simulate {n : Nat} {a : α} {o : Outcome} {s' : State α σ}
    (hprep : run.prepare fresh = .ok a) (hsim : run.simulate n a supply = .ok (o, s')) :
    ∃ h s v, run.Reaches fresh supply h s ∧ run.step s = .ok (.finished v s') ∧
      o = run.report v s' := by
  obtain ⟨s₀, hstart, hsim⟩ := Fault.bind_eq_ok_iff.1 hsim
  obtain ⟨⟨verdict, s₁⟩, hloop, hsim⟩ := Fault.bind_eq_ok_iff.1 hsim
  cases verdict with
  | none => cases hsim
  | some v =>
      obtain ⟨rfl, rfl⟩ := Prod.mk.inj (Except.ok.inj hsim)
      obtain ⟨h, s, hs, hstep⟩ := exists_reaches_of_loop
        (.start hprep (orFail_eq_ok_iff.1 hstart)) (orFail_eq_ok_iff.1 hloop)
      exact ⟨h, s, v, hs, hstep, rfl⟩

/-- A run goes on to a state that is reached. -/
theorem exists_loop_eq {a : α} {h : History} {s : State α σ} (hprep : run.prepare fresh = .ok a)
    (hr : run.Reaches fresh supply h s) :
    ∃ s₀, run.start a supply = .ok s₀ ∧ ∀ n, run.loop (h.length + n) s₀ = run.loop n s := by
  induction hr with
  | @start a' s hprep' hstart =>
      obtain rfl : a = a' := Except.ok.inj (hprep.symm.trans hprep')
      exact ⟨s, hstart, fun n => by rw [List.length_nil, Nat.zero_add]⟩
  | @step h s s' e _ hstep ih =>
      obtain ⟨s₀, hstart, hloop⟩ := ih
      refine ⟨s₀, hstart, fun n => ?_⟩
      rw [List.length_append, List.length_singleton, Nat.add_assoc, Nat.add_comm 1 n, hloop, loop,
        hstep]

/-- A step that ends the run leads to an outcome, once enough events are allowed for. -/
theorem simulate_of_finished {a : α} {h : History} {s s' : State α σ} {v : Verdict}
    (hprep : run.prepare fresh = .ok a) (hr : run.Reaches fresh supply h s)
    (hstep : run.step s = .ok (.finished v s')) {events : Nat} (hevents : h.length < events) :
    run.simulate events a supply = .ok (run.report v s', s') := by
  obtain ⟨s₀, hstart, hloop⟩ := exists_loop_eq hprep hr
  obtain ⟨spare, rfl⟩ := Nat.exists_eq_add_of_lt hevents
  have hlast : run.loop (h.length + spare + 1) s₀ = .ok (some v, s') := by
    rw [Nat.add_assoc, hloop, loop, hstep]
  unfold simulate
  rw [hstart, orFail]
  dsimp only [bind, Except.bind]
  rw [hlast]
  rfl

theorem exists_simulate_of_finished {a : α} {h : History} {s s' : State α σ} {v : Verdict}
    (hprep : run.prepare fresh = .ok a) (hr : run.Reaches fresh supply h s)
    (hstep : run.step s = .ok (.finished v s')) :
    ∃ events, run.simulate events a supply = .ok (run.report v s', s') :=
  ⟨h.length + 1, simulate_of_finished hprep hr hstep (Nat.lt_succ_self _)⟩

/-- A step that crashes keeps the run from an outcome. -/
theorem exists_simulate_of_crash {a : α} {h : History} {s : State α σ} {c : Crash α}
    (hprep : run.prepare fresh = .ok a) (hr : run.Reaches fresh supply h s)
    (hstep : run.step s = .error c) :
    ∃ events, run.simulate events a supply = .error (.crash c) := by
  obtain ⟨s₀, hstart, hloop⟩ := exists_loop_eq hprep hr
  have hlast : run.loop (h.length + 1) s₀ = .error c := by
    rw [hloop, loop, hstep]
  refine ⟨h.length + 1, ?_⟩
  unfold simulate
  rw [hstart, orFail]
  dsimp only [bind, Except.bind]
  rw [hlast]
  rfl

/-- A run that crashes at the start has no outcome. -/
theorem simulate_of_crash {a : α} {c : Crash α} (hstart : run.start a supply = .error c)
    (events : Nat) : run.simulate events a supply = .error (.crash c) := by
  unfold simulate
  rw [hstart]
  rfl

theorem exists_reaches_of_loop_crash {n : Nat} {h : History} {s : State α σ} {c : Crash α}
    (hs : run.Reaches fresh supply h s) (hl : run.loop n s = .error c) :
    ∃ h₁ s₁, run.Reaches fresh supply h₁ s₁ ∧ run.step s₁ = .error c := by
  induction n generalizing h s with
  | zero => contradiction
  | succ n ih =>
      unfold loop at hl
      split at hl
      · next c₁ hstep =>
          obtain rfl := Except.error.inj hl
          exact ⟨h, s, hs, hstep⟩
      · next e s₁ hstep => exact ih (.step hs hstep) hl
      · contradiction

/-- A run that crashes does so at the start or at some step. -/
theorem exists_reaches_of_crash {n : Nat} {a : α} {c : Crash α}
    (hprep : run.prepare fresh = .ok a) (hsim : run.simulate n a supply = .error (.crash c)) :
    run.start a supply = .error c ∨
      ∃ h s, run.Reaches fresh supply h s ∧ run.step s = .error c := by
  rcases Fault.bind_eq_error_iff.1 hsim with hstart | ⟨s₀, hstart, hsim⟩
  · exact .inl (orFail_eq_crash_iff.1 hstart)
  · have hreached := Reaches.start hprep (orFail_eq_ok_iff.1 hstart)
    rcases Fault.bind_eq_error_iff.1 hsim with hloop | ⟨⟨verdict, s₁⟩, _, hsim⟩
    · exact .inr (exists_reaches_of_loop_crash hreached (orFail_eq_crash_iff.1 hloop))
    · cases verdict with
      | none =>
          have hunfinished := Except.error.inj hsim
          contradiction
      | some v => contradiction

/-- A run that starts, does not crash and does not go on for ever has an end. -/
theorem exists_finished_of_length_le {a : α} {s₀ : State α σ} {n : Nat}
    (hprep : run.prepare fresh = .ok a) (hstart : run.start a supply = .ok s₀)
    (hstep : ∀ h s c, run.Reaches fresh supply h s → run.step s ≠ .error c)
    (hlength : ∀ h s, run.Reaches fresh supply h s → h.length ≤ n) :
    ∃ h s v s', run.Reaches fresh supply h s ∧ run.step s = .ok (.finished v s') := by
  have hmore : ∀ k, (∃ h s v s', run.Reaches fresh supply h s ∧
      run.step s = .ok (.finished v s')) ∨ ∃ h s, run.Reaches fresh supply h s ∧ h.length = k := by
    intro k
    induction k with
    | zero => exact .inr ⟨[], s₀, .start hprep hstart, rfl⟩
    | succ k ih =>
        rcases ih with hend | ⟨h, s, hr, hk⟩
        · exact .inl hend
        · cases hs : run.step s with
          | error c => exact absurd hs (hstep h s c hr)
          | ok p =>
              cases p with
              | running e s' => exact .inr ⟨h ++ [e], s', .step hr hs, by simp [hk]⟩
              | finished v s' => exact .inl ⟨h, s, v, s', hr, hs⟩
  refine (hmore (n + 1)).resolve_right fun ⟨h, s, hr, hn⟩ => ?_
  have hle := hlength h s hr
  omega

/-- A run that has been computed has an outcome with the property that was tested. -/
theorem exists_simulate_of_any (run : Run α) (fresh : α) (supply : Supply σ) (events : Nat)
    (p : Outcome → Bool) (h : ((run.prepare fresh).bind fun a =>
      run.simulate events a supply).toOption.any (fun x => p x.1) = true) :
    ∃ a o s, run.prepare fresh = .ok a ∧ run.simulate events a supply = .ok (o, s) ∧
      p o = true := by
  cases hrun : (run.prepare fresh).bind fun a => run.simulate events a supply with
  | error =>
      rw [hrun] at h
      contradiction
  | ok x =>
      rw [hrun] at h
      obtain ⟨a, hprep, hsim⟩ := Fault.bind_eq_ok_iff.1 hrun
      exact ⟨a, x.1, x.2, hprep, hsim, h⟩

end BalanceAttack.Run
