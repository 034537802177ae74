import BalanceAttack.Proofs.Chronology
import BalanceAttack.Proofs.Pace
import BalanceAttack.Proofs.Truncation
import BalanceAttack.Proofs.Waits
import Mathlib.Data.List.GetD
import Mathlib.Data.List.Induction

/-!
# BalanceAttack.Proofs.Clockwork

What keeps a run going.  One block is always to be found and one check to be made, so
that a run never lacks a next event, whatever else is pending.  The waits alone say when
blocks are found, and the number of blocks of a run is the number of those that are due
early enough: before its bound, or up to the check that ends it.

* `Agenda.mem_times`, `Agenda.length_times` — the times of the pending events of a kind;
* `foundTimes_of_reaches` — the blocks of a run are found when they are due;
* `early_of_reaches` — none is found after the bound or after the pending check;
* `countsDue_of_next` — a number that is known of one block is known of all;
* `clockwork` — what is pending in any state, and how many blocks are found in all.
-/

namespace BalanceAttack

open BalanceAttack.Random

/-! ## the pending events of a kind -/

namespace Agenda

theorem mem_times {q : Agenda} {kind : Event} {t : Int} :
    t ∈ q.times kind ↔ ∃ x ∈ q.toList, x.event = kind ∧ x.time = t := by
  simp only [times, pick, List.mem_filterMap, Option.ite_none_right_eq_some, Option.some.injEq]

theorem length_times (q : Agenda) (kind : Event) :
    (q.times kind).length = q.toList.countP (·.event = kind) := by
  rw [times, pick, List.length_filterMap_eq_countP]
  congr 1
  funext x
  by_cases hx : x.event = kind <;> simp [hx]

end Agenda

/-! ## when blocks are due -/

/-- When a block is due: the first at the start, and each later one a wait after the one
before it. -/
def dueTime (waits : List Int) : Nat → Int
  | 0 => 0
  | k + 1 => dueTime waits k + waits.getD k 0

theorem dueTime_append {waits later : List Int} {k : Nat} (hk : k ≤ waits.length) :
    dueTime (waits ++ later) k = dueTime waits k := by
  induction k with
  | zero => rfl
  | succ k ih =>
      have hlt : k < waits.length := hk
      rw [dueTime, dueTime, ih (Nat.le_of_lt hlt), List.getD_append _ _ _ _ hlt]

/-- The next block is due once all waits are over. -/
theorem dueTime_length (waits : List Int) : dueTime waits waits.length = waits.sum := by
  induction waits using List.reverseRecOn with
  | nil => rfl
  | append_singleton waits wait ih =>
      rw [List.length_append, List.length_singleton, dueTime, dueTime_append le_rfl, ih,
        List.sum_append, List.sum_singleton, List.getD_append_right _ _ _ _ le_rfl, Nat.sub_self]
      rfl

/-- Later blocks are due later, unless a wait between them is negative. -/
theorem dueTime_mono {waits : List Int} {n k : Nat} (hnonneg : ∀ wait ∈ waits.drop n, 0 ≤ wait)
    (hnk : n ≤ k) : dueTime waits n ≤ dueTime waits k := by
  induction hnk with
  | refl => exact le_rfl
  | @step k hle ih =>
      have hnk : n ≤ k := hle
      have hnext : 0 ≤ waits.getD k 0 := by
        rcases Nat.lt_or_ge k waits.length with hlt | hge
        · rw [List.getD_eq_getElem _ _ hlt]
          refine hnonneg _ (List.mem_drop_iff_getElem.2 ⟨k - n, by omega, ?_⟩)
          congr 1
          omega
        · rw [List.getD_eq_default _ _ hge]
      rw [dueTime]
      omega

namespace Run

variable {α σ : Type} [WordSource σ] {run : Run α} {fresh : α} {supply rest : Supply σ}
  {h : History} {s s' : State α σ} {e : Entry} {waits : List Int}

theorem length_drawWaits {k : Nat} (h : run.drawWaits k supply = .ok (waits, rest)) :
    waits.length = k := by
  induction k generalizing waits rest with
  | zero =>
      obtain ⟨rfl, _⟩ := Prod.mk.inj (Except.ok.inj h)
      rfl
  | succ k ih =>
      obtain ⟨before, _, _, hbefore, _, rfl⟩ := drawWaits_succ_iff.1 h
      rw [List.length_append, List.length_singleton, ih hbefore]

/-- Of the waits at some blocks, those at the first blocks are drawn first. -/
theorem isPrefix_of_drawWaits {j k : Nat} (hjk : j ≤ k) {before : List Int} {between : Supply σ}
    (hbefore : run.drawWaits j supply = .ok (before, between))
    (h : run.drawWaits k supply = .ok (waits, rest)) : before.IsPrefix waits := by
  induction hjk generalizing waits rest with
  | refl =>
      obtain ⟨rfl, _⟩ := Prod.mk.inj (Except.ok.inj (hbefore.symm.trans h))
      exact List.prefix_refl _
  | step _ ih =>
      obtain ⟨_, _, _, hless, _, rfl⟩ := drawWaits_succ_iff.1 h
      exact (ih hless).trans (List.prefix_append _ _)

/-- Whatever waits are drawn, so many blocks are due early, as long as none of the waits
after theirs is negative. -/
structure CountsDue (run : Run α) (supply : Supply σ) (early : Int → Prop) [DecidablePred early]
    (n : Nat) : Prop where
  drawn : ∃ waits rest, run.drawWaits n supply = .ok (waits, rest)
  count : ∀ k waits rest, n ≤ k → run.drawWaits k supply = .ok (waits, rest) →
    (∀ wait ∈ waits.drop n, 0 ≤ wait) →
      (List.range (k + 1)).countP (fun j => early (dueTime waits j)) = n

/-- If the blocks up to some number are due early and the next is not, no later one is. -/
theorem countsDue_of_next {early : Int → Prop} [DecidablePred early] {n : Nat}
    (hdown : ∀ t t', t ≤ t' → early t' → early t)
    (hwaits : run.drawWaits n supply = .ok (waits, rest))
    (hbefore : ∀ k < n, early (dueTime waits k)) (hnext : ¬ early (dueTime waits n)) :
    run.CountsDue supply early n := by
  refine ⟨⟨waits, rest, hwaits⟩, fun k longer rest' hnk hlonger hnonneg => ?_⟩
  obtain ⟨later, rfl⟩ := isPrefix_of_drawWaits hnk hwaits hlonger
  have hsame : ∀ j ≤ n, dueTime (waits ++ later) j = dueTime waits j := fun j hj =>
    dueTime_append (length_drawWaits hwaits ▸ hj)
  have hsplit : k + 1 = n + (k + 1 - n) := by omega
  have hearly : (List.range n).countP (fun j => early (dueTime (waits ++ later) j)) = n := by
    refine (List.countP_eq_length.2 fun j hj => ?_).trans List.length_range
    have hlt : j < n := List.mem_range.1 hj
    exact decide_eq_true (hsame j hlt.le ▸ hbefore j hlt)
  have hlate : ((List.range (k + 1 - n)).map (n + ·)).countP
      (fun j => early (dueTime (waits ++ later) j)) = 0 := by
    refine List.countP_eq_zero.2 fun j hj => ?_
    obtain ⟨i, _, rfl⟩ := List.mem_map.1 hj
    rw [decide_eq_true_eq]
    intro hdue
    exact hnext (hsame n le_rfl ▸ hdown _ _ (dueTime_mono hnonneg (Nat.le_add_right n i)) hdue)
  rw [hsplit, List.range_add, List.countP_append, hearly, hlate, Nat.add_zero]

/-! ## when blocks are found -/

/-- The times at which blocks have been found. -/
def History.foundTimes (h : History) : List Int := (h.filter (·.event = .mine)).map Entry.time

omit [WordSource σ] in
theorem time_of_turn {a : α} {w : World σ} {event : Event} (hturn : Turn run a w event e s) :
    e.time = w.clock := by
  cases hturn with
  | evil | honest | known | new | told | checked | idle => rfl

omit [WordSource σ] in
/-- A turn adds its time if a block is found at it. -/
theorem foundTimes_append {a : α} {w : World σ} {event : Event} (h : History)
    (hturn : Turn run a w event e s) :
    History.foundTimes (h ++ [e]) = h.foundTimes ++ if event = .mine then [w.clock] else [] := by
  unfold History.foundTimes
  rw [List.filter_append, List.map_append]
  congr 1
  rw [List.filter_cons, List.filter_nil, event_of_turn hturn]
  by_cases hmine : event = .mine
  · rw [if_pos hmine, if_pos (decide_eq_true hmine), List.map_singleton, time_of_turn hturn]
  · rw [if_neg hmine, if_neg (by simpa using hmine), List.map_nil]

/-- The blocks of a run are found when they are due. -/
theorem foundTimes_of_reaches (hr : run.Reaches fresh supply h s)
    (hwaits : run.drawWaits s.world.mined supply = .ok (waits, rest)) :
    h.foundTimes = (List.range s.world.mined).map (dueTime waits) := by
  induction hr generalizing waits rest with
  | start _ hstart =>
      rw [(rooted_of_start hstart).2.1]
      rfl
  | @step h s s' e hr hstep ih =>
      obtain ⟨first, agenda, hq, _, hturn⟩ := exists_turn_of_step hstep
      have hmined := mined_of_turn hturn
      rw [foundTimes_append h hturn]
      by_cases hmine : first.event = .mine
      · rw [if_pos hmine] at hmined ⊢
        dsimp only at hmined ⊢
        rw [hmined] at hwaits ⊢
        obtain ⟨before, _, wait, hbefore, _, rfl⟩ := drawWaits_succ_iff.1 hwaits
        have hlength := length_drawWaits hbefore
        -- the block is found once the waits before it are over
        obtain ⟨_, hpaced, htimes⟩ := paced_of_reaches hr
        obtain ⟨rfl, _⟩ := Prod.mk.inj (Except.ok.inj (hbefore.symm.trans hpaced))
        have htime : first.time = dueTime before s.world.mined := by
          rw [(Agenda.times_next hq htimes hmine).1, ← hlength, dueTime_length]
        have hsame : (List.range s.world.mined).map (dueTime (before ++ [wait])) =
            (List.range s.world.mined).map (dueTime before) := by
          refine List.map_congr_left fun k hk => dueTime_append ?_
          rw [hlength]
          exact (List.mem_range.1 hk).le
        rw [List.range_succ, List.map_append, hsame, ih hbefore, List.map_singleton,
          dueTime_append hlength.ge, htime]
      · rw [if_neg hmine] at hmined ⊢
        rw [Nat.add_zero] at hmined
        rw [List.append_nil, hmined]
        exact ih (hmined ▸ hwaits)

/-- No block is found after the bound, nor after the check that is to be made. -/
theorem early_of_reaches (hr : run.Reaches fresh supply h s) :
    ∀ t ∈ h.foundTimes, t < run.env.termination ∧ t ≤ checkTime h.checks := by
  induction hr with
  | start => exact fun _ ht => nomatch ht
  | @step h s s' e hr hstep ih =>
      obtain ⟨first, agenda, hq, hearly, hturn⟩ := exists_turn_of_step hstep
      have hchecks : h.checks ≤ History.checks (h ++ [e]) := by
        rw [History.checks_append]
        exact Nat.le_add_right _ _
      rw [foundTimes_append h hturn]
      intro t ht
      rcases List.mem_append.1 ht with ht | ht
      · exact (ih t ht).imp_right fun hle => hle.trans (checkTime_mono hchecks)
      · split at ht
        · obtain rfl := List.mem_singleton.1 ht
          obtain ⟨x, hx, htime⟩ := exists_check hr
          have hle := Agenda.time_le_of_next (sound_of_reaches hr) hq hx
          rw [htime] at hle
          exact ⟨hearly, hle.trans (checkTime_mono hchecks)⟩
        · contradiction

/-! ## the end of a run -/

/-- The block that is still to be found when a run ends is due later than all that count. -/
theorem due_of_finished (hr : run.Reaches fresh supply h s) {v : Verdict}
    (hstep : run.step s = .ok (.finished v s')) {x : Scheduled} (hx : x ∈ s.world.agenda.toList)
    (hmine : x.event = .mine) :
    (v.side = none → run.env.termination ≤ x.time) ∧ (v.side ≠ none → v.time < x.time) := by
  refine ⟨fun hside => late_of_unsettled hr hstep hside x hx, fun hside => ?_⟩
  cases ending_of_step hstep with
  | drained | timeUp | idle => contradiction
  | @settled first agenda side agreement hq _ hcheck _ =>
      have hrest : x ∈ agenda.toList := by
        refine (List.mem_cons.1 ((Agenda.toList_next hq).mem_iff.1 hx)).resolve_left ?_
        rintro rfl
        rw [hmine] at hcheck
        contradiction
      -- of a block and a check at the same time the block comes first
      have hbefore := Scheduled.notAfter_iff.1
        (Agenda.notAfter_of_next (sound_of_reaches hr) hq hrest)
      rw [hcheck, hmine] at hbefore
      simp only [Event.rank] at hbefore
      dsimp only
      omega

/-- How many blocks a run finds that is not resolved, and one that is. -/
theorem countsDue_of_finished (hr : run.Reaches fresh supply h s) {v : Verdict}
    (hstep : run.step s = .ok (.finished v s')) :
    (v.side = none → run.CountsDue supply (· < run.env.termination) s.world.mined) ∧
      (v.side ≠ none → run.CountsDue supply (· ≤ v.time) s.world.mined) := by
  obtain ⟨waits, hwaits, htimes⟩ := paced_of_reaches hr
  have hfound : ∀ k < s.world.mined, dueTime waits k ∈ h.foundTimes := by
    intro k hk
    rw [foundTimes_of_reaches hr hwaits]
    exact List.mem_map_of_mem (List.mem_range.2 hk)
  obtain ⟨x, hx, hmine, htime⟩ := Agenda.mem_times.1 (htimes ▸ List.mem_singleton_self _)
  rw [← dueTime_length, length_drawWaits hwaits] at htime
  obtain ⟨hunresolved, hresolved⟩ := due_of_finished hr hstep hx hmine
  rw [htime] at hunresolved hresolved
  constructor
  · intro hside
    refine countsDue_of_next (fun _ _ hle hlt => hle.trans_lt hlt) hwaits
      (fun k hk => (early_of_reaches hr _ (hfound k hk)).1) ?_
    exact Int.not_lt.2 (hunresolved hside)
  · intro hside
    refine countsDue_of_next (fun _ _ hle hlt => hle.trans hlt) hwaits (fun k hk => ?_) ?_
    · have hle := (early_of_reaches hr _ (hfound k hk)).2
      cases ending_of_step hstep with
      | drained | timeUp | idle => contradiction
      | settled hq _ hcheck _ => rwa [← time_of_check hr hq hcheck] at hle
    · exact Int.not_le.2 (hresolved hside)

/-- What keeps a run going in a state. -/
structure Clockwork (run : Run α) (supply : Supply σ) (h : History) (s : State α σ) : Prop where
  /-- One block is to be found. -/
  mine : s.world.agenda.toList.countP (·.event = .mine) = 1
  /-- One check is to be made. -/
  check : s.world.agenda.toList.countP (·.event = .check) = 1
  /-- Nothing is pending that only idles. -/
  idle : s.world.agenda.toList.countP (·.event = .idle) = 0
  /-- There is a next event, and the run does not idle at it. -/
  next : ∃ first agenda, s.world.agenda.next = some (first, agenda) ∧ first.event ≠ .idle
  /-- Blocks have been found when they were due, and so will be the next. -/
  due : ∃ waits, run.drawWaits s.world.mined supply = .ok (waits, s.world.supply) ∧
    h.foundTimes = (List.range s.world.mined).map (dueTime waits) ∧
    ∀ x ∈ s.world.agenda.toList, x.event = .mine → x.time = dueTime waits s.world.mined

theorem clockwork_of_reaches (hr : run.Reaches fresh supply h s) : run.Clockwork supply h s := by
  obtain ⟨waits, hwaits, htimes⟩ := paced_of_reaches hr
  have hchecks : s.world.agenda.times .check = [checkTime h.checks] := checks_of_reaches hr
  have hidle := ne_idle_of_reaches hr
  refine
    { mine := ?_
      check := ?_
      idle := List.countP_eq_zero.2 fun x hx => by simpa using hidle x hx
      next := ?_
      due := ⟨waits, hwaits, foundTimes_of_reaches hr hwaits, fun x hx hmine => ?_⟩ }
  · rw [← Agenda.length_times, htimes, List.length_singleton]
  · rw [← Agenda.length_times, hchecks, List.length_singleton]
  · cases hq : s.world.agenda.next with
    | none =>
        obtain ⟨x, hx, _⟩ := exists_check hr
        rw [Agenda.next_eq_none_iff.1 hq] at hx
        contradiction
    | some y =>
        exact ⟨y.1, y.2, rfl, hidle _ ((Agenda.toList_next hq).mem_iff.2 List.mem_cons_self)⟩
  · have hmem : x.time ∈ s.world.agenda.times .mine := Agenda.mem_times.2 ⟨x, hx, hmine, rfl⟩
    rw [htimes] at hmem
    rw [List.mem_singleton.1 hmem, ← length_drawWaits hwaits, dueTime_length]

/-- **A run is kept going by one block to be found and one check to be made.**  Its blocks are
as many as are due before the bound if the fork is not resolved, and up to the time of the
resolving check if it is.  No wait is negative, as long as no logarithm of a number below one
is positive. -/
theorem clockwork (run : Run α) (fresh : α) (supply : Supply σ) :
    (∀ h s, run.Reaches fresh supply h s → run.Clockwork supply h s) ∧
    (∀ events a o s', run.prepare fresh = .ok a → run.simulate events a supply = .ok (o, s') →
      (o.converged = false → run.CountsDue supply (· < run.env.termination) o.blocksMined) ∧
      (o.converged = true → run.CountsDue supply (· ≤ o.forkDuration) o.blocksMined)) ∧
    (run.env.Valid → (∀ w, ¬ 0 < Float.log (unitOfWord w)) →
      ∀ k waits rest, run.drawWaits k supply = .ok (waits, rest) → ∀ wait ∈ waits, 0 ≤ wait) := by
  refine ⟨fun h s hr => clockwork_of_reaches hr, fun events a o s' hprep hsim => ?_,
    fun hvalid hlog k waits rest => nonneg_of_drawWaits hvalid hlog⟩
  obtain ⟨h, s, v, hr, hstep, rfl⟩ := exists_reaches_of_simulate hprep hsim
  have hmined : (run.report v s').blocksMined = s.world.mined :=
    (ending_of_step hstep).counters_eq.2.1
  obtain ⟨hunresolved, hresolved⟩ := countsDue_of_finished hr hstep
  rw [hmined]
  refine ⟨fun hconverged => hunresolved ?_, fun hconverged => hresolved ?_⟩
  · exact Option.isNone_iff_eq_none.1 (Option.isSome_eq_false_iff.1 hconverged)
  · exact Option.isSome_iff_ne_none.1 hconverged

end Run

/-! ## a block at the last check -/

namespace Balancer

/-- The second block is found in the millisecond of the 1002nd check. -/
def tieEnvironment : Environment where
  nodes := 1
  degree := 1
  blockPeriod := 46048
  evilRate := 1

/-- A block that is found at the time of the check that ends the run counts, and then a third
one is pending. -/
theorem clockwork_tie :
    ∃ b o s, (run tieEnvironment solo margin).prepare {} = .ok b ∧
      (run tieEnvironment solo margin).simulate 1100 b steadySupply = .ok (o, s) ∧
      o.forkDuration = 50060 ∧ o.blocksMined = 2 ∧
      (run tieEnvironment solo margin).CountsDue steadySupply (· ≤ 50060) 2 ∧
      ∃ h s₁ v, (run tieEnvironment solo margin).Reaches {} steadySupply h s₁ ∧
        (run tieEnvironment solo margin).step s₁ = .ok (.finished v s) ∧
        (run tieEnvironment solo margin).Clockwork steadySupply h s₁ := by
  obtain ⟨b, o, s, hprep, hsim, ho⟩ := Run.exists_simulate_of_any
    (run tieEnvironment solo margin) {} steadySupply 1100
    (fun o => o.converged && o.forkDuration == 50060 && o.blocksMined == 2) (by decide +kernel)
  rw [Bool.and_eq_true, Bool.and_eq_true, beq_iff_eq, beq_iff_eq] at ho
  obtain ⟨⟨hconverged, htime⟩, hmined⟩ := ho
  obtain ⟨hstates, houtcomes, _⟩ := Run.clockwork (run tieEnvironment solo margin) {} steadySupply
  have hcounts := (houtcomes 1100 b o s hprep hsim).2 hconverged
  simp only [htime, hmined] at hcounts
  obtain ⟨h, s₁, v, hr, hstep, _⟩ := Run.exists_reaches_of_simulate hprep hsim
  exact ⟨b, o, s, hprep, hsim, htime, hmined, hcounts, h, s₁, v, hr, hstep, hstates h s₁ hr⟩

end Balancer

end BalanceAttack
