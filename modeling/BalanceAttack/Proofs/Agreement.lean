import BalanceAttack.Proofs.Opening
import BalanceAttack.Proofs.Sequel

/-!
# BalanceAttack.Proofs.Agreement

When a run finds the fork resolved.  Checks for agreement follow one another
every fifty milliseconds from the tenth on, and the fork is resolved as soon as
at 1002 of them in a row, without an exception, all honest nodes have favored
the same side:

* `checks_of_reaches` — at any time one check is pending, and when it is due;
* `Noted.settled`, `Noted.unsettled` — what the note of agreement stands for;
* `settlement` — what is reported of the run, whatever the adversary does.
-/

namespace BalanceAttack

open BalanceAttack.Random

/-- When a check is due, by its number. -/
def checkTime (k : Nat) : Int := Run.firstCheck + Run.checkInterval * k

theorem checkTime_succ (k : Nat) : checkTime (k + 1) = checkTime k + Run.checkInterval := by
  simp only [checkTime, Run.checkInterval]
  omega

/-! ## the note of agreement -/

/-- The nodes agree on a side if there are nodes, and all of them favor it. -/
theorem agreedSide_eq_some_iff {nodes : Array View} {side : Side} :
    World.agreedSide nodes = some side ↔ 0 < nodes.size ∧ ∀ v ∈ nodes, v.side = side := by
  unfold World.agreedSide
  cases hfirst : nodes[0]? with
  | none =>
      have hsize := Array.getElem?_eq_none_iff.1 hfirst
      constructor
      · exact fun h => by contradiction
      · exact fun h => absurd h.1 (Nat.not_lt.2 hsize)
  | some first =>
      have hsize := (Array.getElem?_eq_some_iff.1 hfirst).1
      have hmem := Array.mem_of_getElem? hfirst
      have hiff : (nodes.all (·.side = first.side)) = true ↔ ∀ v ∈ nodes, v.side = first.side := by
        rw [Array.all_eq_true_iff_forall_mem]
        simp only [decide_eq_true_eq]
      dsimp only
      by_cases hall : ∀ v ∈ nodes, v.side = first.side
      · rw [if_pos (hiff.2 hall), Option.some.injEq]
        constructor
        · rintro rfl
          exact ⟨hsize, hall⟩
        · exact fun h => h.2 first hmem
      · rw [if_neg fun h => hall (hiff.1 h)]
        constructor
        · exact fun h => by contradiction
        · exact fun h => absurd (fun v hv => (h.2 v hv).trans (h.2 first hmem).symm) hall

section

variable {seen : Nat → Option Side → Prop} {m : Nat} {σ : Type} {w : World σ}

/-- At 1002 checks in a row, the last of them check `m`, a side was seen to be agreed on. -/
def Lasting (seen : Nat → Option Side → Prop) (m : Nat) (side : Side) : Prop :=
  1001 ≤ m ∧ ∀ j ≤ 1001, seen (m - j) (some side)

/-- What the note of agreement says before check `m`: the side seen at the last
check, and the first check since which it was seen at all of them. -/
def Noted (seen : Nat → Option Side → Prop) (m : Nat) : Option (Int × Side) → Prop
  | none => m = 0 ∨ seen (m - 1) none
  | some (since, side) => ∃ j < m, since = checkTime j ∧ m ≤ j + 1001 ∧
      (∀ i, j ≤ i → i < m → seen i (some side)) ∧ (j = 0 ∨ ¬ seen (j - 1) (some side))

/-- A check that ends the run has seen the same side 1002 times. -/
theorem Noted.settled (hn : Noted seen m w.agreement) (hclock : w.clock = checkTime m)
    (hseen : seen m (World.agreedSide w.nodes)) {side : Side}
    (hs : w.checkAgreement.1 = some side) : Lasting seen m side := by
  unfold World.checkAgreement at hs
  cases hagreed : World.agreedSide w.nodes with
  | none =>
      rw [hagreed] at hs
      contradiction
  | some agreed =>
      rw [hagreed] at hs hseen
      cases hnote : w.agreement with
      | none =>
          rw [hnote] at hs
          contradiction
      | some note =>
          obtain ⟨since, noted⟩ := note
          rw [hnote] at hs hn
          obtain ⟨j, hj, hsince, _, hall, _⟩ := hn
          dsimp only at hs
          split at hs
          · next hsame =>
              subst hsame
              dsimp only at hs
              split at hs
              · next hlong =>
                  obtain rfl := Option.some.inj hs
                  simp only [hclock, hsince, World.dwell, checkTime, Run.firstCheck,
                    Run.checkInterval] at hlong
                  refine ⟨by omega, fun i hi => ?_⟩
                  by_cases hzero : i = 0
                  · rw [hzero]
                    exact hseen
                  · exact hall (m - i) (by omega) (by omega)
              · contradiction
          · contradiction

/-- A side that was not agreed on at the check before has not lasted. -/
theorem Noted.restart (hfun : ∀ k o o', seen k o → seen k o' → o = o') {side : Side}
    (hseen : seen m (some side)) (hbefore : m = 0 ∨ ¬ seen (m - 1) (some side)) :
    Noted seen (m + 1) (some (checkTime m, side)) ∧ ∀ side, ¬ Lasting seen m side := by
  constructor
  · refine ⟨m, Nat.lt_succ_self m, rfl, by omega, fun i hi hi' => ?_, hbefore⟩
    obtain rfl : i = m := by omega
    exact hseen
  · rintro side' ⟨hm, hall⟩
    obtain rfl := Option.some.inj (hfun m _ _ (hall 0 (by omega)) hseen)
    rcases hbefore with hzero | hbefore
    · omega
    · exact hbefore (hall 1 (by omega))

/-- A side that has been agreed on since the noted check has not lasted either,
unless that was long ago. -/
theorem Noted.extend (hfun : ∀ k o o', seen k o → seen k o' → o = o') {since : Int} {side : Side}
    (hn : Noted seen m (some (since, side))) (hseen : seen m (some side))
    (hshort : ¬ World.dwell < checkTime m - since) :
    Noted seen (m + 1) (some (since, side)) ∧ ∀ side, ¬ Lasting seen m side := by
  obtain ⟨j, hj, hsince, _, hall, hbefore⟩ := hn
  have hle : m + 1 ≤ j + 1001 := by
    simp only [hsince, World.dwell, checkTime, Run.firstCheck, Run.checkInterval] at hshort
    omega
  constructor
  · refine ⟨j, by omega, hsince, hle, fun i hi hi' => ?_, hbefore⟩
    rcases Nat.lt_or_eq_of_le (Nat.le_of_lt_succ hi') with hlt | rfl
    · exact hall i hi hlt
    · exact hseen
  · rintro side' ⟨hm, hlast⟩
    obtain rfl := Option.some.inj (hfun m _ _ (hlast 0 (by omega)) hseen)
    rcases hbefore with hzero | hbefore
    · omega
    · -- the check before the noted one is among the last 1002
      have hj' : m - (m - (j - 1)) = j - 1 := by omega
      have hcheck := hlast (m - (j - 1)) (by omega)
      rw [hj'] at hcheck
      exact hbefore hcheck

/-- A check that does not end the run leaves the note in order, and has not seen
the same side 1002 times. -/
theorem Noted.unsettled (hfun : ∀ k o o', seen k o → seen k o' → o = o')
    (hn : Noted seen m w.agreement) (hclock : w.clock = checkTime m)
    (hseen : seen m (World.agreedSide w.nodes)) (hs : w.checkAgreement.1 = none) :
    Noted seen (m + 1) w.checkAgreement.2.agreement ∧ ∀ side, ¬ Lasting seen m side := by
  unfold World.checkAgreement at hs ⊢
  cases hagreed : World.agreedSide w.nodes with
  | none =>
      rw [hagreed] at hseen
      refine ⟨.inr hseen, fun side hl => ?_⟩
      have hsome := hfun m _ _ (hl.2 0 (by omega)) hseen
      contradiction
  | some agreed =>
      rw [hagreed] at hs hseen
      cases hnote : w.agreement with
      | none =>
          rw [hnote] at hn
          dsimp only
          rw [hclock]
          refine Noted.restart hfun hseen (hn.imp_right fun hnone hsome => ?_)
          have heq := hfun _ _ _ hnone hsome
          contradiction
      | some note =>
          obtain ⟨since, noted⟩ := note
          rw [hnote] at hs hn
          dsimp only at hs ⊢
          by_cases hsame : noted = agreed
          · subst hsame
            rw [if_pos rfl] at hs ⊢
            dsimp only at hs ⊢
            split at hs
            · contradiction
            · next hshort =>
                rw [hclock] at hshort
                rw [hnote]
                exact hn.extend hfun hseen hshort
          · rw [if_neg hsame]
            dsimp only
            rw [hclock]
            obtain ⟨j, hj, _, _, hall, _⟩ := hn
            refine Noted.restart hfun hseen (.inr fun hsome => ?_)
            have heq := hfun _ _ _ (hall (m - 1) (by omega) (by omega)) hsome
            exact hsame (Option.some.inj heq)

end

/-! ## the checks of a run -/

namespace Run

variable {α σ : Type} {run : Run α} {fresh : α}

/-- A check schedules the next one, and no other event does. -/
theorem checks_of_turn {a : α} {w : World σ} {event : Event} {e : Entry} {s : State α σ}
    (h : Turn run a w event e s) :
    s.world.agenda.checks.Perm
      ((if event = .check then [w.clock + checkInterval] else []) ++ w.agenda.checks) := by
  cases h with
  | evil => exact Agenda.times_push_of_ne _ _ (by simp)
  | honest _ hevents =>
      refine .trans (Agenda.times_pushAll_of_ne _ fun x hx => ?_)
        (Agenda.times_push_of_ne _ _ (by simp))
      rcases List.mem_append.1 hx with hx | hx
      · obtain ⟨_, _, _, _, peer, rfl⟩ := World.mem_arrivals hevents hx
        simp
      · rw [List.mem_singleton.1 hx]
        simp
  | known => exact .refl _
  | new => exact Agenda.times_push_of_ne _ _ (by simp)
  | told _ _ hevents =>
      refine Agenda.times_pushAll_of_ne _ fun x hx => ?_
      obtain ⟨y, _, peer, hpeer⟩ := World.mem_released hevents hx
      rw [hpeer]
      simp
  | checked => exact Agenda.times_push _ _ _
  | idle => exact .refl _

variable [WordSource σ] {supply : Supply σ} {h : History} {s : State α σ}

/-- There is always one check pending, the one after those that have been made. -/
theorem checks_of_reaches (hr : run.Reaches fresh supply h s) :
    s.world.agenda.checks = [checkTime h.checks] := by
  induction hr with
  | start _ hstart => exact (times_of_start hstart).2
  | step _ hstep ih =>
      obtain ⟨first, agenda, hq, _, hturn⟩ := exists_turn_of_step hstep
      have hperm := checks_of_turn hturn
      rw [History.checks_append, event_of_turn hturn]
      by_cases hcheck : first.event = .check
      · obtain ⟨htime, hrest⟩ : first.time = _ ∧ agenda.checks = [] :=
          Agenda.times_next hq ih hcheck
        rw [if_pos hcheck] at hperm ⊢
        rw [checkTime_succ, ← htime]
        rw [hrest] at hperm
        exact List.perm_singleton.1 hperm
      · have hrest : agenda.checks = _ := Agenda.times_next_of_ne hq ih hcheck
        rw [if_neg hcheck, hrest] at hperm
        rw [if_neg hcheck, Nat.add_zero]
        exact List.perm_singleton.1 hperm

/-- A check is due when its number says. -/
theorem time_of_check (hr : run.Reaches fresh supply h s) {first : Scheduled} {agenda : Agenda}
    (hq : s.world.agenda.next = some (first, agenda)) (hcheck : first.event = .check) :
    first.time = checkTime h.checks :=
  (Agenda.times_next hq (checks_of_reaches hr) hcheck).1

/-- The history counts a check once it has been made. -/
theorem checks_lt_of_check {h' : History} {s' : State α σ} (hr : run.Reaches fresh supply h s)
    (hr' : run.Reaches fresh supply h' s') (hlength : h.length < h'.length) {first : Scheduled}
    {agenda : Agenda} (hq : s.world.agenda.next = some (first, agenda))
    (hcheck : first.event = .check) : h.checks < h'.checks := by
  obtain ⟨e, s₁, hstep, hprefix⟩ := hr.exists_step hr' hlength
  obtain ⟨first', agenda', hq', _, hturn⟩ := exists_turn_of_step hstep
  rw [hq] at hq'
  obtain ⟨rfl, rfl⟩ := Prod.mk.inj (Option.some.inj hq')
  have hle : History.checks (h ++ [e]) ≤ h'.checks := hprefix.sublist.countP_le
  rw [History.checks_append, event_of_turn hturn, if_pos hcheck] at hle
  exact hle

/-! ## what the checks see -/

/-- What check `k` saw: the side that all honest nodes favored, if there was one. -/
def Saw (run : Run α) (fresh : α) (supply : Supply σ) (k : Nat) (agreed : Option Side) : Prop :=
  ∃ h s first agenda, run.Reaches fresh supply h s ∧
    s.world.agenda.next = some (first, agenda) ∧ first.event = .check ∧ h.checks = k ∧
    World.agreedSide s.world.nodes = agreed

/-- A check sees one thing. -/
theorem Saw.unique {k : Nat} {agreed agreed' : Option Side} (hs : run.Saw fresh supply k agreed)
    (hs' : run.Saw fresh supply k agreed') : agreed = agreed' := by
  obtain ⟨h, s, first, agenda, hr, hq, hcheck, rfl, rfl⟩ := hs
  obtain ⟨h', s', first', agenda', hr', hq', hcheck', hk, rfl⟩ := hs'
  rcases Nat.lt_trichotomy h.length h'.length with hlt | heq | hgt
  · have hlt := checks_lt_of_check hr hr' hlt hq hcheck
    omega
  · obtain ⟨_, rfl⟩ := hr.unique hr' heq
    rfl
  · have hlt := checks_lt_of_check hr' hr hgt hq' hcheck'
    omega

/-- A run that has been followed to a check shows what it sees. -/
theorem saw_of_any {n k : Nat} {agreed : Option Side}
    (h : (run.follow fresh supply n).any (fun x =>
      x.2.world.agenda.next.any (·.1.event = .check) ∧ x.1.checks = k ∧
        World.agreedSide x.2.world.nodes = agreed) = true) : run.Saw fresh supply k agreed := by
  obtain ⟨h, s, hr, hlast⟩ := exists_reaches_of_any h
  obtain ⟨hnext, hchecks, hagreed⟩ := of_decide_eq_true hlast
  obtain ⟨⟨first, agenda⟩, hq, hcheck⟩ := (Option.any_eq_true _ _).1 hnext
  exact ⟨h, s, first, agenda, hr, hq, of_decide_eq_true hcheck, hchecks, hagreed⟩

/-- The note of agreement is in order, and the fork was not resolved before. -/
structure Tracked (run : Run α) (fresh : α) (supply : Supply σ) (h : History) (s : State α σ) :
    Prop where
  noted : Noted (run.Saw fresh supply) h.checks s.world.agreement
  unsettled : ∀ k < h.checks, ∀ side, ¬ Lasting (run.Saw fresh supply) k side

theorem Tracked.step (hr : run.Reaches fresh supply h s) (ht : Tracked run fresh supply h s)
    {e : Entry} {s' : State α σ} (hstep : run.step s = .ok (.running e s')) :
    Tracked run fresh supply (h ++ [e]) s' := by
  obtain ⟨first, agenda, hq, _, hturn⟩ := exists_turn_of_step hstep
  have hcount := History.checks_append h e
  rw [event_of_turn hturn] at hcount
  rcases agreement_of_turn hturn with ⟨hne, hsame⟩ | ⟨hcheck, hnone, hnote⟩
  · rw [if_neg hne, Nat.add_zero] at hcount
    constructor
    · rw [hcount, hsame]
      exact ht.noted
    · rw [hcount]
      exact ht.unsettled
  · rw [if_pos hcheck] at hcount
    have hseen : run.Saw fresh supply h.checks (World.agreedSide s.world.nodes) :=
      ⟨h, s, first, agenda, hr, hq, hcheck, rfl, rfl⟩
    have hfun : ∀ k o o', run.Saw fresh supply k o → run.Saw fresh supply k o' → o = o' :=
      fun _ _ _ => Saw.unique
    obtain ⟨hnoted, hlast⟩ := Noted.unsettled (w := { s.world with clock := first.time, agenda })
      hfun ht.noted (time_of_check hr hq hcheck) hseen hnone
    constructor
    · rw [hcount, hnote]
      exact hnoted
    · intro k hk
      rw [hcount] at hk
      rcases Nat.lt_or_eq_of_le (Nat.le_of_lt_succ hk) with hlt | rfl
      · exact ht.unsettled k hlt
      · exact hlast

theorem tracked_of_reaches (hsq : run.network.distances.Square run.network.size)
    (hr : run.Reaches fresh supply h s) : Tracked run fresh supply h s := by
  induction hr with
  | start _ hstart =>
      obtain ⟨w, hw, _, hworld⟩ := exists_seeded_of_start hsq hstart
      have hnote : w.agreement = none := by
        rw [hw.rest]
        rfl
      have hagreement : World.agreement (w.schedule [(0, .mine), (firstCheck, .check)]) = none :=
        hnote
      refine ⟨?_, fun k hk => absurd hk (Nat.not_lt_zero k)⟩
      rw [hworld, hagreement]
      exact .inl rfl
  | step hr hstep ih => exact ih.step hr hstep

/-! ## the end of a run -/

/-- A run that finds the fork resolved does so at a check before the time is up. -/
theorem lasting_of_finished (hsq : run.network.distances.Square run.network.size)
    (hr : run.Reaches fresh supply h s) {v : Verdict} {s' : State α σ} {side : Side}
    (hstep : run.step s = .ok (.finished v s')) (hside : v.side = some side) :
    v.time = checkTime h.checks ∧ v.time < run.env.termination ∧
      Lasting (run.Saw fresh supply) h.checks side := by
  cases ending_of_step hstep with
  | drained | timeUp | idle => contradiction
  | @settled first agenda side' agreement hq hearly hcheck hagreed =>
      obtain rfl := Option.some.inj hside
      have htime := time_of_check hr hq hcheck
      have hseen : run.Saw fresh supply h.checks (World.agreedSide s.world.nodes) :=
        ⟨h, s, first, agenda, hr, hq, hcheck, rfl, rfl⟩
      have hlasting := Noted.settled (w := { s.world with clock := first.time, agenda })
        (tracked_of_reaches hsq hr).noted htime hseen (congrArg Prod.fst hagreed)
      exact ⟨htime, hearly, hlasting⟩

/-- A run that does not find the fork resolved is over when its time is up. -/
theorem time_of_unsettled {v : Verdict} {s' : State α σ}
    (hstep : run.step s = .ok (.finished v s')) (hside : v.side = none) :
    v.time = run.env.termination := by
  cases ending_of_step hstep with
  | drained | timeUp | idle => rfl
  | settled => contradiction

/-- At the first check at which a side has lasted, the run is over. -/
theorem finished_of_lasting (hsq : run.network.distances.Square run.network.size)
    (hr : run.Reaches fresh supply h s) {v : Verdict} {s' : State α σ}
    (hstep : run.step s = .ok (.finished v s')) {k : Nat} {side : Side}
    (hearly : checkTime k < run.env.termination) (hl : Lasting (run.Saw fresh supply) k side) :
    v = ⟨checkTime k, some side⟩ := by
  obtain ⟨h₁, s₁, first, agenda, hr₁, hq, hcheck, rfl, hagreed⟩ := hl.2 0 (Nat.zero_le _)
  rcases Nat.lt_trichotomy h₁.length h.length with hlt | heq | hgt
  · -- the check has been made, and the run went on
    have hmade := checks_lt_of_check hr₁ hr hlt hq hcheck
    exact absurd hl ((tracked_of_reaches hsq hr).unsettled _ hmade side)
  · obtain ⟨rfl, rfl⟩ := hr₁.unique hr heq
    have htime := time_of_check hr hq hcheck
    cases ending_of_step hstep with
    | drained hnone =>
        rw [hq] at hnone
        contradiction
    | timeUp hq' hlate =>
        rw [hq] at hq'
        obtain ⟨rfl, _⟩ := Prod.mk.inj (Option.some.inj hq')
        rw [htime] at hlate
        omega
    | idle hq' hidle =>
        rw [hq] at hq'
        obtain ⟨rfl, _⟩ := Prod.mk.inj (Option.some.inj hq')
        rw [hcheck] at hidle
        contradiction
    | settled =>
        obtain ⟨hend, _, hlast⟩ := lasting_of_finished hsq hr hstep rfl
        obtain rfl := Option.some.inj ((hlast.2 0 (Nat.zero_le _)).unique (hl.2 0 (Nat.zero_le _)))
        rw [Verdict.mk.injEq]
        exact ⟨hend, rfl⟩
  · -- nothing is reached after the end
    obtain ⟨e, s₂, hstep', _⟩ := hr.exists_step hr₁ hgt
    rw [hstep] at hstep'
    have hprogress := Except.ok.inj hstep'
    contradiction

/-! ## what is reported -/

/-- There is a check at a time, and all honest nodes favor a side at it. -/
def FavoredAt (run : Run α) (fresh : α) (supply : Supply σ) (t : Int) (side : Side) : Prop :=
  ∃ h s first agenda, run.Reaches fresh supply h s ∧
    s.world.agenda.next = some (first, agenda) ∧ first.event = .check ∧ first.time = t ∧
    ∀ v ∈ s.world.nodes, v.side = side

/-- The honest nodes settle on a side at a time: at the 1002 checks in a row of
which it is the last, all of them favor the side. -/
def SettledAt (run : Run α) (fresh : α) (supply : Supply σ) (t : Int) (side : Side) : Prop :=
  (∃ k : Nat, t = 10 + 50 * k) ∧ t < run.env.termination ∧ 10 ≤ t - 50050 ∧
    ∀ j : Nat, j ≤ 1001 → run.FavoredAt fresh supply (t - 50 * j) side

theorem size_ne_zero_of_prepare {a : α} (hprep : run.prepare fresh = .ok a) :
    run.network.size ≠ 0 := by
  unfold prepare at hprep
  split at hprep
  · contradiction
  · split at hprep
    · contradiction
    · next hsize => exact hsize

theorem favoredAt_checkTime (hsq : run.network.distances.Square run.network.size)
    (hsize : run.network.size ≠ 0) {k : Nat} {side : Side} :
    run.FavoredAt fresh supply (checkTime k) side ↔ run.Saw fresh supply k (some side) := by
  constructor
  · rintro ⟨h, s, first, agenda, hr, hq, hcheck, htime, hall⟩
    have hk := time_of_check hr hq hcheck
    have hnodes : 0 < s.world.nodes.size := by
      rw [size_nodes_of_reaches hsq hr]
      omega
    refine ⟨h, s, first, agenda, hr, hq, hcheck, ?_, agreedSide_eq_some_iff.2 ⟨hnodes, hall⟩⟩
    rw [htime] at hk
    simp only [checkTime, firstCheck, checkInterval] at hk
    omega
  · rintro ⟨h, s, first, agenda, hr, hq, hcheck, rfl, hagreed⟩
    have htime := time_of_check hr hq hcheck
    exact ⟨h, s, first, agenda, hr, hq, hcheck, htime, (agreedSide_eq_some_iff.1 hagreed).2⟩

/-- To settle at a time is to have lasted at the check that is due then. -/
theorem settledAt_iff (hsq : run.network.distances.Square run.network.size)
    (hsize : run.network.size ≠ 0) {t : Int} {side : Side} :
    run.SettledAt fresh supply t side ↔
      ∃ k, t = checkTime k ∧ t < run.env.termination ∧ Lasting (run.Saw fresh supply) k side := by
  have hback : ∀ k j : Nat, j ≤ k → checkTime k - 50 * j = checkTime (k - j) := by
    intro k j hj
    simp only [checkTime, checkInterval]
    omega
  constructor
  · rintro ⟨⟨k, hk⟩, hearly, hfirst, hall⟩
    refine ⟨k, hk, hearly, by omega, fun j hj => ?_⟩
    have hfavored := hall j hj
    have ht : t = checkTime k := hk
    rw [ht, hback k j (by omega)] at hfavored
    exact (favoredAt_checkTime hsq hsize).1 hfavored
  · rintro ⟨k, rfl, hearly, hk, hall⟩
    refine ⟨⟨k, rfl⟩, hearly, ?_, fun j hj => ?_⟩
    · simp only [checkTime, firstCheck, checkInterval]
      omega
    · rw [hback k j (by omega)]
      exact (favoredAt_checkTime hsq hsize).2 (hall j hj)

/-- The first time at which the honest nodes settle on a side. -/
def FirstSettledAt (run : Run α) (fresh : α) (supply : Supply σ) (t : Int) (side : Side) : Prop :=
  run.SettledAt fresh supply t side ∧ ∀ t', run.SettledAt fresh supply t' side → t ≤ t'

/-- What is reported of a run, told by what its checks have seen. -/
structure Settlement (run : Run α) (fresh : α) (supply : Supply σ) (o : Outcome) : Prop where
  /-- The fork is reported as resolved when the nodes first settle on a side. -/
  resolved_iff : ∀ t side, o.forkDuration = t ∧ o.convergedSide = some side ↔
    run.FirstSettledAt fresh supply t side
  /-- If they never do, the bound is reported. -/
  unresolved : (∀ t side, ¬ run.FirstSettledAt fresh supply t side) →
    o.forkDuration = run.env.termination ∧ o.convergedSide = none
  /-- A fork is resolved at a check, not before the 1002nd and before the bound. -/
  bounds : o.convergedSide ≠ none →
    o.forkDuration % 50 = 10 ∧ 50060 ≤ o.forkDuration ∧ o.forkDuration < run.env.termination
  /-- Before the 1002nd check no fork is resolved. -/
  short : run.env.termination ≤ 50060 →
    o.forkDuration = run.env.termination ∧ o.convergedSide = none

theorem settlement_of_finished (hsq : run.network.distances.Square run.network.size)
    (hsize : run.network.size ≠ 0) (hr : run.Reaches fresh supply h s) {v : Verdict}
    {s' : State α σ} (hstep : run.step s = .ok (.finished v s')) :
    Settlement run fresh supply (run.report v s') := by
  -- the run is over at the first time at which the nodes settle, and so at the only one
  have hsettled : ∀ t side, run.SettledAt fresh supply t side → v = ⟨t, some side⟩ := by
    intro t side ht
    obtain ⟨k, rfl, hearly, hl⟩ := (settledAt_iff hsq hsize).1 ht
    exact finished_of_lasting hsq hr hstep hearly hl
  have hresolved : ∀ side, v.side = some side → run.FirstSettledAt fresh supply v.time side := by
    intro side hside
    obtain ⟨htime, hearly, hl⟩ := lasting_of_finished hsq hr hstep hside
    refine ⟨(settledAt_iff hsq hsize).2 ⟨h.checks, htime, hearly, hl⟩, fun t' ht' => ?_⟩
    exact Int.le_of_eq (congrArg Verdict.time (hsettled t' side ht'))
  have hbounds : v.side ≠ none →
      v.time % 50 = 10 ∧ 50060 ≤ v.time ∧ v.time < run.env.termination := by
    intro hside
    obtain ⟨side, hside⟩ := Option.ne_none_iff_exists'.1 hside
    obtain ⟨⟨⟨k, hk⟩, hearly, hfirst, _⟩, _⟩ := hresolved side hside
    omega
  have hover : (∀ side, v.side ≠ some side) →
      v.time = run.env.termination ∧ v.side = none := by
    intro hnot
    have hnone := Option.eq_none_iff_forall_ne_some.2 hnot
    exact ⟨time_of_unsettled hstep hnone, hnone⟩
  refine
    { resolved_iff := fun t side => ⟨?_, fun ht => ?_⟩
      unresolved := fun hnone => hover fun side hside => hnone v.time side (hresolved side hside)
      bounds := hbounds
      short := fun hshort => hover fun side hside => ?_ }
  · rintro ⟨rfl, hside⟩
    exact hresolved side hside
  · have hv := hsettled t side ht.1
    exact ⟨congrArg Verdict.time hv, congrArg Verdict.side hv⟩
  · have hlong := hbounds (by rw [hside]; exact Option.some_ne_none side)
    omega

/-- **A fork is resolved exactly when the nodes have favored one side without a
break.**  In any state of a run the count is kept since the check at which they
took to the side, and what is reported of the run is when they settled on it. -/
theorem settlement (hsq : run.network.distances.Square run.network.size) :
    (∀ (h : History) (s : State α σ), run.Reaches fresh supply h s →
      Noted (run.Saw fresh supply) h.checks s.world.agreement) ∧
    (∀ (events : Nat) (a : α) (o : Outcome) (s' : State α σ), run.prepare fresh = .ok a →
      run.simulate events a supply = .ok (o, s') → Settlement run fresh supply o) := by
  refine ⟨fun h s hr => (tracked_of_reaches hsq hr).noted, ?_⟩
  intro events a o s' hprep hsim
  obtain ⟨h, s, v, hr, hstep, rfl⟩ := exists_reaches_of_simulate hprep hsim
  exact settlement_of_finished hsq (size_ne_zero_of_prepare hprep) hr hstep

end Run

/-! ## two nodes that take a long time to agree -/

namespace Balancer

/-- Two nodes, nearly as far apart as two checks. -/
def apart : Network where
  distances := #[#[0, 45], #[45, 0]]
  diameter := 45

/-- Hardly any block is found, and only by the adversary, which sends its first two. -/
def apartEnvironment : Environment where
  nodes := 2
  degree := 1
  blockPeriod := 1000000000
  evilRate := 1
  oneWayLatency := 20

theorem square_apart : apart.distances.Square apart.size := by
  constructor
  · rfl
  · decide

/-- The nodes agree at every second check, first on the right side, then on the left one, and
from the sixth check on, which is made after 260 milliseconds, on the right one. -/
theorem settlement_apart :
    ∃ b o s', (run apartEnvironment apart fun _ => 0).prepare {} = .ok b ∧
      (run apartEnvironment apart fun _ => 0).simulate 1100 b pairSupply = .ok (o, s') ∧
      (∀ k < 6, (run apartEnvironment apart fun _ => 0).Saw {} pairSupply k
        ([none, some .right, none, some .left, none, some .right].getD k none)) ∧
      (∃ h s, (run apartEnvironment apart fun _ => 0).Reaches {} pairSupply h s ∧
        h.checks = 4 ∧ s.world.agreement = some (160, .left) ∧
        Noted ((run apartEnvironment apart fun _ => 0).Saw {} pairSupply) 4 (some (160, .left))) ∧
      o.forkDuration = 50310 ∧ o.convergedSide = some .right ∧
      (run apartEnvironment apart fun _ => 0).FirstSettledAt {} pairSupply 50310 .right := by
  obtain ⟨b, o, s', hprep, hsim, ho⟩ := Run.exists_simulate_of_any
    (run apartEnvironment apart fun _ => 0) {} pairSupply 1100
    (fun o => o.forkDuration == 50310 && o.convergedSide == some .right) (by decide +kernel)
  rw [Bool.and_eq_true, beq_iff_eq, beq_iff_eq] at ho
  obtain ⟨hnoted, hsettlement⟩ := @Run.settlement _ _ (run apartEnvironment apart fun _ => 0) {} _
    pairSupply square_apart
  have hfirst := (hsettlement 1100 b o s' hprep hsim).resolved_iff 50310 .right
  have hfour : ((run apartEnvironment apart fun _ => 0).follow {} pairSupply 12).any (fun x =>
      x.1.checks = 4 ∧ x.2.world.agreement = some (160, .left)) = true := by
    decide +kernel
  obtain ⟨h, s, hr, hs⟩ := Run.exists_reaches_of_any hfour
  obtain ⟨hchecks, hagreement⟩ := of_decide_eq_true hs
  have hnote := hnoted h s hr
  rw [hchecks, hagreement] at hnote
  refine ⟨b, o, s', hprep, hsim, fun k hk => ?_, ⟨h, s, hr, hchecks, hagreement, hnote⟩, ho.1,
    ho.2, hfirst.1 ho⟩
  -- the number of events before each of the checks
  refine Run.saw_of_any (n := [2, 4, 8, 11, 14, 17].getD k 0) ?_
  revert k
  decide +kernel

end Balancer

end BalanceAttack
