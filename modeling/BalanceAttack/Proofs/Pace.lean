import BalanceAttack.Proofs.Hindrance
import Mathlib.Algebra.Ring.Int.Defs

/-!
# BalanceAttack.Proofs.Pace

When blocks are found.  What is drawn at a block does not hang on what the
adversary knows, so the waits of a run are read off its supply of words in
advance: `drawWaits`.  The next block is found once the waits drawn so far are
over, and no more blocks are found than it takes to wait until the end:

* `paced_of_reaches` — the supply and the next block of every state;
* `mined_le_of_reaches` — waits that are long enough bound the number of blocks;
* `exists_drawBlock_of_reaches` — until then no draw is hindered.
-/

namespace BalanceAttack.Run

open BalanceAttack.Random

variable {α σ : Type} [WordSource σ] {run : Run α} {fresh : α} {supply rest : Supply σ}
  {h : History} {s s' : State α σ} {e : Entry} {waits : List Int}

/-- The waits that are drawn at the first so many blocks. -/
def drawWaits (run : Run α) : Nat → Draw σ (List Int)
  | 0 => pure []
  | k + 1 => do
    let waits ← run.drawWaits k
    let wait ← run.drawBlock
    return waits ++ [wait]

theorem drawWaits_succ_iff {k : Nat} :
    run.drawWaits (k + 1) supply = .ok (waits, rest) ↔
      ∃ before between wait, run.drawWaits k supply = .ok (before, between) ∧
        run.drawBlock between = .ok (wait, rest) ∧ waits = before ++ [wait] := by
  constructor
  · intro h
    obtain ⟨before, between, hbefore, h⟩ := Draw.bind_eq_ok_iff.1 h
    obtain ⟨wait, _, hwait, h⟩ := Draw.bind_eq_ok_iff.1 h
    obtain ⟨rfl, rfl⟩ := Prod.mk.inj (Except.ok.inj h)
    exact ⟨before, between, wait, hbefore, hwait, rfl⟩
  · rintro ⟨before, between, wait, hbefore, hwait, rfl⟩
    exact Draw.bind_eq_ok_iff.2 ⟨before, between, hbefore,
      Draw.bind_eq_ok_iff.2 ⟨wait, rest, hwait, rfl⟩⟩

/-- To draw the waits at some blocks is to draw those at fewer blocks first. -/
theorem exists_drawWaits_of_le {j k : Nat} (hjk : j ≤ k)
    (h : run.drawWaits k supply = .ok (waits, rest)) :
    ∃ before between, run.drawWaits j supply = .ok (before, between) := by
  induction hjk generalizing waits rest with
  | refl => exact ⟨waits, rest, h⟩
  | step _ ih =>
      obtain ⟨_, _, _, hbefore, _⟩ := drawWaits_succ_iff.1 h
      exact ih hbefore

/-! ## one block -/

/-- At a block one wait is drawn, after which the next block is to be found. -/
theorem draws_of_mining {a : α} {w : World σ} (h : Mining run a w e s) :
    ∃ wait, run.drawBlock w.supply = .ok (wait, s.world.supply) ∧
      (s.world.agenda.times .mine).Perm ((w.clock + wait) :: w.agenda.times .mine) := by
  cases h with
  | @evil wait chance supply₁ supply₂ _ _ _ hwaited hfell hlow =>
      refine ⟨wait, Draw.bind_eq_ok_iff.2 ⟨wait, supply₁, hwaited, Draw.bind_eq_ok_iff.2
        ⟨chance, supply₂, hfell, ?_⟩⟩, Agenda.times_push _ _ _⟩
      rw [if_pos hlow]
      rfl
  | @honest wait chance supply₁ supply₂ supply₃ miner _ _ hwaited hfell hhigh hdrawn _ hevents =>
      refine ⟨wait, Draw.bind_eq_ok_iff.2 ⟨wait, supply₁, hwaited, Draw.bind_eq_ok_iff.2
        ⟨chance, supply₂, hfell, ?_⟩⟩, ?_⟩
      · rw [if_neg hhigh]
        exact Draw.bind_eq_ok_iff.2 ⟨miner, supply₃, hdrawn, rfl⟩
      · refine (Agenda.times_pushAll_of_ne _ fun x hx => ?_).trans (Agenda.times_push _ _ _)
        rcases List.mem_append.1 hx with hx | hx
        · obtain ⟨_, _, _, _, peer, rfl⟩ := World.mem_arrivals hevents hx
          simp
        · rw [List.mem_singleton.1 hx]
          simp

omit [WordSource σ] in
theorem supply_of_turn {a : α} {w : World σ} {event : Event} (h : Turn run a w event e s)
    (hne : event ≠ .mine) : s.world.supply = w.supply := by
  cases h with
  | evil | honest => contradiction
  | known | new | told | checked | idle => rfl

/-! ## the blocks of a run -/

/-- The waits drawn so far are those at the first blocks, and the next block is
found once they are over. -/
theorem paced_of_reaches (hr : run.Reaches fresh supply h s) :
    ∃ waits, run.drawWaits s.world.mined supply = .ok (waits, s.world.supply) ∧
      s.world.agenda.times .mine = [waits.sum] := by
  induction hr with
  | start _ hstart =>
      obtain ⟨_, hmined, hsupply⟩ := rooted_of_start hstart
      refine ⟨[], ?_, (times_of_start hstart).1⟩
      rw [hmined, hsupply]
      rfl
  | step _ hstep ih =>
      obtain ⟨waits, hwaits, htimes⟩ := ih
      obtain ⟨first, agenda, hq, _, hhandle⟩ := exists_handle_of_step hstep
      have hturn := turn_of_handle hhandle
      have hmined := mined_of_turn hturn
      by_cases hmine : first.event = .mine
      · obtain ⟨htime, hrest⟩ := Agenda.times_next hq htimes hmine
        rw [hmine] at hhandle
        obtain ⟨wait, hwait, hperm⟩ := draws_of_mining (mining_of_handle hhandle)
        rw [if_pos hmine] at hmined
        refine ⟨waits ++ [wait], ?_, ?_⟩
        · rw [hmined]
          exact drawWaits_succ_iff.2 ⟨waits, _, wait, hwaits, hwait, rfl⟩
        · dsimp only at hperm
          rw [hrest, htime] at hperm
          rw [List.sum_append, List.sum_singleton]
          exact List.perm_singleton.1 hperm
      · rw [if_neg hmine] at hmined
        obtain ⟨es, hagenda, _, hes⟩ := exists_sequels_of_turn hturn hmine
        refine ⟨waits, ?_, ?_⟩
        · rw [hmined, supply_of_turn hturn hmine]
          exact hwaits
        · have hrest := Agenda.times_next_of_ne hq htimes hmine
          have hperm : ((agenda.pushAll es).times .mine).Perm (agenda.times .mine) :=
            Agenda.times_pushAll_of_ne _ fun x hx hxmine => hmine ((hes x hx).event_eq_mine hxmine)
          rw [hrest] at hperm
          rw [hagenda]
          exact List.perm_singleton.1 hperm

section

variable {k : Nat} {first : Scheduled} {agenda : Agenda}

/-- A block that is found in time is none after which the waits last until the end. -/
theorem mined_ne_of_mine (hwaits : run.drawWaits k supply = .ok (waits, rest))
    (hsum : run.env.termination ≤ waits.sum) (hr : run.Reaches fresh supply h s)
    (hq : s.world.agenda.next = some (first, agenda)) (hearly : first.time < run.env.termination)
    (hmine : first.event = .mine) : s.world.mined ≠ k := by
  intro heq
  obtain ⟨drawn, hdrawn, htimes⟩ := paced_of_reaches hr
  rw [heq] at hdrawn
  obtain ⟨rfl, _⟩ := Prod.mk.inj (Except.ok.inj (hwaits.symm.trans hdrawn))
  have htime := (Agenda.times_next hq htimes hmine).1
  omega

/-- If the first waits last until the end, no more blocks are found than there are waits. -/
theorem mined_le_of_reaches (hwaits : run.drawWaits k supply = .ok (waits, rest))
    (hsum : run.env.termination ≤ waits.sum) (hr : run.Reaches fresh supply h s) :
    s.world.mined ≤ k := by
  induction hr with
  | start _ hstart =>
      rw [(rooted_of_start hstart).2.1]
      exact Nat.zero_le k
  | step hr hstep ih =>
      obtain ⟨first, agenda, hq, hearly, hturn⟩ := exists_turn_of_step hstep
      rw [mined_of_turn hturn]
      by_cases hmine : first.event = .mine
      · rw [if_pos hmine]
        exact Nat.lt_of_le_of_ne ih (mined_ne_of_mine hwaits hsum hr hq hearly hmine)
      · rw [if_neg hmine]
        exact ih

/-- As long as there are waits, the draws at the next block are made. -/
theorem exists_drawBlock_of_reaches (hwaits : run.drawWaits k supply = .ok (waits, rest))
    (hsum : run.env.termination ≤ waits.sum) (hr : run.Reaches fresh supply h s)
    (hq : s.world.agenda.next = some (first, agenda)) (hearly : first.time < run.env.termination)
    (hmine : first.event = .mine) :
    ∃ wait between, run.drawBlock s.world.supply = .ok (wait, between) := by
  obtain ⟨drawn, hdrawn, _⟩ := paced_of_reaches hr
  have hlt : s.world.mined < k := Nat.lt_of_le_of_ne (mined_le_of_reaches hwaits hsum hr)
    (mined_ne_of_mine hwaits hsum hr hq hearly hmine)
  obtain ⟨_, _, hnext⟩ := exists_drawWaits_of_le hlt hwaits
  obtain ⟨_, between, wait, hbefore, hwait, _⟩ := drawWaits_succ_iff.1 hnext
  obtain ⟨_, rfl⟩ := Prod.mk.inj (Except.ok.inj (hdrawn.symm.trans hbefore))
  exact ⟨wait, _, hwait⟩

end

end BalanceAttack.Run
