import BalanceAttack.Proofs.Opening
import Mathlib.Data.List.Nodup

/-!
# BalanceAttack.Proofs.Numbering

No two blocks of a run have the same number.  Mined blocks are counted upwards
from the genesis block, and the blocks that the adversary lends itself downwards
by the number of blocks that have been lacking, which must fit a signed number
of 64 bits for that:

* `minted_of_turn` — the three ways in which a turn brings blocks into being;
* `Numbered.mine`, `Numbered.lend` — what either does to the numbers;
* `numbered_of_reaches` — the numbers of a whole run.
-/

namespace BalanceAttack

open BalanceAttack.Random

/-! ## the numbers in use -/

/-- Block numbers in use after so many blocks have been mined and so many have been lacking. -/
structure Numbered (ids : List BlockId) (mined lacking : Nat) : Prop where
  nodup : (BlockId.genesis :: ids).Nodup
  bounds : ∀ x ∈ ids, 0 < x.number ∧ x.number ≤ mined ∨ x.number < 0 ∧ -(lacking : Int) ≤ x.number

variable {ids : List BlockId} {mined lacking : Nat}

theorem numbered_nil (mined lacking : Nat) : Numbered [] mined lacking where
  nodup := List.nodup_singleton _
  bounds := fun _ hx => absurd hx List.not_mem_nil

theorem Numbered.mono (h : Numbered ids mined lacking) {lacking' : Nat} (hle : lacking ≤ lacking') :
    Numbered ids mined lacking' where
  nodup := h.nodup
  bounds := by
    intro x hx
    have hb := h.bounds x hx
    omega

/-- The next block to be mined has a number of its own. -/
theorem Numbered.next_not_mem (h : Numbered ids mined lacking) :
    (⟨(mined + 1 : Nat)⟩ : BlockId) ∉ BlockId.genesis :: ids := by
  intro hmem
  rcases List.mem_cons.1 hmem with heq | hmem
  · have hnumber : ((mined + 1 : Nat) : Int) = 0 := congrArg BlockId.number heq
    omega
  · have hb := h.bounds _ hmem
    dsimp only at hb
    omega

/-- Mining counts upwards. -/
theorem Numbered.mine (h : Numbered ids mined lacking) :
    Numbered (ids ++ [⟨(mined + 1 : Nat)⟩]) (mined + 1) lacking where
  nodup := by
    rw [← List.cons_append, List.nodup_append]
    refine ⟨h.nodup, List.nodup_singleton _, fun x hx y hy hxy => ?_⟩
    rw [List.mem_singleton.1 hy] at hxy
    exact h.next_not_mem (hxy ▸ hx)
  bounds := by
    intro x hx
    rcases List.mem_append.1 hx with hx | hx
    · have hb := h.bounds x hx
      omega
    · obtain rfl := List.mem_singleton.1 hx
      dsimp only
      omega

/-- The numbers of the blocks lent for a shortfall lie between what has been
lacking before it and what has been lacking with it. -/
theorem mem_synthetic {short total : Nat} (hshort : short ≤ total) (htotal : total < 2 ^ 63)
    {x : BlockId} (hx : x ∈ Run.synthetic short total) :
    -(total : Int) ≤ x.number ∧ x.number < short - (total : Int) := by
  obtain ⟨k, hk, rfl⟩ := List.mem_map.1 hx
  rw [List.mem_reverse, List.mem_range, Whole.signed_of_le (by omega), Int.toNat_natCast] at hk
  rw [Whole.signed_of_le (by omega)]
  dsimp only
  omega

theorem nodup_synthetic (short total : Nat) : (Run.synthetic short total).Nodup := by
  refine (List.nodup_reverse.2 List.nodup_range).map fun j k hjk => ?_
  have hnumber : (j : Int) - Whole.signed total = k - Whole.signed total :=
    congrArg BlockId.number hjk
  omega

/-- Blocks that are lent at once have numbers that go down. -/
theorem pairwise_synthetic (short total : Nat) :
    (Run.synthetic short total).Pairwise fun x y => y.number < x.number := by
  refine List.pairwise_map.2 (List.pairwise_reverse.2 (List.pairwise_lt_range.imp ?_))
  intro j k hjk
  dsimp only
  omega

/-- Lending counts downwards. -/
theorem Numbered.lend (h : Numbered ids mined lacking) {short : Nat}
    (hfits : lacking + short < 2 ^ 63) :
    Numbered (ids ++ Run.synthetic short (lacking + short)) mined (lacking + short) where
  nodup := by
    rw [← List.cons_append, List.nodup_append]
    refine ⟨h.nodup, nodup_synthetic _ _, fun x hx y hy hxy => ?_⟩
    have hy' := mem_synthetic (by omega) hfits hy
    rw [← hxy] at hy'
    rcases List.mem_cons.1 hx with rfl | hx
    · have hzero : BlockId.genesis.number = 0 := rfl
      omega
    · have hb := h.bounds x hx
      omega
  bounds := by
    intro x hx
    rcases List.mem_append.1 hx with hx | hx
    · have hb := h.bounds x hx
      omega
    · have hb := mem_synthetic (by omega) hfits hx
      omega

/-! ## the numbers of a run -/

namespace Balancer

variable {σ : Type} {env : Environment} {net : Network} {margin : Balancer → Int}

/-- A turn brings one block into being by mining it, or none, or those that the adversary
lends itself. -/
theorem minted_of_turn {b : Balancer} {w : World σ} {event : Event} {e : Run.Entry}
    {s : Run.State Balancer σ} (h : Run.Turn (run env net margin) b w event e s) :
    (∃ side, e.minted = [(side, ⟨(w.mined + 1 : Nat)⟩)] ∧ s.world.mined = w.mined + 1) ∨
    s.world.mined = w.mined ∧
      (e.minted = [] ∨ env.allowBorrowing = true ∧ ∃ side short,
        e.minted = (Run.synthetic short (b.borrowed + short)).map (fun x => (side, x)) ∧
        b.borrowed + short ≤ s.adversary.borrowed) := by
  cases h with
  | evil => exact .inl ⟨_, rfl, rfl⟩
  | honest => exact .inl ⟨_, rfl, rfl⟩
  | known => exact .inr ⟨rfl, .inl rfl⟩
  | new => exact .inr ⟨rfl, .inl rfl⟩
  | told hobs hdecided =>
      obtain ⟨_, rfl⟩ := observe_eq_ok_iff.1 hobs
      have hkept := kept_of_blocksToSend hdecided
      rw [borrowed_observe] at hkept
      exact .inr ⟨rfl, hkept⟩
  | checked => exact .inr ⟨rfl, .inl rfl⟩
  | idle => exact .inr ⟨rfl, .inl rfl⟩

/-- Lent blocks are numbered by how many blocks have been lacking, read as a signed
number of 64 bits.  Where blocks are lent, that many have to fit. -/
def Fits (env : Environment) (b : Balancer) : Prop :=
  env.allowBorrowing = true → b.borrowed < 2 ^ 63

theorem fits_of_not_allowBorrowing (hoff : env.allowBorrowing = false) (b : Balancer) :
    Fits env b := by
  intro hon
  rw [hoff] at hon
  contradiction

/-- What has been lacking never gets less. -/
theorem borrowed_le_of_turn {b : Balancer} {w : World σ} {event : Event} {e : Run.Entry}
    {s : Run.State Balancer σ} (h : Run.Turn (run env net margin) b w event e s) :
    b.borrowed ≤ s.adversary.borrowed := by
  have hle := (exchange_of_turn h).borrowed_le
  rw [borrowed_noting] at hle
  exact hle

theorem Fits.of_turn {b : Balancer} {w : World σ} {event : Event} {e : Run.Entry}
    {s : Run.State Balancer σ} (hfits : Fits env s.adversary)
    (h : Run.Turn (run env net margin) b w event e s) : Fits env b := fun hborrow =>
  Nat.lt_of_le_of_lt (borrowed_le_of_turn h) (hfits hborrow)

/-- **No two blocks of a run have the same number**, as long as the number of
blocks that have been lacking fits a signed number of 64 bits, where blocks are lent. -/
theorem numbered_of_reaches [WordSource σ] {supply : Supply σ} {h : Run.History}
    {s : Run.State Balancer σ} (hr : (run env net margin).Reaches {} supply h s)
    (hfits : Fits env s.adversary) :
    Numbered (h.minted.map Prod.snd) s.world.mined s.adversary.borrowed := by
  induction hr with
  | start => exact numbered_nil _ _
  | step _ hstep ih =>
      obtain ⟨first, agenda, _, _, hturn⟩ := Run.exists_turn_of_step hstep
      have hle := borrowed_le_of_turn hturn
      have hnum := ih (hfits.of_turn hturn)
      rw [Run.History.minted_append, List.map_append]
      rcases minted_of_turn hturn with ⟨side, hnew, hmined⟩ | ⟨hmined, hnew | ⟨hborrow, hnew⟩⟩
      · rw [hnew, hmined]
        exact hnum.mine.mono hle
      · rw [hnew, hmined, List.map_nil, List.append_nil]
        exact hnum.mono hle
      · obtain ⟨side, short, hnew, hshort⟩ := hnew
        rw [hnew, hmined, map_snd_pair]
        exact (hnum.lend (Nat.lt_of_le_of_lt hshort (hfits hborrow))).mono hshort

end Balancer

end BalanceAttack
