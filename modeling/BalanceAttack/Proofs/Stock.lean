import BalanceAttack.Proofs.Numbering
import Mathlib.Data.List.Perm.Basic

/-!
# BalanceAttack.Proofs.Stock

What has become of the blocks that the adversary was given.  It sends them in
the order in which it was given them, so that of each side the blocks given are
the blocks sent followed by those kept back:

* `onSide_kept_of_reaches` — the order, side by side;
* `nodup_published_stock` — no number is used twice among the blocks made public
  and those kept back;
* `counted_of_reaches` — what the counters of the world count.
-/

namespace BalanceAttack

open BalanceAttack.Random

/-- Blocks are those of the left side and those of the right side. -/
theorem perm_onSide (l : List (Side × BlockId)) :
    l.Perm ((onSide .left l).map (fun x => (Side.left, x)) ++
      (onSide .right l).map (fun x => (Side.right, x))) := by
  induction l with
  | nil => exact .refl _
  | cons x l ih =>
      obtain ⟨s, b⟩ := x
      cases s with
      | left => exact ih.cons _
      | right => exact (ih.cons _).trans List.perm_middle.symm

/-- The blocks that have come into being are those mined by honest nodes and
those given to the adversary. -/
theorem Run.History.minted_perm (h : Run.History) : h.minted.Perm (h.mined ++ h.kept) := by
  induction h with
  | nil => exact .refl _
  | cons e h ih =>
      have hmined : History.mined (e :: h) = (e.mined.map Prod.snd).toList ++ History.mined h := by
        cases hm : e.mined <;> simp [History.mined, hm]
      have hkept : History.kept (e :: h) = e.kept ++ History.kept h := rfl
      have hminted : History.minted (e :: h) =
          (e.mined.map Prod.snd).toList ++ e.kept ++ History.minted h := rfl
      rw [hmined, hkept, hminted, List.append_assoc, List.append_assoc]
      refine List.Perm.append_left _ ((ih.append_left _).trans ?_)
      rw [← List.append_assoc, ← List.append_assoc]
      exact List.perm_append_comm.append_right _

/-- Honest nodes make public what they mine, and the adversary what it sends. -/
theorem Run.History.published_append (h : Run.History) (e : Run.Entry) :
    (published (h ++ [e])).Perm (h.published ++ (e.sent ++ (e.mined.map Prod.snd).toList)) := by
  rw [List.perm_iff_count]
  intro x
  simp only [published, mined_append, sent_append, List.count_cons, List.count_append]
  omega

theorem Run.History.mem_published_append {h : Run.History} {e : Run.Entry} {b : BlockId} :
    b ∈ (published (h ++ [e])).map Prod.snd ↔ b ∈ h.published.map Prod.snd ∨
      b ∈ e.sent.map Prod.snd ∨ b ∈ (e.mined.map Prod.snd).toList.map Prod.snd := by
  rw [((h.published_append e).map Prod.snd).mem_iff, List.map_append, List.map_append,
    List.mem_append, List.mem_append]

namespace Balancer

variable {σ : Type} [WordSource σ] {supply : Supply σ} {env : Environment} {net : Network}
  {margin : Balancer → Int} {h : Run.History} {s : Run.State Balancer σ}

/-- The blocks that are kept back, each with its side. -/
def stock (b : Balancer) : List (Side × BlockId) :=
  (b.pendingOn .left).map (fun x => (Side.left, x)) ++
    (b.pendingOn .right).map (fun x => (Side.right, x))

theorem length_stock (b : Balancer) : b.stock.length = b.withheld := by
  rw [withheld_eq, stock, List.length_append, List.length_map, List.length_map]

/-! ## the order -/

/-- Of each side, the blocks the adversary was given are those it has sent,
followed by those it keeps back. -/
theorem onSide_kept_of_reaches (hr : (run env net margin).Reaches {} supply h s) (side : Side) :
    onSide side h.kept = onSide side h.sent ++ s.adversary.pendingOn side := by
  induction hr with
  | start hprep hstart =>
      rw [pendingOn_of_start hprep hstart]
      rfl
  | step _ hstep ih =>
      obtain ⟨first, agenda, _, _, hturn⟩ := Run.exists_turn_of_step hstep
      have hex := (exchange_of_turn hturn).backlog side
      rw [pendingOn_noting] at hex
      rw [Run.History.kept_append, Run.History.sent_append, onSide_append, onSide_append, ih,
        List.append_assoc, hex, List.append_assoc]

theorem kept_perm_of_reaches (hr : (run env net margin).Reaches {} supply h s) :
    h.kept.Perm (h.sent ++ s.adversary.stock) := by
  refine (perm_onSide h.kept).trans ?_
  rw [onSide_kept_of_reaches hr, onSide_kept_of_reaches hr, List.map_append,
    List.map_append, stock]
  refine .trans ?_ ((perm_onSide h.sent).append_right _).symm
  rw [List.append_assoc, List.append_assoc]
  refine List.Perm.append_left _ ?_
  rw [← List.append_assoc, ← List.append_assoc]
  exact List.perm_append_comm.append_right _

/-- No number is used twice among the blocks made public and those kept back. -/
theorem nodup_published_stock (hr : (run env net margin).Reaches {} supply h s)
    (hfits : Fits env s.adversary) :
    ((h.published ++ s.adversary.stock).map Prod.snd).Nodup := by
  have hminted : h.minted.Perm (h.mined ++ h.sent ++ s.adversary.stock) := by
    rw [List.append_assoc]
    exact h.minted_perm.trans ((kept_perm_of_reaches hr).append_left _)
  have hids := ((hminted.map Prod.snd).cons BlockId.genesis).nodup_iff
  exact hids.1 (numbered_of_reaches hr hfits).nodup

/-! ## the counters -/

/-- The counters of the world, by the blocks they count. -/
structure Counted (env : Environment) (h : Run.History) (b : Balancer) (w : World σ) :
    Prop where
  mined : w.mined = h.mined.length + w.adversaryMined
  released : w.released = h.sent.countP fun x => !x.2.isSynthetic
  adversaryMined : Fits env b → w.adversaryMined = h.kept.countP fun x => !x.2.isSynthetic
  unlent : env.allowBorrowing = false → w.adversaryMined = h.kept.length

/-- Blocks that are lent are synthetic. -/
theorem countP_synthetic {side : Side} {short total : Nat} (hshort : short ≤ total)
    (htotal : total < 2 ^ 63) :
    ((Run.synthetic short total).map fun x => (side, x)).countP
      (fun x => !x.2.isSynthetic) = 0 := by
  rw [List.countP_eq_zero]
  intro x hx
  obtain ⟨b, hb, rfl⟩ := List.mem_map.1 hx
  have hbounds := mem_synthetic hshort htotal hb
  have hneg : b.number < 0 := by omega
  simp [BlockId.isSynthetic, hneg]

omit [WordSource σ] in
/-- The counters go up by what an entry adds. -/
theorem Counted.append {b b' : Balancer} {w w' : World σ} {e : Run.Entry}
    (hc : Counted env h b w) (hfits : Fits env b' → Fits env b)
    (hmined : w'.mined + w.adversaryMined =
      w.mined + (e.mined.map Prod.snd).toList.length + w'.adversaryMined)
    (hreleased : w'.released = w.released + e.sent.countP fun x => !x.2.isSynthetic)
    (hkept : Fits env b' →
      w'.adversaryMined = w.adversaryMined + e.kept.countP fun x => !x.2.isSynthetic)
    (hunlent : env.allowBorrowing = false →
      w'.adversaryMined = w.adversaryMined + e.kept.length) :
    Counted env (h ++ [e]) b' w' where
  mined := by
    have hold := hc.mined
    rw [Run.History.mined_append, List.length_append]
    omega
  released := by
    rw [Run.History.sent_append, List.countP_append, hreleased, hc.released]
  adversaryMined := by
    intro hnow
    rw [Run.History.kept_append, List.countP_append, hkept hnow, hc.adversaryMined (hfits hnow)]
  unlent := by
    intro hoff
    rw [Run.History.kept_append, List.length_append, hunlent hoff, hc.unlent hoff]

omit [WordSource σ] in
theorem Counted.turn {b : Balancer} {w : World σ} {event : Event} {e : Run.Entry}
    (hc : Counted env h b w) (hturn : Run.Turn (run env net margin) b w event e s) :
    Counted env (h ++ [e]) s.adversary s.world := by
  have hfits : Fits env s.adversary → Fits env b := fun hnow => hnow.of_turn hturn
  cases hturn with
  | evil =>
      have hown : (⟨(w.mined + 1 : Nat)⟩ : BlockId).isSynthetic = false := by
        rw [BlockId.isSynthetic, decide_eq_false_iff_not]
        dsimp only
        omega
      refine hc.append hfits (Nat.add_right_comm _ _ _) rfl (fun _ => ?_) fun _ => rfl
      rw [List.countP_singleton, hown]
      rfl
  | honest => exact hc.append hfits rfl rfl (fun _ => rfl) fun _ => rfl
  | told hobs hdecided =>
      obtain ⟨_, rfl⟩ := observe_eq_ok_iff.1 hobs
      have hkept := kept_of_blocksToSend hdecided
      rw [borrowed_observe] at hkept
      refine hc.append hfits rfl rfl (fun hnow => ?_) fun hoff => ?_
      · rcases hkept with hkept | ⟨hborrow, side, short, hkept, hshort⟩
        · rw [hkept]
          rfl
        · have htotal := Nat.lt_of_le_of_lt hshort (hnow hborrow)
          rw [hkept, countP_synthetic (Nat.le_add_left _ _) htotal]
          rfl
      · rcases hkept with hkept | ⟨hborrow, _⟩
        · rw [hkept]
          rfl
        · rw [hoff] at hborrow
          contradiction
  | known | new | checked | idle => exact hc.append hfits rfl rfl (fun _ => rfl) fun _ => rfl

theorem counted_of_reaches (hsq : net.distances.Square net.size)
    (hr : (run env net margin).Reaches {} supply h s) : Counted env h s.adversary s.world := by
  induction hr with
  | start hprep hstart =>
      have hopen := opening_of_start hsq hprep hstart
      exact ⟨by rw [hopen.mined, hopen.adversaryMined]; rfl, hopen.released,
        fun _ => hopen.adversaryMined, fun _ => hopen.adversaryMined⟩
  | step _ hstep ih =>
      obtain ⟨first, agenda, _, _, hturn⟩ := Run.exists_turn_of_step hstep
      refine Counted.turn ?_ hturn
      exact ⟨ih.mined, ih.released, ih.adversaryMined, ih.unlent⟩

end Balancer

end BalanceAttack
