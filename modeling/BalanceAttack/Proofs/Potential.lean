import BalanceAttack.Proofs.Conservation
import BalanceAttack.Proofs.Ledger
import BalanceAttack.Proofs.Rounding
import Mathlib.Data.Finset.Card

/-!
# BalanceAttack.Proofs.Potential

What the adversary weighs when it chooses the side to mine on.  The potential
weight of a side is the number of blocks of that side the adversary knows at
all, whether it keeps them back, has sent them or was told of them:

* `has_view_iff` — the own view has what the adversary has seen made public;
* `potential_eq_card` — the potential weight counts what is known;
* `potential_of_step` — what a turn adds to it, and that sending changes nothing;
* `inTurn_of_reaches` — the sides on which the adversary mines if nobody else does;
* `weighed_of_reaches` — all of this, in every state of a run.
-/

namespace BalanceAttack

open BalanceAttack.Random

/-- The block that an event tells the adversary of, with its side. -/
def Event.report : Event → Option (Side × BlockId)
  | observe side block _ => some (side, block)
  | _ => none

theorem Event.of_report {event : Event} {y : Side × BlockId} (h : event.report = some y) :
    event.message = some y ∧ event.block = some y.2 := by
  cases event with
  | observe side block peer =>
      obtain rfl := Option.some.inj h
      exact ⟨rfl, rfl⟩
  | mine | deliver | check | idle => contradiction

namespace Run.History

/-- The blocks that the adversary was told of, whichever node had received them. -/
def told (h : History) : List (Side × BlockId) := h.filterMap fun e => e.event.report

/-- What the adversary of so many nodes starts from: the genesis block, if there
are nodes to be kept on the right side. -/
def roots (n : Nat) : List (Side × BlockId) := if 2 ≤ n then [(.right, .genesis)] else []

/-- The blocks that the adversary of `n` nodes has seen made public. -/
def seen (n : Nat) (h : History) : List (Side × BlockId) := roots n ++ h.sent ++ h.told

/-- The blocks that the adversary of `n` nodes has been given or has been told of. -/
def known (n : Nat) (h : History) : List (Side × BlockId) := roots n ++ h.kept ++ h.told

@[simp] theorem told_append (h : History) (e : Entry) :
    told (h ++ [e]) = h.told ++ e.event.report.toList := by
  cases hr : e.event.report <;> simp [told, hr]

theorem eq_of_mem_roots {n : Nat} {y : Side × BlockId} (hy : y ∈ roots n) :
    y = (.right, .genesis) := by
  unfold roots at hy
  split at hy
  · exact List.mem_singleton.1 hy
  · contradiction

end Run.History

/-- No block is mined but when one is found. -/
theorem Run.mined_eq_none_of_turn {α σ : Type} {run : Run α} {a : α} {w : World σ} {event : Event}
    {e : Entry} {s : State α σ} (hturn : Turn run a w event e s) (hne : event ≠ .mine) :
    e.mined = none := by
  cases hturn with
  | evil | honest => contradiction
  | known | new | told | checked | idle => rfl

/-- Sides taken in turn, the left one first. -/
def Side.inTurn (k : Nat) : Side := if k % 2 = 0 then .left else .right

/-- Of blocks that are listed once, those with the same numbers are the same. -/
theorem mem_iff_of_ids {l m ledger : List (Side × BlockId)} (hids : (ledger.map Prod.snd).Nodup)
    (hl : l ⊆ ledger) (hm : m ⊆ ledger)
    (h : ∀ b, b ∈ l.map Prod.snd ↔ b ∈ m.map Prod.snd) (x : Side × BlockId) : x ∈ l ↔ x ∈ m := by
  have himp : ∀ {l m : List (Side × BlockId)}, l ⊆ ledger → m ⊆ ledger →
      (∀ b, b ∈ l.map Prod.snd → b ∈ m.map Prod.snd) → x ∈ l → x ∈ m := by
    intro l m hl hm h hx
    obtain ⟨y, hy, hyx⟩ := List.mem_map.1 (h x.2 (List.mem_map_of_mem hx))
    rwa [← List.inj_on_of_nodup_map hids (hm hy) (hl hx) hyx]
  exact ⟨himp hl hm fun b => (h b).1, himp hm hl fun b => (h b).2⟩

theorem length_onSide (s : Side) (l : List (Side × BlockId)) :
    (onSide s l).length = (l.map Prod.fst).count s := by
  rw [List.count, List.countP_map, List.countP_eq_length_filter, onSide, List.length_map]
  rfl

namespace View

/-- New blocks that are delivered one after the other all weigh on their sides. -/
theorem weight_foldl_record {l : List (Side × BlockId)} {v : View} (hl : (l.map Prod.snd).Nodup)
    (hv : ∀ b ∈ l.map Prod.snd, v.has b = false) (s : Side) :
    (l.foldl (fun v x => v.record x.2 x.1) v).weight s = v.weight s + (onSide s l).length := by
  induction l generalizing v with
  | nil => rfl
  | cons x l ih =>
      obtain ⟨hx, hl⟩ := List.nodup_cons.1 hl
      rw [List.foldl_cons, ih hl, weight_record (hv _ List.mem_cons_self)]
      · by_cases hs : s = x.1
        · simp [onSide, hs]
          omega
        · simp [onSide, hs, Ne.symm hs]
      · intro b hb
        rw [has_record, hv b (List.mem_cons_of_mem _ hb), Bool.or_false, beq_eq_false_iff_ne]
        rintro rfl
        exact hx hb

end View

namespace Balancer

variable {σ : Type} [WordSource σ] {supply : Supply σ} {env : Environment} {net : Network}
  {margin : Balancer → Int} {h : Run.History} {s s' : Run.State Balancer σ}

/-! ## what the adversary has seen -/

omit [WordSource σ] in
theorem potential_eq (b : Balancer) (side : Side) :
    b.potential side = (b.pendingOn side).length + b.view.weight side := by
  rw [potential, pendingOn, List.length_map, Backlog.length_pending]

omit [WordSource σ] in
/-- What the adversary is told of goes into its own view. -/
theorem has_view_noting (event : Event) (b : Balancer) (x : BlockId) :
    (b.noting event).view.has x = true ↔
      b.view.has x = true ∨ x ∈ event.report.toList.map Prod.snd := by
  cases event with
  | observe side block peer =>
      simp only [noting, observe, View.has_record, Event.report, Bool.or_eq_true, beq_iff_eq,
        Option.toList_some, List.map_cons, List.map_nil, List.mem_singleton]
      rw [or_comm, @eq_comm _ block x]
  | mine | deliver | check | idle => simp [noting, Event.report]

omit [WordSource σ] in
theorem right_ne_nil_iff {p : Partition}
    (hp : Partition.ofDistances net.size net.distances = .ok p) : p.right ≠ [] ↔ 2 ≤ net.size := by
  have hright : p.right = _ := Partition.nodes_of_ofDistances hp .right
  rw [hright]
  by_cases htwo : net.size < 2
  · simp [htwo]
  · rw [if_neg htwo]
    exact ⟨fun _ => Nat.not_lt.1 htwo, fun _ => List.ne_nil_of_mem (a := 1)
      (Partition.mem_withParity.2 ⟨Nat.not_lt.1 htwo, rfl⟩)⟩

/-- The own view has what the adversary started from, has sent or was told of. -/
theorem has_view_iff (hr : (run env net margin).Reaches {} supply h s) (x : BlockId) :
    s.adversary.view.has x = true ↔ x ∈ (h.seen net.size).map Prod.snd := by
  induction hr with
  | start hprep hstart =>
      obtain ⟨partition, hpart, rfl⟩ := setUp_of_prepare hprep
      obtain ⟨hstarted, _⟩ := Run.exists_prelude_of_start hstart
      obtain ⟨_, hview, _⟩ := rooted_observe (rooted_fresh net.size) partition.right
        (b := setUp net.size partition {}) (Except.ok.inj hstarted).symm
      rw [hview, right_ne_nil_iff hpart]
      by_cases htwo : 2 ≤ net.size <;> simp [setUp, Run.History.seen, Run.History.roots,
        Run.History.told, htwo]
  | step _ hstep ih =>
      obtain ⟨first, agenda, _, _, hturn⟩ := Run.exists_turn_of_step hstep
      rw [(exchange_of_turn hturn).view, has_view_noting, ih, ← Run.event_of_turn hturn]
      simp only [Run.History.seen, Run.History.sent_append, Run.History.told_append,
        List.map_append, List.mem_append]
      tauto

/-- What the adversary is going to be told of is in the ledger, and is public. -/
theorem report_of_next (hr : (run env net margin).Reaches {} supply h s) {first : Scheduled}
    {agenda : Agenda} (hq : s.world.agenda.next = some (first, agenda)) {y : Side × BlockId}
    (hy : first.event.report = some y) : y ∈ h.ledger ∧ y.2 ∈ h.published.map Prod.snd := by
  obtain ⟨hmessage, hblock⟩ := Event.of_report hy
  refine ⟨((recorded_of_reaches hr).world.next hq).2 y hmessage, carried_of_reaches hr _ ?_⟩
  refine (Agenda.pick_next hq fun _ e => e.block).mem_iff.2 ?_
  exact List.mem_append_left _ (Option.mem_toList.2 hblock)

/-- What the adversary was told of is in the ledger, and is public. -/
theorem told_of_reaches (hr : (run env net margin).Reaches {} supply h s) :
    ∀ y ∈ h.told, y ∈ h.ledger ∧ y.2 ∈ h.published.map Prod.snd := by
  induction hr with
  | start => exact fun y hy => absurd hy List.not_mem_nil
  | step hr hstep ih =>
      obtain ⟨first, agenda, hq, _, hturn⟩ := Run.exists_turn_of_step hstep
      intro y hy
      rw [Run.History.told_append, Run.event_of_turn hturn, List.mem_append] at hy
      have hold := hy.elim (ih y) fun hy => report_of_next hr hq (Option.mem_toList.1 hy)
      refine ⟨?_, Run.History.mem_published_append.2 (.inl hold.2)⟩
      rw [Run.History.ledger_append]
      exact List.mem_append_left _ hold.1

/-- What the adversary has seen is in the ledger, and is public. -/
theorem seen_of_reaches (hr : (run env net margin).Reaches {} supply h s) :
    h.seen net.size ⊆ h.ledger ∧
      ∀ b ∈ (h.seen net.size).map Prod.snd, b ∈ h.published.map Prod.snd := by
  have hmem : ∀ y ∈ h.seen net.size, y ∈ h.ledger ∧ y.2 ∈ h.published.map Prod.snd := by
    intro y hy
    rw [Run.History.seen, List.mem_append, List.mem_append] at hy
    rcases hy with (hy | hy) | hy
    · obtain rfl := Run.History.eq_of_mem_roots hy
      exact ⟨List.mem_cons_self, List.mem_cons_self⟩
    · refine ⟨(recorded_of_reaches hr).sent hy, List.mem_map_of_mem ?_⟩
      exact List.mem_cons_of_mem _ (List.mem_append_right _ hy)
    · exact told_of_reaches hr y hy
  refine ⟨fun y hy => (hmem y hy).1, fun b hb => ?_⟩
  obtain ⟨y, hy, rfl⟩ := List.mem_map.1 hb
  exact (hmem y hy).2

/-- What is kept back has not been seen made public, and is kept back once. -/
theorem nodup_pendingOn (hr : (run env net margin).Reaches {} supply h s)
    (hfits : Fits env s.adversary) (side : Side) :
    (s.adversary.pendingOn side).Nodup ∧
      ∀ b ∈ s.adversary.pendingOn side, b ∉ h.published.map Prod.snd := by
  have hnodup := nodup_published_stock hr hfits
  rw [List.map_append, List.nodup_append] at hnodup
  obtain ⟨_, hstock, hapart⟩ := hnodup
  have hsub : (s.adversary.pendingOn side).Sublist (s.adversary.stock.map Prod.snd) := by
    rw [stock, List.map_append, map_snd_pair, map_snd_pair]
    cases side with
    | left => exact List.sublist_append_left _ _
    | right => exact List.sublist_append_right _ _
  exact ⟨hstock.sublist hsub, fun b hb hmem => hapart b hmem b (hsub.subset hb) rfl⟩

/-! ## the potential weight -/

/-- The potential weight of a side is the number of blocks of that side that the
adversary has been given or has been told of. -/
theorem potential_eq_card (hr : (run env net margin).Reaches {} supply h s)
    (hfits : Fits env s.adversary) (side : Side) :
    s.adversary.potential side = (onSide side (h.known net.size)).toFinset.card := by
  obtain ⟨m, hm, hmledger⟩ := (recorded_of_reaches hr).adversary.view
  obtain ⟨hseen, hpublic⟩ := seen_of_reaches hr
  obtain ⟨hpending, hsecret⟩ := nodup_pendingOn hr hfits side
  have hids : (h.ledger.map Prod.snd).Nodup := (numbered_of_reaches hr hfits).nodup
  have hhas : ∀ b, b ∈ m.map Prod.snd ↔ b ∈ (h.seen net.size).map Prod.snd := fun b =>
    (hm.has_iff b).symm.trans (has_view_iff hr b)
  -- what is kept back and what has been seen, each block once
  have hnodup : (s.adversary.pendingOn side ++ onSide side m).Nodup := by
    have hsub : (onSide side m).Sublist (m.map Prod.snd) := List.filter_sublist.map _
    refine List.nodup_append.2 ⟨hpending, hm.nodup.sublist hsub, fun b hb c hc hbc => ?_⟩
    subst hbc
    exact hsecret b hb (hpublic b ((hhas b).1 (hsub.subset hc)))
  have hmem : ∀ b, b ∈ s.adversary.pendingOn side ++ onSide side m ↔
      b ∈ onSide side (h.known net.size) := by
    intro b
    have hview := mem_iff_of_ids hids hmledger hseen hhas (side, b)
    have hkept := congrArg (b ∈ ·) (onSide_kept_of_reaches hr side)
    simp only [List.mem_append, eq_iff_iff, mem_onSide] at hkept
    simp only [List.mem_append, mem_onSide, hview, Run.History.seen, Run.History.known, hkept]
    tauto
  calc s.adversary.potential side
      = (s.adversary.pendingOn side ++ onSide side m).length := by
        rw [potential_eq, hm.weight_eq, List.length_append, length_onSide]
    _ = (s.adversary.pendingOn side ++ onSide side m).toFinset.card :=
        (List.toFinset_card_of_nodup hnodup).symm
    _ = (onSide side (h.known net.size)).toFinset.card := by
        congr 1
        ext b
        rw [List.mem_toFinset, List.mem_toFinset, hmem]

/-- What is sent was not public before, and is sent once. -/
theorem nodup_sent_of_step (hr : (run env net margin).Reaches {} supply h s) {e : Run.Entry}
    (hstep : (run env net margin).step s = .ok (.running e s')) (hfits : Fits env s'.adversary) :
    (e.sent.map Prod.snd).Nodup ∧
      ∀ b ∈ e.sent.map Prod.snd, b ∉ h.published.map Prod.snd := by
  have hnodup := nodup_published_stock (.step hr hstep) hfits
  rw [List.map_append, List.nodup_append, ((h.published_append e).map Prod.snd).nodup_iff,
    List.map_append, List.map_append, List.nodup_append, List.nodup_append] at hnodup
  obtain ⟨⟨_, ⟨hsent, _⟩, hapart⟩, _⟩ := hnodup
  exact ⟨hsent, fun b hb hmem => hapart b hmem b (List.mem_append_left _ hb) rfl⟩

/-- A turn adds to the potential weights what it gives to the adversary, and what
this had not been told of before; what it sends it takes out of its keeping. -/
theorem potential_of_step (hr : (run env net margin).Reaches {} supply h s) {e : Run.Entry}
    (hstep : (run env net margin).step s = .ok (.running e s')) (hfits : Fits env s'.adversary)
    (side : Side) :
    s'.adversary.potential side =
      (s.adversary.noting e.event).potential side + (onSide side e.kept).length := by
  obtain ⟨hsent, hnew⟩ := nodup_sent_of_step hr hstep hfits
  obtain ⟨first, agenda, hq, _, hturn⟩ := Run.exists_turn_of_step hstep
  rw [Run.event_of_turn hturn]
  have hbacklog := congrArg List.length ((exchange_of_turn hturn).backlog side)
  rw [List.length_append, List.length_append] at hbacklog
  have hview : ∀ b ∈ e.sent.map Prod.snd,
      (s.adversary.noting first.event).view.has b = false := by
    intro b hb
    refine Bool.eq_false_iff.2 fun hv => hnew b hb ?_
    rcases (has_view_noting first.event s.adversary b).1 hv with hv | hv
    · exact (seen_of_reaches hr).2 b ((has_view_iff hr b).1 hv)
    · obtain ⟨x, hx, rfl⟩ := List.mem_map.1 hv
      exact (report_of_next hr hq (Option.mem_toList.1 hx)).2
  rw [potential_eq, potential_eq, view_of_turn hturn, View.weight_foldl_record hsent hview]
  omega

/-- What has been seen before adds nothing when it is observed once more. -/
theorem potential_observe (hr : (run env net margin).Reaches {} supply h s) {block : BlockId}
    (hblock : block ∈ (h.seen net.size).map Prod.snd) (side : Side) (peer : Nat) (t : Side) :
    (s.adversary.observe side block peer).potential t = s.adversary.potential t := by
  have hview : (s.adversary.observe side block peer).view = s.adversary.view :=
    View.record_of_has ((has_view_iff hr block).2 hblock) side
  have hpending : (s.adversary.observe side block peer).pendingOn t = s.adversary.pendingOn t := by
    cases t <;> rfl
  rw [potential_eq, potential_eq, hview, hpending]

/-! ## mining alone -/

/-- Where only the adversary mines and nothing is lent, a side weighs as much as
blocks were given to the adversary on it, the genesis block included. -/
theorem potential_of_unmined (hr : (run env net margin).Reaches {} supply h s)
    (htwo : 2 ≤ net.size) (hoff : env.allowBorrowing = false) (hmined : h.mined = [])
    (side : Side) :
    s.adversary.potential side = (Side.right :: h.kept.map Prod.fst).count side := by
  have hfits := fits_of_not_allowBorrowing hoff s.adversary
  have hids : (h.ledger.map Prod.snd).Nodup := (numbered_of_reaches hr hfits).nodup
  have hperm : h.ledger.Perm ((.right, .genesis) :: h.kept) := by
    have hminted := h.minted_perm
    rw [hmined] at hminted
    exact hminted.cons _
  -- there is nothing to be told of but what was given
  have hknown : ∀ y, y ∈ h.known net.size ↔ y ∈ h.ledger := by
    intro y
    rw [Run.History.known, List.mem_append, List.mem_append, Run.History.roots, if_pos htwo,
      List.mem_singleton, ← List.mem_cons, hperm.mem_iff]
    exact ⟨fun hy => hy.elim id fun hy => hperm.mem_iff.1 (told_of_reaches hr y hy).1, .inl⟩
  have hnodup : (onSide side h.ledger).Nodup := hids.sublist (List.filter_sublist.map _)
  have hset : (onSide side (h.known net.size)).toFinset = (onSide side h.ledger).toFinset := by
    ext b
    simp only [List.mem_toFinset, mem_onSide, hknown]
  rw [potential_eq_card hr hfits, hset, List.toFinset_card_of_nodup hnodup, length_onSide,
    (hperm.map Prod.fst).count_eq]
  rfl

/-- A side is taken in turn as often as the other one, the left one first. -/
theorem count_inTurn (k : Nat) : ((List.range k).map Side.inTurn).count .left = (k + 1) / 2 ∧
    ((List.range k).map Side.inTurn).count .right = k / 2 := by
  induction k with
  | zero => exact ⟨rfl, rfl⟩
  | succ k ih =>
      rw [List.range_succ, List.map_append, List.count_append, List.count_append, ih.1, ih.2]
      unfold Side.inTurn
      by_cases hk : k % 2 = 0 <;> simp [hk] <;> omega

omit [WordSource σ] in
/-- Where no honest node mines and nothing is lent, the adversary is given nothing, or
the block it has mined on the side it chose. -/
theorem kept_of_turn {b : Balancer} {w : World σ} {event : Event} {e : Run.Entry}
    (hoff : env.allowBorrowing = false) (hmined : (e.mined.map Prod.snd).toList = [])
    (hturn : Run.Turn (run env net margin) b w event e s) :
    e.kept = [] ∨ ∃ block, e.kept = [(b.chooseSide, block)] := by
  cases hturn with
  | evil hside =>
      obtain ⟨rfl, _⟩ := Prod.mk.inj (Except.ok.inj hside)
      exact .inr ⟨_, rfl⟩
  | honest => exact absurd hmined (List.cons_ne_nil _ _)
  | told _ hdecided =>
      refine (kept_of_blocksToSend hdecided).imp_right fun ⟨hborrow, _⟩ => ?_
      rw [hoff] at hborrow
      contradiction
  | known | new | checked | idle => exact .inl rfl

/-- Where only the adversary mines and nothing is lent, it mines on the sides in turn. -/
theorem inTurn_of_reaches (hr : (run env net margin).Reaches {} supply h s)
    (htwo : 2 ≤ net.size) (hoff : env.allowBorrowing = false) (hmined : h.mined = []) :
    h.kept.map Prod.fst = (List.range h.kept.length).map Side.inTurn := by
  induction hr with
  | start => rfl
  | @step h s s' e hr hstep ih =>
      rw [Run.History.mined_append, List.append_eq_nil_iff] at hmined
      have hkept := ih hmined.1
      obtain ⟨first, agenda, _, _, hturn⟩ := Run.exists_turn_of_step hstep
      rw [Run.History.kept_append]
      rcases kept_of_turn hoff hmined.2 hturn with hnone | ⟨block, hgiven⟩
      · rw [hnone, List.append_nil]
        exact hkept
      · have hweight := potential_of_unmined hr htwo hoff hmined.1
        obtain ⟨hleft, hright⟩ := count_inTurn h.kept.length
        have hchosen : s.adversary.chooseSide = Side.inTurn h.kept.length := by
          rw [chooseSide, hweight, hweight, hkept, List.count_cons, List.count_cons, hleft,
            hright, Side.inTurn]
          by_cases hk : h.kept.length % 2 = 0 <;> simp [hk] <;> omega
        rw [hgiven, List.map_append, hkept, List.length_append, List.length_singleton,
          List.range_succ, List.map_append, hchosen]
        rfl

/-- If the adversary mines every block, no honest node mines any. -/
theorem mined_eq_nil (hr : (run env net margin).Reaches {} supply h s) (hrate : env.evilRate = 1) :
    h.mined = [] := by
  induction hr with
  | start => rfl
  | step hr hstep ih =>
      obtain ⟨first, agenda, _, _, hhandle⟩ := Run.exists_handle_of_step hstep
      rw [Run.History.mined_append, ih, List.nil_append]
      by_cases hmine : first.event = .mine
      · rw [hmine] at hhandle
        cases Run.mining_of_handle hhandle with
        | evil => rfl
        | honest _ hfell hhigh =>
            rw [hrate] at hhigh
            exact absurd (lt_one_of_unit hfell) hhigh
      · rw [Run.mined_eq_none_of_turn (Run.turn_of_handle hhandle) hmine]
        rfl

/-- What the potential weights count, and what a turn does to them. -/
structure Weighed (run : Run Balancer) (h : Run.History) (s : Run.State Balancer σ) : Prop where
  /-- A side weighs as much as there are blocks of that side among those known. -/
  known : ∀ side,
    s.adversary.potential side = (onSide side (h.known run.network.size)).toFinset.card
  /-- What is sent keeps its weight: after the observation only gifts add to it. -/
  turn : ∀ {e : Run.Entry} {s' : Run.State Balancer σ}, run.step s = .ok (.running e s') →
    Fits run.env s'.adversary → ∀ side, s'.adversary.potential side =
      (s.adversary.noting e.event).potential side + (onSide side e.kept).length
  /-- What was sent, or was told of before, adds nothing when it is observed. -/
  repeated : ∀ {block : BlockId}, block ∈ (h.seen run.network.size).map Prod.snd →
    ∀ side peer t, (s.adversary.observe side block peer).potential t = s.adversary.potential t
  /-- Nobody else mines if all blocks are the adversary's. -/
  alone : run.env.evilRate = 1 → h.mined = []
  /-- If nobody else mines and nothing is lent, the sides are taken in turn. -/
  inTurn : 2 ≤ run.network.size → run.env.allowBorrowing = false → h.mined = [] →
    h.kept.map Prod.fst = (List.range h.kept.length).map Side.inTurn

/-- **The potential weight of a side is the number of its blocks that the adversary
knows**, and mining keeps the two sides balanced. -/
theorem weighed_of_reaches (hr : (run env net margin).Reaches {} supply h s)
    (hfits : Fits env s.adversary) : Weighed (run env net margin) h s where
  known := potential_eq_card hr hfits
  turn := potential_of_step hr
  repeated := potential_observe hr
  alone := mined_eq_nil hr
  inTurn := inTurn_of_reaches hr

/-- The parameters of two nodes, all blocks being the adversary's. -/
def aloneEnvironment : Environment :=
  { pairEnvironment with evilRate := 1, allowBorrowing := false }

/-- The adversary of two nodes mines three blocks, on the left, the right and the left side. -/
theorem weighed_pair :
    ∃ h s, (run aloneEnvironment pair Balancer.margin).Reaches {} pairSupply h s ∧
      Weighed (run aloneEnvironment pair Balancer.margin) h s ∧
      h.kept.map Prod.fst = [.left, .right, .left] := by
  have hfollow : ((run aloneEnvironment pair Balancer.margin).follow {} pairSupply 3).any
      (fun x => x.1.kept.length == 3) = true := by
    decide +kernel
  obtain ⟨h, s, hr, hlength⟩ := Run.exists_reaches_of_any hfollow
  have hlaw := weighed_of_reaches hr (fits_of_not_allowBorrowing rfl s.adversary)
  refine ⟨h, s, hr, hlaw, (hlaw.inTurn le_rfl rfl (hlaw.alone rfl)).trans ?_⟩
  rw [eq_of_beq hlength]
  rfl

end Balancer

end BalanceAttack
