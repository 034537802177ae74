import BalanceAttack.Proofs.Mirror

/-!
# BalanceAttack.Proofs.Conservation

The adversary loses no block it was given and sends them the oldest first; and
what it keeps back is known to nobody, neither to a node nor in a mirror nor in
an event to come.

* `carried_of_reaches` — events are about public blocks alone;
* `conserved` — the law in every state of a run, and in what is reported of it.
-/

namespace BalanceAttack

open BalanceAttack.Random

namespace Balancer

variable {σ : Type} {supply : Supply σ} {env : Environment} {net : Network}
  {margin : Balancer → Int} {h : Run.History} {s : Run.State Balancer σ}

/-! ## events to come -/

/-- A turn only schedules events about blocks that are public by then. -/
theorem carried_of_turn {a : Balancer} {w : World σ} {event : Event} {e : Run.Entry}
    (hc : ∀ b, b ∈ event.block.toList ++ w.agenda.carried → b ∈ h.published.map Prod.snd)
    (hturn : Run.Turn (run env net margin) a w event e s) :
    ∀ b ∈ s.world.agenda.carried, b ∈ (Run.History.published (h ++ [e])).map Prod.snd := by
  have hpublished := fun b => (Run.History.mem_published_append (h := h) (e := e) (b := b)).2
  intro b hb
  cases hturn with
  | evil | checked =>
      rcases Agenda.mem_carried_push.1 hb with hb | hb
      · contradiction
      · exact hpublished b (.inl (hc b hb))
  | honest _ hevents =>
      rcases Agenda.mem_carried_pushAll.1 hb with ⟨x, hx, hxb⟩ | hb
      · have hnew : x.2.block = some ⟨(w.mined + 1 : Nat)⟩ := by
          rcases List.mem_append.1 hx with hx | hx
          · obtain ⟨_, _, _, _, _, rfl⟩ := World.mem_arrivals hevents hx
            rfl
          · rw [List.mem_singleton.1 hx]
            rfl
        obtain rfl := Option.some.inj (hnew.symm.trans hxb)
        exact hpublished _ (.inr (.inr List.mem_cons_self))
      · rcases Agenda.mem_carried_push.1 hb with hb | hb
        · contradiction
        · exact hpublished b (.inl (hc b hb))
  | known => exact hpublished b (.inl (hc b (List.mem_cons_of_mem _ hb)))
  | new =>
      rcases Agenda.mem_carried_push.1 hb with hb | hb
      · obtain rfl := Option.some.inj hb
        exact hpublished _ (.inl (hc _ List.mem_cons_self))
      · exact hpublished b (.inl (hc b (List.mem_cons_of_mem _ hb)))
  | told _ _ hevents =>
      rcases Agenda.mem_carried_pushAll.1 hb with ⟨x, hx, hxb⟩ | hb
      · obtain ⟨y, hy, peer, hpeer⟩ := World.mem_released hevents hx
        rw [hpeer] at hxb
        obtain rfl := Option.some.inj hxb
        exact hpublished _ (.inr (.inl (List.mem_map_of_mem hy)))
      · exact hpublished b (.inl (hc b (List.mem_cons_of_mem _ hb)))
  | idle => exact hpublished b (.inl (hc b hb))

variable [WordSource σ]

/-- Pending events are about public blocks alone. -/
theorem carried_of_reaches (hr : (run env net margin).Reaches {} supply h s) :
    ∀ b ∈ s.world.agenda.carried, b ∈ h.published.map Prod.snd := by
  induction hr with
  | start hprep hstart =>
      obtain ⟨_, es, hagenda, _, hes⟩ := Run.exists_prelude_of_start hstart
      intro b hb
      rw [hagenda] at hb
      rcases Agenda.mem_carried_pushAll.1 hb with ⟨x, hx, hxb⟩ | hb
      · rcases List.mem_append.1 hx with hx | hx
        · obtain ⟨_, _, _, _, _, rfl⟩ := hes x hx
          obtain rfl := Option.some.inj hxb
          exact List.mem_cons_self
        · simp only [List.mem_cons, List.not_mem_nil, or_false] at hx
          rcases hx with rfl | rfl <;> contradiction
      · contradiction
  | step _ hstep ih =>
      obtain ⟨first, agenda, hq, _, hturn⟩ := Run.exists_turn_of_step hstep
      refine carried_of_turn (fun b hb => ih b ?_) hturn
      exact (Agenda.pick_next hq fun _ e => e.block).mem_iff.2 hb

/-! ## secrecy -/

/-- A block is known to nobody but the adversary, which has not made use of it. -/
structure Secret (s : Run.State Balancer σ) (b : BlockId) : Prop where
  nodes : ∀ v ∈ s.world.nodes, v.has b = false
  mirrors : ∀ m ∈ s.adversary.mirrors, m.has b = false
  view : s.adversary.view.has b = false
  carried : b ∉ s.world.agenda.carried

/-- What is not public is secret. -/
theorem secret_of_not_mem (hsq : net.distances.Square net.size)
    (hr : (run env net margin).Reaches {} supply h s)
    (hfits : Fits env s.adversary) {b : BlockId}
    (hb : b ∉ h.published.map Prod.snd) : Secret s b := by
  have haddressed : b ∉ BlockId.genesis :: (h.addressed net.size).map Prod.snd := fun hmem =>
    hb (List.cons_subset_cons _ (List.map_subset _ (h.addressed_sublist net.size).subset) hmem)
  have hnode : ∀ (p : Nat) (v : View), s.world.nodes[p]? = some v → v.has b = false := by
    intro p v hv
    have hsize : s.world.nodes.size = net.size := size_nodes_of_reaches hsq hr
    have hp : p < net.size := by
      rw [← hsize]
      exact (Array.getElem?_eq_some_iff.1 hv).1
    obtain ⟨v', m, hv', _, hf⟩ := account_of_reaches hsq hr hfits hp
    rw [Option.some.inj (hv.symm.trans hv')]
    exact (hf.has_eq_false haddressed).1
  have hmirror : ∀ (p : Nat) (m : View), s.adversary.mirrors[p]? = some m → m.has b = false := by
    intro p m hm
    have hp : p < net.size := by
      rw [← size_mirrors_of_reaches hsq hr]
      exact (Array.getElem?_eq_some_iff.1 hm).1
    obtain ⟨v, m', _, hm', hf⟩ := account_of_reaches hsq hr hfits hp
    rw [Option.some.inj (hm.symm.trans hm')]
    exact (hf.has_eq_false haddressed).2
  refine ⟨fun v hv => ?_, fun m hm => ?_, ?_, fun hmem => hb (carried_of_reaches hr b hmem)⟩
  · obtain ⟨p, hp⟩ := Array.mem_iff_getElem?.1 hv
    exact hnode p v hp
  · obtain ⟨p, hp⟩ := Array.mem_iff_getElem?.1 hm
    exact hmirror p m hp
  · cases hv : s.adversary.view.has b with
    | false => rfl
    | true =>
        rcases (view_of_reaches hsq hr b).1 hv with ⟨p, m, hm, hmb⟩ | hsent
        · rw [hmirror p m hm] at hmb
          contradiction
        · refine absurd ?_ hb
          rw [Run.History.published, List.map_cons, List.map_append]
          exact List.mem_cons_of_mem _ (List.mem_append_right _ hsent)

/-! ## the law -/

/-- What has become of the blocks that the adversary was given. -/
structure Conserved (env : Environment) (h : Run.History) (s : Run.State Balancer σ) : Prop where
  /-- Of each side, the blocks given are those sent, and then those kept back. -/
  order : ∀ side, onSide side h.kept = onSide side h.sent ++ s.adversary.pendingOn side
  /-- What is kept back is secret, as long as the numbers of lent blocks fit. -/
  secret : Fits env s.adversary → ∀ side, ∀ b ∈ s.adversary.pendingOn side, Secret s b
  /-- The blocks sent are counted, those apart that were lent. -/
  released : s.world.released = h.sent.countP fun x => !x.2.isSynthetic

theorem conserved_of_reaches (hsq : net.distances.Square net.size)
    (hr : (run env net margin).Reaches {} supply h s) : Conserved env h s where
  order := onSide_kept_of_reaches hr
  secret := by
    intro hfits side b hb
    have hstock : b ∈ s.adversary.stock.map Prod.snd := by
      rw [stock, List.map_append, map_snd_pair, map_snd_pair, List.mem_append]
      cases side with
      | left => exact .inl hb
      | right => exact .inr hb
    have hnodup := nodup_published_stock hr hfits
    rw [List.map_append] at hnodup
    exact secret_of_not_mem hsq hr hfits fun hmem =>
      (List.nodup_append.1 hnodup).2.2 b hmem b hstock rfl
  released := (counted_of_reaches hsq hr).released

/-- The counters of an outcome, where nothing could be lent. -/
theorem released_add_withheld (hsq : net.distances.Square net.size)
    (hr : (run env net margin).Reaches {} supply h s) (hoff : env.allowBorrowing = false) :
    s.world.released + s.adversary.withheld = s.world.adversaryMined := by
  have hfits := fits_of_not_allowBorrowing hoff s.adversary
  have hc := counted_of_reaches hsq hr
  have hperm := kept_perm_of_reaches hr
  -- every block given was mined, and so every block sent
  have hkept : ∀ x ∈ h.kept, (!x.2.isSynthetic) = true :=
    List.countP_eq_length.1 ((hc.adversaryMined hfits).symm.trans (hc.unlent hoff))
  have hsent : h.sent.countP (fun x => !x.2.isSynthetic) = h.sent.length :=
    List.countP_eq_length.2 fun x hx => hkept x (hperm.mem_iff.2 (List.mem_append_left _ hx))
  rw [hc.released, hsent, hc.unlent hoff, hperm.length_eq, List.length_append, length_stock]

/-- The blocks sent were given before, those that were lent apart as well. -/
theorem released_le_adversaryMined (hsq : net.distances.Square net.size)
    (hr : (run env net margin).Reaches {} supply h s)
    (hfits : Fits env s.adversary) :
    s.world.released ≤ s.world.adversaryMined := by
  have hc := counted_of_reaches hsq hr
  rw [hc.released, hc.adversaryMined hfits, (kept_perm_of_reaches hr).countP_eq,
    List.countP_append]
  exact Nat.le_add_right _ _

/-- **No block that the adversary was given is lost, sent out of turn or leaked**,
in any state of a run, and the counters of an outcome tally. -/
theorem conserved (hsq : net.distances.Square net.size) :
    (∀ (h : Run.History) (s : Run.State Balancer σ),
      (run env net margin).Reaches {} supply h s → Conserved env h s) ∧
    (∀ (events : Nat) (b : Balancer) (o : Outcome) (s' : Run.State Balancer σ),
      (run env net margin).prepare {} = .ok b →
      (run env net margin).simulate events b supply = .ok (o, s') →
      (env.allowBorrowing = false →
        o.releasedBlocks + o.withheldBlocks = o.adversaryBlocks ∧
        o.adversaryBlocks ≤ o.blocksMined) ∧
      (env.allowBorrowing = true → o.borrowedBlocks < 2 ^ 63 →
        o.releasedBlocks ≤ o.adversaryBlocks)) := by
  refine ⟨fun h s hr => conserved_of_reaches hsq hr, ?_⟩
  intro events b o s' hprep hsim
  obtain ⟨h, s, v, hr, hstep, rfl⟩ := Run.exists_reaches_of_simulate hprep hsim
  obtain ⟨hadversary, hmined, hevil, hreleased⟩ := (Run.ending_of_step hstep).counters_eq
  dsimp only [Run.report]
  rw [hadversary, hmined, hevil, hreleased]
  refine ⟨fun hoff => ⟨released_add_withheld hsq hr hoff, ?_⟩, fun _ hfits =>
    released_le_adversaryMined hsq hr fun _ => hfits⟩
  have hfits := fits_of_not_allowBorrowing hoff s.adversary
  have hc := (counted_of_reaches hsq hr).mined
  omega

/-- The two nodes without loans. -/
def ownPairEnvironment : Environment := { pairEnvironment with allowBorrowing := false }

/-- Midway between two nodes four blocks are kept back in secret, behind those of their side
that were sent.  At the end four blocks of seven are sent and three kept back where nothing can
be lent, and five are sent where four were lent. -/
theorem conserved_pair :
    (∃ h s, (run pairEnvironment pair Balancer.margin).Reaches {} pairSupply h s ∧ Midway h s ∧
      Conserved pairEnvironment h s ∧ s.world.released = 3 ∧
      s.adversary.pendingOn .left = [⟨7⟩, ⟨9⟩] ∧ s.adversary.pendingOn .right = [⟨4⟩, ⟨8⟩] ∧
      ∀ side, ∀ b ∈ s.adversary.pendingOn side, Secret s b) ∧
    (∃ b o s', (run ownPairEnvironment pair Balancer.margin).prepare {} = .ok b ∧
      (run ownPairEnvironment pair Balancer.margin).simulate 60 b pairSupply = .ok (o, s') ∧
      o.releasedBlocks = 4 ∧ o.withheldBlocks = 3 ∧
      o.releasedBlocks + o.withheldBlocks = o.adversaryBlocks ∧
      o.adversaryBlocks ≤ o.blocksMined) ∧
    ∃ b o s', (run pairEnvironment pair Balancer.margin).prepare {} = .ok b ∧
      (run pairEnvironment pair Balancer.margin).simulate 60 b pairSupply = .ok (o, s') ∧
      o.releasedBlocks = 5 ∧ o.borrowedBlocks = 4 ∧ o.releasedBlocks ≤ o.adversaryBlocks := by
  have hlent := @conserved (Nat → UInt64) pairSupply pairEnvironment pair Balancer.margin _
    square_pair
  have hown := @conserved (Nat → UInt64) pairSupply ownPairEnvironment pair Balancer.margin _
    square_pair
  refine ⟨?_, ?_, ?_⟩
  · obtain ⟨h, s, hr, hmidway⟩ := exists_reaches_midway
    have hlaw := hlent.1 h s hr
    have hleft := hlaw.order .left
    have hright := hlaw.order .right
    have hreleased := hlaw.released
    rw [hmidway.kept, hmidway.sent] at hleft hright
    rw [hmidway.sent] at hreleased
    refine ⟨h, s, hr, hmidway, hlaw, hreleased, ?_, ?_, hlaw.secret fun _ => hmidway.borrowed_lt⟩
    · exact ((List.append_right_inj [⟨1⟩, ⟨3⟩, ⟨-1⟩, ⟨-2⟩]).1 hleft).symm
    · exact ((List.append_right_inj [⟨2⟩]).1 hright).symm
  · obtain ⟨b, o, s', hprep, hsim, ho⟩ := Run.exists_simulate_of_any
      (run ownPairEnvironment pair Balancer.margin) {} pairSupply 60
      (fun o => o.releasedBlocks = 4 ∧ o.withheldBlocks = 3) (by decide +kernel)
    obtain ⟨hreleased, hwithheld⟩ := of_decide_eq_true ho
    exact ⟨b, o, s', hprep, hsim, hreleased, hwithheld, (hown.2 60 b o s' hprep hsim).1 rfl⟩
  · obtain ⟨b, o, s', hprep, hsim, ho⟩ := Run.exists_simulate_of_any
      (run pairEnvironment pair Balancer.margin) {} pairSupply 60
      (fun o => o.releasedBlocks = 5 ∧ o.borrowedBlocks = 4) (by decide +kernel)
    obtain ⟨hreleased, hborrowed⟩ := of_decide_eq_true ho
    exact ⟨b, o, s', hprep, hsim, hreleased, hborrowed,
      (hlent.2 60 b o s' hprep hsim).2 rfl (by rw [hborrowed]; decide)⟩

end Balancer

end BalanceAttack
