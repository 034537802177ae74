import BalanceAttack.Proofs.Delivery

/-!
# BalanceAttack.Proofs.Mirror

How well the adversary is informed.  Its mirror of a node lacks what the node
has received without the adversary having been told so far, and nothing else;
its own view is made up of all mirrors and of what it has sent:

* `view_of_reaches` — the own view;
* `mirrored_of_reaches` — every mirror beside the node it stands for.
-/

namespace BalanceAttack

open BalanceAttack.Random

/-- How often the adversary is going to be told that a node has received a block. -/
def Agenda.reporting (q : Agenda) (node : Nat) (b : BlockId) : Nat :=
  ((q.reports node).map Prod.snd).count b

/-- One view more has a block once it is delivered there, and all others have what they had. -/
theorem exists_has_modify {views : Array View} {i : Nat} (hi : i < views.size) (b : BlockId)
    (s : Side) (x : BlockId) :
    (∃ (j : Nat) (v : View), (views.modify i (·.record b s))[j]? = some v ∧ v.has x = true) ↔
      x = b ∨ ∃ (j : Nat) (v : View), views[j]? = some v ∧ v.has x = true := by
  have hread := Array.getElem?_eq_getElem hi
  have hself := View.getElem?_record hread b s
  constructor
  · rintro ⟨j, v, hv, hx⟩
    by_cases hij : i = j
    · subst hij
      obtain rfl := Option.some.inj (hself.symm.trans hv)
      rw [View.has_record, Bool.or_eq_true, beq_iff_eq] at hx
      rcases hx with hx | hx
      · exact .inl hx.symm
      · exact .inr ⟨i, views[i], hread, hx⟩
    · rw [View.getElem?_record_of_ne hij] at hv
      exact .inr ⟨j, v, hv, hx⟩
  · rintro (rfl | ⟨j, v, hv, hx⟩)
    · refine ⟨i, _, hself, ?_⟩
      rw [View.has_record, beq_self_eq_true, Bool.true_or]
    · by_cases hij : i = j
      · subst hij
        refine ⟨i, _, View.getElem?_record hv b s, ?_⟩
        rw [View.has_record, hx, Bool.or_true]
      · exact ⟨j, v, (View.getElem?_record_of_ne hij b s).trans hv, hx⟩

namespace Balancer

variable {σ : Type} {supply : Supply σ} {env : Environment} {net : Network}
  {margin : Balancer → Int} {h : Run.History} {s : Run.State Balancer σ}

/-- The adversary takes a node to have received a block. -/
def Believes (a : Balancer) (node : Nat) (b : BlockId) : Prop :=
  ∃ m, a.mirrors[node]? = some m ∧ m.has b = true

/-! ## the own view -/

/-- The own view and the mirrors, after the given blocks have been sent. -/
def Informed (sent : List (Side × BlockId)) (a : Balancer) : Prop :=
  ∀ x, a.view.has x = true ↔ (∃ p, a.Believes p x) ∨ x ∈ sent.map Prod.snd

theorem informed_of_opening (hopen : Opening net s) : Informed [] s.adversary := by
  intro x
  rw [hopen.view]
  constructor
  · rintro ⟨rfl, hne⟩
    obtain ⟨p, hp⟩ := List.exists_mem_of_ne_nil _ hne
    have hlt : p < s.adversary.mirrors.size := by
      rw [hopen.mirrors.size_eq]
      exact ((Partition.mem_nodes_iff hopen.partition .right).1 (List.mem_append_left _ hp)).2
    have hholds := hopen.mirrors.holds p _ (Array.getElem?_eq_getElem hlt)
    rw [startsFrom, if_pos hp] at hholds
    refine .inl ⟨p, _, Array.getElem?_eq_getElem hlt, (hholds.has_iff _).2 ?_⟩
    exact List.mem_cons_self
  · rintro (⟨p, m, hm, hx⟩ | hx)
    · have hmem := ((hopen.mirrors.holds p m hm).has_iff x).1 hx
      unfold startsFrom at hmem
      by_cases hp : p ∈ s.adversary.partition.right
      · rw [if_pos hp] at hmem
        exact ⟨List.mem_singleton.1 hmem, List.ne_nil_of_mem hp⟩
      · rw [if_neg hp] at hmem
        contradiction
    · contradiction

theorem Informed.turn {a : Balancer} {w : World σ} {event : Event} {e : Run.Entry}
    (hi : Informed h.sent a) (hturn : Run.Turn (run env net margin) a w event e s) :
    Informed (Run.History.sent (h ++ [e])) s.adversary := by
  have hex := exchange_of_turn hturn
  have hnoting : Informed h.sent (a.noting event) := by
    cases hturn with
    | told hobs =>
        obtain ⟨hpeer, _⟩ := observe_eq_ok_iff.1 hobs
        intro x
        have hmirrors := exists_has_modify hpeer
        simp only [noting, observe, Believes, hmirrors, View.has_record, Bool.or_eq_true,
          beq_iff_eq, hi x, or_assoc, @eq_comm _ x]
    | evil | honest | known | new | checked | idle => exact hi
  intro x
  have hbelieves : ∀ p, s.adversary.Believes p x ↔ (a.noting event).Believes p x := by
    intro p
    rw [Believes, Believes, hex.mirrors]
  simp only [hex.view, hnoting x, hbelieves, Run.History.sent_append, List.map_append,
    List.mem_append, or_assoc]

variable [WordSource σ]

/-- The own view is made up of all mirrors and of what has been sent. -/
theorem view_of_reaches (hsq : net.distances.Square net.size)
    (hr : (run env net margin).Reaches {} supply h s) : Informed h.sent s.adversary := by
  induction hr with
  | start hprep hstart => exact informed_of_opening (opening_of_start hsq hprep hstart)
  | step _ hstep ih =>
      obtain ⟨first, agenda, _, _, hturn⟩ := Run.exists_turn_of_step hstep
      exact ih.turn hturn

/-! ## the mirrors -/

/-- Every mirror beside the node it stands for. -/
structure Mirrored (n : Nat) (h : Run.History) (s : Run.State Balancer σ) : Prop where
  /-- A node has received what its mirror has and what is going to be reported once. -/
  received_iff : ∀ p < n, ∀ b, s.world.Received p b ↔
    s.adversary.Believes p b ∨ s.world.agenda.reporting p b = 1
  /-- What a mirror has is not going to be reported. -/
  disjoint : ∀ p < n, ∀ b, s.adversary.Believes p b → s.world.agenda.reporting p b = 0
  /-- Nothing is reported of a node twice, or going to be. -/
  once : ∀ p < n, ∀ b,
    ((h.reported p).map Prod.snd).count b + s.world.agenda.reporting p b ≤ 1
  /-- The adversary never takes a node to have a block that it has not received. -/
  sound : ∀ p < n, ∀ b, s.adversary.Believes p b → s.world.Received p b
  /-- The own view is made up of all mirrors and of what has been sent. -/
  view : Informed h.sent s.adversary
  /-- Where no report is pending, no mirror can be told from its node. -/
  alike : (∀ p, s.world.agenda.reports p = []) → ∀ p < n, ∃ v m,
    s.world.nodes[p]? = some v ∧ s.adversary.mirrors[p]? = some m ∧ m.Alike v

theorem believes_iff {a : Balancer} {p : Nat} {m : View} (hm : a.mirrors[p]? = some m)
    (b : BlockId) : a.Believes p b ↔ m.has b = true := by
  constructor
  · rintro ⟨m', hm', hb⟩
    obtain rfl : m' = m := Option.some.inj (hm'.symm.trans hm)
    exact hb
  · exact fun hb => ⟨m, hm, hb⟩

/-- A block is told of a node or going to be told, and that once, if the node has it. -/
theorem exists_count_reports (hsq : net.distances.Square net.size)
    (hr : (run env net margin).Reaches {} supply h s)
    (hfits : Fits env s.adversary) {p : Nat}
    (hp : p < net.size) (b : BlockId) :
    ∃ told, (s.adversary.Believes p b ↔ told = 1) ∧
      (s.world.Received p b ↔ told + s.world.agenda.reporting p b = 1) ∧
      ((h.reported p).map Prod.snd).count b ≤ told ∧
      told + s.world.agenda.reporting p b ≤ 1 := by
  obtain ⟨v, m, hv, hm, hf⟩ := account_of_reaches hsq hr hfits hp
  have hcount : ∀ l : List (Side × BlockId), ∀ u : View, u.Holds l →
      (l.map Prod.snd).count b ≤ 1 ∧ (u.has b = true ↔ (l.map Prod.snd).count b = 1) := by
    intro l u hu
    have hle := List.nodup_iff_count_le_one.1 hu.nodup b
    rw [hu.has_iff, ← List.count_pos_iff]
    exact ⟨hle, by omega⟩
  have hnode := hcount _ v hf.node
  have hmirror := hcount _ m hf.mirror
  have hsum : (((Event.idle.reportOn p).toList ++ s.world.agenda.reports p ++
      (startsFrom s.adversary.partition.right p ++ h.reported p)).map Prod.snd).count b =
      ((startsFrom s.adversary.partition.right p ++ h.reported p).map Prod.snd).count b +
        s.world.agenda.reporting p b := by
    rw [List.map_append, List.count_append, Nat.add_comm]
    rfl
  rw [hsum] at hnode
  refine ⟨_, (believes_iff hm b).trans hmirror.2, (World.received_iff hv b).trans hnode.2, ?_,
    hnode.1⟩
  rw [List.map_append, List.count_append]
  exact Nat.le_add_left _ _

/-- **The mirrors are exact up to the reports that are pending.**  Blocks are lent
only as long as their numbers fit. -/
theorem mirrored_of_reaches (hsq : net.distances.Square net.size)
    (hr : (run env net margin).Reaches {} supply h s)
    (hfits : Fits env s.adversary) :
    Mirrored net.size h s where
  received_iff := by
    intro p hp b
    obtain ⟨told, hbelieves, hreceived, _, hle⟩ := exists_count_reports hsq hr hfits hp b
    rw [hbelieves, hreceived]
    omega
  disjoint := by
    intro p hp b hb
    obtain ⟨told, hbelieves, _, _, hle⟩ := exists_count_reports hsq hr hfits hp b
    have htold := hbelieves.1 hb
    omega
  once := by
    intro p hp b
    obtain ⟨told, _, _, hreported, hle⟩ := exists_count_reports hsq hr hfits hp b
    omega
  sound := by
    intro p hp b hb
    obtain ⟨told, hbelieves, hreceived, _, hle⟩ := exists_count_reports hsq hr hfits hp b
    have htold := hbelieves.1 hb
    exact hreceived.2 (by omega)
  view := view_of_reaches hsq hr
  alike := by
    intro hnil p hp
    obtain ⟨v, m, hv, hm, hf⟩ := account_of_reaches hsq hr hfits hp
    rw [hnil p] at hf
    exact ⟨v, m, hv, hm, hf.mirror.alike hf.node⟩

/-- The mirrors of two nodes, each of which has a block that is still to be reported. -/
theorem mirrored_pair :
    ∃ h s, (run pairEnvironment pair Balancer.margin).Reaches {} pairSupply h s ∧ Midway h s ∧
      Mirrored pair.size h s := by
  obtain ⟨h, s, hr, hmidway⟩ := exists_reaches_midway
  exact ⟨h, s, hr, hmidway, mirrored_of_reaches square_pair hr fun _ => hmidway.borrowed_lt⟩

end Balancer

end BalanceAttack
