import BalanceAttack.Proofs.Chronology

/-!
# BalanceAttack.Proofs.Ledger

Where the blocks come from that a run names.  The *ledger* of a history lists
all blocks that have come into being, each with its side.  Whatever is pending,
kept back, sent or received is in it, so that no block ever changes its side:

* `World.Within.turn`, `Balancer.Within.turn` — a turn names no block that is
  not in the ledger with what it brings into being;
* `lowest_of_turn`, `Numerals.mine`, `Numerals.lend` — how new blocks are numbered;
* `ledger_of_reaches` — the ledger of a whole run;
* `upToDate_of_reaches` — the sides that the views of a run keep are those their
  weights favor.
-/

namespace BalanceAttack

open BalanceAttack.Random

/-- The block that an event is about, with its side. -/
def Event.message : Event → Option (Side × BlockId)
  | deliver _ side block => some (side, block)
  | observe side block _ => some (side, block)
  | _ => none

/-- The blocks that the pending events are about. -/
def Agenda.messages (q : Agenda) : List (Side × BlockId) := q.pick fun _ e => e.message

namespace Run

/-- The blocks that were found at an event, by an honest node or the adversary. -/
def Entry.found (e : Entry) : List (Side × BlockId) := if e.event = .mine then e.minted else []

/-- The blocks that the adversary lent itself at an event. -/
def Entry.lent (e : Entry) : List (Side × BlockId) := if e.event = .mine then [] else e.minted

theorem Entry.minted_eq (e : Entry) : e.minted = e.found ++ e.lent := by
  by_cases he : e.event = .mine <;> simp [Entry.found, Entry.lent, he]

namespace History

/-- The blocks that have been found, in order. -/
def found (h : History) : List (Side × BlockId) := h.flatMap Entry.found

/-- The blocks that the adversary has lent itself, in order. -/
def lent (h : History) : List (Side × BlockId) := h.flatMap Entry.lent

/-- All blocks that there are, the genesis block first. -/
def ledger (h : History) : List (Side × BlockId) := (.right, .genesis) :: h.minted

@[simp] theorem found_append (h : History) (e : Entry) : found (h ++ [e]) = h.found ++ e.found := by
  simp [found]

@[simp] theorem lent_append (h : History) (e : Entry) : lent (h ++ [e]) = h.lent ++ e.lent := by
  simp [lent]

@[simp] theorem ledger_append (h : History) (e : Entry) :
    ledger (h ++ [e]) = h.ledger ++ e.minted := by
  simp [ledger]

/-- The ledger only grows. -/
theorem ledger_subset {h h' : History} (hp : h.IsPrefix h') : h.ledger ⊆ h'.ledger := by
  obtain ⟨k, rfl⟩ := hp
  exact List.cons_subset_cons _ (by simp [minted])

theorem kept_subset_ledger (h : History) : h.kept ⊆ h.ledger := fun _ hx =>
  List.mem_cons_of_mem _ (h.minted_perm.mem_iff.2 (List.mem_append_right _ hx))

end History

end Run

/-! ## what a turn names -/

variable {σ : Type} {l : List (Side × BlockId)}

/-- Outside the adversary no block is named that is not listed. -/
structure World.Within (w : World σ) (l : List (Side × BlockId)) : Prop where
  messages : w.agenda.messages ⊆ l
  nodes : ∀ v ∈ w.nodes, v.Drawn l

theorem World.Within.mono {w : World σ} (hw : w.Within l) {m : List (Side × BlockId)}
    (hl : l ⊆ m) : w.Within m where
  messages := List.Subset.trans hw.messages hl
  nodes := fun v hv => (hw.nodes v hv).mono hl

/-- What is scheduled is about blocks of the list. -/
theorem Agenda.messages_pushAll {q : Agenda} {es : List (Int × Event)} (hq : q.messages ⊆ l)
    (hes : ∀ x ∈ es, ∀ y, x.2.message = some y → y ∈ l) : (q.pushAll es).messages ⊆ l := by
  intro y hy
  rcases mem_pick_pushAll.1 hy with ⟨x, hx, hxy⟩ | hy
  · exact hes x hx y hxy
  · exact hq hy

theorem Agenda.messages_push {q : Agenda} {t : Int} {e : Event} (hq : q.messages ⊆ l)
    (he : ∀ y, e.message = some y → y ∈ l) : (q.push t e).messages ⊆ l := by
  intro y hy
  rcases mem_pick_push.1 hy with hy | hy
  · exact he y hy
  · exact hq hy

/-- The next event is about a block of the list, if the pending events are. -/
theorem World.Within.next {w : World σ} (hw : w.Within l) {first : Scheduled} {agenda : Agenda}
    (hq : w.agenda.next = some (first, agenda)) :
    World.Within { w with clock := first.time, agenda } l ∧
      ∀ y, first.event.message = some y → y ∈ l := by
  have hperm := Agenda.pick_next hq fun _ e => e.message
  refine ⟨⟨fun y hy => ?_, hw.nodes⟩, fun y hy => ?_⟩
  · exact hw.messages (hperm.mem_iff.2 (List.mem_append_right _ hy))
  · exact hw.messages (hperm.mem_iff.2 (List.mem_append_left _ (Option.mem_toList.2 hy)))

/-- A turn delivers, reports and schedules blocks of the list and those it brings into being. -/
theorem World.Within.turn {α : Type} {run : Run α} {a : α} {w : World σ} {event : Event}
    {e : Run.Entry} {s : Run.State α σ} (hw : w.Within l)
    (hevent : ∀ y, event.message = some y → y ∈ l) (hsent : e.sent ⊆ l ++ e.minted)
    (hturn : Run.Turn run a w event e s) : s.world.Within (l ++ e.minted) := by
  have hgrown := hw.mono (List.subset_append_left l e.minted)
  cases hturn with
  | evil => exact ⟨Agenda.messages_push hgrown.messages (by simp [Event.message]), hgrown.nodes⟩
  | @honest wait _ miner view events _ hevents =>
      have hnew : (view.side, ⟨(w.mined + 1 : Nat)⟩) ∈
          l ++ [(view.side, (⟨(w.mined + 1 : Nat)⟩ : BlockId))] :=
        List.mem_append_right _ List.mem_cons_self
      refine ⟨Agenda.messages_pushAll (Agenda.messages_push hgrown.messages ?_) ?_,
        View.drawn_modify hgrown.nodes hnew miner⟩
      · simp [Event.message]
      · intro x hx y hy
        rcases List.mem_append.1 hx with hx | hx
        · obtain ⟨_, _, _, _, _, rfl⟩ := World.mem_arrivals hevents hx
          exact Option.some.inj hy ▸ hnew
        · obtain rfl := List.mem_singleton.1 hx
          exact Option.some.inj hy ▸ hnew
  | known => exact hgrown
  | @new peer side block =>
      have hblock : (side, block) ∈ l ++ [] := List.mem_append_left _ (hevent _ rfl)
      refine ⟨Agenda.messages_push hgrown.messages fun y hy => ?_,
        View.drawn_modify hgrown.nodes hblock peer⟩
      exact Option.some.inj hy ▸ hblock
  | told _ _ hevents =>
      refine ⟨Agenda.messages_pushAll hgrown.messages fun x hx y hy => ?_, hgrown.nodes⟩
      obtain ⟨z, hz, peer, hx⟩ := World.mem_released hevents hx
      rw [hx] at hy
      exact Option.some.inj hy ▸ hsent hz
  | checked => exact ⟨Agenda.messages_push hgrown.messages (by simp [Event.message]), hgrown.nodes⟩
  | idle => exact hgrown

namespace Balancer

variable {env : Environment} {net : Network} {margin : Balancer → Int}

/-- The adversary knows of no block that is not listed. -/
structure Within (b : Balancer) (l : List (Side × BlockId)) : Prop where
  pendingOn : ∀ s, ∀ x ∈ b.pendingOn s, (s, x) ∈ l
  mirrors : ∀ v ∈ b.mirrors, v.Drawn l
  view : b.view.Drawn l

theorem Within.observe {b : Balancer} (hb : b.Within l) {side : Side} {block : BlockId}
    (hblock : (side, block) ∈ l) (peer : Nat) : (b.observe side block peer).Within l where
  pendingOn := hb.pendingOn
  mirrors := View.drawn_modify hb.mirrors hblock peer
  view := hb.view.record hblock

/-- The adversary is told of blocks of the list. -/
theorem Within.noting {b : Balancer} (hb : b.Within l) {event : Event}
    (hevent : ∀ y, event.message = some y → y ∈ l) : (b.noting event).Within l := by
  cases event with
  | observe side block peer => exact hb.observe (hevent _ rfl) peer
  | mine | deliver | check | idle => exact hb

/-- The adversary learns of blocks of the list, and sends them and those that a
turn brings into being. -/
theorem Within.turn {b : Balancer} {w : World σ} {event : Event} {e : Run.Entry}
    {s : Run.State Balancer σ} (hb : b.Within l) (hevent : ∀ y, event.message = some y → y ∈ l)
    (hturn : Run.Turn (run env net margin) b w event e s) :
    s.adversary.Within (l ++ e.minted) ∧ e.sent ⊆ l ++ e.minted := by
  have hnoting := hb.noting hevent
  have hex := exchange_of_turn hturn
  -- what was kept back before or is given now
  have hstock : ∀ side x, x ∈ (b.noting event).pendingOn side ++ onSide side e.kept →
      (side, x) ∈ l ++ e.minted := by
    intro side x hx
    rcases List.mem_append.1 hx with hx | hx
    · exact List.mem_append_left _ (hnoting.pendingOn side x hx)
    · exact List.mem_append_right _ (List.mem_append_right _ (mem_onSide.1 hx))
  have hsent : e.sent ⊆ l ++ e.minted := by
    rintro ⟨side, x⟩ hx
    refine hstock side x ?_
    rw [hex.backlog side]
    exact List.mem_append_left _ (mem_onSide.2 hx)
  refine ⟨⟨fun side x hx => hstock side x ?_, fun v hv => ?_, ?_⟩, hsent⟩
  · rw [hex.backlog side]
    exact List.mem_append_right _ hx
  · rw [hex.mirrors] at hv
    exact (hnoting.mirrors v hv).mono (List.subset_append_left _ _)
  · rw [view_of_turn hturn]
    exact (hnoting.view.mono (List.subset_append_left _ _)).foldl_record hsent

/-! ## what a run names -/

/-- A run takes up the attack with nothing but the genesis block. -/
theorem within_start {b : Balancer} (hprep : (run env net margin).prepare {} = .ok b) :
    b.start.Within [(.right, .genesis)] := by
  obtain ⟨partition, _, rfl⟩ := setUp_of_prepare hprep
  refine List.foldlRecOn (motive := fun b : Balancer => b.Within [(.right, .genesis)]) _ _ ?_
    fun b hb peer _ => hb.observe List.mem_cons_self peer
  refine ⟨fun s => ?_, fun v hv => ?_, View.drawn_fresh _ _⟩
  · cases s <;> exact fun x hx => absurd hx List.not_mem_nil
  · obtain ⟨i, _, rfl⟩ := Array.mem_map.1 hv
    exact View.drawn_fresh _ _

variable [WordSource σ] {supply : Supply σ} {h h' : Run.History} {s s' : Run.State Balancer σ}

/-- All that is named at some point of a run is in the ledger. -/
structure Recorded (h : Run.History) (s : Run.State Balancer σ) : Prop where
  world : s.world.Within h.ledger
  adversary : s.adversary.Within h.ledger
  sent : h.sent ⊆ h.ledger

theorem recorded_of_reaches (hr : (run env net margin).Reaches {} supply h s) : Recorded h s := by
  induction hr with
  | @start b s hprep hstart =>
      obtain ⟨hnodes, _⟩ := rooted_of_start hstart
      obtain ⟨hstarted, es, hagenda, _, hes⟩ := Run.exists_prelude_of_start hstart
      have hadversary : s.adversary = b.start := (Except.ok.inj hstarted).symm
      refine ⟨⟨?_, fun v hv => ?_⟩, hadversary ▸ within_start hprep, List.nil_subset _⟩
      · rw [hagenda]
        refine Agenda.messages_pushAll (List.nil_subset _) fun x hx y hy => ?_
        rcases List.mem_append.1 hx with hx | hx
        · obtain ⟨_, _, _, _, _, rfl⟩ := hes x hx
          exact Option.some.inj hy ▸ List.mem_cons_self
        · simp only [List.mem_cons, List.not_mem_nil, or_false] at hx
          rcases hx with rfl | rfl <;> contradiction
      · obtain ⟨p, hv⟩ := Array.mem_iff_getElem?.1 hv
        refine ⟨_, hnodes.holds p v hv, fun x hx => ?_⟩
        unfold startsFrom at hx
        split at hx
        · exact hx
        · contradiction
  | step _ hstep ih =>
      obtain ⟨first, agenda, hq, _, hturn⟩ := Run.exists_turn_of_step hstep
      obtain ⟨hworld, hevent⟩ := ih.world.next hq
      obtain ⟨hadversary, hsent⟩ := ih.adversary.turn hevent hturn
      have hworld' := hworld.turn hevent hsent hturn
      rw [← Run.History.ledger_append] at hworld' hadversary hsent
      refine ⟨hworld', hadversary, ?_⟩
      rw [Run.History.sent_append]
      refine List.append_subset.2 ⟨List.Subset.trans ih.sent ?_, hsent⟩
      exact Run.History.ledger_subset (List.prefix_append _ _)

/-! ## the numbers -/

omit [WordSource σ] in
/-- A block that is found has the next number, and a block that is lent a
number below all that were there before. -/
theorem lowest_of_turn {b : Balancer} {w : World σ} {event : Event} {e : Run.Entry}
    (hturn : Run.Turn (run env net margin) b w event e s) (hfits : Fits env s.adversary)
    (hnum : Numbered (h.minted.map Prod.snd) w.mined b.borrowed) :
    (event = .mine ∧ e.lent = [] ∧ e.found.map Prod.snd = [⟨(w.mined + 1 : Nat)⟩]) ∨
    (event ≠ .mine ∧ e.found = [] ∧
      (e.lent.map Prod.snd).Pairwise (fun x y => y.number < x.number) ∧
      ∀ y ∈ e.lent, y.2.number < 0 ∧ ∀ x ∈ h.minted, y.2.number < x.2.number) := by
  have hmined := Run.mined_of_turn hturn
  by_cases hevent : event = .mine
  · rw [if_pos hevent] at hmined
    rcases minted_of_turn hturn with ⟨side, hnew, _⟩ | ⟨hsame, _⟩
    · refine .inl ⟨hevent, ?_, ?_⟩ <;>
        simp [Run.Entry.lent, Run.Entry.found, Run.event_of_turn hturn, hevent, hnew]
    · omega
  · rw [if_neg hevent] at hmined
    have hlent : e.lent = e.minted := if_neg (Run.event_of_turn hturn ▸ hevent)
    have hfound : e.found = [] := if_neg (Run.event_of_turn hturn ▸ hevent)
    rw [hlent]
    refine .inr ⟨hevent, hfound, ?_⟩
    rcases minted_of_turn hturn with ⟨_, _, hmore⟩ | ⟨_, hnew | ⟨hborrow, side, short, hnew, hle⟩⟩
    · omega
    · rw [hnew]
      exact ⟨List.Pairwise.nil, fun y hy => absurd hy List.not_mem_nil⟩
    · have htotal := Nat.lt_of_le_of_lt hle (hfits hborrow)
      rw [hnew, map_snd_pair]
      refine ⟨pairwise_synthetic _ _, fun y hy => ?_⟩
      obtain ⟨z, hz, rfl⟩ := List.mem_map.1 hy
      have hbelow := mem_synthetic (Nat.le_add_left short b.borrowed) htotal hz
      dsimp only
      refine ⟨by omega, fun x hx => ?_⟩
      have habove := hnum.bounds _ (List.mem_map_of_mem hx)
      omega

/-- The blocks found are numbered upwards from the first, and each block that is
lent below all that were there before. -/
structure Numerals (h : Run.History) (mined : Nat) : Prop where
  found : h.found.map (fun x => x.2.number) = (List.range mined).map fun k : Nat => (k : Int) + 1
  lent : ∀ x ∈ h.lent, x.2.number < 0
  lowest : (h.minted.map Prod.snd).Pairwise fun x y => y.isSynthetic = true → y.number < x.number

namespace Numerals

variable {h : Run.History} {mined : Nat} {e : Run.Entry}

/-- The next block is found. -/
theorem mine (hn : Numerals h mined) (hlent : e.lent = [])
    (hfound : e.found.map Prod.snd = [⟨(mined + 1 : Nat)⟩]) :
    Numerals (h ++ [e]) (mined + 1) where
  found := by
    have hnumber : e.found.map (fun x => x.2.number) = [(mined : Int) + 1] := by
      have hids := congrArg (List.map BlockId.number) hfound
      rw [List.map_map] at hids
      exact hids
    rw [Run.History.found_append, List.map_append, hn.found, hnumber, List.range_succ,
      List.map_append]
    rfl
  lent := by
    rw [Run.History.lent_append, hlent, List.append_nil]
    exact hn.lent
  lowest := by
    rw [Run.History.minted_append, e.minted_eq, hlent, List.append_nil, List.map_append, hfound,
      List.pairwise_append]
    refine ⟨hn.lowest, List.pairwise_singleton _ _, fun x _ y hy hneg => ?_⟩
    obtain rfl := List.mem_singleton.1 hy
    rw [BlockId.isSynthetic, decide_eq_true_eq] at hneg
    dsimp only at hneg
    omega

/-- Blocks are lent, or nothing comes into being. -/
theorem lend (hn : Numerals h mined) (hfound : e.found = [])
    (hdown : (e.lent.map Prod.snd).Pairwise fun x y => y.number < x.number)
    (hbelow : ∀ y ∈ e.lent, y.2.number < 0 ∧ ∀ x ∈ h.minted, y.2.number < x.2.number) :
    Numerals (h ++ [e]) mined where
  found := by
    rw [Run.History.found_append, hfound, List.append_nil]
    exact hn.found
  lent := by
    rw [Run.History.lent_append]
    intro x hx
    rcases List.mem_append.1 hx with hx | hx
    · exact hn.lent x hx
    · exact (hbelow x hx).1
  lowest := by
    rw [Run.History.minted_append, e.minted_eq, hfound, List.nil_append, List.map_append,
      List.pairwise_append]
    refine ⟨hn.lowest, hdown.imp ?_, fun x hx y hy _ => ?_⟩
    · exact fun hlt _ => hlt
    · obtain ⟨old, hold, rfl⟩ := List.mem_map.1 hx
      obtain ⟨new, hnew, rfl⟩ := List.mem_map.1 hy
      exact (hbelow new hnew).2 old hold

end Numerals

theorem numerals_of_reaches (hr : (run env net margin).Reaches {} supply h s)
    (hfits : Fits env s.adversary) : Numerals h s.world.mined := by
  induction hr with
  | start hprep hstart =>
      rw [(rooted_of_start hstart).2.1]
      exact ⟨rfl, fun x hx => absurd hx List.not_mem_nil, List.Pairwise.nil⟩
  | step hr hstep ih =>
      obtain ⟨first, agenda, _, _, hturn⟩ := Run.exists_turn_of_step hstep
      have hfits' := hfits.of_turn hturn
      rw [Run.mined_of_turn hturn]
      rcases lowest_of_turn hturn hfits (numbered_of_reaches hr hfits') with
        ⟨hevent, hlent, hfound⟩ | ⟨hevent, hfound, hdown, hbelow⟩
      · rw [if_pos hevent]
        exact (ih hfits').mine hlent hfound
      · rw [if_neg hevent]
        exact (ih hfits').lend hfound hdown hbelow

/-! ## the ledger of a run -/

/-- The places at which a state, and what led to it, name a block and its side. -/
inductive Names (h : Run.History) (s : Run.State Balancer σ) (side : Side) (b : BlockId) :
    Prop where
  | delivery {x : Scheduled} {peer : Nat} (pending : x ∈ s.world.agenda.toList)
      (event : x.event = .deliver peer side b)
  | report {x : Scheduled} {peer : Nat} (pending : x ∈ s.world.agenda.toList)
      (event : x.event = .observe side b peer)
  | withheld (mem : b ∈ s.adversary.pendingOn side)
  | kept (mem : (side, b) ∈ h.kept)
  | sent (mem : (side, b) ∈ h.sent)

/-- A view that takes part in a run: of an honest node, of the adversary, or one
of its mirrors. -/
def Watches (s : Run.State Balancer σ) (v : View) : Prop :=
  v ∈ s.world.nodes ∨ v ∈ s.adversary.mirrors ∨ v = s.adversary.view

omit [WordSource σ] in
theorem Recorded.listed (hl : Recorded h s) {side : Side} {b : BlockId} (hb : Names h s side b) :
    (side, b) ∈ h.ledger := by
  cases hb with
  | delivery hx hevent =>
      exact hl.world.messages (List.mem_filterMap.2 ⟨_, hx, by rw [hevent]; rfl⟩)
  | report hx hevent =>
      exact hl.world.messages (List.mem_filterMap.2 ⟨_, hx, by rw [hevent]; rfl⟩)
  | withheld hmem => exact hl.adversary.pendingOn side b hmem
  | kept hmem => exact h.kept_subset_ledger hmem
  | sent hmem => exact hl.sent hmem

omit [WordSource σ] in
theorem Recorded.drawn (hl : Recorded h s) {v : View} (hv : Watches s v) : v.Drawn h.ledger := by
  rcases hv with hv | hv | rfl
  · exact hl.world.nodes v hv
  · exact hl.adversary.mirrors v hv
  · exact hl.adversary.view

/-- In every state of a run each view keeps the side that its weights favor. -/
theorem upToDate_of_reaches (hr : (run env net margin).Reaches {} supply h s) {v : View}
    (hv : Watches s v) : v.UpToDate := by
  obtain ⟨_, hholds, _⟩ := (recorded_of_reaches hr).drawn hv
  exact hholds.upToDate

/-- What the ledger says of a state, and of the whole run up to it. -/
structure Ledger (run : Run Balancer) (supply : Supply σ) (h : Run.History)
    (s : Run.State Balancer σ) : Prop where
  numerals : Numerals h s.world.mined
  /-- No two blocks have the same number. -/
  nodup : (h.ledger.map Prod.snd).Nodup
  /-- A block is named on one side in the whole run. -/
  one_side : ∀ {h' : Run.History} {s' : Run.State Balancer σ}, run.Reaches {} supply h' s' →
    h'.length ≤ h.length → ∀ {side side' : Side} {b : BlockId},
    Names h s side b → Names h' s' side' b → side = side'
  /-- That is the side beside it in the ledger. -/
  listed : ∀ {side : Side} {b : BlockId}, Names h s side b → (side, b) ∈ h.ledger
  /-- What has been received is in the ledger. -/
  received : ∀ {v : View}, Watches s v → ∀ {b : BlockId}, v.has b = true →
    ∃ side, (side, b) ∈ h.ledger
  /-- A side weighs as much as there are blocks of that side among those received. -/
  weight : ∀ {v : View}, Watches s v → ∀ side,
    v.weight side = v.received.toList.countP fun b => (side, b) ∈ h.ledger

/-- **Every block has one side for the whole run, and no two have the same number.**
Blocks are lent only as long as their numbers fit. -/
theorem ledger_of_reaches (hr : (run env net margin).Reaches {} supply h s)
    (hfits : Fits env s.adversary) : Ledger (run env net margin) supply h s := by
  have hrecorded := recorded_of_reaches hr
  have hnodup : (h.ledger.map Prod.snd).Nodup := (numbered_of_reaches hr hfits).nodup
  refine
    { numerals := numerals_of_reaches hr hfits
      nodup := hnodup
      one_side := fun {h' s'} hr' hle {side side' b} hb hb' => ?_
      listed := hrecorded.listed
      received := fun hv _ hb => (hrecorded.drawn hv).exists_mem hb
      weight := fun hv => (hrecorded.drawn hv).weight_eq hnodup }
  have hmem := hrecorded.listed hb
  have hmem' := Run.History.ledger_subset (hr'.isPrefix hr hle)
    ((recorded_of_reaches hr').listed hb')
  exact congrArg Prod.fst (List.inj_on_of_nodup_map hnodup hmem hmem' rfl)

/-- The ledger of two nodes, with blocks of either side that were mined, sent and lent. -/
theorem ledger_pair :
    ∃ h s, (run pairEnvironment pair Balancer.margin).Reaches {} pairSupply h s ∧ Midway h s ∧
      Ledger (run pairEnvironment pair Balancer.margin) pairSupply h s := by
  obtain ⟨h, s, hr, hmidway⟩ := exists_reaches_midway
  exact ⟨h, s, hr, hmidway, ledger_of_reaches hr fun _ => hmidway.borrowed_lt⟩

end Balancer

end BalanceAttack
