import BalanceAttack.Proofs.Lineup
import Mathlib.Data.Prod.Lex

/-!
# BalanceAttack.Proofs.Session

What an agenda gives back, in whatever order events are scheduled and taken
off.  The account of a session is a list: what has been taken off and what is
still pending make up all that was scheduled, each event under its number.  The
heap behind the agenda does not show, for no two events have the same number:

* `Session.Kept.call`, `Session.kept_calls` — what one call and what a whole session preserve;
* `Scheduled.mergeSort_notAfter` — to sort by number among equals is to sort stably;
* `Session.Kept.waiting_eq` — the next event is the head of those waiting, sorted stably;
* `Session.served_calls` — the agenda is a stable priority queue.
-/

namespace BalanceAttack

namespace Scheduled

/-- What events are ordered by: time, then rank, then number. -/
def key (x : Scheduled) : Int ×ₗ Nat ×ₗ Nat := toLex (x.time, toLex (x.event.rank, x.order))

theorem notAfter_iff_key_le {x y : Scheduled} : x.notAfter y = true ↔ x.key ≤ y.key := by
  rw [notAfter_iff, key, key, Prod.Lex.toLex_le_toLex, Prod.Lex.toLex_le_toLex]

theorem order_eq_of_key_eq {x y : Scheduled} (h : x.key = y.key) : x.order = y.order :=
  congrArg (fun k => (ofLex (ofLex k).2).2) h

/-- The events of a list, each under its number. -/
def numbered (l : List (Int × Event)) : List Scheduled :=
  l.zipIdx.map fun x => ⟨x.1.1, x.2, x.1.2⟩

theorem numbered_append (l : List (Int × Event)) (t : Int) (e : Event) :
    numbered (l ++ [(t, e)]) = numbered l ++ [⟨t, l.length, e⟩] := by
  simp [numbered, List.zipIdx_append]

theorem length_numbered (l : List (Int × Event)) : (numbered l).length = l.length := by
  simp [numbered]

theorem map_due_numbered (l : List (Int × Event)) : (numbered l).map due = l := by
  rw [numbered, List.map_map]
  exact List.zipIdx_map_fst 0 l

theorem map_order_numbered (l : List (Int × Event)) :
    (numbered l).map order = List.range l.length := by
  rw [numbered, List.map_map, List.range_eq_range']
  exact List.zipIdx_map_snd 0 l

theorem pairwise_numbered (l : List (Int × Event)) :
    (numbered l).Pairwise fun x y => x.order < y.order := by
  rw [← List.pairwise_map, map_order_numbered]
  exact List.pairwise_lt_range

theorem nodup_numbered (l : List (Int × Event)) : (numbered l).Nodup :=
  List.Nodup.of_map order (map_order_numbered l ▸ List.nodup_range)

/-! ## sorting -/

/-- Is an event due no later than another, by time and rank? -/
def noLater (x y : Int × Event) : Bool := !decide (Earlier y x)

/-- Where numbers go up, an event comes before another if it is due no later and, among those
due together, stands before it. -/
theorem zipIdxLE_eq_notAfter {l : List Scheduled} (h : l.Pairwise fun x y => x.order < y.order)
    {x y : Scheduled × Nat} (hx : x ∈ l.zipIdx) (hy : y ∈ l.zipIdx) :
    List.zipIdxLE (fun a b => noLater a.due b.due) x y = x.1.notAfter y.1 := by
  obtain ⟨a, i⟩ := x
  obtain ⟨b, j⟩ := y
  have ha := List.mk_mem_zipIdx_iff_getElem?.1 hx
  have hb := List.mk_mem_zipIdx_iff_getElem?.1 hy
  have hplace : i ≤ j ↔ a.order ≤ b.order := by
    obtain ⟨hi, rfl⟩ := List.getElem?_eq_some_iff.1 ha
    obtain ⟨hj, rfl⟩ := List.getElem?_eq_some_iff.1 hb
    rw [List.pairwise_iff_getElem] at h
    rcases Nat.lt_trichotomy i j with hlt | rfl | hlt
    · exact iff_of_true hlt.le (h i j hi hj hlt).le
    · exact iff_of_true le_rfl le_rfl
    · exact iff_of_false (Nat.not_le.2 hlt) (Nat.not_le.2 (h j i hj hi hlt))
  rw [Bool.eq_iff_iff, notAfter_iff]
  simp only [List.zipIdxLE, noLater, Earlier, due]
  grind

theorem pairwise_mergeSort_notAfter (l : List Scheduled) :
    (l.mergeSort notAfter).Pairwise fun x y => x.notAfter y = true := by
  have htotal : ∀ x y : Scheduled, (x.notAfter y || y.notAfter x) = true := fun x y =>
    (Bool.or_eq_true _ _).mpr (notAfter_total x y)
  exact @List.pairwise_mergeSort _ notAfter (fun _ _ _ => notAfter_trans) htotal l

/-- To sort by number among those due together is to sort stably. -/
theorem mergeSort_notAfter {l : List Scheduled} (h : l.Pairwise fun x y => x.order < y.order) :
    l.mergeSort (fun a b => noLater a.due b.due) = l.mergeSort notAfter := by
  calc l.mergeSort (fun a b => noLater a.due b.due)
      = (l.zipIdx.mergeSort (List.zipIdxLE fun a b => noLater a.due b.due)).map Prod.fst :=
        List.mergeSort_zipIdx.symm
    _ = (l.zipIdx.map Prod.fst).mergeSort notAfter :=
        List.map_mergeSort fun _ hx _ hy => zipIdxLE_eq_notAfter h hx hy
    _ = l.mergeSort notAfter := by rw [List.zipIdx_map_fst]

end Scheduled

namespace Agenda

open Scheduled (numbered noLater)

/-- A call on an agenda. -/
inductive Call where
  /-- Schedules an event. -/
  | push (time : Int) (event : Event)
  /-- Takes off the next event, if there is one. -/
  | next

/-- An agenda with all that was scheduled and all that was taken off, in order. -/
structure Session where
  agenda : Agenda := .empty
  pushed : List (Int × Event) := []
  taken : List Scheduled := []

namespace Session

/-- One more call. -/
def call (s : Session) : Call → Session
  | .push time event =>
    { s with agenda := s.agenda.push time event, pushed := s.pushed ++ [(time, event)] }
  | .next =>
    match s.agenda.next with
    | none => s
    | some (first, agenda) => { s with agenda, taken := s.taken ++ [first] }

/-- Some calls, one after the other. -/
def calls (s : Session) (cs : List Call) : Session := cs.foldl call s

theorem calls_append (s : Session) (cs cs' : List Call) :
    s.calls (cs ++ cs') = (s.calls cs).calls cs' :=
  List.foldl_append

/-- What was scheduled and has not been taken off, each event under its number. -/
def waiting (s : Session) : List Scheduled := (numbered s.pushed).filter (· ∉ s.taken)

/-- What has been taken off and what is pending make up all that was scheduled. -/
structure Kept (s : Session) : Prop where
  sound : s.agenda.Sound
  scheduled : s.agenda.scheduled = s.pushed.length
  perm : (s.taken ++ s.agenda.toList).Perm (numbered s.pushed)

variable {s : Session}

/-! ## one call -/

theorem kept_empty : Kept {} where
  sound := sound_empty
  scheduled := rfl
  perm := .refl []

theorem call_next_of_none (h : s.agenda.next = none) : s.call .next = s := by
  rw [call, h]

theorem call_next_of_some {first : Scheduled} {r : Agenda} (h : s.agenda.next = some (first, r)) :
    s.call .next = { s with agenda := r, taken := s.taken ++ [first] } := by
  rw [call, h]

namespace Kept

theorem call (h : s.Kept) (c : Call) : (s.call c).Kept := by
  cases c with
  | push time event =>
      refine ⟨sound_push h.sound time event, ?_, ?_⟩
      · simp [Session.call, h.scheduled]
      · rw [Session.call, Scheduled.numbered_append, ← h.scheduled]
        have hpush := ((s.agenda.toList_push time event).append_left s.taken).trans List.perm_middle
        exact (hpush.trans (h.perm.cons _)).trans (List.perm_append_singleton _ _).symm
  | next =>
      cases hnext : s.agenda.next with
      | none =>
          rw [call_next_of_none hnext]
          exact h
      | some x =>
          obtain ⟨first, r⟩ := x
          rw [call_next_of_some hnext]
          refine ⟨sound_next h.sound hnext, (scheduled_next hnext).trans h.scheduled, ?_⟩
          rw [List.append_assoc]
          exact ((toList_next hnext).symm.append_left _).trans h.perm

theorem calls (h : s.Kept) (cs : List Call) : (s.calls cs).Kept := by
  induction cs generalizing s with
  | nil => exact h
  | cons c cs ih => exact ih (h.call c)

/-! ## what is waiting -/

theorem nodup_taken_append (h : s.Kept) : (s.taken ++ s.agenda.toList).Nodup :=
  h.perm.nodup_iff.2 (Scheduled.nodup_numbered s.pushed)

/-- What is waiting is what is pending. -/
theorem perm_waiting (h : s.Kept) : s.agenda.toList.Perm s.waiting := by
  obtain ⟨_, _, hapart⟩ := List.nodup_append.1 h.nodup_taken_append
  have hfree : ∀ x ∈ s.agenda.toList, x ∉ s.taken := fun x hx ht => hapart x ht x hx rfl
  have hfilter := h.perm.filter (· ∉ s.taken)
  rw [List.filter_append, List.filter_eq_nil_iff.2 (by simp), List.nil_append,
    List.filter_eq_self.2 fun x hx => decide_eq_true (hfree x hx)] at hfilter
  exact hfilter

theorem pairwise_waiting (s : Session) : s.waiting.Pairwise fun x y => x.order < y.order :=
  (Scheduled.pairwise_numbered s.pushed).filter _

theorem eq_of_order_eq (h : s.Kept) {x y : Scheduled} (hx : x ∈ s.waiting) (hy : y ∈ s.waiting)
    (horder : x.order = y.order) : x = y :=
  h.sound.eq_of_order_eq (h.perm_waiting.mem_iff.2 hx) (h.perm_waiting.mem_iff.2 hy) horder

/-- Nothing comes next when nothing is waiting. -/
theorem waiting_eq_nil_iff (h : s.Kept) : s.agenda.next = none ↔ s.waiting = [] := by
  rw [next_eq_none_iff]
  exact ⟨fun hnil => (hnil ▸ h.perm_waiting).nil_eq.symm,
    fun hnil => (hnil ▸ h.perm_waiting).eq_nil⟩

variable {first : Scheduled} {r : Agenda}

/-- The next event is the head of those waiting, sorted stably; the others go on waiting. -/
theorem mergeSort_waiting (h : s.Kept) (hnext : s.agenda.next = some (first, r)) :
    s.waiting.mergeSort Scheduled.notAfter =
      first :: (s.call .next).waiting.mergeSort Scheduled.notAfter := by
  have hrest : r.toList.Perm (s.call .next).waiting := by
    have hperm := (h.call .next).perm_waiting
    rwa [call_next_of_some hnext] at hperm ⊢
  have hperm : (s.waiting.mergeSort Scheduled.notAfter).Perm
      (first :: (s.call .next).waiting.mergeSort Scheduled.notAfter) := by
    have hleft := (List.mergeSort_perm s.waiting Scheduled.notAfter).trans h.perm_waiting.symm
    have hright := hrest.trans
      (List.mergeSort_perm (s.call .next).waiting Scheduled.notAfter).symm
    exact (hleft.trans (toList_next hnext)).trans (hright.cons first)
  refine hperm.eq_of_pairwise (fun x y hx hy hxy hyx => ?_)
    (Scheduled.pairwise_mergeSort_notAfter s.waiting)
    (List.pairwise_cons.2 ⟨fun x hx => ?_, Scheduled.pairwise_mergeSort_notAfter _⟩)
  · -- neither comes after the other
    exact h.eq_of_order_eq (List.mem_mergeSort.1 hx)
      (List.mem_mergeSort.1 (hperm.mem_iff.2 hy)) (Scheduled.order_eq_of_notAfter hxy hyx)
  · exact notAfter_of_next h.sound hnext (hrest.mem_iff.2 (List.mem_mergeSort.1 hx))

/-- So many more events are taken off in the order of a stable sort. -/
theorem taken_calls_next (h : s.Kept) (k : Nat) :
    (s.calls (List.replicate k .next)).taken =
      s.taken ++ (s.waiting.mergeSort Scheduled.notAfter).take k := by
  induction k generalizing s with
  | zero => rw [List.take_zero, List.append_nil]; rfl
  | succ k ih =>
      have hcalls : s.calls (List.replicate (k + 1) .next) =
          (s.call .next).calls (List.replicate k .next) := rfl
      rw [hcalls, ih (h.call .next)]
      cases hnext : s.agenda.next with
      | none =>
          rw [call_next_of_none hnext, h.waiting_eq_nil_iff.1 hnext, List.mergeSort_nil,
            List.take_nil, List.take_nil]
      | some x =>
          obtain ⟨first, r⟩ := x
          rw [h.mergeSort_waiting hnext, List.take_succ_cons, call_next_of_some hnext,
            List.append_assoc, List.singleton_append]

end Kept

/-- Events are scheduled one after the other, and none is taken off. -/
theorem calls_push (s : Session) (xs : List (Int × Event)) :
    (s.calls (xs.map fun x => .push x.1 x.2)).pushed = s.pushed ++ xs ∧
      (s.calls (xs.map fun x => .push x.1 x.2)).taken = s.taken := by
  induction xs generalizing s with
  | nil => exact ⟨(List.append_nil _).symm, rfl⟩
  | cons x xs ih =>
      obtain ⟨hpushed, htaken⟩ := ih (s.call (.push x.1 x.2))
      refine ⟨hpushed.trans ?_, htaken⟩
      rw [call, List.append_assoc, List.singleton_append]

/-! ## the whole session -/

/-- The events of a session were served in order: by time, then by rank, then as scheduled. -/
structure Served (s : Session) : Prop where
  /-- What has been taken off was scheduled, each event once at most. -/
  taken : s.taken.Nodup ∧ s.taken ⊆ numbered s.pushed
  /-- The size is the number of events scheduled less those taken off. -/
  size : s.agenda.size + s.taken.length = s.pushed.length
  /-- Nothing comes next if and only if all that was scheduled has been taken off. -/
  none_iff : s.agenda.next = none ↔ numbered s.pushed ⊆ s.taken
  /-- The next event is waiting, and its key is less than those of all others. -/
  least : ∀ first r, s.agenda.next = some (first, r) →
    first ∈ s.waiting ∧ ∀ x ∈ s.waiting, x ≠ first → first.key < x.key
  /-- So many more events are taken off in the order of a stable sort. -/
  drain : ∀ k, (s.calls (List.replicate k .next)).taken =
    s.taken ++ (s.waiting.mergeSort fun a b => noLater a.due b.due).take k

theorem Kept.served (h : s.Kept) : s.Served where
  taken := ⟨(List.nodup_append.1 h.nodup_taken_append).1, fun _ hx =>
    h.perm.mem_iff.1 (List.mem_append_left _ hx)⟩
  size := by
    have hlength := h.perm.length_eq
    rwa [List.length_append, Scheduled.length_numbered, length_toList, Nat.add_comm] at hlength
  none_iff := by
    rw [h.waiting_eq_nil_iff, waiting, List.filter_eq_nil_iff]
    simp only [decide_eq_true_eq, not_not]
    rfl
  least := by
    intro first r hnext
    have hperm := h.perm_waiting.symm.trans (toList_next hnext)
    have hfirst : first ∈ s.waiting := hperm.mem_iff.2 List.mem_cons_self
    refine ⟨hfirst, fun x hx hne => lt_of_le_of_ne ?_ fun hkey => hne ?_⟩
    · have hrest := (List.mem_cons.1 (hperm.mem_iff.1 hx)).resolve_left hne
      exact Scheduled.notAfter_iff_key_le.1 (notAfter_of_next h.sound hnext hrest)
    · exact (h.eq_of_order_eq hfirst hx (Scheduled.order_eq_of_key_eq hkey)).symm
  drain := by
    intro k
    rw [Scheduled.mergeSort_notAfter (Kept.pairwise_waiting s)]
    exact h.taken_calls_next k

/-- **An agenda is a stable priority queue.**  Whatever is scheduled and taken off a new agenda,
in whatever order, no event is lost or taken off twice, and the next one is the least that is
waiting; and events that are scheduled one after the other and then taken off come in the order
of a stable sort by time and rank. -/
theorem served_calls :
    (∀ cs, (calls {} cs).Served) ∧
    ∀ (xs : List (Int × Event)) (k : Nat),
      (calls {} (xs.map (fun x => .push x.1 x.2) ++ List.replicate k .next)).taken.map
        Scheduled.due = (xs.mergeSort noLater).take k := by
  refine ⟨fun cs => (kept_empty.calls cs).served, fun xs k => ?_⟩
  obtain ⟨hpushed, htaken⟩ := calls_push {} xs
  have hserved := (kept_empty.calls (xs.map fun x => Call.push x.1 x.2)).served
  have hwaiting : (calls {} (xs.map fun x => Call.push x.1 x.2)).waiting = numbered xs := by
    rw [waiting, hpushed, htaken]
    exact List.filter_eq_self.2 fun x _ => by simp
  have hdrain := hserved.drain k
  rw [htaken, hwaiting, List.nil_append] at hdrain
  have hsort : ((numbered xs).mergeSort fun a b => noLater a.due b.due).map Scheduled.due =
      ((numbered xs).map Scheduled.due).mergeSort noLater :=
    List.map_mergeSort fun _ _ _ _ => rfl
  rw [calls_append, hdrain, List.map_take, hsort, Scheduled.map_due_numbered]

example : (calls {} [.push 5 .check, .push 5 .mine, .next, .push 4 .check, .next, .next,
    .next]).taken.map Scheduled.due = [(5, .mine), (4, .check), (5, .check)] := by decide

end Session

end Agenda

end BalanceAttack
