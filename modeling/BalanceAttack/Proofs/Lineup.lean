import BalanceAttack.Schedule.Agenda
import Mathlib.Data.List.Sort

/-!
# BalanceAttack.Proofs.Lineup

The pending events of some kind in the order in which they are due, without the
numbers they were scheduled under.  Two agendas can hold the same events of that
kind in the same order although other events are scheduled in between:

* `Lined` — a list is the line of the events of a kind;
* `lined_push`, `lined_pushAll` — what is scheduled gets in line behind all that
  is due no later;
* `lined_next`, `lined_next_of_not` — the head of the line is the next of them.
-/

namespace BalanceAttack

/-- Is an event due earlier than another, by time and rank? -/
def Earlier (x y : Int × Event) : Prop :=
  x.1 < y.1 ∨ x.1 = y.1 ∧ x.2.rank < y.2.rank

instance (x y : Int × Event) : Decidable (Earlier x y) := inferInstanceAs (Decidable (_ ∨ _))

/-- Gets an event in line, behind all that are due no later. -/
abbrev enlist (l : List (Int × Event)) (x : Int × Event) : List (Int × Event) :=
  l.orderedInsert Earlier x

/-- When an event is due, and what it is. -/
def Scheduled.due (x : Scheduled) : Int × Event := (x.time, x.event)

namespace Scheduled

instance : Std.Total fun a b : Scheduled => a.notAfter b = true := ⟨notAfter_total⟩

instance : IsTrans Scheduled fun a b => a.notAfter b = true := ⟨fun _ _ _ => notAfter_trans⟩

/-- An event that was scheduled last comes before those alone that are due later. -/
theorem notAfter_iff_earlier {x y : Scheduled} (h : y.order < x.order) :
    x.notAfter y = true ↔ Earlier x.due y.due := by
  rw [notAfter_iff]
  simp only [Earlier, due]
  omega

/-- What was scheduled last gets in line last among what is due at its time and rank. -/
theorem map_due_orderedInsert {x : Scheduled} {l : List Scheduled}
    (h : ∀ y ∈ l, y.order < x.order) :
    (l.orderedInsert (fun a b => a.notAfter b = true) x).map due = enlist (l.map due) x.due := by
  induction l with
  | nil => rfl
  | cons y l ih =>
      have hiff := notAfter_iff_earlier (h y List.mem_cons_self)
      rw [List.orderedInsert_cons, enlist, List.map_cons, List.orderedInsert_cons]
      by_cases hxy : x.notAfter y = true
      · rw [if_pos hxy, if_pos (hiff.1 hxy)]
        rfl
      · rw [if_neg hxy, if_neg fun h => hxy (hiff.2 h), List.map_cons,
          ih fun z hz => h z (List.mem_cons_of_mem _ hz)]

end Scheduled

namespace Agenda

variable {p : Event → Bool} {q r : Agenda} {l : List (Int × Event)}

/-- A list is the line of the pending events of a kind. -/
def Lined (p : Event → Bool) (q : Agenda) (l : List (Int × Event)) : Prop :=
  ∃ xs : List Scheduled, xs.Perm (q.toList.filter (p ·.event)) ∧
    xs.Pairwise (fun a b => a.notAfter b = true) ∧ xs.map Scheduled.due = l

theorem exists_lined (p : Event → Bool) (q : Agenda) : ∃ l, q.Lined p l :=
  ⟨_, (q.toList.filter (p ·.event)).insertionSort (fun a b => a.notAfter b = true),
    List.perm_insertionSort _ _, List.pairwise_insertionSort _ _, rfl⟩

/-- What is in line is pending. -/
theorem Lined.mem_iff (h : q.Lined p l) {x : Int × Event} :
    x ∈ l ↔ ∃ y ∈ q.toList, p y.event = true ∧ y.due = x := by
  obtain ⟨xs, hperm, _, rfl⟩ := h
  rw [List.mem_map]
  constructor
  · rintro ⟨y, hy, hyx⟩
    obtain ⟨hmem, hp⟩ := List.mem_filter.1 (hperm.mem_iff.1 hy)
    exact ⟨y, hmem, hp, hyx⟩
  · rintro ⟨y, hmem, hp, hyx⟩
    exact ⟨y, hperm.mem_iff.2 (List.mem_filter.2 ⟨hmem, hp⟩), hyx⟩

/-! ## scheduling -/

theorem lined_push (hq : q.Sound) (h : q.Lined p l) (t : Int) {e : Event} (he : p e = true) :
    (q.push t e).Lined p (enlist l (t, e)) := by
  obtain ⟨xs, hperm, hsorted, rfl⟩ := h
  refine ⟨xs.orderedInsert (fun a b => a.notAfter b = true) ⟨t, q.scheduled, e⟩, ?_,
    hsorted.orderedInsert _ _, Scheduled.map_due_orderedInsert fun y hy => ?_⟩
  · have hpush := (q.toList_push t e).filter (p ·.event)
    simp only [List.filter_cons, he, if_true] at hpush
    exact (List.perm_orderedInsert _ _ _).trans ((hperm.cons _).trans hpush.symm)
  · exact hq.order_lt y (List.mem_filter.1 (hperm.mem_iff.1 hy)).1

theorem lined_push_of_not (h : q.Lined p l) (t : Int) {e : Event} (he : p e = false) :
    (q.push t e).Lined p l := by
  obtain ⟨xs, hperm, hsorted, hl⟩ := h
  have hpush := (q.toList_push t e).filter (p ·.event)
  simp only [List.filter_cons, he, Bool.false_eq_true, if_false] at hpush
  exact ⟨xs, hperm.trans hpush.symm, hsorted, hl⟩

/-- The events of the kind that are scheduled get in line one after another. -/
theorem lined_pushAll (hq : q.Sound) (h : q.Lined p l) (es : List (Int × Event)) :
    (q.pushAll es).Lined p ((es.filter (p ·.2)).foldl enlist l) := by
  induction es generalizing q l with
  | nil => exact h
  | cons x es ih =>
      obtain ⟨t, e⟩ := x
      cases he : p e with
      | true =>
          simp only [List.filter_cons, he, if_true]
          exact ih (sound_push hq t e) (lined_push hq h t he)
      | false =>
          simp only [List.filter_cons, he, Bool.false_eq_true, if_false]
          exact ih (sound_push hq t e) (lined_push_of_not h t he)

/-! ## taking the next event -/

/-- Pending events of one number are one event. -/
theorem Sound.eq_of_order_eq (hq : q.Sound) {x y : Scheduled} (hx : x ∈ q.toList)
    (hy : y ∈ q.toList) (h : x.order = y.order) : x = y :=
  List.inj_on_of_nodup_map hq.nodup hx hy h

/-- The next event, if it is of the kind, is the head of the line. -/
theorem lined_next {first : Scheduled} (hq : q.Sound) (h : q.Lined p l)
    (hnext : q.next = some (first, r)) (hfirst : p first.event = true) :
    ∃ rest, l = first.due :: rest ∧ r.Lined p rest := by
  obtain ⟨xs, hperm, hsorted, rfl⟩ := h
  have hpop := (toList_next hnext).filter (p ·.event)
  simp only [List.filter_cons, hfirst, if_true] at hpop
  have hmem : first ∈ xs := (hperm.trans hpop).mem_iff.2 List.mem_cons_self
  cases xs with
  | nil => contradiction
  | cons x xs =>
      have hx := (toList_next hnext).mem_iff.1
        (List.mem_filter.1 (hperm.mem_iff.1 List.mem_cons_self)).1
      have heq : x = first := by
        rcases List.mem_cons.1 hx with hx | hx
        · exact hx
        · rcases List.mem_cons.1 hmem with hmem | hmem
          · exact hmem.symm
          · -- neither comes after the other
            have hle := notAfter_of_next hq hnext hx
            have hge := (List.pairwise_cons.1 hsorted).1 first hmem
            exact hq.eq_of_order_eq ((toList_next hnext).mem_iff.2 (List.mem_cons_of_mem _ hx))
              ((toList_next hnext).mem_iff.2 List.mem_cons_self)
              (Scheduled.order_eq_of_notAfter hge hle)
      subst heq
      exact ⟨xs.map Scheduled.due, rfl, xs, (hperm.trans hpop).cons_inv,
        (List.pairwise_cons.1 hsorted).2, rfl⟩

/-- Other events leave the line as it is. -/
theorem lined_next_of_not {first : Scheduled} (h : q.Lined p l)
    (hnext : q.next = some (first, r)) (hfirst : p first.event = false) : r.Lined p l := by
  obtain ⟨xs, hperm, hsorted, hl⟩ := h
  have hpop := (toList_next hnext).filter (p ·.event)
  simp only [List.filter_cons, hfirst, Bool.false_eq_true, if_false] at hpop
  exact ⟨xs, hperm.trans hpop, hsorted, hl⟩

end Agenda

end BalanceAttack
