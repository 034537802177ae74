import BalanceAttack.Schedule.Event
import BalanceAttack.Schedule.Heap

/-!
# BalanceAttack.Schedule.Agenda

The events that are still to happen.  `next` takes off the earliest one, and
of equally early ones that of the lowest rank, and of those the one scheduled
first.

An agenda is seen through `toList`, its events in no particular order.  Every
event carries the number of events scheduled before it, so no two events of an
agenda are equal and the earliest one is unique.
-/

namespace BalanceAttack

/-- Events to come. -/
structure Agenda where
  heap : Heap Scheduled := .leaf
  /-- How many events have been scheduled so far. -/
  scheduled : Nat := 0

namespace Agenda

/-- No events. -/
def empty : Agenda := {}

/-- The events of an agenda. -/
def toList (q : Agenda) : List Scheduled := q.heap.toList

/-- The number of events of an agenda. -/
def size (q : Agenda) : Nat := q.heap.size

/-- Is there no event left? -/
def isEmpty (q : Agenda) : Bool :=
  match q.heap with
  | .leaf => true
  | .node .. => false

/-- Schedules an event. -/
def push (q : Agenda) (time : Int) (event : Event) : Agenda where
  heap := q.heap.push Scheduled.notAfter ⟨time, q.scheduled, event⟩
  scheduled := q.scheduled + 1

/-- Schedules events, each at its time. -/
def pushAll (q : Agenda) (events : List (Int × Event)) : Agenda :=
  events.foldl (fun q (time, event) => q.push time event) q

/-- The earliest event, and the agenda without it. -/
def next (q : Agenda) : Option (Scheduled × Agenda) :=
  (q.heap.pop Scheduled.notAfter).map fun (first, heap) => (first, { q with heap })

/-- The heap is in order, and the events have different numbers, all used up. -/
structure Sound (q : Agenda) : Prop where
  ordered : q.heap.Ordered Scheduled.notAfter
  order_lt : ∀ e ∈ q.toList, e.order < q.scheduled
  nodup : (q.toList.map Scheduled.order).Nodup

/-! ## scheduling -/

@[simp] theorem toList_empty : empty.toList = [] := rfl

@[simp] theorem scheduled_push (q : Agenda) (t : Int) (e : Event) :
    (q.push t e).scheduled = q.scheduled + 1 := rfl

theorem length_toList (q : Agenda) : q.toList.length = q.size := q.heap.length_toList

theorem toList_push (q : Agenda) (t : Int) (e : Event) :
    (q.push t e).toList.Perm (⟨t, q.scheduled, e⟩ :: q.toList) :=
  q.heap.toList_push _ _

@[simp] theorem pushAll_nil (q : Agenda) : q.pushAll [] = q := rfl

@[simp] theorem pushAll_cons (q : Agenda) (t : Int) (e : Event) (es : List (Int × Event)) :
    q.pushAll ((t, e) :: es) = (q.push t e).pushAll es := rfl

theorem pushAll_append (q : Agenda) (xs ys : List (Int × Event)) :
    q.pushAll (xs ++ ys) = (q.pushAll xs).pushAll ys := by
  simp [pushAll]

theorem sound_empty : empty.Sound where
  ordered := trivial
  order_lt := by simp
  nodup := by simp

theorem sound_push {q : Agenda} (h : q.Sound) (t : Int) (e : Event) : (q.push t e).Sound where
  ordered := Heap.ordered_push Scheduled.notAfter_total Scheduled.notAfter_trans h.ordered _
  order_lt := by
    intro x hx
    rw [(q.toList_push t e).mem_iff, List.mem_cons] at hx
    rcases hx with rfl | hx
    · simp
    · exact Nat.lt_succ_of_lt (h.order_lt x hx)
  nodup := by
    rw [((q.toList_push t e).map Scheduled.order).nodup_iff, List.map_cons, List.nodup_cons]
    refine ⟨fun hm => ?_, h.nodup⟩
    obtain ⟨x, hx, hxe⟩ := List.mem_map.1 hm
    have := h.order_lt x hx
    simp only at hxe
    omega

theorem sound_pushAll {q : Agenda} (h : q.Sound) (es : List (Int × Event)) :
    (q.pushAll es).Sound := by
  induction es generalizing q with
  | nil => exact h
  | cons x es ih => exact ih (sound_push h x.1 x.2)

/-! ## taking the next event -/

theorem next_eq_none_iff {q : Agenda} : q.next = none ↔ q.toList = [] := by
  simp [next, toList, Heap.pop_eq_none_iff]

theorem toList_next {q r : Agenda} {e : Scheduled} (h : q.next = some (e, r)) :
    q.toList.Perm (e :: r.toList) := by
  simp only [next, Option.map_eq_some_iff, Prod.exists] at h
  obtain ⟨x, heap, hp, he⟩ := h
  simp only [Prod.mk.injEq] at he
  obtain ⟨rfl, rfl⟩ := he
  exact Heap.toList_pop hp

theorem scheduled_next {q r : Agenda} {e : Scheduled} (h : q.next = some (e, r)) :
    r.scheduled = q.scheduled := by
  simp only [next, Option.map_eq_some_iff, Prod.exists] at h
  obtain ⟨x, heap, hp, he⟩ := h
  simp only [Prod.mk.injEq] at he
  obtain ⟨rfl, rfl⟩ := he
  rfl

theorem sound_next {q r : Agenda} {e : Scheduled} (h : q.Sound) (hn : q.next = some (e, r)) :
    r.Sound := by
  have hperm := toList_next hn
  have hcount := scheduled_next hn
  have hnodup := ((hperm.map Scheduled.order).nodup_iff).1 h.nodup
  rw [List.map_cons, List.nodup_cons] at hnodup
  refine ⟨?_, fun x hx => ?_, hnodup.2⟩
  · simp only [next, Option.map_eq_some_iff, Prod.exists] at hn
    obtain ⟨x, heap, hp, he⟩ := hn
    simp only [Prod.mk.injEq] at he
    obtain ⟨rfl, rfl⟩ := he
    exact (Heap.ordered_pop Scheduled.notAfter_total Scheduled.notAfter_trans h.ordered hp).2
  · rw [hcount]
    exact h.order_lt x (hperm.mem_iff.2 (List.mem_cons_of_mem _ hx))

/-- The event taken off comes no later than any that stays. -/
theorem notAfter_of_next {q r : Agenda} {e : Scheduled} (h : q.Sound)
    (hn : q.next = some (e, r)) {x : Scheduled} (hx : x ∈ r.toList) : e.notAfter x = true := by
  simp only [next, Option.map_eq_some_iff, Prod.exists] at hn
  obtain ⟨y, heap, hp, he⟩ := hn
  simp only [Prod.mk.injEq] at he
  obtain ⟨rfl, rfl⟩ := he
  exact (Heap.ordered_pop Scheduled.notAfter_total Scheduled.notAfter_trans h.ordered hp).1 x hx

/-- No pending event is earlier than the one taken off. -/
theorem time_le_of_next {q r : Agenda} {e : Scheduled} (h : q.Sound) (hn : q.next = some (e, r))
    {x : Scheduled} (hx : x ∈ q.toList) : e.time ≤ x.time := by
  rcases List.mem_cons.1 ((toList_next hn).mem_iff.1 hx) with rfl | hx
  · exact Int.le_refl _
  · have hle := Scheduled.notAfter_iff.1 (notAfter_of_next h hn hx)
    omega

end Agenda

end BalanceAttack
