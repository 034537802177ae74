import BalanceAttack.Run.State
import Mathlib.Data.List.Perm.Basic

/-!
# BalanceAttack.Proofs.Pending

The part of an agenda that one node, or one kind of event, is concerned with.
`Agenda.pick` reads a list off the pending events, in no particular order:

* `pick_push`, `pick_pushAll` — scheduling adds what is read off the new events;
* `pick_next` — the next event is the only one to go;
* `arrivals_events`, `releaseArrivals_events` — which deliveries are scheduled
  for a block that a node mines and for one that the adversary sends;
* `filterMap_released` — what a node is going to get of all that is sent.
-/

namespace BalanceAttack

namespace Agenda

variable {β : Type}

/-- What is read off the pending events, where there is something to read. -/
def pick (q : Agenda) (f : Int → Event → Option β) : List β :=
  q.toList.filterMap fun e => f e.time e.event

/-- The blocks on their way to a node. -/
def arrivals (q : Agenda) (node : Nat) : List (Side × BlockId) :=
  q.pick fun _ e => e.arrivalAt node

/-- The blocks a node has received without the adversary having been told. -/
def reports (q : Agenda) (node : Nat) : List (Side × BlockId) :=
  q.pick fun _ e => e.reportOn node

/-- The blocks that any pending event is about. -/
def carried (q : Agenda) : List BlockId :=
  q.pick fun _ e => e.block

/-- The times of the pending events of a kind. -/
def times (q : Agenda) (kind : Event) : List Int :=
  q.pick fun t e => if e = kind then some t else none

/-- The times at which agreement is to be checked. -/
def checks (q : Agenda) : List Int :=
  q.pick fun t e => if e = .check then some t else none

/-! ## scheduling and taking events -/

theorem pick_push (q : Agenda) (f : Int → Event → Option β) (t : Int) (e : Event) :
    ((q.push t e).pick f).Perm ((f t e).toList ++ q.pick f) := by
  refine ((q.toList_push t e).filterMap _).trans ?_
  cases h : f t e <;> simp [pick, h]

theorem pick_pushAll (q : Agenda) (f : Int → Event → Option β) (es : List (Int × Event)) :
    ((q.pushAll es).pick f).Perm (es.filterMap (fun x => f x.1 x.2) ++ q.pick f) := by
  induction es generalizing q with
  | nil => rw [pushAll_nil, List.filterMap_nil, List.nil_append]
  | cons x es ih =>
      obtain ⟨t, e⟩ := x
      rw [pushAll_cons, List.filterMap_cons]
      refine (ih (q.push t e)).trans (((pick_push q f t e).append_left _).trans ?_)
      cases h : f t e with
      | none => simp
      | some b => simp [List.perm_middle]

theorem pick_next {q r : Agenda} {e : Scheduled} (h : q.next = some (e, r))
    (f : Int → Event → Option β) :
    (q.pick f).Perm ((f e.time e.event).toList ++ r.pick f) := by
  refine ((toList_next h).filterMap _).trans ?_
  cases he : f e.time e.event <;> simp [pick, he]

theorem mem_pick_push {q : Agenda} {f : Int → Event → Option β} {t : Int} {e : Event} {b : β} :
    b ∈ (q.push t e).pick f ↔ f t e = some b ∨ b ∈ q.pick f := by
  rw [(pick_push q f t e).mem_iff, List.mem_append, Option.mem_toList]

theorem mem_pick_pushAll {q : Agenda} {f : Int → Event → Option β} {es : List (Int × Event)}
    {b : β} : b ∈ (q.pushAll es).pick f ↔ (∃ x ∈ es, f x.1 x.2 = some b) ∨ b ∈ q.pick f := by
  rw [(pick_pushAll q f es).mem_iff, List.mem_append, List.mem_filterMap]

/-- Events of which nothing is read leave the list as it is. -/
theorem pick_pushAll_of_none (q : Agenda) {f : Int → Event → Option β}
    {es : List (Int × Event)} (h : ∀ x ∈ es, f x.1 x.2 = none) :
    ((q.pushAll es).pick f).Perm (q.pick f) := by
  have hes : es.filterMap (fun x => f x.1 x.2) = [] := List.filterMap_eq_nil_iff.2 h
  have hp := pick_pushAll q f es
  rw [hes] at hp
  exact hp

theorem times_push (q : Agenda) (kind : Event) (t : Int) :
    ((q.push t kind).times kind).Perm (t :: q.times kind) := by
  refine (pick_push q _ t kind).trans ?_
  rw [if_pos rfl]
  exact .refl _

theorem times_push_of_ne (q : Agenda) {kind : Event} (t : Int) {e : Event} (he : e ≠ kind) :
    ((q.push t e).times kind).Perm (q.times kind) := by
  refine (pick_push q _ t e).trans ?_
  rw [if_neg he]
  exact .refl _

theorem times_pushAll_of_ne (q : Agenda) {kind : Event} {es : List (Int × Event)}
    (hes : ∀ x ∈ es, x.2 ≠ kind) : ((q.pushAll es).times kind).Perm (q.times kind) :=
  pick_pushAll_of_none q fun x hx => if_neg (hes x hx)

/-- If the next event is of the kind, it is the only one that was pending. -/
theorem times_next {q r : Agenda} {e : Scheduled} (h : q.next = some (e, r)) {kind : Event}
    {t : Int} (ht : q.times kind = [t]) (he : e.event = kind) : e.time = t ∧ r.times kind = [] := by
  have hperm := pick_next h fun t e => if e = kind then some t else none
  rw [if_pos he] at hperm
  have hlist : e.time :: r.times kind = [t] :=
    List.perm_singleton.1 (hperm.symm.trans (.of_eq ht))
  exact List.cons.inj hlist

/-- If the next event is of another kind, those of the kind that are pending stay so. -/
theorem times_next_of_ne {q r : Agenda} {e : Scheduled} (h : q.next = some (e, r))
    {kind : Event} {t : Int} (ht : q.times kind = [t]) (he : e.event ≠ kind) :
    r.times kind = [t] := by
  have hperm := pick_next h fun t e => if e = kind then some t else none
  rw [if_neg he] at hperm
  exact List.perm_singleton.1 (hperm.symm.trans (.of_eq ht))

theorem mem_carried_push {q : Agenda} {t : Int} {e : Event} {b : BlockId} :
    b ∈ (q.push t e).carried ↔ e.block = some b ∨ b ∈ q.carried :=
  mem_pick_push

theorem mem_carried_pushAll {q : Agenda} {es : List (Int × Event)} {b : BlockId} :
    b ∈ (q.pushAll es).carried ↔ (∃ x ∈ es, x.2.block = some b) ∨ b ∈ q.carried :=
  mem_pick_pushAll

theorem pick_eq_nil {q : Agenda} {f : Int → Event → Option β}
    (h : ∀ x ∈ q.toList, f x.time x.event = none) : q.pick f = [] :=
  List.filterMap_eq_nil_iff.2 h

theorem mem_pushAll {q : Agenda} {es : List (Int × Event)} {x : Scheduled}
    (h : x ∈ (q.pushAll es).toList) : x ∈ q.toList ∨ (x.time, x.event) ∈ es := by
  induction es generalizing q with
  | nil => exact .inl h
  | cons y es ih =>
      obtain ⟨t, e⟩ := y
      rcases ih h with hx | hx
      · rcases List.mem_cons.1 ((q.toList_push t e).mem_iff.1 hx) with rfl | hx
        · exact .inr List.mem_cons_self
        · exact .inl hx
      · exact .inr (List.mem_cons_of_mem _ hx)

/-- Scheduling takes no event off. -/
theorem mem_pushAll_of_mem {q : Agenda} {x : Scheduled} (hx : x ∈ q.toList)
    (es : List (Int × Event)) : x ∈ (q.pushAll es).toList := by
  induction es generalizing q with
  | nil => exact hx
  | cons y es ih =>
      obtain ⟨t, e⟩ := y
      exact ih ((q.toList_push t e).mem_iff.2 (List.mem_cons_of_mem _ hx))

end Agenda

/-! ## deliveries -/

/-- The deliveries of a block to some nodes. -/
def deliveries (peers : List Nat) (side : Side) (block : BlockId) : List Event :=
  peers.map fun peer => .deliver peer side block

theorem deliveries_append (xs ys : List Nat) (side : Side) (block : BlockId) :
    deliveries (xs ++ ys) side block = deliveries xs side block ++ deliveries ys side block :=
  List.map_append

/-- Of deliveries to different nodes, a node gets one if it is among them. -/
theorem filterMap_arrivalAt {peers : List Nat} {side : Side} {block : BlockId}
    {es : List (Int × Event)} (h : peers.Nodup) (node : Nat)
    (hes : es.map Prod.snd = deliveries peers side block) :
    es.filterMap (fun x => x.2.arrivalAt node) = if node ∈ peers then [(side, block)] else [] := by
  have hmap : es.filterMap (fun x => x.2.arrivalAt node) =
      (deliveries peers side block).filterMap (Event.arrivalAt node) := by
    rw [← hes, List.filterMap_map]
    rfl
  rw [hmap, deliveries]
  clear hmap hes
  induction peers with
  | nil => simp
  | cons peer peers ih =>
      obtain ⟨hpeer, hnodup⟩ := List.nodup_cons.1 h
      rw [List.map_cons, List.filterMap_cons, ih hnodup]
      by_cases hn : peer = node
      · subst hn
        simp [Event.arrivalAt, hpeer]
      · have hne : ¬ node = peer := fun h => hn h.symm
        simp [Event.arrivalAt, hn, hne]

theorem exists_deliver_eq {peers : List Nat} {side : Side} {block : BlockId}
    {es : List (Int × Event)} (hes : es.map Prod.snd = deliveries peers side block)
    {x : Int × Event} (hx : x ∈ es) : ∃ peer, x.2 = .deliver peer side block := by
  have hmem : x.2 ∈ es.map Prod.snd := List.mem_map_of_mem hx
  rw [hes, deliveries] at hmem
  obtain ⟨peer, _, hpeer⟩ := List.mem_map.1 hmem
  exact ⟨peer, hpeer.symm⟩

/-- Deliveries go to the nodes they are for. -/
theorem mem_of_deliveries {peers : List Nat} {side : Side} {block : BlockId}
    {es : List (Int × Event)} (hes : es.map Prod.snd = deliveries peers side block)
    {x : Int × Event} (hx : x ∈ es) {node : Nat} (hnode : x.2.peer = some node) :
    node ∈ peers := by
  have hmem : x.2 ∈ es.map Prod.snd := List.mem_map_of_mem hx
  rw [hes, deliveries] at hmem
  obtain ⟨peer, hpeer, hxpeer⟩ := List.mem_map.1 hmem
  rw [← hxpeer] at hnode
  exact Option.some.inj hnode ▸ hpeer

/-- Deliveries are no reports. -/
theorem reportOn_of_deliveries {peers : List Nat} {side : Side} {block : BlockId}
    {es : List (Int × Event)} (hes : es.map Prod.snd = deliveries peers side block) (node : Nat)
    {x : Int × Event} (hx : x ∈ es) : x.2.reportOn node = none := by
  obtain ⟨peer, hpeer⟩ := exists_deliver_eq hes hx
  rw [hpeer]
  rfl

namespace World

/-- What is scheduled for a block that a node mines: deliveries, each after the
latency of some way to its receiver. -/
theorem mem_arrivals {net : Network} {time : Int} {origin : Nat} {side : Side} {block : BlockId}
    {events : List (Int × Event)} (h : arrivals net time origin side block = .ok events)
    {x : Int × Event} (hx : x ∈ events) :
    ∃ row ∈ net.distances, ∃ latency ∈ row, ∃ peer,
      x = (time + latency, .deliver peer side block) := by
  unfold arrivals at h
  obtain ⟨row, hrow, h⟩ := Fault.bind_eq_ok_iff.1 h
  obtain ⟨⟨latency, peer⟩, hentry, hxy⟩ := Fault.exists_of_mem_mapM h hx
  obtain ⟨arrival, htime, hxy⟩ := Fault.bind_eq_ok_iff.1 hxy
  obtain ⟨_, rfl⟩ := Time.add_eq_ok_iff.1 htime
  have hrow' : row ∈ net.distances := Array.mem_of_getElem? (Fault.read_eq_ok_iff.1 hrow)
  have hlatency : latency ∈ row.toList :=
    (List.mem_zipIdx (List.mem_filter.1 hentry).1).2.2 ▸ List.getElem_mem _
  exact ⟨row, hrow', latency, Array.mem_toList_iff.1 hlatency, peer, (Except.ok.inj hxy).symm⟩

/-- What is scheduled for a block that the adversary sends: deliveries, at once to the nodes
to be kept on its side, and to the others as soon as the first of these can pass it on. -/
theorem mem_releaseArrivals {p : Partition} {time : Int} {y : Side × BlockId}
    {events : List (Int × Event)} (h : releaseArrivals p time y = .ok events)
    {x : Int × Event} (hx : x ∈ events) :
    ∃ peer delay, x = (time + delay, .deliver peer y.1 y.2) ∧
      (peer ∈ p.nodes y.1 ∧ delay = 0 ∨
        peer ∈ p.nodes y.1.other ∧ p.crossingTo peer = .ok delay) := by
  unfold releaseArrivals at h
  obtain ⟨far, hfar, h⟩ := Fault.bind_eq_ok_iff.1 h
  obtain rfl := Except.ok.inj h
  rcases List.mem_append.1 hx with hx | hx
  · obtain ⟨peer, hpeer, rfl⟩ := List.mem_map.1 hx
    exact ⟨peer, 0, by rw [Int.add_zero], .inl ⟨hpeer, rfl⟩⟩
  · obtain ⟨peer, hpeer, hxy⟩ := Fault.exists_of_mem_mapM hfar hx
    obtain ⟨delay, hdelay, hxy⟩ := Fault.bind_eq_ok_iff.1 hxy
    obtain ⟨arrival, htime, hxy⟩ := Fault.bind_eq_ok_iff.1 hxy
    obtain ⟨_, rfl⟩ := Time.add_eq_ok_iff.1 htime
    exact ⟨peer, delay, (Except.ok.inj hxy).symm, .inr ⟨hpeer, hdelay⟩⟩

/-- A block that a node mines is delivered once to every other node. -/
theorem arrivals_events {net : Network} {n : Nat} (hsq : net.distances.Square n) {time : Int}
    {origin : Nat} {side : Side} {block : BlockId} {events : List (Int × Event)}
    (h : arrivals net time origin side block = .ok events) :
    events.map Prod.snd = deliveries ((List.range n).filter (· ≠ origin)) side block := by
  unfold arrivals at h
  obtain ⟨row, hrow, h⟩ := Fault.bind_eq_ok_iff.1 h
  have hsize : row.size = n :=
    hsq.2 row (Array.mem_of_getElem? (Fault.read_eq_ok_iff.1 hrow))
  have hmap := Fault.map_of_mapM Prod.snd
    (fun x : Int × Nat => Event.deliver x.2 side block) (fun x y hxy => by
      obtain ⟨t, _, hy⟩ := Fault.bind_eq_ok_iff.1 hxy
      obtain rfl := Except.ok.inj hy
      rfl) h
  rw [hmap, deliveries]
  have hsnd : (row.toList.zipIdx.filter (·.2 ≠ origin)).map Prod.snd =
      (List.range n).filter (· ≠ origin) := by
    rw [List.range_eq_range', ← hsize, ← Array.length_toList, ← List.zipIdx_map_snd,
      List.filter_map]
    rfl
  rw [← hsnd, List.map_map]
  rfl

/-- A block that the adversary sends is delivered once to every node of the partition. -/
theorem releaseArrivals_events {p : Partition} {time : Int} {x : Side × BlockId}
    {events : List (Int × Event)} (h : releaseArrivals p time x = .ok events) :
    events.map Prod.snd = deliveries (p.nodes x.1 ++ p.nodes x.1.other) x.1 x.2 := by
  unfold releaseArrivals at h
  obtain ⟨far, hfar, h⟩ := Fault.bind_eq_ok_iff.1 h
  obtain rfl := Except.ok.inj h
  have hmap := Fault.map_of_mapM Prod.snd
    (fun peer => Event.deliver peer x.1 x.2) (fun peer y hy => by
      obtain ⟨_, _, hy⟩ := Fault.bind_eq_ok_iff.1 hy
      obtain ⟨_, _, hy⟩ := Fault.bind_eq_ok_iff.1 hy
      obtain rfl := Except.ok.inj hy
      rfl) hfar
  rw [List.map_append, hmap, deliveries_append, List.map_map]
  rfl

/-- What is scheduled for blocks that the adversary sends is deliveries of these blocks. -/
theorem mem_released {p : Partition} {time : Int} {sent : List (Side × BlockId)}
    {events : List (List (Int × Event))} (h : sent.mapM (releaseArrivals p time) = .ok events)
    {x : Int × Event} (hx : x ∈ events.flatten) :
    ∃ y ∈ sent, ∃ peer, x.2 = .deliver peer y.1 y.2 := by
  obtain ⟨es, hes, hx⟩ := List.mem_flatten.1 hx
  obtain ⟨y, hy, hy'⟩ := Fault.exists_of_mem_mapM h hes
  exact ⟨y, hy, exists_deliver_eq (releaseArrivals_events hy') hx⟩

/-- Of blocks that the adversary sends, each of two or more nodes gets every one. -/
theorem filterMap_released {n : Nat} {distances : Latencies} {p : Partition}
    (hp : Partition.ofDistances n distances = .ok p) {node : Nat} (hnode : node < n) {time : Int}
    {sent : List (Side × BlockId)} {events : List (List (Int × Event))}
    (h : sent.mapM (releaseArrivals p time) = .ok events) :
    events.flatten.filterMap (fun x => x.2.arrivalAt node) = if 2 ≤ n then sent else [] := by
  have hmap := Fault.map_of_mapM
    (fun es : List (Int × Event) => es.filterMap fun x => x.2.arrivalAt node)
    (fun x => if 2 ≤ n then [x] else []) (fun x es hx => by
      rw [filterMap_arrivalAt (Partition.nodup_nodes hp x.1) node (releaseArrivals_events hx)]
      by_cases hn : 2 ≤ n
      · rw [if_pos hn, if_pos ((Partition.mem_nodes_iff hp x.1).2 ⟨hn, hnode⟩)]
      · rw [if_neg hn, if_neg fun hmem => hn ((Partition.mem_nodes_iff hp x.1).1 hmem).1]) h
  rw [List.filterMap_flatten, hmap, ← List.flatMap_def]
  by_cases hn : 2 ≤ n
  · simp only [if_pos hn, List.flatMap_singleton']
  · simp only [if_neg hn]
    exact List.flatMap_eq_nil_iff.2 fun _ _ => rfl

end World

end BalanceAttack
