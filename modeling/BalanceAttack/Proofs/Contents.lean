import BalanceAttack.View
import Mathlib.Data.List.Perm.Basic
import Mathlib.Data.List.Perm.Subperm
import Mathlib.Data.List.Nodup

/-!
# BalanceAttack.Proofs.Contents

A view seen through the list of the blocks it has received, each with the side
it counts on:

* `Holds.record` — delivering a new block puts it at the head of the list;
* `Holds.perm` — the order of the list is of no account;
* `Holds.alike` — two views of the same list cannot be told apart;
* `Drawn.weight_eq` — the weights of a view that need not hold all that is listed.
-/

namespace BalanceAttack.View

/-- The view has received exactly the listed blocks, each on the side beside it. -/
structure Holds (v : View) (l : List (Side × BlockId)) : Prop where
  nodup : (l.map Prod.snd).Nodup
  has_iff : ∀ b, v.has b = true ↔ b ∈ l.map Prod.snd
  weight_eq : ∀ s, v.weight s = (l.map Prod.fst).count s
  upToDate : v.UpToDate

/-- Two views that differ at most in their owner. -/
structure Alike (v w : View) : Prop where
  has_eq : ∀ b, v.has b = w.has b
  weight_eq : ∀ s, v.weight s = w.weight s
  side_eq : v.side = w.side

variable {v w : View} {l m : List (Side × BlockId)} {b : BlockId}

theorem holds_fresh (o : Participant) : (fresh o).Holds [] where
  nodup := List.nodup_nil
  has_iff := by simp
  weight_eq := by simp
  upToDate := upToDate_fresh o

/-- A block that is not listed has not been received. -/
theorem Holds.has_eq_false (h : v.Holds l) (hb : b ∉ l.map Prod.snd) : v.has b = false := by
  cases hv : v.has b
  · rfl
  · exact absurd ((h.has_iff b).1 hv) hb

/-- Delivering a new block puts it at the head of the list. -/
theorem Holds.record (h : v.Holds l) (hb : v.has b = false) (s : Side) :
    (v.record b s).Holds ((s, b) :: l) where
  nodup := by
    rw [List.map_cons, List.nodup_cons]
    refine ⟨fun hmem => ?_, h.nodup⟩
    rw [(h.has_iff b).2 hmem] at hb
    contradiction
  has_iff := by
    intro c
    rw [has_record, List.map_cons, List.mem_cons, Bool.or_eq_true, h.has_iff, beq_iff_eq]
    simp only [eq_comm]
  weight_eq := by
    intro t
    rw [weight_record hb, h.weight_eq, List.map_cons, List.count_cons]
    by_cases hts : t = s
    · simp [hts]
    · have hst : ¬ s = t := fun h => hts h.symm
      simp [hts, hst]
  upToDate := h.upToDate.record b s

/-- The order of the list is of no account. -/
theorem Holds.perm (h : v.Holds l) (hp : l.Perm m) : v.Holds m where
  nodup := ((hp.map Prod.snd).nodup_iff).1 h.nodup
  has_iff := fun b => (h.has_iff b).trans (hp.map Prod.snd).mem_iff
  weight_eq := fun s => (h.weight_eq s).trans ((hp.map Prod.fst).count_eq s)
  upToDate := h.upToDate

/-- Every block of the list weighs on its side. -/
theorem Holds.weight_add (h : v.Holds l) : v.weight .left + v.weight .right = l.length := by
  have hsides : ∀ sides : List Side, sides.count .left + sides.count .right = sides.length := by
    intro sides
    induction sides with
    | nil => rfl
    | cons s sides ih =>
        cases s <;> simp <;> omega
  rw [h.weight_eq, h.weight_eq, hsides, List.length_map]

/-- The blocks received are those of the list. -/
theorem Holds.perm_received (h : v.Holds l) : v.received.toList.Perm (l.map Prod.snd) := by
  refine (List.perm_ext_iff_of_nodup ?_ h.nodup).2 fun c => ?_
  · exact v.received.distinct_toList.imp fun hne => by simpa using hne
  · rw [Std.TreeSet.mem_toList]
    exact h.has_iff c

/-- As many blocks have been received as are listed. -/
theorem Holds.count_eq (h : v.Holds l) : v.count = l.length := by
  rw [count, ← Std.TreeSet.length_toList, h.perm_received.length_eq, List.length_map]

/-- Two views of the same list cannot be told apart. -/
theorem Holds.alike (h : v.Holds l) (h' : w.Holds l) : v.Alike w := by
  have hw : ∀ s, v.weight s = w.weight s := fun s => by rw [h.weight_eq, h'.weight_eq]
  refine ⟨fun b => ?_, hw, ?_⟩
  · rw [Bool.eq_iff_iff, h.has_iff, h'.has_iff]
  · have hleft : v.side = .left ↔ w.side = .left := by
      have hv := h.upToDate
      rw [UpToDate, hw, hw] at hv
      exact hv.trans h'.upToDate.symm
    cases hv : v.side <;> cases hw' : w.side <;> simp_all

/-- Deliveries keep the side up to date. -/
theorem UpToDate.foldl_record (h : v.UpToDate) (l : List (Side × BlockId)) :
    (l.foldl (fun v x => v.record x.2 x.1) v).UpToDate := by
  induction l generalizing v with
  | nil => exact h
  | cons x l ih => exact ih (h.record x.2 x.1)

/-- A view has what it had, and the blocks delivered to it. -/
theorem has_foldl_record (l : List (Side × BlockId)) (v : View) (b : BlockId) :
    (l.foldl (fun v x => v.record x.2 x.1) v).has b = true ↔
      v.has b = true ∨ b ∈ l.map Prod.snd := by
  induction l generalizing v with
  | nil => simp
  | cons x l ih =>
      rw [List.foldl_cons, ih, has_record, Bool.or_eq_true, beq_iff_eq, List.map_cons,
        List.mem_cons]
      constructor
      · rintro ((h | h) | h)
        · exact .inr (.inl h.symm)
        · exact .inl h
        · exact .inr (.inr h)
      · rintro (h | h | h)
        · exact .inl (.inr h)
        · exact .inl (.inl h.symm)
        · exact .inr h

/-! ## views of what a list offers -/

/-- The view has received nothing but blocks of the list, each on the side beside it. -/
def Drawn (v : View) (l : List (Side × BlockId)) : Prop := ∃ m, v.Holds m ∧ m ⊆ l

theorem drawn_fresh (o : Participant) (l : List (Side × BlockId)) : (fresh o).Drawn l :=
  ⟨[], holds_fresh o, List.nil_subset l⟩

theorem Drawn.mono (h : v.Drawn l) (hl : l ⊆ m) : v.Drawn m := by
  obtain ⟨k, hk, hkl⟩ := h
  exact ⟨k, hk, List.Subset.trans hkl hl⟩

theorem Drawn.record {s : Side} (h : v.Drawn l) (hb : (s, b) ∈ l) : (v.record b s).Drawn l := by
  obtain ⟨k, hk, hkl⟩ := h
  cases hv : v.has b with
  | true =>
      rw [record_of_has hv]
      exact ⟨k, hk, hkl⟩
  | false => exact ⟨_, hk.record hv s, List.cons_subset.2 ⟨hb, hkl⟩⟩

theorem Drawn.foldl_record (h : v.Drawn l) (hm : m ⊆ l) :
    (m.foldl (fun v x => v.record x.2 x.1) v).Drawn l := by
  induction m generalizing v with
  | nil => exact h
  | cons x m ih =>
      obtain ⟨hx, hm⟩ := List.cons_subset.1 hm
      exact ih (h.record hx) hm

/-- A block that has been received is in the list. -/
theorem Drawn.exists_mem (h : v.Drawn l) (hb : v.has b = true) : ∃ s, (s, b) ∈ l := by
  obtain ⟨k, hk, hkl⟩ := h
  obtain ⟨⟨s, _⟩, hx, rfl⟩ := List.mem_map.1 ((hk.has_iff b).1 hb)
  exact ⟨s, hkl hx⟩

/-- Where no block is listed on both sides, the weight of a side is the number of
blocks received that are listed on it. -/
theorem Drawn.weight_eq (h : v.Drawn l) (hids : (l.map Prod.snd).Nodup) (s : Side) :
    v.weight s = v.received.toList.countP fun c => (s, c) ∈ l := by
  obtain ⟨k, hk, hkl⟩ := h
  rw [hk.weight_eq, hk.perm_received.countP_eq, List.countP_map, List.count, List.countP_map]
  refine List.countP_congr fun x hx => ?_
  -- a block is listed on its own side, and on no other
  have hside : (s, x.2) ∈ l ↔ x.1 = s := by
    constructor
    · intro hs
      exact congrArg Prod.fst (List.inj_on_of_nodup_map hids (hkl hx) hs rfl)
    · rintro rfl
      exact hkl hx
  simp [hside]

/-- The sides weigh no more together than the list is long. -/
theorem Drawn.weight_add_le (h : v.Drawn l) : v.weight .left + v.weight .right ≤ l.length := by
  obtain ⟨k, hk, hkl⟩ := h
  rw [hk.weight_add]
  exact (List.subperm_of_subset (List.Nodup.of_map _ hk.nodup) hkl).length_le

/-! ## one of many views -/

section

variable {views : Array View} {i j : Nat}

/-- A block is delivered to one of the views. -/
theorem getElem?_record (hv : views[i]? = some v) (b : BlockId) (s : Side) :
    (views.modify i (·.record b s))[i]? = some (v.record b s) := by
  rw [Array.getElem?_modify, if_pos rfl, hv]
  rfl

/-- The other views stay as they are. -/
theorem getElem?_record_of_ne (hij : i ≠ j) (b : BlockId) (s : Side) :
    (views.modify i (·.record b s))[j]? = views[j]? := by
  rw [Array.getElem?_modify, if_neg hij]

/-- What is delivered to one of the views is a block of the list. -/
theorem drawn_modify {s : Side} (h : ∀ v ∈ views, v.Drawn l) (hb : (s, b) ∈ l) (i : Nat) :
    ∀ v ∈ views.modify i (·.record b s), v.Drawn l := by
  intro v hv
  obtain ⟨j, hv⟩ := Array.mem_iff_getElem?.1 hv
  rw [Array.getElem?_modify] at hv
  split at hv
  · obtain ⟨u, hu, rfl⟩ := Option.map_eq_some_iff.1 hv
    exact (h u (Array.mem_of_getElem? hu)).record hb
  · exact h v (Array.mem_of_getElem? hv)

end

end BalanceAttack.View
