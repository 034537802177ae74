/-!
# BalanceAttack.Schedule.Heap

Leftist heaps under a comparison `le`.  Each node keeps the length of its
right spine and has the child with the shorter one on the right, so that
melding two heaps walks few nodes.

A heap is seen through `toList`, the list of its elements in no particular
order: melding appends these lists up to a permutation, and in a heap that is
`Ordered` the top is least.
-/

namespace BalanceAttack

/-- A heap of elements. -/
inductive Heap (α : Type) where
  | leaf
  | node (rank : Nat) (top : α) (left right : Heap α)

namespace Heap

variable {α : Type}

/-- The elements of a heap. -/
def toList : Heap α → List α
  | leaf => []
  | node _ a l r => a :: (l.toList ++ r.toList)

/-- The number of elements of a heap. -/
def size : Heap α → Nat
  | leaf => 0
  | node _ _ l r => l.size + r.size + 1

/-- The length of the right spine. -/
def rank : Heap α → Nat
  | leaf => 0
  | node k _ _ _ => k

/-- The heap with a top over two heaps. -/
def join (a : α) (l r : Heap α) : Heap α :=
  if r.rank ≤ l.rank then node (r.rank + 1) a l r else node (l.rank + 1) a r l

/-- Melds the heap `self`, with top `a` and left child `l`, into another; its
right child is given by what melding it does. -/
def meldInto (le : α → α → Bool) (self : Heap α) (a : α) (l : Heap α)
    (meldRight : Heap α → Heap α) : Heap α → Heap α
  | leaf => self
  | node k b m n =>
    if le a b then join a l (meldRight (node k b m n))
    else join b m (meldInto le self a l meldRight n)

/-- All elements of two heaps in one. -/
def meld (le : α → α → Bool) : Heap α → Heap α → Heap α
  | leaf => fun h => h
  | node k a l r => meldInto le (node k a l r) a l (meld le r)

/-- Adds an element. -/
def push (le : α → α → Bool) (h : Heap α) (a : α) : Heap α := meld le (node 1 a leaf leaf) h

/-- Takes off the top. -/
def pop (le : α → α → Bool) : Heap α → Option (α × Heap α)
  | leaf => none
  | node _ a l r => some (a, meld le l r)

/-! ## the elements -/

theorem length_toList (h : Heap α) : h.toList.length = h.size := by
  induction h with
  | leaf => rfl
  | node k a l r ihl ihr => simp [toList, size, ihl, ihr]

theorem toList_join (a : α) (l r : Heap α) :
    (join a l r).toList.Perm (a :: (l.toList ++ r.toList)) := by
  unfold join
  split
  · exact .refl _
  · exact .cons _ List.perm_append_comm

theorem toList_meldInto (le : α → α → Bool) (k : Nat) (a : α) (l r : Heap α)
    {meldRight : Heap α → Heap α}
    (hr : ∀ h, (meldRight h).toList.Perm (r.toList ++ h.toList)) (h : Heap α) :
    (meldInto le (node k a l r) a l meldRight h).toList.Perm
      ((node k a l r).toList ++ h.toList) := by
  classical
  induction h with
  | leaf => simp [meldInto, toList]
  | node j b m n _ ihn =>
    unfold meldInto
    split
    · refine (toList_join _ _ _).trans ?_
      have := hr (node j b m n)
      rw [List.perm_iff_count] at this ⊢
      intro x
      have := this x
      simp only [toList, List.count_cons, List.count_append] at *
      omega
    · refine (toList_join _ _ _).trans ?_
      rw [List.perm_iff_count] at ihn ⊢
      intro x
      have := ihn x
      simp only [toList, List.count_cons, List.count_append] at *
      omega

theorem toList_meld (le : α → α → Bool) (g h : Heap α) :
    (meld le g h).toList.Perm (g.toList ++ h.toList) := by
  induction g generalizing h with
  | leaf => simp [meld, toList]
  | node k a l r _ ihr => exact toList_meldInto le k a l r ihr h

theorem toList_push (le : α → α → Bool) (h : Heap α) (a : α) :
    (h.push le a).toList.Perm (a :: h.toList) := by
  simpa [push, toList] using toList_meld le (node 1 a leaf leaf) h

theorem toList_pop {le : α → α → Bool} {h g : Heap α} {a : α} (hp : h.pop le = some (a, g)) :
    h.toList.Perm (a :: g.toList) := by
  cases h with
  | leaf => simp [pop] at hp
  | node k b l r =>
    simp only [pop, Option.some.injEq, Prod.mk.injEq] at hp
    obtain ⟨rfl, rfl⟩ := hp
    exact .cons _ (toList_meld le l r).symm

theorem pop_eq_none_iff {le : α → α → Bool} {h : Heap α} : h.pop le = none ↔ h.toList = [] := by
  cases h <;> simp [pop, toList]

/-! ## the order -/

/-- No element comes before the one above it. -/
def Ordered (le : α → α → Bool) : Heap α → Prop
  | leaf => True
  | node _ a l r => (∀ b ∈ l.toList ++ r.toList, le a b = true) ∧ l.Ordered le ∧ r.Ordered le

theorem ordered_join {le : α → α → Bool} {a : α} {l r : Heap α}
    (ha : ∀ b ∈ l.toList ++ r.toList, le a b = true) (hl : l.Ordered le) (hr : r.Ordered le) :
    (join a l r).Ordered le := by
  unfold join
  split
  · exact ⟨ha, hl, hr⟩
  · refine ⟨fun b hb => ha b ?_, hr, hl⟩
    rw [List.mem_append] at hb ⊢
    exact hb.symm

variable {le : α → α → Bool} (total : ∀ a b, le a b = true ∨ le b a = true)
  (trans : ∀ {a b c}, le a b = true → le b c = true → le a c = true)

include total trans

theorem ordered_meldInto {k : Nat} {a : α} {l r : Heap α} (hself : (node k a l r).Ordered le)
    {meldRight : Heap α → Heap α}
    (hperm : ∀ h, (meldRight h).toList.Perm (r.toList ++ h.toList))
    (hord : ∀ h, h.Ordered le → (meldRight h).Ordered le) {h : Heap α} (hh : h.Ordered le) :
    (meldInto le (node k a l r) a l meldRight h).Ordered le := by
  induction h with
  | leaf => exact hself
  | node j b m n _ ihn =>
    obtain ⟨ha, hl, _⟩ := hself
    unfold meldInto
    split
    · rename_i hab
      refine ordered_join (fun x hx => ?_) hl (hord _ hh)
      rw [List.mem_append, (hperm _).mem_iff, List.mem_append] at hx
      simp only [List.mem_append, toList, List.mem_cons] at ha hx
      rcases hx with hx | hx | rfl | hx
      · exact ha x (.inl hx)
      · exact ha x (.inr hx)
      · exact hab
      · exact trans hab (hh.1 x (List.mem_append.2 hx))
    · rename_i hab
      have hba : le b a = true := (total a b).resolve_left hab
      refine ordered_join (fun x hx => ?_) hh.2.1 (ihn hh.2.2)
      rw [List.mem_append, (toList_meldInto le k a l r hperm n).mem_iff, List.mem_append] at hx
      simp only [List.mem_append, toList, List.mem_cons] at ha hx
      rcases hx with hx | (rfl | hx) | hx
      · exact hh.1 x (List.mem_append.2 (.inl hx))
      · exact hba
      · exact trans hba (ha x hx)
      · exact hh.1 x (List.mem_append.2 (.inr hx))

theorem ordered_meld {g h : Heap α} (hg : g.Ordered le) (hh : h.Ordered le) :
    (meld le g h).Ordered le := by
  induction g generalizing h with
  | leaf => exact hh
  | node k a l r _ ihr =>
    exact ordered_meldInto total trans hg (toList_meld le r) (fun _ hn => ihr hg.2.2 hn) hh

theorem ordered_push {h : Heap α} (hh : h.Ordered le) (a : α) : (h.push le a).Ordered le :=
  ordered_meld total trans ⟨by simp [toList], trivial, trivial⟩ hh

theorem ordered_pop {h g : Heap α} {a : α} (hh : h.Ordered le) (hp : h.pop le = some (a, g)) :
    (∀ b ∈ g.toList, le a b = true) ∧ g.Ordered le := by
  cases h with
  | leaf => simp [pop] at hp
  | node k b l r =>
    simp only [pop, Option.some.injEq, Prod.mk.injEq] at hp
    obtain ⟨rfl, rfl⟩ := hp
    exact ⟨fun x hx => hh.1 x ((toList_meld le l r).mem_iff.1 hx),
      ordered_meld total trans hh.2.1 hh.2.2⟩

end Heap

end BalanceAttack
