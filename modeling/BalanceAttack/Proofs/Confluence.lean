import BalanceAttack.Proofs.Contents
import Mathlib.Data.Finset.Card
import Mathlib.Data.Finset.Dedup

/-!
# BalanceAttack.Proofs.Confluence

What a view comes to after a sequence of deliveries.  A block counts on the side
that its first delivery names, and later deliveries of it change nothing:

* `answers_fresh` — a delivery is answered by whether it is the first one of its block;
* `exists_holds_firstSide` — the view holds each block on the side of its first delivery;
* `confluent_deliverAll` — where no block is delivered on both sides, the order of the
  deliveries and their number are of no account.
-/

namespace BalanceAttack

/-- The side that the first delivery of a block names, if there is one. -/
def firstSide (l : List (Side × BlockId)) (b : BlockId) : Option Side :=
  (l.find? (·.2 = b)).map Prod.fst

theorem firstSide_concat (l : List (Side × BlockId)) (s : Side) (b c : BlockId) :
    firstSide (l ++ [(s, b)]) c = (firstSide l c).or (if b = c then some s else none) := by
  rw [firstSide, List.find?_append, Option.map_or, firstSide]
  by_cases h : b = c <;> simp [h]

example : firstSide [(.right, ⟨1⟩), (.left, ⟨1⟩)] ⟨1⟩ = some .right := by decide

theorem firstSide_eq_none_iff {l : List (Side × BlockId)} {b : BlockId} :
    firstSide l b = none ↔ b ∉ l.map Prod.snd := by
  rw [firstSide, Option.map_eq_none_iff, List.find?_eq_none, List.mem_map]
  simp only [decide_eq_true_eq, not_exists, not_and]

/-- A first delivery is a delivery. -/
theorem mem_of_firstSide {l : List (Side × BlockId)} {s : Side} {b : BlockId}
    (h : firstSide l b = some s) : (s, b) ∈ l := by
  obtain ⟨x, hx, rfl⟩ := Option.map_eq_some_iff.1 h
  have hb : x.2 = b := by simpa using List.find?_some hx
  rw [← hb]
  exact List.mem_of_find?_eq_some hx

/-- No block is delivered on both sides. -/
def OneSided (l : List (Side × BlockId)) : Prop :=
  ∀ x ∈ l, ∀ y ∈ l, x.2 = y.2 → x.1 = y.1

instance (l : List (Side × BlockId)) : Decidable (OneSided l) :=
  inferInstanceAs (Decidable (∀ x ∈ l, ∀ y ∈ l, x.2 = y.2 → x.1 = y.1))

/-- Where no block is delivered on both sides, any delivery names the side of the first one. -/
theorem OneSided.firstSide_eq_some_iff {l : List (Side × BlockId)} (h : OneSided l) {s : Side}
    {b : BlockId} : firstSide l b = some s ↔ (s, b) ∈ l := by
  refine ⟨mem_of_firstSide, fun hb => ?_⟩
  cases hs : firstSide l b with
  | none => exact absurd (List.mem_map_of_mem hb) (firstSide_eq_none_iff.1 hs)
  | some t =>
      have hst : t = s := h _ (mem_of_firstSide hs) _ hb rfl
      rw [hst]

namespace View

variable {o o' : Participant} {v : View} {l l' : List (Side × BlockId)}

/-! ## sequences of deliveries -/

/-- Delivers blocks in order: the answers to the deliveries, and the view at the end. -/
def deliverAll (v : View) : List (Side × BlockId) → List Bool × View
  | [] => ([], v)
  | (s, b) :: l =>
    let (new, w) := v.deliver b s
    let (answers, w) := w.deliverAll l
    (new :: answers, w)

theorem deliverAll_snd (v : View) (l : List (Side × BlockId)) :
    (v.deliverAll l).2 = l.foldl (fun v x => v.record x.2 x.1) v := by
  induction l generalizing v with
  | nil => rfl
  | cons x l ih => simp [deliverAll, ih]

theorem deliverAll_concat (v : View) (l : List (Side × BlockId)) (s : Side) (b : BlockId) :
    (v.deliverAll (l ++ [(s, b)])).2 = (v.deliverAll l).2.record b s := by
  simp [deliverAll_snd]

theorem UpToDate.deliverAll (h : v.UpToDate) (l : List (Side × BlockId)) :
    (v.deliverAll l).2.UpToDate := by
  rw [deliverAll_snd]
  exact h.foldl_record l

theorem has_deliverAll (v : View) (l : List (Side × BlockId)) (b : BlockId) :
    (v.deliverAll l).2.has b = true ↔ v.has b = true ∨ b ∈ l.map Prod.snd := by
  rw [deliverAll_snd, has_foldl_record]

/-- A delivery is answered by whether the deliveries before it have left its block unknown. -/
theorem getElem?_deliverAll (v : View) (l : List (Side × BlockId)) (i : Nat) :
    (v.deliverAll l).1[i]? = l[i]?.map fun x => !(v.deliverAll (l.take i)).2.has x.2 := by
  induction l generalizing v i with
  | nil => rfl
  | cons x l ih => cases i <;> simp [deliverAll, ih]

/-- To a new view a delivery is new if it is the first one of its block. -/
theorem answers_fresh (o : Participant) (l : List (Side × BlockId)) :
    ((fresh o).deliverAll l).1 =
      l.zipIdx.map fun (x, i) => decide (x.2 ∉ (l.take i).map Prod.snd) := by
  have hhas : ∀ i b, ((fresh o).deliverAll (l.take i)).2.has b =
      decide (b ∈ (l.take i).map Prod.snd) := fun i b => by
    rw [Bool.eq_iff_iff, has_deliverAll, has_fresh, decide_eq_true_iff]
    simp only [Bool.false_eq_true, false_or]
  refine List.ext_getElem? fun i => ?_
  rw [getElem?_deliverAll, List.getElem?_map, List.getElem?_zipIdx, Option.map_map]
  simp only [hhas, Function.comp_def, Nat.zero_add, decide_not]

/-- A new view comes to hold each block on the side of its first delivery. -/
theorem exists_holds_firstSide (o : Participant) (l : List (Side × BlockId)) :
    ∃ m, ((fresh o).deliverAll l).2.Holds m ∧ ∀ s b, (s, b) ∈ m ↔ firstSide l b = some s := by
  induction l using List.reverseRecOn with
  | nil => exact ⟨[], holds_fresh o, by simp [firstSide]⟩
  | append_singleton l x ih =>
      obtain ⟨t, b⟩ := x
      obtain ⟨m, hm, hfirst⟩ := ih
      rw [deliverAll_concat]
      have hknown := has_deliverAll (fresh o) l b
      cases hb : ((fresh o).deliverAll l).2.has b with
      | true =>
          -- the block came before: nothing is recorded, and its first side stays
          refine ⟨m, by rwa [record_of_has hb], fun s c => ?_⟩
          have hsome : firstSide l b ≠ none := by simp_all [firstSide_eq_none_iff]
          obtain ⟨t', ht'⟩ := Option.ne_none_iff_exists'.1 hsome
          rw [hfirst, firstSide_concat]
          by_cases hbc : b = c
          · rw [← hbc, ht', Option.some_or]
          · rw [if_neg hbc, Option.or_none]
      | false =>
          refine ⟨(t, b) :: m, hm.record hb t, fun s c => ?_⟩
          have hnone : firstSide l b = none := by simp_all [firstSide_eq_none_iff]
          rw [List.mem_cons, hfirst, firstSide_concat, Prod.mk.injEq]
          grind

/-! ## what a view comes to -/

/-- What a view comes to after deliveries: each block counts once, on the side of its
first delivery. -/
structure Tallies (v : View) (l : List (Side × BlockId)) : Prop where
  has_iff : ∀ b, v.has b = true ↔ b ∈ l.map Prod.snd
  weight_eq : ∀ s, v.weight s = {b ∈ (l.map Prod.snd).toFinset | firstSide l b = some s}.card
  weight_add : v.weight .left + v.weight .right = v.count
  side_eq_left_iff : v.side = .left ↔ v.weight .right ≤ v.weight .left

theorem tallies_deliverAll (o : Participant) (l : List (Side × BlockId)) :
    ((fresh o).deliverAll l).2.Tallies l where
  has_iff := fun b => by simp [has_deliverAll]
  weight_eq := fun s => by
    obtain ⟨m, hm, hfirst⟩ := exists_holds_firstSide o l
    have hnodup : ((m.filter (·.1 = s)).map Prod.snd).Nodup :=
      hm.nodup.sublist (List.filter_sublist.map _)
    have hset : {b ∈ (l.map Prod.snd).toFinset | firstSide l b = some s} =
        ((m.filter (·.1 = s)).map Prod.snd).toFinset := by
      ext b
      have hb : firstSide l b = some s → b ∈ l.map Prod.snd := fun h =>
        List.mem_map_of_mem (mem_of_firstSide h)
      rw [Finset.mem_filter, List.mem_toFinset, List.mem_toFinset, and_iff_right_of_imp hb,
        ← hfirst]
      simp
    rw [hset, List.toFinset_card_of_nodup hnodup, hm.weight_eq, List.length_map, List.count,
      List.countP_map, List.countP_eq_length_filter]
    rfl
  weight_add := by
    obtain ⟨m, hm, -⟩ := exists_holds_firstSide o l
    rw [hm.weight_add, hm.count_eq]
  side_eq_left_iff := (upToDate_fresh o).deliverAll l

/-- The same blocks on the same sides come to the same. -/
theorem alike_deliverAll (hside : OneSided l) (hmem : ∀ x, x ∈ l ↔ x ∈ l') :
    ((fresh o).deliverAll l).2.Alike ((fresh o').deliverAll l').2 := by
  obtain ⟨m, hm, hfirst⟩ := exists_holds_firstSide o l
  obtain ⟨m', hm', hfirst'⟩ := exists_holds_firstSide o' l'
  have hside' : OneSided l' := fun x hx y hy =>
    hside x ((hmem x).2 hx) y ((hmem y).2 hy)
  have hperm : m'.Perm m := by
    refine (List.perm_ext_iff_of_nodup (.of_map _ hm'.nodup) (.of_map _ hm.nodup)).2 fun x => ?_
    rw [hfirst', hfirst, hside'.firstSide_eq_some_iff, hside.firstSide_eq_some_iff, hmem]
  exact hm.alike (hm'.perm hperm)

/-- After any deliveries each block counts once, on the side of its first delivery, and
exactly that delivery was new.  Where no block is delivered on both sides, the view hangs on
nothing but which blocks were delivered and where. -/
theorem confluent_deliverAll (o : Participant) (l : List (Side × BlockId)) :
    ((fresh o).deliverAll l).2.Tallies l ∧
      ((fresh o).deliverAll l).1 =
        (l.zipIdx.map fun (x, i) => decide (x.2 ∉ (l.take i).map Prod.snd)) ∧
      ∀ (o' : Participant) (l' : List (Side × BlockId)), OneSided l → (∀ x, x ∈ l ↔ x ∈ l') →
        ((fresh o).deliverAll l).2.Alike ((fresh o').deliverAll l').2 ∧
          ((fresh o).deliverAll l).2.lead = ((fresh o').deliverAll l').2.lead ∧
          ((fresh o).deliverAll l).2.count = ((fresh o').deliverAll l').2.count := by
  refine ⟨tallies_deliverAll o l, answers_fresh o l, fun o' l' hside hmem => ?_⟩
  have halike := @alike_deliverAll o o' l l' hside hmem
  have hleft := halike.weight_eq .left
  have hright := halike.weight_eq .right
  refine ⟨halike, ?_, ?_⟩
  · rw [lead_eq, lead_eq, hleft, hright]
  · rw [← (tallies_deliverAll o l).weight_add, ← (tallies_deliverAll o' l').weight_add, hleft,
      hright]

/-- Two blocks on two sides, one of them twice and in the other order.  The first delivery sets
the side to the right one, and the tie sets it back. -/
theorem confluent_tie :
    OneSided [(.right, ⟨1⟩), (.left, ⟨2⟩), (.right, ⟨1⟩)] ∧
      ((fresh .adversary).deliverAll [(.right, ⟨1⟩)]).2.side = .right ∧
      ((fresh .adversary).deliverAll [(.right, ⟨1⟩), (.left, ⟨2⟩), (.right, ⟨1⟩)]).2.side = .left ∧
      ((fresh .adversary).deliverAll [(.right, ⟨1⟩), (.left, ⟨2⟩), (.right, ⟨1⟩)]).2.Tallies
        [(.right, ⟨1⟩), (.left, ⟨2⟩), (.right, ⟨1⟩)] ∧
      ((fresh .adversary).deliverAll [(.right, ⟨1⟩), (.left, ⟨2⟩), (.right, ⟨1⟩)]).2.Alike
        ((fresh (.node 0)).deliverAll [(.left, ⟨2⟩), (.right, ⟨1⟩)]).2 := by
  have hside : OneSided [(.right, ⟨1⟩), (.left, ⟨2⟩), (.right, ⟨1⟩)] := by decide
  obtain ⟨htallies, _, hconfluent⟩ := confluent_deliverAll .adversary
    [(.right, ⟨1⟩), (.left, ⟨2⟩), (.right, ⟨1⟩)]
  obtain ⟨halike, _, _⟩ := hconfluent (.node 0) [(.left, ⟨2⟩), (.right, ⟨1⟩)] hside (by simp)
  exact ⟨hside, by decide +kernel, by decide +kernel, htallies, halike⟩

end View

end BalanceAttack
