import BalanceAttack.Random.Uniform

/-!
# BalanceAttack.Proofs.Recurrence

Indices that are drawn again and again.  An index comes from the first word
that is accepted, so what is drawn from a source is read off its words: an
index that recurs among the draws has words of its own beyond every place.

* `Draw.index_succ` — one word at a time;
* `Draw.Recurs.exists_word` — the words of an index that recurs;
* `Draw.indices_of_accept`, `Draw.recurs_of_accept` — what is drawn where no word is rejected.
-/

namespace BalanceAttack.Random

namespace WordSource

variable {σ : Type} [WordSource σ]

/-- A source once so many words have been drawn from it. -/
def after (source : σ) : Nat → σ
  | 0 => source
  | k + 1 => after (next source).2 k

/-- The word that a source yields after so many others. -/
def wordAt (source : σ) (k : Nat) : UInt64 := (next (after source k)).1

theorem after_add (source : σ) (j k : Nat) : after source (j + k) = after (after source j) k := by
  induction j generalizing source with
  | zero => rw [Nat.zero_add, after]
  | succ j ih =>
      rw [Nat.succ_add]
      exact ih (next source).2

theorem after_succ (source : σ) (k : Nat) : after source (k + 1) = (next (after source k)).2 :=
  after_add source k 1

theorem wordAt_after (source : σ) (j k : Nat) :
    wordAt (after source j) k = wordAt source (j + k) := by
  rw [wordAt, wordAt, after_add]

theorem wordAt_sequence (words : Nat → UInt64) (k : Nat) : wordAt words k = words k := by
  induction k generalizing words with
  | zero => rfl
  | succ k ih => exact ih fun i => words (i + 1)

end WordSource

namespace Draw

open WordSource

variable {σ : Type} [WordSource σ] {n i k : Nat} {source : σ} {supply rest : Supply σ}

/-! ## one index -/

/-- A word that is accepted is drawn; after one that is rejected the draw goes on to the next. -/
theorem index_succ (hn : n ≠ 0) (source : σ) (left : Nat) :
    index n ⟨source, left + 1⟩ = match indexOfWord n (next source).1 with
      | none => index n ⟨(next source).2, left⟩
      | some i => .ok (i, ⟨(next source).2, left⟩) := by
  have hturn : (do return (indexOfWord n (← word)).elim (.inl ()) .inr : Draw σ (Unit ⊕ Nat))
      ⟨source, left + 1⟩ = .ok ((indexOfWord n (next source).1).elim (.inl ()) .inr,
        ⟨(next source).2, left⟩) := rfl
  unfold index
  rw [if_neg hn, settle_eq]
  cases hword : indexOfWord n (next source).1 with
  | none =>
      rw [hword] at hturn
      rw [settleWithin_of_inl hturn]
      rfl
  | some i =>
      rw [hword] at hturn
      rw [settleWithin_of_inr hturn]

/-- What is drawn is the index of some word, with which the draw ends. -/
theorem exists_word_of_index (h : index n supply = .ok (i, rest)) :
    ∃ k, rest.source = after supply.source (k + 1) ∧
      indexOfWord n (wordAt supply.source k) = some i := by
  obtain ⟨source, left⟩ := supply
  have hn : n ≠ 0 := by
    rintro rfl
    contradiction
  induction left generalizing source with
  | zero =>
      unfold index at h
      rw [if_neg hn] at h
      contradiction
  | succ left ih =>
      rw [index_succ hn] at h
      cases hword : indexOfWord n (next source).1 with
      | none =>
          rw [hword] at h
          obtain ⟨k, hrest, hk⟩ := ih _ h
          exact ⟨k + 1, hrest, hk⟩
      | some j =>
          rw [hword] at h
          obtain ⟨rfl, rfl⟩ := Prod.mk.inj (Except.ok.inj h)
          exact ⟨0, rfl, hword⟩

/-! ## one index after the other -/

/-- The indices below `n` that are drawn one after the other. -/
def indices (n : Nat) : Nat → Draw σ (List Nat)
  | 0 => pure []
  | k + 1 => do
    let before ← indices n k
    let i ← index n
    return before ++ [i]

theorem indices_succ_iff {drawn : List Nat} :
    indices n (k + 1) supply = .ok (drawn, rest) ↔
      ∃ before between i, indices n k supply = .ok (before, between) ∧
        index n between = .ok (i, rest) ∧ drawn = before ++ [i] := by
  constructor
  · intro h
    obtain ⟨before, between, hbefore, h⟩ := bind_eq_ok_iff.1 h
    obtain ⟨i, _, hi, h⟩ := bind_eq_ok_iff.1 h
    obtain ⟨rfl, rfl⟩ := Prod.mk.inj (Except.ok.inj h)
    exact ⟨before, between, i, hbefore, hi, rfl⟩
  · rintro ⟨before, between, i, hbefore, hi, rfl⟩
    exact bind_eq_ok_iff.2 ⟨before, between, hbefore, bind_eq_ok_iff.2 ⟨i, rest, hi, rfl⟩⟩

/-- Every index that is drawn takes a word or more. -/
theorem exists_after_of_indices {drawn : List Nat} (h : indices n k supply = .ok (drawn, rest)) :
    ∃ j, k ≤ j ∧ rest.source = after supply.source j := by
  induction k generalizing drawn rest with
  | zero =>
      obtain ⟨_, rfl⟩ := Prod.mk.inj (Except.ok.inj h)
      exact ⟨0, Nat.le_refl 0, rfl⟩
  | succ k ih =>
      obtain ⟨before, between, i, hbefore, hi, _⟩ := indices_succ_iff.1 h
      obtain ⟨j, hkj, hbetween⟩ := ih hbefore
      obtain ⟨l, hrest, _⟩ := exists_word_of_index hi
      refine ⟨j + (l + 1), by omega, ?_⟩
      rw [hrest, hbetween, ← after_add]

/-- However many indices below `n` have been drawn, each of them is drawn again. -/
def Recurs (n : Nat) (source : σ) : Prop :=
  ∀ i < n, ∀ k, ∃ l left before rest, k ≤ l ∧
    indices n (l + 1) ⟨source, left⟩ = .ok (before ++ [i], rest)

/-- An index that recurs has words beyond every place. -/
theorem Recurs.exists_word (h : Recurs n source) (hi : i < n) (k : Nat) :
    ∃ j, k ≤ j ∧ indexOfWord n (wordAt source j) = some i := by
  obtain ⟨l, left, before, rest, hkl, hdrawn⟩ := h i hi k
  obtain ⟨before', between, i', hbefore, hindex, heq⟩ := indices_succ_iff.1 hdrawn
  obtain ⟨_, hlast⟩ := List.append_inj' heq rfl
  obtain rfl := List.singleton_inj.1 hlast
  obtain ⟨j, hlj, hbetween⟩ := exists_after_of_indices hbefore
  obtain ⟨p, _, hword⟩ := exists_word_of_index hindex
  rw [hbetween, wordAt_after] at hword
  exact ⟨j + p, by omega, hword⟩

/-- Where no word is rejected, the indices that are drawn are those of the words. -/
theorem indices_of_accept (hn : n ≠ 0) {peer : Nat → Nat}
    (haccept : ∀ j, indexOfWord n (wordAt source j) = some (peer j)) (k left : Nat) :
    indices n k ⟨source, left + k⟩ = .ok ((List.range k).map peer, ⟨after source k, left⟩) := by
  induction k generalizing left with
  | zero => rfl
  | succ k ih =>
      refine indices_succ_iff.2
        ⟨(List.range k).map peer, ⟨after source k, left + 1⟩, peer k, ?_, ?_, ?_⟩
      · exact (congrArg (fun l => indices n k ⟨source, l⟩) (by omega)).trans (ih (left + 1))
      · have hword : indexOfWord n (next (after source k)).1 = some (peer k) := haccept k
        rw [index_succ hn, hword, after_succ]
      · rw [List.range_succ, List.map_append, List.map_singleton]

theorem recurs_of_accept (hn : n ≠ 0) {peer : Nat → Nat}
    (haccept : ∀ j, indexOfWord n (wordAt source j) = some (peer j))
    (hrecurs : ∀ i < n, ∀ k, ∃ l, k ≤ l ∧ peer l = i) : Recurs n source := by
  intro i hi k
  obtain ⟨l, hkl, rfl⟩ := hrecurs i hi k
  have hdrawn := indices_of_accept hn haccept (l + 1) 0
  rw [List.range_succ, List.map_append, List.map_singleton] at hdrawn
  exact ⟨l, _, _, _, hkl, hdrawn⟩

end Draw

end BalanceAttack.Random
