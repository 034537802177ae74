import Mathlib.Data.String.Basic

/-!
# BalanceAttack.Proofs.ByteOrder

Texts are ordered by their bytes.  A character is encoded by one to four bytes; the first
of them tells how many there are and grows with their number, and the others are digits to
the base 64, the most significant first.  The order of characters, and with it that of
texts, is therefore that of their encodings.

* `utf8EncodeChar_lt` — a smaller character has a smaller encoding, whatever follows;
* `bytes_lt_iff` — the order of texts is the order of their bytes.
-/

namespace BalanceAttack

/-- The bytes of a text. -/
def bytes (s : String) : List UInt8 := s.toUTF8.data.toList

theorem bytes_eq (s : String) : bytes s = s.toList.flatMap String.utf8EncodeChar := by
  rw [bytes, String.toUTF8_eq_toByteArray, ← String.utf8Encode_toList, List.utf8Encode,
    List.data_toByteArray]

theorem Byte.ofNat_lt_iff {m n : Nat} (hm : m < 256) (hn : n < 256) :
    UInt8.ofNat m < UInt8.ofNat n ↔ m < n :=
  UInt8.ofNat_lt_iff_lt hm hn

theorem Byte.ofNat_inj {m n : Nat} (hm : m < 256) (hn : n < 256) :
    UInt8.ofNat m = UInt8.ofNat n ↔ m = n := by
  rw [← UInt8.toNat_inj, UInt8.toNat_ofNat', UInt8.toNat_ofNat', Nat.mod_eq_of_lt hm,
    Nat.mod_eq_of_lt hn]

/-- **A smaller character has a smaller encoding**, whatever follows. -/
theorem utf8EncodeChar_lt {c d : Char} (h : c < d) (u v : List UInt8) :
    String.utf8EncodeChar c ++ u < String.utf8EncodeChar d ++ v := by
  have hvalid : d.val.toNat < 1114112 := by
    have hd := d.valid
    unfold UInt32.isValidChar Nat.isValidChar at hd
    omega
  have hlt : c.val.toNat < d.val.toNat := h
  have hhigh : c.val.toNat / 4096 ≤ d.val.toNat / 4096 := Nat.div_le_div_right hlt.le
  unfold String.utf8EncodeChar
  dsimp only
  generalize c.val.toNat = m at *
  generalize d.val.toNat = n at *
  -- one case for each number of bytes of the two characters
  split_ifs <;> try omega
  all_goals
    simp (disch := omega) only [List.cons_append, List.nil_append, List.cons_lt_cons_iff,
      Byte.ofNat_lt_iff, Byte.ofNat_inj]
    rcases hhigh.lt_or_eq with hhigh | hhigh <;> omega

theorem flatMap_utf8EncodeChar_lt {cs ds : List Char} (h : cs < ds) :
    cs.flatMap String.utf8EncodeChar < ds.flatMap String.utf8EncodeChar := by
  induction cs generalizing ds with
  | nil =>
      cases ds with
      | nil => exact absurd h (lt_irrefl _)
      | cons d ds =>
          obtain ⟨b, rest, hencode⟩ : ∃ b rest, String.utf8EncodeChar d = b :: rest :=
            List.exists_cons_of_ne_nil String.utf8EncodeChar_ne_nil
          rw [List.flatMap_cons, hencode]
          exact List.nil_lt_cons b _
  | cons c cs ih =>
      cases ds with
      | nil => exact absurd h (List.not_lt_nil _)
      | cons d ds =>
          rw [List.flatMap_cons, List.flatMap_cons]
          rcases List.cons_lt_cons_iff.1 h with hlt | ⟨rfl, hlt⟩
          · exact utf8EncodeChar_lt hlt _ _
          · exact List.append_left_lt (ih hlt)

/-- **The order of texts is the order of their bytes.** -/
theorem bytes_lt_iff {s t : String} : bytes s < bytes t ↔ s < t := by
  have hmono : ∀ {s t : String}, s < t → bytes s < bytes t := by
    intro s t h
    rw [bytes_eq, bytes_eq]
    exact flatMap_utf8EncodeChar_lt (String.lt_iff_toList_lt.1 h)
  constructor
  · intro h
    rcases lt_trichotomy s t with hlt | rfl | hgt
    · exact hlt
    · exact absurd h (List.lt_irrefl _)
    · exact absurd h (List.lt_asymm (hmono hgt))
  · exact hmono

end BalanceAttack
