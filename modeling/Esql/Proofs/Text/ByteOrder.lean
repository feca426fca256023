import Mathlib.Data.String.Basic

/-!
# `Proofs.Text.ByteOrder` — texts in the order of their bytes

Texts are compared character by character, and file names byte by byte. In UTF-8 this is the same order: of two
characters the smaller one has the smaller byte at the first place where their bytes differ, and there is such a
place (`encoded_lt`).
-/

namespace Esql.Text

/-- The bytes of a text. -/
def bytes (text : String) : List UInt8 := text.toUTF8.data.toList

theorem bytes_eq (text : String) : bytes text = text.toList.flatMap String.utf8EncodeChar := by
  obtain ⟨cs, rfl⟩ : ∃ cs, text = String.ofList cs := ⟨text.toList, String.ofList_toList.symm⟩
  simp [bytes, List.utf8Encode]

/-- Of two characters the smaller one has the smaller bytes, whatever follows. -/
theorem encoded_lt {c d : Char} (h : c < d) (s t : List UInt8) :
    String.utf8EncodeChar c ++ s < String.utf8EncodeChar d ++ t := by
  have hlt : c.val.toNat < d.val.toNat := h
  have hd : d.val.toNat < 0x110000 := by
    have hvalid := d.valid
    simp only [UInt32.isValidChar, Nat.isValidChar] at hvalid
    omega
  unfold String.utf8EncodeChar
  generalize c.val.toNat = v at *
  generalize d.val.toNat = w at *
  dsimp only
  -- Six bits after six bits: the quotients are those of one another.
  have hdiv (n : Nat) : n / 4096 = n / 64 / 64 ∧ n / 262144 = n / 64 / 64 / 64 := by
    simp [Nat.div_div_eq_div_mul]
  rw [(hdiv v).1, (hdiv v).2, (hdiv w).1, (hdiv w).2]
  clear hdiv
  split_ifs <;>
    simp only [List.cons_append, List.nil_append, List.cons_lt_cons_iff, UInt8.lt_iff_toNat_lt,
      ← UInt8.toNat_inj, UInt8.toNat_ofNat'] <;>
    omega

/-- The order of texts is the order of their bytes. -/
theorem bytes_lt {a b : String} (h : a < b) : bytes a < bytes b := by
  rw [bytes_eq, bytes_eq]
  have h : List.Lex (· < ·) a.toList b.toList := String.lt_iff_toList_lt.mp h
  generalize a.toList = cs at *
  generalize b.toList = ds at *
  induction h with
  | @nil d ds =>
      obtain ⟨byte, bytes, hd⟩ := List.exists_cons_of_ne_nil (String.utf8EncodeChar_ne_nil (c := d))
      rw [List.flatMap_cons, hd]
      exact List.nil_lt_cons byte _
  | cons _ ih =>
      rw [List.flatMap_cons, List.flatMap_cons]
      exact List.append_left_lt ih
  | rel hlt => exact encoded_lt hlt _ _

end Esql.Text
