import Esql.Proofs.Recognizer.Lockstep

/-!
# `Proofs.Recognizer.LetterCase` — capitals and small letters are the same

Two texts that are equal but for the case of ASCII letters have the same verdict, and a fault of the one is a
fault of the other at the same place (`check_letterCase`). That is not only so for keywords: every class of
characters, the letter of an exponent and every mode treat a letter as its other case. The texts are cut alike
(`Pairing.next`), so the runs on them go in step.

The messages differ only where they quote the text.
-/

namespace Esql.Syntax

open State
open Esql.Text (Position)

/-! ## Places in texts that differ by case -/

/-- The same place in two texts that differ by case. -/
def SameButCase (a b : Cursor) : Prop :=
  a.position = b.position ∧ a.rest.map Char.toLower = b.rest.map Char.toLower

/-- No letter ends a line. -/
theorem advance_lower {p : Position} {c d : Char} (h : c.toLower = d.toLower) : p.advance c = p.advance d := by
  have hline : c = '\n' ↔ d = '\n' := by
    rw [← lower_eq_iff (d := '\n') (by decide), ← lower_eq_iff (c := d) (by decide), h]
  simp only [Position.advance, hline]

theorem sameButCase_pairing : Pairing Char.toLower SameButCase where
  lower := id
  text := And.right
  advance := by
    rintro p q c d cs ds ⟨rfl, htext⟩
    obtain ⟨hc, hcs⟩ := List.cons.inj htext
    exact ⟨advance_lower hc, hcs⟩

/-! ## Messages that differ by case -/

/-- Causes that quote the same text but for its case are worded alike but for case. -/
theorem message_spelled {c c' : Cause} (h : c.spelled Char.toLower = c'.spelled Char.toLower) :
    c.message.toList.map Char.toLower = c'.message.toList.map Char.toLower := by
  cases c with
  | unrecognised text =>
      cases c' with
      | unrecognised text' =>
          have hlower : (String.ofList text).toList.map Char.toLower = (String.ofList text').toList.map Char.toLower := by
            rw [String.toList_ofList, String.toList_ofList]
            exact Cause.unrecognised.inj h
          unfold Cause.message
          dsimp only
          simp only [String.toList_append, List.map_append, hlower]
      | _ => cases h
  | mismatched found expected =>
      cases c' with
      | mismatched found' expected' =>
          obtain ⟨hfound, rfl⟩ := Cause.mismatched.inj h
          have hlower := String.ofList_injective hfound
          unfold Cause.message
          dsimp only
          split <;> simp only [String.toList_append, List.map_append, hlower]
      | _ => cases h
  | tooDeep limit opener =>
      cases c' with
      | tooDeep limit' opener' =>
          obtain ⟨rfl, hopener⟩ := Cause.tooDeep.inj h
          have hlower := String.ofList_injective hopener
          unfold Cause.message
          dsimp only
          simp only [String.toList_append, List.map_append, hlower]
      | _ => cases h

/-- **Case never matters.** Texts that differ by the case of ASCII letters only are both statements, or both
have their first fault at the same place, with messages that differ by case only. -/
theorem check_letterCase {t u : String} (h : t.toList.map Char.toLower = u.toList.map Char.toLower) :
    SameVerdict
      (fun e e' => e.position = e'.position ∧
        e.message.toList.map Char.toLower = e'.message.toList.map Char.toLower)
      (check t) (check u) := by
  have htwins : Twins (Level SameButCase) (TokensPair Char.toLower SameButCase) (start t.toList) (start u.toList) :=
    start_twins (.of ⟨rfl, h⟩)
  have hverdicts : SameVerdict _ (checkBy {} _) (checkBy {} _) :=
    htwins.verdicts sameButCase_pairing (fun _ _ => id) .refl .refl
  refine hverdicts.mono fun e e' halike => ?_
  obtain ⟨⟨a, b, ⟨hplace, -⟩, ha, hb⟩, hcause⟩ := halike.pair
  exact ⟨by rw [ha, hplace, hb], message_spelled hcause⟩

theorem check_letterCase_exponent :
    "row A = 1E5 Or \"é\" = NULL".toList.map Char.toLower = "ROW a = 1e5 oR \"é\" = null".toList.map Char.toLower ∧
      SameVerdict
        (fun e e' => e.position = e'.position ∧
          e.message.toList.map Char.toLower = e'.message.toList.map Char.toLower)
        (check "row A = 1E5 Or \"é\" = NULL") (check "ROW a = 1e5 oR \"é\" = null") :=
  have h : "row A = 1E5 Or \"é\" = NULL".toList.map Char.toLower
      = "ROW a = 1e5 oR \"é\" = null".toList.map Char.toLower := by decide
  ⟨h, check_letterCase h⟩

end Esql.Syntax
