import Esql.Number.Shortest

/-!
# `Document.Json` — JSON values

A JSON value as its text gives it: an object is the list of its members in order, with keys that may be
repeated. The first member with a key is the one that counts (`Json.get?`).

## Contents
- `Json.Number` and `Json`;
- `Json.get?`, the first member with a key;
- the text of numbers;
- equality of values, which can be decided.
-/

namespace Esql.Document

open Esql.Number

/-- A number: an integer as it is, or any other number as the double that it is read as. -/
inductive Json.Number where
  | integer (n : Int)
  | real (negative : Bool) (size : Magnitude)
deriving DecidableEq, Repr

/-- A JSON value. -/
inductive Json where
  | null
  | boolean (b : Bool)
  | number (n : Json.Number)
  | string (s : String)
  | array (items : List Json)
  | object (members : List (String × Json))
deriving Repr

namespace Json

/-- The first member of an object with a key. -/
def get? : Json → String → Option Json
  | object members, key => (members.find? fun member => member.1 == key).map (·.2)
  | _, _ => none

/-- Doubles are written without an exponent where the first digit stands at most five places behind the
point or is one of the sixteen before it. -/
def layout : Layout where
  tiesUp := false
  isPlain place := -5 ≤ place && place ≤ 15

/-- The text of a number. -/
def Number.text : Number → List Char
  | integer n => signedDecimal n
  | real negative size => layout.text negative size

/-! ## Equality -/

mutual

/-- The test whether two values are the same. -/
def isSame : Json → Json → Bool
  | null, null => true
  | boolean a, boolean b => a = b
  | number m, number n => m = n
  | string s, string t => s = t
  | array items, array others => areSameItems items others
  | object members, object others => areSameMembers members others
  | _, _ => false

/-- The test whether two lists of items are the same. -/
def areSameItems : List Json → List Json → Bool
  | [], [] => true
  | item :: items, other :: others => isSame item other && areSameItems items others
  | _, _ => false

/-- The test whether two lists of members are the same. -/
def areSameMembers : List (String × Json) → List (String × Json) → Bool
  | [], [] => true
  | (key, value) :: members, (other, value') :: others =>
    key = other && isSame value value' && areSameMembers members others
  | _, _ => false

end

mutual

theorem isSame_iff (a b : Json) : isSame a b = true ↔ a = b := by
  cases a with
  | array items => cases b <;> simp [isSame, areSameItems_iff items]
  | object members => cases b <;> simp [isSame, areSameMembers_iff members]
  | _ => cases b <;> simp [isSame]

theorem areSameItems_iff (items others : List Json) : areSameItems items others = true ↔ items = others := by
  cases items with
  | nil => cases others <;> simp [areSameItems]
  | cons item items => cases others <;> simp [areSameItems, isSame_iff item, areSameItems_iff items]

theorem areSameMembers_iff (members others : List (String × Json)) :
    areSameMembers members others = true ↔ members = others := by
  match members, others with
  | [], [] | [], _ :: _ | _ :: _, [] => simp [areSameMembers]
  | (key, value) :: members, (other, value') :: others =>
      simp [areSameMembers, isSame_iff value, areSameMembers_iff members]

end

instance : DecidableEq Json := fun a b => decidable_of_iff _ (isSame_iff a b)

end Json

end Esql.Document
