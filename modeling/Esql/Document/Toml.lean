import Esql.Number.Shortest
import Esql.Document.Toml.DateTime

/-!
# `Document.Toml` — TOML values

A TOML value without the way in which it was written. The entries of a table are in the order of their
keys by code points and no key occurs twice, so two tables with the same entries are equal. Whether two values
are equal can be decided.

A table under whose first key `$__toml_private_datetime` a string stands may be written for a date or time;
this is also how a date or time is written that is a document's answer by itself.
-/

namespace Esql.Document

open Esql.Number

/-- A TOML value. -/
inductive Toml where
  | string (s : String)
  | integer (n : Int)
  | float (x : Double)
  | boolean (b : Bool)
  | dateTime (d : Toml.DateTime)
  | array (items : List Toml)
  | table (entries : List (String × Toml))
deriving Repr

namespace Toml

/-- The entry of a table with a key. -/
def get? : Toml → String → Option Toml
  | table entries, key => (entries.find? fun entry => entry.1 == key).map (·.2)
  | _, _ => none

/-- Add an entry before the first one with a key that is not less. -/
def insertByKey (entry : String × Toml) : List (String × Toml) → List (String × Toml)
  | [] => [entry]
  | other :: entries =>
    if other.1 < entry.1 then other :: insertByKey entry entries else entry :: other :: entries

/-- The entries in the order of their keys. -/
def sortByKey (entries : List (String × Toml)) : List (String × Toml) :=
  entries.foldr insertByKey []

/-- The key that makes a table stand for a date or time. -/
def dateTimeKey : String := "$__toml_private_datetime"

/-- The date or time whose text is the whole of a string. -/
def dateTimeOfString? (s : String) : Option DateTime :=
  match dateTime? s.toList with
  | some (d, []) => some d
  | _ => none

/-! ## Equality -/

mutual

/-- The test whether two values are the same. -/
def isSame : Toml → Toml → Bool
  | string s, string t => s = t
  | integer m, integer n => m = n
  | float x, float y => x = y
  | boolean a, boolean b => a = b
  | dateTime d, dateTime e => d = e
  | array items, array others => areSameItems items others
  | table entries, table others => areSameEntries entries others
  | _, _ => false

/-- The test whether two lists of items are the same. -/
def areSameItems : List Toml → List Toml → Bool
  | [], [] => true
  | item :: items, other :: others => isSame item other && areSameItems items others
  | _, _ => false

/-- The test whether two lists of entries are the same. -/
def areSameEntries : List (String × Toml) → List (String × Toml) → Bool
  | [], [] => true
  | (key, value) :: entries, (other, value') :: others =>
    key = other && isSame value value' && areSameEntries entries others
  | _, _ => false

end

mutual

theorem isSame_iff (a b : Toml) : isSame a b = true ↔ a = b := by
  cases a with
  | array items => cases b <;> simp [isSame, areSameItems_iff items]
  | table entries => cases b <;> simp [isSame, areSameEntries_iff entries]
  | _ => cases b <;> simp [isSame]

theorem areSameItems_iff (items others : List Toml) : areSameItems items others = true ↔ items = others := by
  cases items with
  | nil => cases others <;> simp [areSameItems]
  | cons item items => cases others <;> simp [areSameItems, isSame_iff item, areSameItems_iff items]

theorem areSameEntries_iff (entries others : List (String × Toml)) :
    areSameEntries entries others = true ↔ entries = others := by
  match entries, others with
  | [], [] | [], _ :: _ | _ :: _, [] => simp [areSameEntries]
  | (key, value) :: entries, (other, value') :: others =>
      simp [areSameEntries, isSame_iff value, areSameEntries_iff entries]

end

instance : DecidableEq Toml := fun a b => decidable_of_iff _ (isSame_iff a b)

end Toml

end Esql.Document
