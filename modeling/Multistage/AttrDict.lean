import Multistage.Assoc
import Multistage.Ty.Basic

/-!
# Named attributes

The attributes of an operation: at most one a name, kept sorted by name. An entry may be present
without a value.
-/

namespace Multistage

/-- Attributes by name, sorted. -/
structure AttrDict where
  entries : List (String × Option Attr) := []
  deriving Inhabited

namespace AttrDict

/-- The entry of this name. -/
def find? (d : AttrDict) (name : String) : Option (Option Attr) :=
  d.entries.lookup name

/-- The attribute of this name, if there is an entry with a value. -/
def get? (d : AttrDict) (name : String) : Option Attr :=
  (d.find? name).join

/-- Whether there is an entry of this name. -/
def contains (d : AttrDict) (name : String) : Bool :=
  (d.find? name).isSome

/-- Puts an entry at its place, over an earlier one of the name. -/
def insert (d : AttrDict) (name : String) (value : Option Attr) : AttrDict :=
  { entries := Assoc.put (fun a b => decide (a < b)) name value d.entries }

/-- `d` without its entry for `name`. -/
def erase (d : AttrDict) (name : String) : AttrDict :=
  { entries := Assoc.drop name d.entries }

/-- The entries of a list; of two with one name the later one counts. -/
def ofList (entries : List (String × Option Attr)) : AttrDict :=
  entries.foldl (fun d (name, value) => d.insert name value) {}

/-- A single entry. -/
def single (name : String) (value : Option Attr) : AttrDict :=
  { entries := [(name, value)] }

/-! ## Looking up after a change -/

theorem find?_insert (d : AttrDict) (name other : String) (value : Option Attr) :
    (d.insert name value).find? other = if other = name then some value else d.find? other :=
  Assoc.lookup_put _ name other value d.entries

theorem find?_erase (d : AttrDict) (name other : String) :
    (d.erase name).find? other = if other = name then none else d.find? other :=
  Assoc.lookup_drop name other d.entries

theorem find?_single (name other : String) (value : Option Attr) :
    (single name value).find? other = if other = name then some value else none :=
  Assoc.lookup_cons other name value []

theorem get?_insert (d : AttrDict) (name other : String) (value : Option Attr) :
    (d.insert name value).get? other = if other = name then value else d.get? other := by
  rw [get?, find?_insert, get?]
  split <;> rfl

theorem contains_insert (d : AttrDict) (name other : String) (value : Option Attr) :
    (d.insert name value).contains other = (decide (other = name) || d.contains other) := by
  rw [contains, find?_insert, contains]
  by_cases h : other = name
  · rw [if_pos h, decide_eq_true h, Bool.true_or, Option.isSome_some]
  · rw [if_neg h, decide_eq_false h, Bool.false_or]

end AttrDict

end Multistage
