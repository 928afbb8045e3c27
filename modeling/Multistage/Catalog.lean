import Multistage.Text.Quoted

/-!
# The catalog of operation kinds

A kind says how the operands of its operations are grouped into named segments, what they may do
to memory, how many regions they carry and how the blocks of those regions must end. A catalog
holds at most one kind of each name, and a kind never changes once it is there.
-/

namespace Multistage

/-- What operations of a kind may do to memory. -/
inductive Effects where
  | none
  | read
  | write
  | readWrite
  /-- Whatever the operations nested inside do. -/
  | nested
  /-- A class with a number outside the known ones; it counts as having effects. -/
  | other (code : Int)
  deriving DecidableEq, Repr, Inhabited

namespace Effects

/-- The class with this number. -/
def ofCode (code : Int) : Effects :=
  if code = 0 then none
  else if code = 1 then read
  else if code = 2 then write
  else if code = 3 then readWrite
  else if code = 4 then nested
  else other code

/-- The name of a class of effects. -/
def text : Effects → String
  | none => "None"
  | read => "Read"
  | write => "Write"
  | readWrite => "ReadWrite"
  | nested => "Recursive"
  | other code => "Effects(" ++ toString code ++ ")"

end Effects

/-- The definition of a kind of operation. -/
structure OpKind where
  name : String
  /-- The operand groups in order. Without any, the operands form one unnamed list. -/
  segments : List String := []
  effects : Effects := .none
  /-- The least number of regions. -/
  regions : Int := 0
  /-- The kind that has to end every block of the regions, if one has to. -/
  terminator : Option String := none
  isTerminator : Bool := false
  deriving DecidableEq, Repr, Inhabited

/-- The known kinds of operations. -/
structure Catalog where
  kinds : List OpKind := []
  deriving Repr, Inhabited

namespace Catalog

/-- The kind of this name. -/
def find? (c : Catalog) (name : String) : Option OpKind :=
  c.kinds.find? (·.name == name)

/-- Adds a kind, unless one of its name is there. -/
def insert? (c : Catalog) (k : OpKind) : Option Catalog :=
  match c.find? k.name with
  | some _ => none
  | none => some { kinds := c.kinds ++ [k] }

/-- The names of all kinds, sorted. -/
def names (c : Catalog) : List String :=
  (c.kinds.map (·.name)).mergeSort fun a b => decide (a ≤ b)

end Catalog

end Multistage
