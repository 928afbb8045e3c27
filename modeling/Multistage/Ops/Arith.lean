import Multistage.Builder

/-!
# Integer arithmetic
-/

namespace Multistage.Ops

open BuildM Build

/-- A constant with this attribute. -/
def constant (value : Option Attr) (ty : Option Ty) : BuildM ValueId :=
  createValue
    { name := Kinds.constant, results := [ty], attrs := .single "value" value }

/-- An integer constant. -/
def constantInt (value : Int) (ty : Option Ty) : BuildM ValueId :=
  constant (some (.integer value ty)) ty

/-- A truth value. -/
def constantBool (value : Bool) : BuildM ValueId :=
  constant (some (.bool value)) (some Ty.i1)

/-- Whether a type has a zero. -/
def hasZero : Option Ty → Bool
  | some (.integer _) => true
  | some .index => true
  | _ => false

/-- The zero of an integer or index type. -/
def zeroConstant (ty : Option Ty) : BuildM ValueId :=
  if hasZero ty then constantInt 0 ty else reject (.noZero ty)

/-- The attribute of the constant that defines a value, if one does. -/
def constantValue? (g : Graph) (v : ValueId) : Option (Option Attr) := do
  let i ← g.definingOp v
  if (g.op i).name = Kinds.constant then some ((g.op i).attrs.get? "value") else none

/-- An operation on two values, with the type of the first. -/
def binary (name : String) (lhs : ValueId) (rhs : Option ValueId) : BuildM ValueId := do
  let ty ← typeOf lhs
  createValue { name, operands := [some lhs, rhs], results := [ty] }

/-- The conjunction of two values. -/
def andI := binary Kinds.andI
/-- The disjunction of two values. -/
def orI := binary Kinds.orI
/-- The sum of two values. -/
def addI := binary Kinds.addI
/-- The difference of two values. -/
def subI := binary Kinds.subI
/-- The product of two values. -/
def mulI := binary Kinds.mulI

/-- Compares two values; the answer has a truth value for every element. -/
def cmpI (predicate : String) (lhs : ValueId) (rhs : Option ValueId) : BuildM ValueId := do
  let ty ← typeOf lhs
  createValue
    { name := Kinds.cmpI, operands := [some lhs, rhs], results := [some (maskTy ty)]
      attrs := .single "predicate" (some (.ofString predicate)) }

/-- One of two values, by a condition. -/
def select (cond : Option ValueId) (whenTrue : ValueId) (whenFalse : Option ValueId) :
    BuildM ValueId := do
  let ty ← typeOf whenTrue
  createValue
    { name := Kinds.select, operands := [cond, some whenTrue, whenFalse], results := [ty] }

end Multistage.Ops
