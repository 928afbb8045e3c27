import Multistage.Builder

/-!
# Modules, functions and global memory
-/

namespace Multistage.Ops

open BuildM Build

/-! ## Modules and functions -/

/-- The module attribute that holds the number of thread blocks of a cluster. -/
def numCTAsAttr : String := "ttg.num-ctas"

/-- A detached module with an empty body. -/
def newModule (numCTAs : Int) : BuildM OpId := do
  let m ← createDetached
    { name := Kinds.module, attrs := .single numCTAsAttr (some (.i32 numCTAs)) }
  discard <| addBlock m 0
  return m

/-- The number of thread blocks of the module around an operation, at least 1. -/
def numCTAs (g : Graph) (i : OpId) : Int :=
  let m := if (g.op i).name = Kinds.module then some i else g.parentOfKind i Kinds.module
  match m with
  | none => 1
  | some m =>
    match (g.op m).attrs.get? numCTAsAttr with
    | some (.integer n _) => if 0 < n then n else 1
    | _ => 1

/-- Adds a function to the body of a module, and gives it with its entry block. -/
def newFunc (module : OpId) (name : String) (argTypes : List (Option Ty)) :
    BuildM (OpId × BlockId) := do
  let body ← present ((← graph).frontBlock? module 0)
  let fn ← withCursor { block := body } <| create
    { name := Kinds.func, attrs := .single "sym_name" (some (.ofString name)) }
  let entry ← addBlock fn 0
  discard <| updateGraph (·.addArguments entry argTypes)
  return (fn, entry)

/-- Ends a function. -/
def ret (vals : List (Option ValueId)) : BuildM OpId :=
  create { name := Kinds.ret, operands := vals }

/-- Spreads a scalar over a tensor. -/
def splat (ty : Option Ty) (v : Option ValueId) : BuildM ValueId :=
  createValue { name := Kinds.splat, operands := [v], results := [ty] }

/-! ## Global memory -/

/-- Reads through pointers. -/
def load (ptr mask other : Option ValueId) (ty : Option Ty) : BuildM OpId :=
  create { name := Kinds.load, segments := [[ptr], [mask], [other]], results := [ty] }

/-- Writes through pointers. -/
def store (ptr value mask : Option ValueId) : BuildM OpId :=
  create { name := Kinds.store, segments := [[ptr], [value], [mask]] }

/-- Changes memory through pointers and gives the old values. -/
def atomicRMW (kind : String) (ptr : Option ValueId) (value : ValueId) (mask : Option ValueId) :
    BuildM OpId := do
  let ty ← typeOf value
  create
    { name := Kinds.atomicRMW, segments := [[ptr], [some value], [mask]], results := [ty]
      attrs := .single "atomic_rmw_op" (some (.ofString kind)) }

/-- Loads the tile of a descriptor at indices. -/
def descriptorLoad (desc : Option ValueId) (indices : List (Option ValueId)) (ty : Option Ty) :
    BuildM OpId :=
  create { name := Kinds.descriptorLoad, segments := [[desc], indices], results := [ty] }

/-- Gathers rows of a descriptor, starting at a column. -/
def descriptorGather (desc xOffsets yOffset : Option ValueId) (ty : Option Ty) : BuildM OpId :=
  create
    { name := Kinds.descriptorGather, segments := [[desc], [xOffsets], [yOffset]]
      results := [ty] }

/-- A product plus an accumulator, in registers. -/
def dot (a b : Option ValueId) (c : ValueId) : BuildM OpId := do
  let ty ← typeOf c
  create { name := Kinds.dot, segments := [[a], [b], [some c]], results := [ty] }

/-- Prints values on the device. -/
def print (label : String) (vals : List (Option ValueId)) : BuildM OpId :=
  create
    { name := Kinds.print, operands := vals
      attrs := .single "prefix" (some (.ofString label)) }

/-- Records that a condition holds. -/
def assume (cond : Option ValueId) : BuildM OpId :=
  create { name := Kinds.assume, operands := [cond] }

/-- Whether an operation loads through a descriptor. -/
def isDescriptorLoad (g : Graph) (i : OpId) : Bool :=
  (g.op i).name == Kinds.descriptorLoad || (g.op i).name == Kinds.descriptorGather

end Multistage.Ops
