import Multistage.Builder
import Multistage.Ty.Layout

/-!
# Buffers in shared memory
-/

namespace Multistage

/-- The type of a buffer with its dimensions permuted. -/
def MemDescTy.transposed (t : MemDescTy) (order : List Int) : Except Failure MemDescTy :=
  if order.length ≠ t.rank then .error (.misuse (.transposeRank t.rank order))
  else
    match t.permute? order with
    | some t => .ok t
    | none => .error .fault

namespace Ops

open BuildM Build

/-- Starts copying from global memory into a buffer. -/
def asyncCopyGlobalToLocal (src dst mask other : Option ValueId) : BuildM OpId :=
  create
    { name := Kinds.asyncCopyGlobalToLocal, segments := [[src], [dst], [mask], [other]]
      results := [some Ty.asyncToken] }

/-- Closes the current group of copies. -/
def asyncCommitGroup (tokens : List (Option ValueId)) : BuildM OpId :=
  create
    { name := Kinds.asyncCommitGroup, operands := tokens, results := [some Ty.asyncToken] }

/-- Waits until at most `num` groups of copies are under way. -/
def asyncWait (tokens : List (Option ValueId)) (num : Int) : BuildM OpId :=
  create
    { name := Kinds.asyncWait, operands := tokens, results := [some Ty.asyncToken]
      attrs := .single "num" (some (.i32 num)) }

/-- Allocates a buffer, filled from registers if there is a source. -/
def localAlloc (ty : MemDescTy) (src : Option ValueId) : BuildM ValueId :=
  createValue { name := Kinds.localAlloc, segments := [[src]], results := [some (.memDesc ty)] }

/-- Frees a buffer. -/
def localDealloc (alloc : Option ValueId) : BuildM OpId :=
  create { name := Kinds.localDealloc, segments := [[alloc]] }

/-- Reads a buffer into registers. -/
def localLoad (ty : Option Ty) (src token : Option ValueId) : BuildM OpId :=
  create { name := Kinds.localLoad, segments := [[src], [token]], results := [ty] }

/-- Writes registers into a buffer. -/
def localStore (src dst : Option ValueId) : BuildM OpId :=
  create { name := Kinds.localStore, segments := [[src], [dst]] }

/-- A view into a buffer at offsets. -/
def memDescSubview (ty : MemDescTy) (src : Option ValueId) (offsets : List (Option ValueId)) :
    BuildM ValueId :=
  createValue
    { name := Kinds.memDescSubview, segments := [[src], offsets]
      results := [some (.memDesc ty)] }

/-- The type of a value that has to be a buffer. -/
def bufferTy (v : ValueId) : BuildM MemDescTy := do
  let ty ← typeOf v
  present (ty.bind Ty.memDesc?)

/-- A view of a buffer with its dimensions permuted. -/
def memDescTrans (src : ValueId) (order : List Int) : BuildM ValueId := do
  match (← bufferTy src).transposed order with
  | .error e => throw e
  | .ok ty =>
    createValue
      { name := Kinds.memDescTrans, segments := [[some src]]
        results := [some (.memDesc ty)]
        attrs := .single "order" (some (.ofInts order)) }

/-- The permutation of a transposed view. -/
def transOrder (g : Graph) (i : OpId) : List Int :=
  match (g.op i).attrs.get? "order" with
  | some (.i32Array order) => order
  | _ => []

/-- Converts registers to another type. -/
def convertLayout (ty : Option Ty) (src : Option ValueId) : BuildM ValueId :=
  createValue { name := Kinds.convertLayout, segments := [[src]], results := [ty] }

/-- Whether an operation is a view of a buffer. -/
def isView (g : Graph) (i : OpId) : Bool :=
  (g.op i).name == Kinds.memDescSubview || (g.op i).name == Kinds.memDescTrans

end Ops

end Multistage
