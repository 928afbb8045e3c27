import Multistage.Ops.Arith
import Multistage.Ops.Kernel

/-!
# Masks
-/

namespace Multistage.Predication

open BuildM Build Ops

/-- The location that operations computing with a value get: that of its definition, and the
cursor's if it is a block argument. -/
def locOf (pred : ValueId) : BuildM Location := do
  let g ← graph
  match g.definingOp pred with
  | some d => return (g.op d).loc
  | none => return (← cursor).loc

/-- The predicate in the shape of a mask of this type: a scalar is spread over a tensor. -/
def shapeMask (maskType : Ty) (pred : ValueId) : BuildM ValueId := do
  if isTensor (some maskType) then
    let ty ← typeOf pred
    if ← present (sameTy? ty (some maskType)) then return pred
    splat (some maskType) (some pred)
  else
    return pred

/-- The conjunction of a predicate and a mask, if there is one, in the shape of a mask over values
of type `like`. -/
def predMask (like : Option Ty) (current : Option ValueId) (pred : ValueId) : BuildM ValueId := do
  withLoc (← locOf pred) do
    let mask ← shapeMask (maskTy like) pred
    match current with
    | some current => andI mask (some current)
    | none => return mask

end Multistage.Predication
