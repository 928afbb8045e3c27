import Multistage.Ops.Control
import Multistage.Predication.Mask

/-!
# Predication

Making an operation take effect only when a predicate holds. Operations without effects stay as
they are. Otherwise the strategy of the kind decides: some kinds may always run, some carry a mask
or a condition that the predicate is combined with, some are wrapped in a conditional that yields
zeros when the predicate does not hold, and the rest is refused.
-/

namespace Multistage.Predication

open BuildM Build Ops

/-- Combines the predicate with the mask or condition of an operation. Without an operand to fit,
the predicate takes its place as it is. -/
def predicateSegment (i : OpId) (s : Strategy) (pred : Option ValueId) : BuildM Unit := do
  let current ← segmentValue i s.segment
  let ref ← if s.ref = "" then pure current else segmentValue i s.ref
  let mask ← match ref with
    | none => pure pred
    | some r => do
      let p ← present pred
      some <$> predMask (← typeOf r) current p
  setSegment i s.segment [mask]

/-- One zero constant for every type, or the first type without a zero. -/
def zeros : List (Option Ty) → BuildM (Except (Option Ty) (List ValueId))
  | [] => return .ok []
  | ty :: rest => do
    if !hasZero ty then return .error ty
    let z ← zeroConstant ty
    match ← zeros rest with
    | .ok zs => return .ok (z :: zs)
    | .error ty => return .error ty

/-- Replaces an operation by a conditional: a copy of it when the predicate holds, zeros when it
does not. -/
def predicateWithBranch (i : OpId) (pred : Option ValueId) : BuildM OpId := do
  withCursor (← cursorBefore i) do
    let types := (← graph).resultTypes i
    let branch ← newIf types pred true
    withCursor (← thenCursor branch) do
      let (copy, _) ← clone i {}
      let results := ((← graph).op copy).results
      discard <| yield (results.map some)
    let outcome ← withCursor (← elseCursor branch) do
      match ← zeros types with
      | .ok zs =>
        discard <| yield (zs.map some)
        return none
      | .error ty => return some ty
    match outcome with
    | some ty =>
      eraseOp branch
      reject (.noZeroToYield ((← graph).label i) ty)
    | none =>
      let results := ((← graph).op branch).results
      replaceOp i (results.map some)
      return branch

/-- Makes an operation take effect only when the predicate holds, and gives the operation that does
so: the operation itself, or the conditional in its place. The cursor stays where it is, and moves
to the conditional if it stood at the operation. -/
def predicateOp (i : OpId) (pred : Option ValueId) : BuildM OpId := do
  let g ← graph
  if g.isEffectFree i then return i
  let s := (← get).strategies.get (g.op i).name
  trace 2 ("pipeliner: predicating " ++ (g.label i).text ++ " (" ++ s.kind.text ++ ")")
  match s.kind with
  | .exempt => return i
  | .tokenConsume => return i
  | .condition | .mask =>
    keepingPoint do
      moveBefore i
      predicateSegment i s pred
      return i
  | .branch => do
    let point := (← cursor).before
    let branch ← predicateWithBranch i pred
    if point = some i then moveBefore branch
    return branch
  | _ =>
    emit .error i "pipeliner doesn't know how to predicate this op."
    reject (.unsupportedOp (g.op i).name (g.op i).loc)

end Multistage.Predication
