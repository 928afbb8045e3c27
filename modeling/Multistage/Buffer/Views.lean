import Multistage.Ops.SharedMemory

/-!
# Replacing a buffer under its views

When another buffer takes the place of a result, the views of that result are built anew on top of
it, so that their types follow the new buffer; their own users move over to the new views, and the
old views are erased.
-/

namespace Multistage.Buffer

open BuildM Build Ops

/-- A copy of a view that reads another buffer, right before the view. -/
def rebuildView (view : OpId) (src : Option ValueId) : BuildM ValueId :=
  keepingPoint do
    moveBefore view
    let g ← graph
    withLoc (g.op view).loc do
      let new ←
        if (g.op view).name = Kinds.memDescSubview then do
          let oldTy ← bufferTy (← present (g.op view).results.head?)
          let srcTy ← bufferTy (← present src)
          let newTy := { oldTy with isMutable := srcTy.isMutable, allocShape := srcTy.allocShape }
          memDescSubview newTy src (← segment view Seg.offsets)
        else do
          memDescTrans (← present src) (transOrder g view)
      setAttrs (← present ((← graph).definingOp new)) (g.op view).attrs
      return new

/-- `replaceUses` through at most `n` views one below the other. -/
def replaceUsesWithin : Nat → OpId → Option ValueId → BuildM Unit
  | 0, _, _ => pure ()
  | n + 1, old, val => do
    let g ← graph
    let uses := (g.op old).results.flatMap fun r => (g.value r).uses
    let (views, direct) ← uses.foldlM (fun (views, direct) s => do
      let user := (g.slot s).owner
      if !isView g user then return (views, direct ++ [s])
      if views.contains user then return (views, direct)
      let new ← rebuildView user val
      replaceUsesWithin n user (some new)
      return (views ++ [user], direct)) (([] : List OpId), ([] : List SlotId))
    modifyGraph (·.assignAll direct val)
    views.forM eraseOp

/-- Replaces every use of the results of an operation by another buffer, and rebuilds the views of
them on top of it. The operation itself stays in place without uses. -/
def replaceUses (old : OpId) (val : Option ValueId) : BuildM Unit := do
  replaceUsesWithin (← graph).ops.size old val

end Multistage.Buffer
