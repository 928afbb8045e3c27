import Multistage.Failure
import Multistage.Graph.Nesting
import Multistage.Graph.Uses

/-!
# Placing and removing operations

An operation lies in a block exactly if the block lists it, and is listed at most once. Erasing an
operation empties its slots and those of everything inside it, takes it out of its block and marks
the whole tree; it is refused as long as a result is read.
-/

namespace Multistage.Graph

/-- Puts a detached operation at position `k` of a block. -/
def insertAt (g : Graph) (b : BlockId) (k : Nat) (i : OpId) : Except Failure Graph :=
  if (g.op i).block.isSome then .error (.misuse (.alreadyPlaced (g.label i)))
  else if (g.op i).erased then .error (.misuse (.insertedErased (g.label i)))
  else
    let g := g.modifyBlock b fun x => { x with ops := x.ops.insertIdx k i }
    .ok (g.modifyOp i fun o => { o with block := some b })

/-- Puts a detached operation at the end of a block. -/
def append (g : Graph) (b : BlockId) (i : OpId) : Except Failure Graph :=
  g.insertAt b (g.block b).ops.length i

/-- Takes an operation out of its block, if it is in one. -/
def detach (g : Graph) (i : OpId) : Graph :=
  match (g.op i).block with
  | none => g
  | some b =>
    let g := g.modifyBlock b fun x => { x with ops := x.ops.erase i }
    g.modifyOp i fun o => { o with block := none }

/-- Puts a detached operation right before another one. -/
def insertBefore (g : Graph) (i other : OpId) : Except Failure Graph :=
  match (g.op other).block with
  | none => .error .fault
  | some b =>
    match (g.block b).ops.idxOf? other with
    | none => .error .fault
    | some k => g.insertAt b k i

/-- Empties the operand slots of an operation. -/
def dropOperands (g : Graph) (i : OpId) : Graph :=
  g.assignAll (g.op i).operands none

/-- Erases an operation and all that lies inside it. -/
def erase (g : Graph) (i : OpId) : Except Failure Graph :=
  if (g.op i).erased then .error (.misuse (.erasedTwice (g.label i)))
  else
    match (g.op i).results.find? g.hasUses with
    | some v =>
      .error (.misuse (.stillUsed (g.label i) (g.value v).source.index (g.value v).uses.length))
    | none =>
      let tree := g.preorder i
      let g := tree.foldl dropOperands g
      let g := g.detach i
      .ok (tree.foldl (fun g j => g.modifyOp j fun o => { o with erased := true }) g)

end Multistage.Graph
