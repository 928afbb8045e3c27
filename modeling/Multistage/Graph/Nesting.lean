import Multistage.Graph.Basic

/-!
# Nesting

Operations lie in blocks, blocks in regions, regions in operations. As long as no operation lies
inside itself, the chain of operations around one, and the depth of the tree below one, are no
longer than the number of operations, which bounds the recursions here.
-/

namespace Multistage.Graph

/-- The operation whose region holds a block. -/
def blockParent (g : Graph) (b : BlockId) : Option OpId :=
  (g.block b).home.map (·.op)

/-- The operation whose region holds an operation. -/
def parent (g : Graph) (i : OpId) : Option OpId :=
  (g.op i).block.bind g.blockParent

/-- An operation and the operations around it, innermost first, `n` of them at most. -/
def chain (g : Graph) : Nat → OpId → List OpId
  | 0, _ => []
  | n + 1, i =>
    i :: match g.parent i with
      | some p => chain g n p
      | none => []

/-- An operation and the operations around it, innermost first. -/
def ancestors (g : Graph) (i : OpId) : List OpId :=
  g.chain g.ops.size i

/-- Whether `other` is `i` or lies inside it. -/
def isAncestorOf (g : Graph) (i other : OpId) : Bool :=
  (g.ancestors other).contains i

/-- The closest operation of a kind around an operation. -/
def parentOfKind (g : Graph) (i : OpId) (name : String) : Option OpId := do
  let p ← g.parent i
  (g.ancestors p).find? fun a => (g.op a).name == name

/-- The operations that lie directly inside an operation, in order. -/
def children (g : Graph) (i : OpId) : List OpId :=
  (g.op i).regions.flatten.flatMap fun b => (g.block b).ops

/-- The tree below an operation down to depth `n`, every operation after those inside it. -/
def postorderTo (g : Graph) : Nat → OpId → List OpId
  | 0, _ => []
  | n + 1, i => (g.children i).flatMap (postorderTo g n) ++ [i]

/-- The operation and all that lies inside it, every operation after those inside it. -/
def postorder (g : Graph) (i : OpId) : List OpId :=
  g.postorderTo g.ops.size i

/-- The tree below an operation down to depth `n`, every operation before those inside it. -/
def preorderTo (g : Graph) : Nat → OpId → List OpId
  | 0, _ => []
  | n + 1, i => i :: (g.children i).flatMap (preorderTo g n)

/-- The operation and all that lies inside it, every operation before those inside it. -/
def preorder (g : Graph) (i : OpId) : List OpId :=
  g.preorderTo g.ops.size i

/-! ## Neighbours in a block -/

/-- The operation after `i` in its block. -/
def next (g : Graph) (i : OpId) : Option OpId := do
  let b ← (g.op i).block
  let k ← (g.block b).ops.idxOf? i
  (g.block b).ops[k + 1]?

/-- The operation before `i` in its block. -/
def prev (g : Graph) (i : OpId) : Option OpId := do
  let b ← (g.op i).block
  match (g.block b).ops.idxOf? i with
  | some (k + 1) => (g.block b).ops[k]?
  | _ => none

/-- Whether both operations lie in one block and `i` comes first. -/
def isBefore (g : Graph) (i other : OpId) : Bool :=
  match (g.op i).block with
  | none => false
  | some b =>
    (g.op other).block == some b &&
      (g.block b).ops.idxOf i < (g.block b).ops.idxOf other

/-- The last operation of a block, if its kind ends blocks. -/
def terminator (g : Graph) (b : BlockId) : Option OpId := do
  let last ← (g.block b).ops.getLast?
  let kind ← (g.op last).kind
  if kind.isTerminator then some last else none

/-! ## Effects -/

/-- Whether an operation down to depth `n` is known not to touch memory. -/
def effectFreeTo (g : Graph) : Nat → OpId → Bool
  | 0, _ => false
  | n + 1, i =>
    match (g.op i).kind with
    | none => false
    | some kind =>
      match kind.effects with
      | .none => true
      | .nested => (g.children i).all (effectFreeTo g n)
      | _ => false

/-- Whether an operation is known not to touch memory. Operations of unknown kinds are not, and a
kind whose effects are those of the operations inside is only if all of them are. -/
def isEffectFree (g : Graph) (i : OpId) : Bool :=
  g.effectFreeTo g.ops.size i

end Multistage.Graph
