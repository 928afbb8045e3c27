import Multistage.Builder

/-!
# Loops and branches

A counted loop has one region with one block. Argument 0 of the block is the induction variable;
the others are the iteration arguments, each fed by an initial value before the first iteration and
by the value that the block yields at its position afterwards. A branch has a region for either
outcome; the second may be empty.
-/

namespace Multistage.Ops

open BuildM Build

/-- Ends a block with values. -/
def yield (vals : List (Option ValueId)) : BuildM OpId :=
  create { name := Kinds.yield, operands := vals }

/-! ## Loops -/

/-- A loop that is being built: the cursor stands in its body. -/
structure OpenLoop where
  op : OpId
  inductionVar : ValueId
  iterArgs : List ValueId
  /-- Where the cursor stood before. -/
  outside : Cursor
  deriving Inhabited

/-- Creates a loop at the cursor and moves the cursor into its body. -/
def openFor (lb ub step : Option ValueId) (inits : List ValueId) : BuildM OpenLoop := do
  let types := inits.map (← graph).typeOf
  let op ← create
    { name := Kinds.forLoop, segments := [[lb], [ub], [step], inits.map some], results := types }
  let block ← addBlock op 0
  let inductionVar ← addArgument block (← typeOf (← present lb))
  let iterArgs ← updateGraph (·.addArguments block types)
  let outside ← cursor
  moveToEnd (some block)
  return { op, inductionVar, iterArgs, outside }

/-- Ends the body of a loop at the cursor, and puts the cursor back to where it was. -/
def closeFor (loop : OpenLoop) (yielded : List (Option ValueId)) : BuildM OpId :=
  ensuring (do
    discard <| yield yielded
    return loop.op)
    fun s => { s with cursor :=
      { s.cursor with block := loop.outside.block, before := loop.outside.before } }

/-- A loop that yields its iteration arguments unchanged. -/
def emptyFor (lb ub step : Option ValueId) (inits : List ValueId) : BuildM OpId := do
  let loop ← openFor lb ub step inits
  closeFor loop (loop.iterArgs.map some)

/-- Whether an operation is a loop. -/
def isFor (g : Graph) (i : OpId) : Bool := (g.op i).name == Kinds.forLoop

/-- The body of a loop; it may be missing, and there is no answer without a region. -/
def forBody? (g : Graph) (i : OpId) : Option (Option BlockId) := g.frontBlock? i 0

/-- The yield that ends a block, if one does. -/
def yieldOf (g : Graph) (b : BlockId) : Option OpId := do
  let t ← g.terminator b
  if (g.op t).name = Kinds.yield then some t else none

/-- The values that a block yields. -/
def yieldedBy (g : Graph) (b : BlockId) : List (Option ValueId) :=
  match yieldOf g b with
  | some y => g.operands y
  | none => []

/-- The body of a loop, which has to be there. -/
def forBody (loop : OpId) : BuildM BlockId := do
  let body ← present (forBody? (← graph) loop)
  present body

/-- The values that a loop yields after each iteration. -/
def yieldedValues (loop : OpId) : BuildM (List (Option ValueId)) := do
  let body ← forBody loop
  return yieldedBy (← graph) body

/-- The induction variable of a loop. -/
def inductionVar (loop : OpId) : BuildM ValueId := do
  let body ← forBody loop
  present ((← graph).block body).args.head?

/-- The iteration arguments of a loop. -/
def iterArgs (loop : OpId) : BuildM (List ValueId) := do
  let body ← forBody loop
  match ((← graph).block body).args with
  | [] => fault
  | _ :: args => return args

/-! ## Branches -/

/-- Creates a branch at the cursor, with an empty first block and, if asked for, an empty second
one. -/
def newIf (results : List (Option Ty)) (cond : Option ValueId) (withElse : Bool) :
    BuildM OpId := do
  let op ← create { name := Kinds.ifElse, segments := [[cond]], results }
  discard <| addBlock op 0
  if withElse then
    discard <| addBlock op 1
  return op

/-- Whether an operation is a branch. -/
def isIf (g : Graph) (i : OpId) : Bool := (g.op i).name == Kinds.ifElse

/-- The block of one of the two outcomes, if it is there. -/
def branchBlock (i : OpId) (region : Nat) : BuildM (Option BlockId) := do
  present ((← graph).frontBlock? i region)

/-- The block that runs when the condition holds. -/
def thenBlock (i : OpId) : BuildM (Option BlockId) := branchBlock i 0

/-- The block that runs when the condition does not hold. -/
def elseBlock (i : OpId) : BuildM (Option BlockId) := branchBlock i 1

/-- A cursor at the end of one of the two blocks, at the location of the branch. -/
def branchCursor (i : OpId) (region : Nat) : BuildM Cursor := do
  let block ← branchBlock i region
  return { block, before := none, loc := ((← graph).op i).loc }

/-- A cursor at the end of the block that runs when the condition holds. -/
def thenCursor (i : OpId) : BuildM Cursor := branchCursor i 0

/-- A cursor at the end of the block that runs when the condition does not hold. -/
def elseCursor (i : OpId) : BuildM Cursor := branchCursor i 1

/-- Replaces the condition of a branch. -/
def setCondition (i : OpId) (cond : Option ValueId) : BuildM Unit :=
  setSegment i Seg.condition [cond]

end Multistage.Ops
