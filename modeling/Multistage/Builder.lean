import Multistage.Context
import Multistage.Graph.Clone
import Multistage.Graph.Placement
import Multistage.Graph.Segments

/-!
# Building at the cursor

Operations are created detached and then put at the cursor; successive ones keep their order of
creation. Erasing through the builder first moves the cursor off the operation.
-/

namespace Multistage.Build

open BuildM

/-! ## Moving the cursor -/

/-- The block of an operation that the cursor is to be put at. -/
def blockOfPoint (i : OpId) : BuildM BlockId := do
  let g ← graph
  match (g.op i).block with
  | some b => return b
  | none => misuse (.detachedPoint (g.label i))

/-- Puts the cursor right before an operation. -/
def moveBefore (i : OpId) : BuildM Unit := do
  let b ← blockOfPoint i
  modify fun s => { s with cursor := { s.cursor with block := some b, before := some i } }

/-- Puts the cursor right after an operation. -/
def moveAfter (i : OpId) : BuildM Unit := do
  let b ← blockOfPoint i
  modify fun s =>
    { s with cursor := { s.cursor with block := some b, before := s.graph.next i } }

/-- Puts the cursor at the start of a block. -/
def moveToStart (b : BlockId) : BuildM Unit :=
  modify fun s =>
    { s with cursor := { s.cursor with block := some b, before := (s.graph.block b).ops.head? } }

/-- Puts the cursor at the end of a block; without a block it is nowhere. -/
def moveToEnd (b : Option BlockId) : BuildM Unit :=
  modify fun s => { s with cursor := { s.cursor with block := b, before := none } }

/-- Makes `loc` the location of new operations. -/
def setLoc (loc : Location) : BuildM Unit :=
  modify fun s => { s with cursor := { s.cursor with loc } }

/-- A cursor right before an operation, at its location. -/
def cursorBefore (i : OpId) : BuildM Cursor := do
  let b ← blockOfPoint i
  return { block := some b, before := some i, loc := ((← graph).op i).loc }

/-! ## Creating and inserting -/

/-- Creates a detached operation. Its number is used up even if it takes fewer segments than it is
given. -/
def createDetached (spec : OpSpec) : BuildM OpId := do
  let kind := (← get).catalog.find? spec.name
  let declared := (kind.map (·.segments)).getD []
  if !declared.isEmpty && declared.length < spec.segments.length then
    modifyGraph (·.skipOp)
    misuse (.tooManySegments spec.name declared.length spec.segments.length)
  updateGraph (·.addOp kind spec)

/-- The block and position that the cursor stands at, for the operation with this label. -/
def position (label : Option OpLabel) : BuildM (BlockId × Nat) := do
  let c ← cursor
  let g ← graph
  match c.block with
  | none => misuse (.noInsertionPoint label)
  | some b =>
    match c.before with
    | none => return (b, (g.block b).ops.length)
    | some i =>
      match (g.block b).ops.idxOf? i with
      | some k => return (b, k)
      | none => misuse (.lostInsertionPoint (g.label i))

/-- Puts a detached operation at the cursor. -/
def insert (i : OpId) : BuildM OpId := do
  let (b, k) ← position (some ((← graph).label i))
  tryGraph (·.insertAt b k i)
  return i

/-- Creates an operation at the cursor; without a location of its own it gets the cursor's. -/
def create (spec : OpSpec) : BuildM OpId := do
  let c ← cursor
  let i ← createDetached { spec with loc := if spec.loc = {} then c.loc else spec.loc }
  insert i

/-- Creates an operation at the cursor and gives its first result. -/
def createValue (spec : OpSpec) : BuildM ValueId := do
  let i ← create spec
  present ((← graph).op i).results.head?

/-- A detached deep copy of an operation, and the mapping with all that was copied. -/
def cloneDetached (i : OpId) (m : Mapping) : BuildM (OpId × Mapping) :=
  updateGraph fun g => let (new, g, m) := g.clone i m; (g, (new, m))

/-- A deep copy of an operation at the cursor. -/
def clone (i : OpId) (m : Mapping) : BuildM (OpId × Mapping) := do
  let (new, m) ← cloneDetached i m
  let new ← insert new
  return (new, m)

/-- Adds an empty block to a region of an operation. -/
def addBlock (i : OpId) (region : Int) : BuildM BlockId := do
  let _ ← present (pick? ((← graph).op i).regions region)
  updateGraph (·.addBlock ⟨i, region.toNat⟩)

/-- Adds an argument to a block. -/
def addArgument (b : BlockId) (ty : Option Ty) : BuildM ValueId :=
  updateGraph (·.addArgument b ty)

/-! ## Moving and erasing -/

/-- Puts a detached operation at the end of a block. -/
def append (b : BlockId) (i : OpId) : BuildM Unit := tryGraph (·.append b i)

/-- Takes an operation out of its block and puts it right before another one. -/
def relocate (i other : OpId) : BuildM Unit := do
  modifyGraph (·.detach i)
  tryGraph (·.insertBefore i other)

/-- Erases an operation that no value depends on. -/
def erase (i : OpId) : BuildM Unit := tryGraph (·.erase i)

/-- Moves the cursor off an operation and erases it. -/
def eraseOp (i : OpId) : BuildM Unit := do
  if (← cursor).before = some i then
    modify fun s => { s with cursor := { s.cursor with before := s.graph.next i } }
  erase i

/-- Redirects the uses of the results of an operation, one value a result, and erases it. -/
def replaceOp (i : OpId) (vals : List (Option ValueId)) : BuildM Unit := do
  let g ← graph
  let results := (g.op i).results
  if vals.length ≠ results.length then
    misuse (.replacementCount (g.label i) results.length vals.length)
  modifyGraph fun g => (results.zip vals).foldl (fun g (r, v) => g.replaceUses r v) g
  eraseOp i

/-! ## Operands and attributes -/

/-- Replaces the values of an operand segment. -/
def setSegment (i : OpId) (name : String) (vals : List (Option ValueId)) : BuildM Unit :=
  tryGraph (·.setSegment i name vals)

/-- Puts a value into an operand. -/
def setOperand (i : OpId) (k : Int) (v : Option ValueId) : BuildM Unit := do
  let s ← present (pick? ((← graph).op i).operands k)
  modifyGraph (·.assign s v)

/-- The first value of an operand segment, if there is one. -/
def segmentValue (i : OpId) (name : String) : BuildM (Option ValueId) := do
  present ((← graph).segmentValue? i name)

/-- The values of an operand segment. -/
def segment (i : OpId) (name : String) : BuildM (List (Option ValueId)) := do
  present ((← graph).segment? i name)

/-- Puts attribute `name` on operation `i`, with or without a value. -/
def setAttr (i : OpId) (name : String) (value : Option Attr) : BuildM Unit :=
  modifyGraph (·.modifyOp i fun o => { o with attrs := o.attrs.insert name value })

/-- Makes `attrs` the attributes of operation `i`. -/
def setAttrs (i : OpId) (attrs : AttrDict) : BuildM Unit :=
  modifyGraph (·.modifyOp i fun o => { o with attrs })

/-- Takes an attribute off an operation. -/
def removeAttr (i : OpId) (name : String) : BuildM (Option Attr) := do
  let old := ((← graph).op i).attrs.get? name
  modifyGraph (·.modifyOp i fun o => { o with attrs := o.attrs.erase name })
  return old

/-- The type of a value. -/
def typeOf (v : ValueId) : BuildM (Option Ty) := do return (← graph).typeOf v

/-! ## Walking -/

/-- Visits the tree of an operation down to depth `n`, innermost first. The operations of a block
are those that it holds when the walk comes to the block. -/
def walkTo {α : Type} (visit : α → OpId → BuildM α) : Nat → α → OpId → BuildM α
  | 0, acc, _ => pure acc
  | n + 1, acc, i => do
    let acc ← ((← graph).op i).regions.foldlM (fun acc blocks =>
      blocks.foldlM (fun acc b => do
        ((← graph).block b).ops.foldlM (walkTo visit n) acc) acc) acc
    visit acc i

/-- Visits an operation and all that lies inside it, innermost first. The visit may erase the
operation it is given. -/
def walk {α : Type} (visit : α → OpId → BuildM α) (acc : α) (i : OpId) : BuildM α := do
  walkTo visit (← graph).ops.size acc i

end Multistage.Build
