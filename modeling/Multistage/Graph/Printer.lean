import Multistage.Graph.Nesting
import Multistage.Graph.Segments

/-!
# Printed operations

The text of an operation and all that lies inside it:

    %1 = tt.load(ptr: %arg0, mask: %0) : tensor<128xf16>
    scf.for(lowerBound: %2, upperBound: %3, step: %4) {
      ^bb0(%arg1: i32):
        scf.yield()
    }

Printing threads a `NameTable`. A value without a name gets the next number of its kind, results and
block arguments apart, and every block gets the next label. The operands of an operation get their
names before its results (`printHead`), and those before what lies inside it (`printTo`). There is
no text if an attribute or a type that has to be written has none.
-/

namespace Multistage

/-- The operands of an operation as they are shown. -/
inductive Shown where
  /-- One list without names. -/
  | flat (slots : List SlotId)
  /-- The segments under their names. -/
  | grouped (groups : List (String × List SlotId))

/-- The slots that are shown, in order. -/
def Shown.slots : Shown → List SlotId
  | flat slots => slots
  | grouped groups => groups.flatMap (·.2)

/-- How the operands of an operation are shown, if its segments lie within them. -/
def Op.shown? (o : Op) : Option Shown :=
  if o.segments.isEmpty then some (.flat o.operands)
  else do
    let groups ← o.segments.mapM fun (name, _) => do
      let slots ← o.segmentSlots? name
      some (name, slots)
    some (.grouped groups)

/-- The names given so far, and the numbers that are next. -/
structure NameTable where
  names : List (ValueId × String) := []
  nextResult : Nat := 0
  nextArg : Nat := 0
  nextBlock : Nat := 0

namespace NameTable

/-- The name of `v`, and the table in which it has that name. -/
def name (t : NameTable) (g : Graph) (v : ValueId) : String × NameTable :=
  match t.names.lookup v with
  | some name => (name, t)
  | none =>
    if g.isArgument v then
      let name := "%arg" ++ toString t.nextArg
      (name, { t with names := (v, name) :: t.names, nextArg := t.nextArg + 1 })
    else
      let name := "%" ++ toString t.nextResult
      (name, { t with names := (v, name) :: t.names, nextResult := t.nextResult + 1 })

/-- The label of the next block, and the table after it. -/
def label (t : NameTable) : String × NameTable :=
  ("^bb" ++ toString t.nextBlock, { t with nextBlock := t.nextBlock + 1 })

end NameTable

/-- A computation that names what it writes, and stops where something has no text. -/
abbrev PrintM := StateT NameTable Option

/-- Texts with commas between them. -/
def commaList (texts : List String) : String := ", ".intercalate texts

namespace Graph

/-- The attributes between braces, nothing without any. -/
def attrsText (d : AttrDict) : Option String :=
  if d.entries.isEmpty then some ""
  else do
    let parts ← d.entries.mapM fun (name, value) => do
      let text ← (← value).text
      some (name ++ " = " ++ text)
    some (" \x7b" ++ commaList parts ++ "\x7d")

/-- The type of a value, if it has one that can be written. -/
def typeText (g : Graph) (v : ValueId) : Option String := do
  (← g.typeOf v).text

/-- Two blanks for every level. -/
def pad (indent : Nat) : String := String.join (List.replicate indent "  ")

/-- The name of a value. -/
def printName (g : Graph) (v : ValueId) : PrintM String := modifyGet (·.name g v)

/-- The name of the value in a slot, or a mark where there is none. -/
def printOperand (g : Graph) (s : SlotId) : PrintM String :=
  match (g.slot s).value with
  | some v => g.printName v
  | none => pure "<<null>>"

/-- The operands of a segment under its name. A segment without operands is left out, and several
stand between square brackets. -/
def printSegment (g : Graph) : String × List SlotId → PrintM (Option String)
  | (_, []) => pure none
  | (segment, [s]) => do
    let name ← g.printOperand s
    pure (some (segment ++ ": " ++ name))
  | (segment, slots) => do
    let names ← slots.mapM g.printOperand
    pure (some (segment ++ ": [" ++ commaList names ++ "]"))

/-- The operands between parentheses. -/
def printOperands (g : Graph) : Shown → PrintM String
  | .flat slots => do
    let names ← slots.mapM g.printOperand
    pure ("(" ++ commaList names ++ ")")
  | .grouped groups => do
    let parts ← groups.mapM g.printSegment
    pure ("(" ++ commaList parts.reduceOption ++ ")")

/-- The line of an operation, without indentation and without its regions. -/
def printHead (g : Graph) (i : OpId) : PrintM String := do
  let o := g.op i
  let shown ← o.shown?
  let operands ← g.printOperands shown
  let results ← o.results.mapM g.printName
  let attrs ← attrsText o.attrs
  let types ← (o.results.mapM g.typeText : Option (List String))
  let core := o.name ++ operands ++ attrs
  pure (if o.results.isEmpty then core
    else commaList results ++ " = " ++ core ++ " : " ++ commaList types)

/-- The header line of a block, without indentation. -/
def printBlockHead (g : Graph) (b : BlockId) : PrintM String := do
  let label ← modifyGet NameTable.label
  let args := (g.block b).args
  let parts ← args.mapM fun v => do
    let name ← g.printName v
    let type ← g.typeText v
    pure (name ++ ": " ++ type)
  pure (label ++ (if args.isEmpty then "" else "(" ++ commaList parts ++ ")") ++ ":\n")

/-- A block at a level of indentation, its operations written by `inner`. -/
def printBody (g : Graph) (inner : OpId → PrintM String) (indent : Nat) (b : BlockId) :
    PrintM String := do
  let header ← g.printBlockHead b
  let ops ← (g.block b).ops.mapM inner
  pure (pad (indent + 1) ++ header ++ String.join ops)

/-- A region of an operation at a level of indentation. -/
def printRegion (g : Graph) (inner : OpId → PrintM String) (indent : Nat)
    (blocks : List BlockId) : PrintM String :=
  if blocks.isEmpty then pure " \x7b\x7d"
  else do
    let bodies ← blocks.mapM (g.printBody inner indent)
    pure (" \x7b\n" ++ String.join bodies ++ pad indent ++ "\x7d")

/-- The text of an operation at a level of indentation, down to depth `n`. -/
def printTo (g : Graph) : Nat → Nat → OpId → PrintM String
  | 0, _, _ => failure
  | n + 1, indent, i => do
    let head ← g.printHead i
    let regions ← (g.op i).regions.mapM (g.printRegion (printTo g n (indent + 2)) indent)
    pure (pad indent ++ head ++ String.join regions ++ "\n")

/-- The text of an operation and all that lies inside it. -/
def print? (g : Graph) (i : OpId) : Option String :=
  (g.printTo g.ops.size 0 i).run' {}

end Graph

end Multistage
