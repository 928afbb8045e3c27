import Multistage.AttrDict
import Multistage.Catalog
import Multistage.Location

/-!
# The operation graph

A program in static single assignment form, as one value. Operations, blocks, values and operand
slots live in four tables and refer to each other by position; rows are added and changed but never
removed, so a position stays good.

An operation has operand slots, results and regions; a region is a list of blocks; a block has
arguments and a list of operations. A value is a result of an operation or an argument of a block,
and lists the slots that read it in the order in which they came to read it. A slot belongs to one
operation for good: it is still there, without a value, after the operation has let go of it.
-/

namespace Multistage

/-- Position of an operation; also the number that it is shown with. -/
structure OpId where
  index : Nat
  deriving DecidableEq, Repr, Inhabited

/-- Position of a block. -/
structure BlockId where
  index : Nat
  deriving DecidableEq, Repr, Inhabited

/-- Position of a value. -/
structure ValueId where
  index : Nat
  deriving DecidableEq, Repr, Inhabited

/-- Position of an operand slot. -/
structure SlotId where
  index : Nat
  deriving DecidableEq, Repr, Inhabited

/-- A region: the operation that owns it and its number there. -/
structure RegionId where
  op : OpId
  index : Nat
  deriving DecidableEq, Repr, Inhabited

/-- Where a value comes from. -/
inductive Source where
  | result (op : OpId) (index : Nat)
  | argument (block : BlockId) (index : Nat)
  deriving DecidableEq, Repr, Inhabited

/-- The number of a value among the results or arguments it belongs to. -/
def Source.index : Source → Nat
  | result _ i => i
  | argument _ i => i

/-- A value: its type, where it comes from and which slots read it. -/
structure Value where
  ty : Option Ty
  source : Source
  /-- The slots that read the value, oldest first. -/
  uses : List SlotId
  deriving Inhabited

/-- An operand slot of operation `owner`. -/
structure Slot where
  owner : OpId
  /-- Its position among the operands of its owner. -/
  index : Nat
  value : Option ValueId
  deriving DecidableEq, Repr, Inhabited

/-- A block: its arguments and its operations in order. -/
structure Block where
  args : List ValueId := []
  ops : List OpId := []
  /-- The region that holds the block. -/
  home : Option RegionId := none
  deriving DecidableEq, Repr, Inhabited

/-- An operation. It stays in its table when it has been `erased`. -/
structure Op where
  name : String
  /-- The definition of its kind when it was created. -/
  kind : Option OpKind
  loc : Location
  operands : List SlotId := []
  /-- The operand segments and their lengths; empty if the kind declares none. -/
  segments : List (String × Nat) := []
  results : List ValueId := []
  attrs : AttrDict := {}
  regions : List (List BlockId) := []
  /-- The block that holds the operation, `none` while it is detached. -/
  block : Option BlockId := none
  erased : Bool := false
  deriving Inhabited

/-- The four tables of a program. An identifier is a position in its table. -/
structure Graph where
  ops : Array Op := #[]
  blocks : Array Block := #[]
  values : Array Value := #[]
  slots : Array Slot := #[]
  deriving Inhabited

/-- How an operation is called in messages: its kind and its number. -/
structure OpLabel where
  name : String
  id : Nat
  deriving DecidableEq, Repr, Inhabited

/-- `name#id`. -/
def OpLabel.text (l : OpLabel) : String := l.name ++ "#" ++ toString l.id

/-- The label of an operation that may be missing. -/
def labelText : Option OpLabel → String
  | some l => l.text
  | none => "<nil>"

namespace Graph

/-! ## Reading and changing rows -/

/-- The row of operation `i`, the default one if there is none. -/
def op (g : Graph) (i : OpId) : Op := g.ops.getD i.index default
/-- The row of block `b`, the default one if there is none. -/
def block (g : Graph) (b : BlockId) : Block := g.blocks.getD b.index default
/-- The row of value `v`, the default one if there is none. -/
def value (g : Graph) (v : ValueId) : Value := g.values.getD v.index default
/-- The row of slot `s`, the default one if there is none. -/
def slot (g : Graph) (s : SlotId) : Slot := g.slots.getD s.index default

/-- Changes the row of operation `i` by `f`. -/
def modifyOp (g : Graph) (i : OpId) (f : Op → Op) : Graph :=
  { g with ops := g.ops.modify i.index f }

/-- Changes the row of block `b` by `f`. -/
def modifyBlock (g : Graph) (b : BlockId) (f : Block → Block) : Graph :=
  { g with blocks := g.blocks.modify b.index f }

/-- Changes the row of value `v` by `f`. -/
def modifyValue (g : Graph) (v : ValueId) (f : Value → Value) : Graph :=
  { g with values := g.values.modify v.index f }

/-- Changes the row of slot `s` by `f`. -/
def modifySlot (g : Graph) (s : SlotId) (f : Slot → Slot) : Graph :=
  { g with slots := g.slots.modify s.index f }

/-! ## Adding rows -/

/-- The number that the next operation gets. -/
def nextOp (g : Graph) : OpId := ⟨g.ops.size⟩

/-- Adds a row for the operation `nextOp`. -/
def pushOp (g : Graph) (o : Op) : Graph := { g with ops := g.ops.push o }

/-- Adds a row for a value, and gives its position. -/
def pushValue (g : Graph) (v : Value) : Graph × ValueId :=
  ({ g with values := g.values.push v }, ⟨g.values.size⟩)

/-- Adds a row for a slot, and gives its position. -/
def pushSlot (g : Graph) (s : Slot) : Graph × SlotId :=
  ({ g with slots := g.slots.push s }, ⟨g.slots.size⟩)

/-- Adds a row for a block, and gives its position. -/
def pushBlock (g : Graph) (b : Block) : Graph × BlockId :=
  ({ g with blocks := g.blocks.push b }, ⟨g.blocks.size⟩)

/-- Leaves one operation number unused. -/
def skipOp (g : Graph) : Graph :=
  g.pushOp { name := "", kind := none, loc := {} }

/-! ## Views -/

/-- How operation `i` is called in messages. -/
def label (g : Graph) (i : OpId) : OpLabel := ⟨(g.op i).name, i.index⟩

/-- The operation that a value is a result of. -/
def definingOp (g : Graph) (v : ValueId) : Option OpId :=
  match (g.value v).source with
  | .result i _ => some i
  | .argument _ _ => none

/-- The block that a value is an argument of. -/
def ownerBlock (g : Graph) (v : ValueId) : Option BlockId :=
  match (g.value v).source with
  | .result _ _ => none
  | .argument b _ => some b

/-- Whether a value is a block argument. -/
def isArgument (g : Graph) (v : ValueId) : Bool := (g.ownerBlock v).isSome

/-- The values that an operation reads, slot by slot. -/
def operands (g : Graph) (i : OpId) : List (Option ValueId) :=
  (g.op i).operands.map fun s => (g.slot s).value

/-- The type of a value. -/
def typeOf (g : Graph) (v : ValueId) : Option Ty := (g.value v).ty

/-- The types of the results of operation `i`. -/
def resultTypes (g : Graph) (i : OpId) : List (Option Ty) := (g.op i).results.map g.typeOf

/-- Whether some slot reads the value. -/
def hasUses (g : Graph) (v : ValueId) : Bool := !(g.value v).uses.isEmpty

/-- The operations that read a value, in the order of their first use. -/
def users (g : Graph) (v : ValueId) : List OpId :=
  ((g.value v).uses.map fun s => (g.slot s).owner).eraseDups

/-- The operations that read a result of an operation, in the order of their first use. -/
def opUsers (g : Graph) (i : OpId) : List OpId :=
  ((g.op i).results.flatMap g.users).eraseDups

end Graph

end Multistage
