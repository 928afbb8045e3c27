import Multistage.Graph.Uses

/-!
# New operations, blocks and arguments
-/

namespace Multistage

/-- Everything that a new operation is made from. -/
structure OpSpec where
  name : String
  loc : Location := {}
  /-- The operands of a kind without segments. -/
  operands : List (Option ValueId) := []
  /-- The operands of a kind with segments, one list a segment. Missing values are left out, and
  segments missing at the end are empty. -/
  segments : List (List (Option ValueId)) := []
  results : List (Option Ty) := []
  attrs : AttrDict := {}
  /-- Number of regions, if it is more than the kind asks for. -/
  regions : Int := 0

namespace OpSpec

/-- The segments that a kind declares, with their lengths. -/
def segmentSizes (spec : OpSpec) (declared : List String) : List (String × Nat) :=
  declared.zipIdx.map fun (name, k) =>
    (name, ((spec.segments[k]?.getD []).filterMap id).length)

/-- The values that the operand slots hold at first. -/
def slotValues (spec : OpSpec) (declared : List String) : List (Option ValueId) :=
  if declared.isEmpty then spec.operands
  else (spec.segments.flatMap (·.filterMap id)).map some

end OpSpec

namespace Graph

/-- Adds values of these types that `source` numbers, from `start` on. -/
def addValues (g : Graph) (source : Nat → Source) (start : Nat) :
    List (Option Ty) → Graph × List ValueId
  | [] => (g, [])
  | ty :: rest =>
    let (g, v) := g.pushValue { ty, source := source start, uses := [] }
    let (g, vs) := addValues g source (start + 1) rest
    (g, v :: vs)

/-- Adds a detached operation. The specification has at most as many segments as the kind. -/
def addOp (g : Graph) (kind : Option OpKind) (spec : OpSpec) : Graph × OpId :=
  let i := g.nextOp
  let declared := (kind.map (·.segments)).getD []
  let least := (kind.map (·.regions)).getD 0
  let g := g.pushOp
    { name := spec.name, kind, loc := spec.loc, attrs := spec.attrs
      segments := spec.segmentSizes declared
      regions := List.replicate (max spec.regions least).toNat [] }
  let (g, operands) := g.addSlots i 0 (spec.slotValues declared)
  let (g, results) := g.addValues (.result i) 0 spec.results
  (g.modifyOp i fun o => { o with operands, results }, i)

/-- Adds an empty block at the end of a region. -/
def addBlock (g : Graph) (r : RegionId) : Graph × BlockId :=
  let (g, b) := g.pushBlock { home := some r }
  (g.modifyOp r.op fun o => { o with regions := o.regions.modify r.index (· ++ [b]) }, b)

/-- Adds an argument at the end of a block. -/
def addArgument (g : Graph) (b : BlockId) (ty : Option Ty) : Graph × ValueId :=
  let (g, v) := g.pushValue
    { ty, source := .argument b (g.block b).args.length, uses := [] }
  (g.modifyBlock b fun x => { x with args := x.args ++ [v] }, v)

/-- Adds several arguments at the end of a block. -/
def addArguments (g : Graph) (b : BlockId) : List (Option Ty) → Graph × List ValueId
  | [] => (g, [])
  | ty :: rest =>
    let (g, v) := g.addArgument b ty
    let (g, vs) := addArguments g b rest
    (g, v :: vs)

/-- The first block of a region. -/
def frontBlock? (g : Graph) (i : OpId) (region : Nat) : Option (Option BlockId) :=
  ((g.op i).regions[region]?).map (·.head?)

end Graph

end Multistage
