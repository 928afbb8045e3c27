import Multistage.Graph.Create

/-!
# Copies

A deep copy of an operation. A `Mapping` says what to read in place of a value; the copy of an
operand reads what the mapping says at that moment, and the results and block arguments of the
copied tree are entered into the mapping as the copies appear.
-/

namespace Multistage

/-- Replacements for values; a later entry counts before an earlier one. The absence of a value may
be replaced as well. -/
structure Mapping where
  entries : List (Option ValueId × Option ValueId) := []
  deriving Inhabited

namespace Mapping

/-- Records `new` for `v`. -/
def insert (m : Mapping) (v new : Option ValueId) : Mapping :=
  { entries := (v, new) :: m.entries }

/-- Whether a replacement is recorded. -/
def contains (m : Mapping) (v : Option ValueId) : Bool :=
  (m.entries.lookup v).isSome

/-- The replacement of a value, and the value itself if none is recorded. -/
def get (m : Mapping) (v : Option ValueId) : Option ValueId :=
  (m.entries.lookup v).getD v

theorem get_insert (m : Mapping) (v new w : Option ValueId) :
    (m.insert v new).get w = if w = v then new else m.get w := by
  simp only [get, insert, Assoc.lookup_cons]
  split <;> rfl

theorem contains_insert (m : Mapping) (v new w : Option ValueId) :
    (m.insert v new).contains w = (decide (w = v) || m.contains w) := by
  simp only [contains, insert, Assoc.lookup_cons]
  by_cases h : w = v
  · rw [if_pos h, decide_eq_true h, Bool.true_or, Option.isSome_some]
  · rw [if_neg h, decide_eq_false h, Bool.false_or]

/-- Records replacements pair by pair. -/
def insertAll (m : Mapping) (vs news : List ValueId) : Mapping :=
  (vs.zip news).foldl (fun m (v, new) => m.insert (some v) (some new)) m

end Mapping

namespace Graph

/-- A graph and the replacements that hold while it is copied. -/
abbrev CopyM := StateM (Graph × Mapping)

namespace CopyM

/-- The graph as far as it has been copied. -/
def graph : CopyM Graph := do return (← get).1

/-- Changes the graph. -/
def update {α : Type} (f : Graph → Graph × α) : CopyM α :=
  modifyGet fun (g, m) => let (g, a) := f g; (a, (g, m))

/-- Records replacements pair by pair. -/
def record (vs news : List ValueId) : CopyM Unit :=
  modify fun (g, m) => (g, m.insertAll vs news)

end CopyM

/-- Adds a detached copy of an operation without its regions; they are filled in later. -/
def copyHead (i : OpId) : CopyM OpId := do
  let (g, m) ← get
  let o := g.op i
  let new := g.nextOp
  let operands := (g.operands i).map m.get
  let types := g.resultTypes i
  let results ← CopyM.update fun g =>
    let g := g.pushOp
      { o with operands := [], results := [], block := none, erased := false,
               regions := o.regions.map fun _ => [] }
    let (g, operands) := g.addSlots new 0 operands
    let (g, results) := g.addValues (.result new) 0 types
    (g.modifyOp new fun o => { o with operands, results }, results)
  CopyM.record o.results results
  return new

/-- Adds an empty copy of a block to a region, with copies of the arguments. -/
def copyBlock (r : RegionId) (b : BlockId) : CopyM BlockId := do
  let g ← CopyM.graph
  let args := (g.block b).args
  let types := args.map g.typeOf
  let new ← CopyM.update (·.addBlock r)
  let news ← CopyM.update (·.addArguments new types)
  CopyM.record args news
  return new

/-- Puts a new operation at the end of a block. -/
def adopt (b : BlockId) (i : OpId) : CopyM Unit :=
  CopyM.update fun g =>
    let g := g.modifyBlock b fun x => { x with ops := x.ops ++ [i] }
    (g.modifyOp i fun o => { o with block := some b }, ())

/-- A detached copy of the tree of an operation down to depth `n`: its head, then for every region
first all blocks with their arguments and after that the operations in them. -/
def copyTree : Nat → OpId → CopyM OpId
  | 0, i => copyHead i
  | n + 1, i => do
    let new ← copyHead i
    let g ← CopyM.graph
    (g.op i).regions.zipIdx.forM fun (blocks, r) => do
      let news ← blocks.mapM (copyBlock ⟨new, r⟩)
      (blocks.zip news).forM fun (b, target) =>
        (g.block b).ops.forM fun child => do
          let copy ← copyTree n child
          adopt target copy
    return new

/-- A detached deep copy of an operation. -/
def clone (g : Graph) (i : OpId) (m : Mapping) : OpId × Graph × Mapping :=
  (copyTree g.ops.size i).run (g, m)

end Graph

end Multistage
