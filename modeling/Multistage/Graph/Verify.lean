import Multistage.Graph.Nesting

/-!
# Verification

The structural rules of a well-formed graph, checked operation by operation: slots and use lists
agree, nothing reads a value of an erased or detached operation, values are defined before they
are used, and blocks end as their region's kind asks. `Graph.verify` reports the first flaw in the
order in which operations are visited, innermost first.
-/

namespace Multistage

/-- A breach of a structural rule. -/
inductive Flaw where
  | erased (op : OpLabel)
  | staleSlot (op : OpLabel) (operand : Nat)
  | nullOperand (op : OpLabel) (operand : Nat)
  | unlistedUse (op : OpLabel) (operand : Nat)
  | detachedBlock (op : OpLabel) (operand : Nat)
  | definedByErased (op : OpLabel) (operand : Nat) (definition : OpLabel)
  | definedByDetached (op : OpLabel) (operand : Nat) (definition : OpLabel)
  | usedBeforeDefinition (op : OpLabel) (operand : Nat) (definition : OpLabel)
  | foreignUse (op : OpLabel) (result : Nat)
  | usedByErased (op : OpLabel) (result : Nat) (user : OpLabel)
  | detachedUse (op : OpLabel) (result : Nat) (user : OpLabel)
  | misplacedBlock (op : OpLabel) (region block : Nat)
  | misplacedOp (op child : OpLabel)
  | missingTerminator (op : OpLabel) (region block : Nat) (kind : String)
  deriving DecidableEq, Repr

/-- What `verify` reports for a flaw. -/
def Flaw.message : Flaw → String
  | erased op => op.text ++ ": op is erased"
  | staleSlot op k => op.text ++ ": operand " ++ toString k ++ " has stale owner or index"
  | nullOperand op k => op.text ++ ": operand " ++ toString k ++ " is null"
  | unlistedUse op k =>
    op.text ++ ": operand " ++ toString k ++ " missing from its value's use list"
  | detachedBlock op k =>
    op.text ++ ": operand " ++ toString k ++ " is an argument of a detached block"
  | definedByErased op k d =>
    op.text ++ ": operand " ++ toString k ++ " defined by erased op " ++ d.text
  | definedByDetached op k d =>
    op.text ++ ": operand " ++ toString k ++ " defined by detached op " ++ d.text
  | usedBeforeDefinition op k d =>
    op.text ++ ": operand " ++ toString k ++ " uses " ++ d.text ++ " before its definition"
  | foreignUse op r => op.text ++ ": result " ++ toString r ++ " use list holds a foreign operand"
  | usedByErased op r user =>
    op.text ++ ": result " ++ toString r ++ " used by erased op " ++ user.text
  | detachedUse op r user =>
    op.text ++ ": result " ++ toString r ++ " use list holds a detached operand of " ++ user.text
  | misplacedBlock op r b =>
    op.text ++ ": region " ++ toString r ++ " block " ++ toString b ++ " has wrong parent"
  | misplacedOp op child => op.text ++ ": nested " ++ child.text ++ " has wrong parent block"
  | missingTerminator op r b kind =>
    op.text ++ ": region " ++ toString r ++ " block " ++ toString b ++ " does not end with " ++ kind

namespace Graph

/-- The first flaw of a list of entries, each checked with its position. -/
def firstFlaw {α : Type} (xs : List α) (check : Nat → α → Option Flaw) : Option Flaw :=
  xs.zipIdx.findSome? fun (x, k) => check k x

/-- Checks that operand `k` of `user` may read a value: its block is in place, or its operation is
in place and comes before the operation around `user` that lies in the same block. -/
def definitionFlaw (g : Graph) (user : OpId) (k : Nat) (v : ValueId) : Option Flaw :=
  match (g.value v).source with
  | .argument b _ =>
    if (g.block b).home.isNone then some (.detachedBlock (g.label user) k) else none
  | .result d _ =>
    if (g.op d).erased then some (.definedByErased (g.label user) k (g.label d))
    else
      match (g.op d).block with
      | none => some (.definedByDetached (g.label user) k (g.label d))
      | some b =>
        match (g.ancestors user).find? fun a => (g.op a).block == some b with
        | none => none
        | some a =>
          if a = d ∨ !g.isBefore d a then
            some (.usedBeforeDefinition (g.label user) k (g.label d))
          else none

/-- Checks operand `k` of an operation. -/
def operandFlaw (g : Graph) (i : OpId) (k : Nat) (s : SlotId) : Option Flaw :=
  let slot := g.slot s
  if slot.owner ≠ i ∨ slot.index ≠ k then some (.staleSlot (g.label i) k)
  else
    match slot.value with
    | none => some (.nullOperand (g.label i) k)
    | some v =>
      if !(g.value v).uses.contains s then some (.unlistedUse (g.label i) k)
      else g.definitionFlaw i k v

/-- Checks one entry of the use list of result `r` of an operation. -/
def useFlaw (g : Graph) (i : OpId) (v : ValueId) (s : SlotId) : Option Flaw :=
  let slot := g.slot s
  let r := (g.value v).source.index
  if slot.value ≠ some v then some (.foreignUse (g.label i) r)
  else if (g.op slot.owner).erased then some (.usedByErased (g.label i) r (g.label slot.owner))
  else if (g.op slot.owner).operands[slot.index]? ≠ some s then
    some (.detachedUse (g.label i) r (g.label slot.owner))
  else none

/-- Checks block `k` of region `r` of an operation. -/
def blockFlaw (g : Graph) (i : OpId) (r k : Nat) (b : BlockId) : Option Flaw :=
  let block := g.block b
  if block.home ≠ some ⟨i, r⟩ then some (.misplacedBlock (g.label i) r k)
  else
    match block.ops.find? fun c => (g.op c).block != some b with
    | some c => some (.misplacedOp (g.label i) (g.label c))
    | none =>
      match (g.op i).kind.bind (·.terminator) with
      | none => none
      | some kind =>
        match block.ops.getLast? with
        | some last =>
          if (g.op last).name = kind then none else some (.missingTerminator (g.label i) r k kind)
        | none => some (.missingTerminator (g.label i) r k kind)

/-- The first flaw of one operation: its operands, then the uses of its results, then its blocks. -/
def opFlaw (g : Graph) (i : OpId) : Option Flaw :=
  let op := g.op i
  if op.erased then some (.erased (g.label i))
  else
    (firstFlaw op.operands (g.operandFlaw i)).or <|
    (op.results.findSome? fun v => (g.value v).uses.findSome? (g.useFlaw i v)).or <|
    firstFlaw op.regions fun r blocks => firstFlaw blocks (g.blockFlaw i r)

/-- The first flaw of an operation and all that lies inside it, if there is one. -/
def verify (g : Graph) (root : OpId) : Option Flaw :=
  (g.postorder root).findSome? g.opFlaw

end Graph

end Multistage
