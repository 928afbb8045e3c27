import Multistage.Graph.Basic
import Multistage.Predication.Strategy
import Multistage.Ty.Printer

/-!
# Failures

Why an operation on the graph did not come to its end. A `Misuse` is a request that makes no sense
for the graph as it is, a `Rejection` is the refusal of a request that makes sense, and a `fault`
is a request that reaches for something that is not there: a missing value, a position outside a
list, a type of another shape. Whatever was done before the failure stays done.
-/

namespace Multistage

/-- A request that makes no sense for the graph as it is. Each names the operation, the kind or the
segment that it is about. -/
inductive Misuse where
  | tooManySegments (kind : String) (declared given : Nat)
  | noSegment (kind segment : String)
  | erasedTwice (op : OpLabel)
  | stillUsed (op : OpLabel) (result uses : Nat)
  | alreadyPlaced (op : OpLabel)
  | insertedErased (op : OpLabel)
  | detachedPoint (op : OpLabel)
  | noInsertionPoint (op : Option OpLabel)
  | lostInsertionPoint (op : OpLabel)
  | replacementCount (op : OpLabel) (results replacements : Nat)
  | duplicateKind (name : String)
  | transposeRank (rank : Nat) (order : List Int)
  deriving DecidableEq, Repr

/-- The message of a misuse. -/
def Misuse.message : Misuse → String
  | tooManySegments kind declared given =>
    "ir: " ++ kind ++ " takes " ++ toString declared ++ " operand segments, got " ++ toString given
  | noSegment kind segment => "ir: " ++ kind ++ " has no operand segment " ++ Text.quote segment
  | erasedTwice op => "ir: " ++ op.text ++ " erased twice"
  | stillUsed op result uses =>
    "ir: erasing " ++ op.text ++ " whose result " ++ toString result ++ " still has " ++
      toString uses ++ " uses"
  | alreadyPlaced op => "ir: inserting " ++ op.text ++ " which is already in a block"
  | insertedErased op => "ir: inserting erased op " ++ op.text
  | detachedPoint op => "ir: insertion point " ++ op.text ++ " is not in a block"
  | noInsertionPoint op => "ir: builder has no insertion point for " ++ labelText op
  | lostInsertionPoint op => "ir: insertion point " ++ op.text ++ " left its block"
  | replacementCount op results replacements =>
    "ir: replacing " ++ op.text ++ ": " ++ toString results ++ " results, " ++
      toString replacements ++ " replacements"
  | duplicateKind name => "ir: op " ++ Text.quote name ++ " registered twice"
  | transposeRank rank order =>
    "dialect: transposing rank " ++ toString rank ++ " buffer with order [" ++
      " ".intercalate (order.map toString) ++ "]"

/-- The refusal of a request that makes sense. -/
inductive Rejection where
  /-- There is no zero of the type. -/
  | noZero (ty : Option Ty)
  /-- An operation cannot be wrapped in a conditional, since a result has no zero. -/
  | noZeroToYield (op : OpLabel) (ty : Option Ty)
  | unsupportedOp (kind : String) (loc : Location)
  | noResult (op : OpLabel)
  | notTensor (op : OpLabel) (ty : Option Ty)
  | noDescriptor (op : OpLabel)
  | noBlockType (op : OpLabel) (ty : Option Ty)
  | latencyOutside (op root : Option OpLabel)
  | notAStrategy (name : String)
  | strategyForUnknownKind (name : String) (kind : StrategyKind)
  | strategyForUnknownSegment (name segment : String)
  | strategyWithoutSegment (name : String) (kind : StrategyKind)
  | strategyTaken (name : String) (kind : StrategyKind)

/-- The message of a rejection. -/
def Rejection.message : Rejection → String
  | noZero ty => "cannot materialize a zero of type " ++ tyText ty
  | noZeroToYield op ty =>
    "predicating " ++ op.text ++ ": cannot materialize a zero of type " ++ tyText ty
  | unsupportedOp kind loc =>
    "pipeliner doesn't know how to predicate this op: " ++ kind ++ " at " ++ loc.text
  | noResult op => op.text ++ " has no result to buffer"
  | notTensor op ty => op.text ++ ": result type " ++ tyText ty ++ " is not a tensor"
  | noDescriptor op => op.text ++ ": TMA load without a descriptor"
  | noBlockType op ty => op.text ++ ": descriptor type " ++ tyText ty ++ " has no block type"
  | latencyOutside op root =>
    "serializing latencies: " ++ labelText op ++ " is not in " ++ labelText root
  | notAStrategy name => "registering " ++ name ++ ": unsupported is not a strategy"
  | strategyForUnknownKind name kind =>
    "registering " ++ name ++ ": " ++ kind.text ++ " strategy needs a registered op"
  | strategyForUnknownSegment name segment =>
    "registering " ++ name ++ ": no operand segment " ++ Text.quote segment
  | strategyWithoutSegment name kind =>
    "registering " ++ name ++ ": " ++ kind.text ++ " strategy needs a segment"
  | strategyTaken name kind =>
    "registering " ++ name ++ ": already predicated with " ++ kind.text

/-- Why work on a context did not come to its end. -/
inductive Failure where
  | misuse (m : Misuse)
  | rejected (r : Rejection)
  | fault

end Multistage
