import Multistage.Assoc

/-!
# Predication strategies

How an operation of some kind is made to act only when a predicate holds.
-/

namespace Multistage

/-- What a strategy does with the predicate. -/
inductive StrategyKind where
  /-- Kinds that cannot be predicated. -/
  | unsupported
  /-- Kinds that may run in every stage. -/
  | exempt
  /-- Region kinds whose branch condition is combined with the predicate. -/
  | condition
  /-- Kinds with a mask operand that is combined with the predicate. -/
  | mask
  /-- Kinds that only order later accesses after a token. -/
  | tokenConsume
  /-- Kinds without a mask operand, which are wrapped in a conditional. -/
  | branch
  /-- A kind with a number outside the known ones; it cannot be predicated. -/
  | other (code : Int)
  deriving DecidableEq, Repr, Inhabited

namespace StrategyKind

/-- The kind with this number. -/
def ofCode (code : Int) : StrategyKind :=
  if code = 0 then unsupported
  else if code = 1 then exempt
  else if code = 2 then condition
  else if code = 3 then mask
  else if code = 4 then tokenConsume
  else if code = 5 then branch
  else other code

/-- The name of a kind of strategy, as rejections write it. -/
def text : StrategyKind → String
  | unsupported => "Unsupported"
  | exempt => "Exempt"
  | condition => "Condition"
  | mask => "Mask"
  | tokenConsume => "TokenConsume"
  | branch => "Branch"
  | other code => "StrategyKind(" ++ toString code ++ ")"

/-- Whether operations are predicated through one of their operand segments. -/
def usesSegment (k : StrategyKind) : Bool :=
  k == mask || k == condition

end StrategyKind

/-- How operations of one kind are predicated. -/
structure Strategy where
  kind : StrategyKind := .unsupported
  /-- The operand segment with the mask or the condition. -/
  segment : String := ""
  /-- The operand segment whose type the mask has to fit; the mask segment itself if empty. -/
  ref : String := ""
  deriving DecidableEq, Repr, Inhabited

/-- The strategies of the kinds that have one. -/
structure StrategyTable where
  entries : List (String × Strategy) := []
  deriving Repr, Inhabited

namespace StrategyTable

/-- The strategy that `t` has for a kind. -/
def find? (t : StrategyTable) (name : String) : Option Strategy :=
  t.entries.lookup name

/-- The strategy of a kind; kinds without one are unsupported. -/
def get (t : StrategyTable) (name : String) : Strategy :=
  (t.find? name).getD {}

/-- Adds a strategy for the kind `name`, behind those that are there. -/
def insert (t : StrategyTable) (name : String) (s : Strategy) : StrategyTable :=
  { entries := t.entries ++ [(name, s)] }

/-- A strategy that is put in counts only for a kind that has none. -/
theorem find?_insert (t : StrategyTable) (name other : String) (s : Strategy) :
    (t.insert name s).find? other = (t.find? other).or (if other = name then some s else none) := by
  rw [find?, insert, find?, List.lookup_append, Assoc.lookup_cons]
  rfl

end StrategyTable

end Multistage
