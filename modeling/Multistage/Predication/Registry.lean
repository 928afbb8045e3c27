import Multistage.Context

/-!
# Registering strategies
-/

namespace Multistage

/-- The first of the segments that a strategy names and a kind does not declare. -/
def Strategy.unknownSegment? (s : Strategy) (k : OpKind) : Option String :=
  [s.segment, s.ref].find? fun seg => seg != "" && !k.segments.contains seg

/-- Why a strategy does not fit the kind of this name, if it does not: a strategy that works on a
segment needs a known kind that declares it. -/
def Strategy.misfit? (s : Strategy) (catalog : Catalog) (name : String) : Option Rejection :=
  if s.kind.usesSegment then
    match catalog.find? name with
    | none => some (.strategyForUnknownKind name s.kind)
    | some k =>
      match s.unknownSegment? k with
      | some seg => some (.strategyForUnknownSegment name seg)
      | none => if s.segment = "" then some (.strategyWithoutSegment name s.kind) else none
  else none

namespace BuildM

/-- Gives a strategy to a kind that has none. -/
def registerStrategy (name : String) (s : Strategy) : BuildM Unit := do
  if s.kind = .unsupported then
    reject (.notAStrategy name)
  if let some r := s.misfit? (← get).catalog name then
    reject r
  if let some old := (← get).strategies.find? name then
    reject (.strategyTaken name old.kind)
  modify fun c => { c with strategies := c.strategies.insert name s }

end BuildM

end Multistage
