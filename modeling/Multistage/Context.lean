import Multistage.Diagnostic
import Multistage.Failure
import Multistage.Predication.Builtin

/-!
# The building context

Everything that building and changing a program works on: the graph, the cursor where new
operations go, the known kinds and strategies, and what has been reported. `BuildM` is the monad of
such work. Work that fails leaves the context as far as it had come.
-/

namespace Multistage

/-- Where new operations go: a block and the operation that they are put before, its end if there
is none. `loc` is the location of operations that bring none. -/
structure Cursor where
  block : Option BlockId := none
  before : Option OpId := none
  loc : Location := {}
  deriving DecidableEq, Repr, Inhabited

/-- What building works on: the `graph`, the `cursor`, the `catalog` of kinds, the `strategies` of
predication, and what has been reported through `channel`. -/
structure Context where
  graph : Graph := {}
  cursor : Cursor := {}
  catalog : Catalog := .builtin
  strategies : StrategyTable := .builtin
  channel : Channel := .collect
  /-- The collected diagnostics, oldest first. -/
  diagnostics : List Diagnostic := []
  /-- The level up to which progress is logged. -/
  verbosity : Int := 0
  /-- The lines of the log, oldest first. -/
  log : List LogLine := []
  deriving Inhabited

/-- Work on a context that may fail. -/
abbrev BuildM := EStateM Failure Context

namespace BuildM

/-- The present graph. -/
def graph : BuildM Graph := do return (← get).graph

/-- The present cursor. -/
def cursor : BuildM Cursor := do return (← get).cursor

/-- Makes `c` the cursor. -/
def setCursor (c : Cursor) : BuildM Unit := modify fun s => { s with cursor := c }

/-- Changes the graph by `f`. -/
def modifyGraph (f : Graph → Graph) : BuildM Unit :=
  modify fun s => { s with graph := f s.graph }

/-- Changes the graph by a function that also gives an answer. -/
def updateGraph {α : Type} (f : Graph → Graph × α) : BuildM α :=
  modifyGet fun s => let (g, a) := f s.graph; (a, { s with graph := g })

/-- Changes the graph by a function that may fail. -/
def tryGraph (f : Graph → Except Failure Graph) : BuildM Unit := do
  match f (← graph) with
  | .ok g => modifyGraph fun _ => g
  | .error e => throw e

/-- Fails because something is not there. -/
def fault {α : Type} : BuildM α := throw .fault

/-- Fails by the misuse `m`. -/
def misuse {α : Type} (m : Misuse) : BuildM α := throw (.misuse m)

/-- Refuses by the rejection `r`. -/
def reject {α : Type} (r : Rejection) : BuildM α := throw (.rejected r)

/-- Something that has to be there. -/
def present {α : Type} : Option α → BuildM α
  | some a => pure a
  | none => fault

/-- Does the work and then `after`, whether the work succeeds or fails. -/
def ensuring {α : Type} (work : BuildM α) (after : Context → Context) : BuildM α := fun s =>
  match work s with
  | .ok a s => .ok a (after s)
  | .error e s => .error e (after s)

/-- Does the work with another cursor, and has the present one back afterwards. -/
def withCursor {α : Type} (c : Cursor) (work : BuildM α) : BuildM α := do
  let old ← cursor
  setCursor c
  ensuring work fun s => { s with cursor := old }

/-- Does the work, and has the insertion point back afterwards. -/
def keepingPoint {α : Type} (work : BuildM α) : BuildM α := do
  let old ← cursor
  ensuring work fun s =>
    { s with cursor := { s.cursor with block := old.block, before := old.before } }

/-- Does the work with another location for new operations, and has the present one back
afterwards. -/
def withLoc {α : Type} (loc : Location) (work : BuildM α) : BuildM α := do
  let old ← cursor
  setCursor { old with loc }
  ensuring work fun s => { s with cursor := { s.cursor with loc := old.loc } }

/-! ## Reports -/

/-- Adds a line to the log. -/
def writeLog (level : LogLevel) (text : String) : BuildM Unit :=
  modify fun s => { s with log := s.log ++ [⟨level, text⟩] }

/-- Logs progress, if the verbosity is at least `level`. -/
def trace (level : Int) (text : String) : BuildM Unit := do
  if level ≤ (← get).verbosity then writeLog .info text

/-- Reports something about an operation. -/
def emit (severity : Severity) (op : OpId) (message : String) : BuildM Unit := do
  let d : Diagnostic := { severity, op := some op, message }
  match (← get).channel with
  | .collect => modify fun s => { s with diagnostics := s.diagnostics ++ [d] }
  | .log => writeLog severity.logLevel (d.text (← graph))
  | .drop => pure ()

/-! ## The catalog -/

/-- Adds a kind to the catalog. -/
def registerKind (k : OpKind) : BuildM Unit := do
  match (← get).catalog.insert? k with
  | some catalog => modify fun s => { s with catalog }
  | none => misuse (.duplicateKind k.name)

end BuildM

end Multistage
