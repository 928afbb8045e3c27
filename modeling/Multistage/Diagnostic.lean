import Multistage.Graph.Basic

/-!
# Diagnostics and log lines

A diagnostic is a message about an operation. It is collected, written to the log or dropped,
depending on the channel. Its text shows where the operation is at the time the text is made.
-/

namespace Multistage

/-- How grave a diagnostic is. -/
inductive Severity where
  | remark
  | warning
  | error
  /-- A severity with a number outside the known ones. -/
  | other (code : Int)
  deriving DecidableEq, Repr, Inhabited

namespace Severity

/-- The severity with this number. -/
def ofCode (code : Int) : Severity :=
  if code = 0 then remark
  else if code = 1 then warning
  else if code = 2 then error
  else other code

/-- The name of a severity, as `Diagnostic.text` writes it. -/
def text : Severity → String
  | remark => "remark"
  | warning => "warning"
  | error => "error"
  | other code => "Severity(" ++ toString code ++ ")"

end Severity

/-- A message about an operation, or about none. -/
structure Diagnostic where
  severity : Severity
  op : Option OpId
  message : String
  deriving DecidableEq, Repr, Inhabited

/-- `location: severity: message`. -/
def Diagnostic.text (d : Diagnostic) (g : Graph) : String :=
  let loc := match d.op with
    | some i => (g.op i).loc.text
    | none => "unknown"
  loc ++ ": " ++ d.severity.text ++ ": " ++ d.message

/-- Where diagnostics go. -/
inductive Channel where
  | collect
  | log
  | drop
  deriving DecidableEq, Repr, Inhabited

/-- The level of a line of the log. -/
inductive LogLevel where
  | info
  | warning
  | error
  deriving DecidableEq, Repr, Inhabited

/-- The name of a level, as the log writes it. -/
def LogLevel.text : LogLevel → String
  | info => "INFO"
  | warning => "WARNING"
  | error => "ERROR"

/-- A line of the log. -/
structure LogLine where
  level : LogLevel
  text : String
  deriving DecidableEq, Repr, Inhabited

/-- The level at which a diagnostic is logged. -/
def Severity.logLevel : Severity → LogLevel
  | error => .error
  | warning => .warning
  | _ => .info

end Multistage
