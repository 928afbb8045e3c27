/-!
# Source locations
-/

namespace Multistage

/-- A place in a source file, used when something is reported about an operation. -/
structure Location where
  file : String := ""
  line : Int := 0
  col : Int := 0
  deriving DecidableEq, Repr, Inhabited

/-- `file:line:col`, or `unknown` without a file. -/
def Location.text (l : Location) : String :=
  if l.file = "" then "unknown" else l.file ++ ":" ++ toString l.line ++ ":" ++ toString l.col

end Multistage
