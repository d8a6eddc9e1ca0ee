import RelaxNg.Location

/-!
# Diagnostics

What validation has to say about a document: a message with a severity and, where it is known, a location. Errors and
fatal errors make a document invalid, warnings do not.
-/

namespace RelaxNg

inductive Severity where
  /-- Worth knowing; validity is not touched. -/
  | warning
  /-- The document is invalid, and validation goes on. -/
  | error
  /-- The document is invalid, and validation cannot go on. -/
  | fatal
deriving DecidableEq, Hashable, Inhabited

def Severity.render : Severity → String
  | .warning => "warning"
  | .error => "error"
  | .fatal => "fatal"

structure Diagnostic where
  severity : Severity
  message : String
  location : Option Location
deriving DecidableEq, Hashable, Inhabited

namespace Diagnostic

/-- Whether the diagnostic makes the document invalid. -/
def isError (d : Diagnostic) : Bool := d.severity != .warning

/-- The written form: the location if there is one, the severity and the message. -/
def render (d : Diagnostic) : String :=
  let place := match d.location with
    | some loc => loc.render ++ ": "
    | none => ""
  place ++ d.severity.render ++ ": " ++ d.message

end Diagnostic

end RelaxNg
