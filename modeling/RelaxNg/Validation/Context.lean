import RelaxNg.Limits
import RelaxNg.Reports

/-!
# Context of a validation

Every validation knows its reports, the location of the current event, how many elements are open and the limits on
documents. Locations that name no source get the one of the document.
-/

namespace RelaxNg

structure Context where
  reports : Reports
  /-- Where the current event stands. -/
  location : Option Location := none
  level : Nat := 0
  limits : Limits := {}
  source : Option String := none

namespace Context

def new (receiver : Receiver) (limits : Limits) (source : Option String) : Context :=
  { reports := .new receiver, limits, source }

def locate (location : Option Location) (c : Context) : Context :=
  { c with location := location.map fun loc => { loc with source := loc.source.or c.source } }

def hadError (c : Context) : Bool := c.reports.hadError

/-- The context as before the first event of a document; the issued diagnostics stay. -/
def reset (c : Context) : Context := { c with reports := c.reports.reset, location := none, level := 0 }

def issue (d : Diagnostic) : Attempt Context Unit :=
  Attempt.onPart Context.reports (fun reports c => { c with reports }) (Reports.issue d)

def errorAt (message : String) (location : Option Location) : Attempt Context Unit := issue ⟨.error, message, location⟩

def warningAt (message : String) (location : Option Location) : Attempt Context Unit :=
  issue ⟨.warning, message, location⟩

/-- Issues an error where the current event stands. -/
def error (message : String) : Attempt Context Unit := do errorAt message (← get).location

def fatal (message : String) : Attempt Context Unit := do issue ⟨.fatal, message, (← get).location⟩

/-- Enters an element with a number of attributes. What passes a limit is a fatal error, and fails also if the receiver
goes on. -/
def enter (attributes : Nat) : Attempt Context Unit := do
  -- The level stays as it is if a limit is passed.
  modify fun c => { c with level := c.level + 1 }
  let c ← get
  match c.limits.check .xmlDepth c.level *> c.limits.check .attributes attributes with
  | .ok () => pure ()
  | .error e =>
    fatal e.message
    throw e

def leave (c : Context) : Context := { c with level := c.level - 1 }

end Context

end RelaxNg
