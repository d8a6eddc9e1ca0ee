import RelaxNg.Validation.Context
import RelaxNg.Validation.Event
import RelaxNg.Xsd.Session

/-!
# Validation by an XML Schema engine

The validation keeps for a session what it has to know: it opens a scope for each element, puts the declarations told
before the element into it, closes it when the element ends, and collects the declared entities. Limits are checked
before the session hears of an element.
-/

namespace RelaxNg.Xsd

structure Validation (σ : Type) where
  context : Context
  scopes : Xml.Scopes := .empty
  /-- Whether a scope is open for the element that is to begin. -/
  scopeOpened : Bool := false
  entities : List String := []
  session : σ

namespace Validation

variable {σ : Type}

abbrev Step (σ α : Type) := Attempt (Validation σ) α

def new (engine : Engine σ) (receiver : Receiver) (limits : Limits) (source : Option String) : Validation σ :=
  { context := .new receiver limits source, session := engine.start {} }

def onContext (step : Attempt Context Unit) : Step σ Unit :=
  Attempt.onPart Validation.context (fun context s => { s with context }) step

def environment (s : Validation σ) : Environment := ⟨s.scopes, s.entities, s.context.location⟩

def tell (engine : Engine σ) (call : Call) : Step σ Unit :=
  ExceptT.mk fun s =>
    let (answer, session, reports) := ((engine.answer call s.environment s.session).hold s.context.reports)
    (answer, { s with session, context := { s.context with reports } })

/-- Opens the scope of an element, unless it is open. -/
def openScope (s : Validation σ) : Validation σ :=
  if s.scopeOpened then s else { s with scopes := s.scopes.push, scopeOpened := true }

def handle (engine : Engine σ) : Event → Step σ Unit
  | .startDocument => tell engine .startDocument
  | .endDocument => tell engine .endDocument
  | .declare label ns => modify fun s =>
    let s := s.openScope
    { s with scopes := s.scopes.declare label ns }
  | .undeclare _ => pure ()
  | .startElement name written attributes => do
    onContext (Context.enter attributes.length)
    modify fun s => { s.openScope with scopeOpened := false }
    let scopes := (← get).scopes
    tell engine (.startElement (.of name written scopes)
      (attributes.map fun a => (.of a.name a.written scopes, a.value)))
  | .endElement name written => do
    modify fun s => { s with context := s.context.leave }
    let scopes := (← get).scopes
    -- The scope is closed whatever the session answers.
    ExceptT.mk fun s =>
      let (answer, s) := (tell engine (.endElement (.of name written scopes))).runFrom s
      (answer, { s with scopes := s.scopes.pop })
  | .text content => tell engine (.text content)
  | .space content => tell engine (.space content)
  | .entity entity => modify fun s =>
    if s.entities.contains entity.name then s else { s with entities := s.entities ++ [entity.name] }

def reset (engine : Engine σ) (s : Validation σ) : Validation σ :=
  { context := s.context.reset, session := engine.reset s.session }

end Validation

def validator {σ : Type} (engine : Engine σ) : Validator (Validation σ) where
  locate location s := { s with context := s.context.locate location }
  handle := Validation.handle engine
  reset := Validation.reset engine
  hadError s := s.context.hadError

end RelaxNg.Xsd
