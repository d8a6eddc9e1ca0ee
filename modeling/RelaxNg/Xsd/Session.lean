import RelaxNg.Reports
import RelaxNg.Xsd.Name

/-!
# Sessions of an XML Schema engine

The rules of XML Schema are checked by an engine. It opens a session for a document, and the session is told of the
events with what an engine has to know: the declarations in force, the entities declared and where the event stands. A
session answers an event in a dialogue: it reports diagnostics one by one, hears the answer to each, and ends with its
own answer and its next state.
-/

namespace RelaxNg.Xsd

structure Config where
  /-- To add to the document what was found out about it. -/
  augmentInfoset : Bool := false
  /-- To check the schema itself fully. -/
  fullChecking : Bool := true
  /-- To check identities and references to them. -/
  identityChecking : Bool := true
  /-- To check identity constraints. -/
  constraintChecking : Bool := true
deriving DecidableEq, Inhabited

/-- What a session knows about an event. -/
structure Environment where
  scopes : Xml.Scopes
  /-- The names of the declared entities, all of them unparsed. -/
  entities : List String
  location : Option Location
deriving DecidableEq, Inhabited

namespace Environment

def isEntityDeclared (env : Environment) (name : String) : Bool := env.entities.contains name

def isEntityUnparsed (env : Environment) (name : String) : Bool := env.entities.contains name

end Environment

inductive Call where
  | startDocument
  | endDocument
  | startElement (name : Name) (attributes : List (Name × String))
  | endElement (name : Name)
  | text (content : String)
  /-- White space between elements. -/
  | space (content : String)
deriving DecidableEq, Inhabited

/-- A session's answer to a call. -/
inductive Dialogue (σ : Type) where
  /-- The answer, and the state that the session goes on from. -/
  | done (answer : Except Error Unit) (state : σ)
  /-- A diagnostic, and what follows the answer to it. -/
  | report (d : Diagnostic) (next : Except Error Unit → Dialogue σ)

/-- Holds a dialogue: the session's diagnostics are issued and answered. -/
def Dialogue.hold {σ : Type} : Dialogue σ → Reports → Except Error Unit × σ × Reports
  | done answer state, reports => (answer, state, reports)
  | report d next, reports =>
    let (answer, reports) := (Reports.issue d).runFrom reports
    (next answer).hold reports

/-- An engine whose sessions have states `σ`. -/
structure Engine (σ : Type) where
  start : Config → σ
  answer : Call → Environment → σ → Dialogue σ
  reset : σ → σ

end RelaxNg.Xsd
