import RelaxNg.Attempt
import RelaxNg.QName
import RelaxNg.Xml.Entity

/-!
# Events

A document reaches validation as a sequence of events. A validator is a state with its answers to the events: it may
fail at an event, and it goes on from the state which it left then. Where the next event stands is told apart from the
events, and a reset makes a validator ready for another document.
-/

namespace RelaxNg

structure Attribute where
  name : QName
  written : String
  value : String
deriving DecidableEq, Inhabited

inductive Event where
  | startDocument
  | endDocument
  /-- A label is declared for the next element and what it holds. -/
  | declare (label ns : String)
  | undeclare (label : String)
  | startElement (name : QName) (written : String) (attributes : List Attribute)
  | endElement (name : QName) (written : String)
  | text (content : String)
  /-- White space between elements. -/
  | space (content : String)
  | entity (entity : Xml.UnparsedEntity)
deriving DecidableEq, Inhabited

/-- How events change a state. -/
structure Validator (σ : Type) where
  /-- Tells where the next event stands. -/
  locate : Option Location → σ → σ
  handle : Event → Attempt σ Unit
  /-- Makes ready for another document. -/
  reset : σ → σ
  /-- Whether an error was reported since the last reset. -/
  hadError : σ → Bool

end RelaxNg
