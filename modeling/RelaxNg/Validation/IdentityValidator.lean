import RelaxNg.Validation.IdentityTracker

/-!
# Validators of identities

Identities can be validated alone, by the identity types of a grammar and limits. No schema is needed then, and what
the content of an element is does not matter.
-/

namespace RelaxNg

structure IdentityValidation where
  context : Context
  tracker : IdentityTracker

namespace IdentityValidation

abbrev Step := Attempt IdentityValidation Unit

def new (types : IdentityMap) (limits : Limits) (receiver : Receiver) (source : Option String) : IdentityValidation :=
  { context := .new receiver limits source, tracker := { types } }

def onContext (step : Attempt Context Unit) : Step :=
  Attempt.onPart IdentityValidation.context (fun context s => { s with context }) step

def onTracker (step : IdentityTracker.Tracking) : Step :=
  Attempt.onPart (fun s => (s.context, s.tracker)) (fun (context, tracker) _ => { context, tracker }) step

def handle : Event → Step
  | .startElement name _ attributes => do
    onContext (Context.enter attributes.length)
    onTracker (IdentityTracker.startElement name attributes)
  | .endElement _ _ => do
    modify fun s => { s with context := s.context.leave }
    onTracker IdentityTracker.endElement
  | .text content => modify fun s => { s with tracker := s.tracker.text content }
  | .endDocument => onTracker IdentityTracker.endDocument
  | .startDocument | .declare _ _ | .undeclare _ | .space _ | .entity _ => pure ()

def reset (s : IdentityValidation) : IdentityValidation := { context := s.context.reset, tracker := s.tracker.reset }

end IdentityValidation

def identityValidator : Validator IdentityValidation where
  locate location s := { s with context := s.context.locate location }
  handle := IdentityValidation.handle
  reset := IdentityValidation.reset
  hadError s := s.context.hadError

end RelaxNg
