import RelaxNg.Schema
import RelaxNg.Validation.ContentTracker
import RelaxNg.Validation.IdentityTracker

/-!
# Validators of a schema

A schema validates documents by tracking their content and their identities, as far as it has a content model and
identity types. It can also validate identities alone; the content is then left aside.
-/

namespace RelaxNg

structure SchemaValidation where
  context : Context
  content : Option ContentTracker
  identities : Option IdentityTracker

namespace SchemaValidation

abbrev Step := Attempt SchemaValidation Unit

def new (schema : Schema) (receiver : Receiver) (source : Option String) : SchemaValidation :=
  { context := .new receiver schema.options.limits source
    content := schema.contentModel.map fun model => { model }
    -- Without identity types no value is an identity.
    identities := if schema.identities.isEmpty then none else some { types := schema.identities } }

/-- The validation of identities alone before the first event. -/
def newForIdentities (schema : Schema) (receiver : Receiver) (source : Option String) : SchemaValidation :=
  { context := .new receiver schema.options.limits source
    content := none
    identities := some { types := schema.identities } }

def onContext (step : Attempt Context Unit) : Step :=
  Attempt.onPart SchemaValidation.context (fun context s => { s with context }) step

def onContent (step : ContentTracker.Tracking) : Step :=
  ExceptT.mk fun s =>
    match s.content with
    | none => (.ok (), s)
    | some content =>
      let (answer, context, content) := step.runFrom (s.context, content)
      (answer, { s with context, content := some content })

def onIdentities (step : IdentityTracker.Tracking) : Step :=
  ExceptT.mk fun s =>
    match s.identities with
    | none => (.ok (), s)
    | some identities =>
      let (answer, context, identities) := step.runFrom (s.context, identities)
      (answer, { s with context, identities := some identities })

def handle : Event → Step
  | .startElement name _ attributes => do
    onContext (Context.enter attributes.length)
    onContent (ContentTracker.startElement name attributes)
    onIdentities (IdentityTracker.startElement name attributes)
  | .endElement _ _ => do
    modify fun s => { s with context := s.context.leave, content := s.content.map ContentTracker.endElement }
    onIdentities IdentityTracker.endElement
  | .text content => do
    onContent (ContentTracker.text content)
    modify fun s => { s with identities := s.identities.map (IdentityTracker.text content) }
  | .endDocument => onIdentities IdentityTracker.endDocument
  | .startDocument | .declare _ _ | .undeclare _ | .space _ | .entity _ => pure ()

def reset (s : SchemaValidation) : SchemaValidation :=
  { context := s.context.reset
    content := s.content.map ContentTracker.reset
    identities := s.identities.map IdentityTracker.reset }

end SchemaValidation

def schemaValidator : Validator SchemaValidation where
  locate location s := { s with context := s.context.locate location }
  handle := SchemaValidation.handle
  reset := SchemaValidation.reset
  hadError s := s.context.hadError

end RelaxNg
