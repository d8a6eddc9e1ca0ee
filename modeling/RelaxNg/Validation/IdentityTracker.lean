import RelaxNg.Grammar.Identity
import RelaxNg.Validation.Context
import RelaxNg.Validation.Event
import RelaxNg.Xml.Name

/-!
# Tracking identities

An identity tracker checks the values that the identity types of a grammar apply to. An identity is declared once in a
document, and every reference names one that is declared, before or after. The value of an element is the text directly
in it, and is checked when the element ends.
-/

namespace RelaxNg

/-- The value of an open element as far as it is read. -/
structure OpenValue where
  type : IdentityType
  text : String
  location : Option Location
deriving DecidableEq, Inhabited

structure IdentityTracker where
  types : IdentityMap
  /-- The declared identities and where each was declared first. -/
  declared : List (String × Option Location) := []
  /-- The identities referred to in the order of the first reference, and where each is referred to. -/
  references : List (String × List (Option Location)) := []
  /-- The open elements, the innermost first, with the value of those that have an identity type. -/
  values : List (Option OpenValue) := []
deriving DecidableEq, Inhabited

namespace IdentityTracker

abbrev Tracking := Attempt (Context × IdentityTracker) Unit

def onContext (step : Attempt Context Unit) : Tracking := Attempt.onPart Prod.fst (fun c s => (c, s.2)) step

def change (f : IdentityTracker → IdentityTracker) : Tracking := modify fun s => (s.1, f s.2)

def reset (t : IdentityTracker) : IdentityTracker := { types := t.types }

def isDeclared (t : IdentityTracker) (identity : String) : Bool := t.declared.any fun entry => entry.1 == identity

/-- Where an identity was declared first; none if it is not declared. -/
def declaration? (t : IdentityTracker) (identity : String) : Option (Option Location) :=
  (t.declared.find? fun entry => entry.1 == identity).map Prod.snd

def addReference (identity : String) (location : Option Location) :
    List (String × List (Option Location)) → List (String × List (Option Location))
  | [] => [(identity, [location])]
  | (other, locations) :: rest =>
    if other = identity then (other, locations ++ [location]) :: rest
    else (other, locations) :: addReference identity location rest

def refer (identity : String) (location : Option Location) : Tracking :=
  change fun t => { t with references := addReference identity location t.references }

/-- Declares an identity, or reports that it is declared and where. -/
def declare (identity : String) (location : Option Location) : Tracking := do
  match (← get).2.declaration? identity with
  | some first =>
    onContext (Context.errorAt ("ID \"" ++ identity ++ "\" has already been defined") location)
    onContext (Context.warningAt ("first occurrence of ID \"" ++ identity ++ "\"") first)
  | none => change fun t => { t with declared := t.declared ++ [(identity, location)] }

/-- The identity that is the only word of a value. -/
def identity? (value : String) : Option String := (Xml.singleToken? value).filter Xml.isNCName

def check (type : IdentityType) (value : String) (location : Option Location) : Tracking :=
  match type with
  | .id =>
    match identity? value with
    | some identity => declare identity location
    | none => onContext (Context.errorAt ("invalid ID value \"" ++ value ++ "\"") location)
  | .idref =>
    match identity? value with
    | some identity => refer identity location
    | none => onContext (Context.errorAt ("invalid IDREF value \"" ++ value ++ "\"") location)
  | .idrefs =>
    match Xml.tokens value with
    | [] => onContext (Context.errorAt "IDREFS value must not be empty" location)
    | words =>
      words.forM fun word =>
        if Xml.isNCName word then refer word location
        else onContext (Context.errorAt ("invalid IDREFS token \"" ++ word ++ "\"") location)

def startElement (name : QName) (attributes : List Attribute) : Tracking := do
  let (c, t) ← get
  attributes.forM fun a =>
    match t.types.attribute? name a.name with
    | some type => check type a.value c.location
    | none => pure ()
  let value := (t.types.element? name).map fun type => (⟨type, "", c.location⟩ : OpenValue)
  change fun t => { t with values := value :: t.values }

def text (content : String) (t : IdentityTracker) : IdentityTracker :=
  match t.values with
  | some value :: outer => { t with values := some { value with text := value.text ++ content } :: outer }
  | _ => t

/-- Leaves the innermost open element and checks its value. -/
def endElement : Tracking := do
  let (_, t) ← get
  -- The element is closed even if a report of its value ends validation.
  change fun t => { t with values := t.values.tail }
  match t.values with
  | some value :: _ => check value.type value.text value.location
  | _ => pure ()

/-- Reports the references to what is not declared. -/
def endDocument : Tracking := do
  let (_, t) ← get
  t.references.forM fun entry =>
    unless t.isDeclared entry.1 do
      entry.2.forM fun location =>
        onContext (Context.errorAt ("IDREF \"" ++ entry.1 ++ "\" without matching ID") location)

end IdentityTracker

end RelaxNg
