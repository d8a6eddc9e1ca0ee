import RelaxNg.Schema.ContentModel
import RelaxNg.Validation.Context
import RelaxNg.Validation.Event
import RelaxNg.Xml.Name

/-!
# Tracking content

A content tracker follows a document through a content model. It knows for each open element which elements of the
grammar it may be, and reports elements, attributes and text that none of them allows. Below an element that is not
allowed nothing is known and nothing is reported. At every place it tells what may come next.
-/

namespace RelaxNg

structure Frame where
  name : QName
  /-- What it may be; nothing if it is not allowed itself or stands in one that is not. -/
  candidates : List ElementId
  textReported : Bool
deriving DecidableEq, Inhabited

/-- Follows a document through a content model. -/
structure ContentTracker where
  model : ContentModel
  /-- The open elements, the innermost first. -/
  frames : List Frame := []
deriving DecidableEq, Inhabited

namespace ContentTracker

abbrev Tracking := Attempt (Context × ContentTracker) Unit

def complain (message : String) : Tracking :=
  Attempt.onPart Prod.fst (fun c s => (c, s.2)) (Context.error message)

def become (t : ContentTracker) : Tracking := modify fun s => (s.1, t)

def reset (t : ContentTracker) : ContentTracker := { t with frames := [] }

def depth (t : ContentTracker) : Nat := t.frames.length

/-- What the innermost open element may be. -/
def currentModels (t : ContentTracker) : List ElementModel :=
  (t.frames.head?.map Frame.candidates).getD [] |>.filterMap t.model.element?

/-- The elements that may begin here; none if nothing is known. -/
def allowed? (t : ContentTracker) : Option (List ElementId) :=
  match t.frames with
  | [] => some t.model.start
  | frame :: _ =>
    if frame.candidates.isEmpty then none else some (firsts (t.currentModels.flatMap ElementModel.children))

def expectedElements (t : ContentTracker) : List NameClass :=
  firsts ((t.allowed?.getD []).filterMap fun e => (t.model.element? e).map ElementModel.names)

def expectedAttributes (t : ContentTracker) : List NameClass :=
  firsts (t.currentModels.flatMap ElementModel.attributes)

def allowsText (t : ContentTracker) : Bool := t.currentModels.any ElementModel.allowsText

def documentation (t : ContentTracker) : List String := t.currentModels.filterMap ElementModel.documentation

/-- What is reported of an element that is not allowed. -/
def refusal (t : ContentTracker) (name : QName) : String :=
  match t.frames with
  | [] => "undeclared root element \"" ++ name.render ++ "\""
  | parent :: _ => "element \"" ++ name.render ++ "\" not allowed in element \"" ++ parent.name.render ++ "\""

/-- What an element that begins here may be; none if nothing is known. -/
def candidates? (t : ContentTracker) (name : QName) : Option (List ElementId) :=
  t.allowed?.map (t.model.matching · name)

/-- Whether one of some elements can have an attribute. Namespace declarations are always allowed. -/
def allowsAttribute (t : ContentTracker) (candidates : List ElementId) (name : QName) : Bool :=
  name.ns == Namespace.xmlns ||
    candidates.any fun e => (t.model.element? e).any fun model => model.attributes.any fun nc => nc.contains name

/-- Enters an element. It is not entered if a report of it or its attributes ends validation. -/
def startElement (name : QName) (attributes : List Attribute) : Tracking := do
  let (_, t) ← get
  let candidates := (t.candidates? name).getD []
  if t.candidates? name = some [] then complain (t.refusal name)
  -- Where nothing is known of the element, nothing is known of its attributes.
  unless candidates.isEmpty do
    attributes.forM fun a =>
      unless t.allowsAttribute candidates a.name do
        complain ("attribute \"" ++ a.name.render ++ "\" not allowed on element \"" ++ name.render ++ "\"")
  become { t with frames := ⟨name, candidates, false⟩ :: t.frames }

/-- Meets text. In an element it is reported once, and white space never. -/
def text (content : String) : Tracking := do
  if Xml.isBlank content then return
  let (_, t) ← get
  match t.frames with
  | [] => complain "text not allowed outside the document element"
  | frame :: outer =>
    unless frame.candidates.isEmpty || frame.textReported || t.allowsText do
      -- Remembered first, because the report may end validation.
      become { t with frames := { frame with textReported := true } :: outer }
      complain ("text not allowed in element \"" ++ frame.name.render ++ "\"")

def endElement (t : ContentTracker) : ContentTracker := { t with frames := t.frames.tail }

end ContentTracker

end RelaxNg
