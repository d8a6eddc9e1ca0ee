import RelaxNg.Validation.Event
import RelaxNg.Xml.Piece
import RelaxNg.Xml.Scopes

/-!
# Reading documents

`Document.validate` reads a document and tells a validator what happens in it. A start tag opens a scope with its
declarations, which are told before the element, and its name and those of its attributes are looked up in the scopes;
an end tag tells the end of the element and then of its declarations. Reading stops at the first piece that is
malformed, at the first name without a namespace and at the first failure of the validator.
-/

namespace RelaxNg.Xml

structure OpenElement where
  name : QName
  written : String
  /-- The labels that it declares, in order. -/
  labels : List String
deriving DecidableEq, Inhabited

/-- The state of reading a document for a validator with states `σ`. -/
structure Reading (σ : Type) where
  scopes : Scopes := .empty
  opened : List OpenElement := []
  state : σ

/-- A validator as part of a reading: it sees and changes its own state only. -/
def Reading.within {σ : Type} (v : Validator σ) : Validator (Reading σ) where
  locate location r := { r with state := v.locate location r.state }
  handle event := Attempt.onPart Reading.state (fun state r => { r with state }) (v.handle event)
  reset r := { r with state := v.reset r.state }
  hadError r := v.hadError r.state

namespace Document

variable {σ : Type}

abbrev Step (σ α : Type) := Attempt (Reading σ) α

def locate (v : Validator (Reading σ)) (location : Location) : Step σ Unit := modify (v.locate (some location))

/-- The label that an attribute declares: its key is `xmlns`, or `xmlns` and the label with a colon between. -/
def declaredLabel? (key : String) : Option String :=
  if key = "xmlns" then some ""
  else match splitColon key with
    | (some "xmlns", label) => some label
    | _ => none

/-- The declarations among the attributes of a tag, label and namespace of each. -/
def declarations (attributes : List (String × String)) : List (String × String) :=
  attributes.filterMap fun (key, value) => (declaredLabel? key).map (·, value)

/-- The attributes of a tag that declare nothing. -/
def others (attributes : List (String × String)) : List (String × String) :=
  attributes.filter fun (key, _) => (declaredLabel? key).isNone

def resolved (scopes : Scopes) (raw : String × String) : Except Error Attribute :=
  (scopes.resolveAttribute raw.1).map fun name => ⟨name, raw.1, raw.2⟩

def start (v : Validator (Reading σ)) (tag : Tag) : Step σ Unit := do
  let raw ← Attempt.answer (tag.attributes.mapError .xml)
  modify fun r => { r with scopes := r.scopes.push }
  let declared := declarations raw
  -- A declaration is told before it is in force.
  declared.forM fun (label, ns) => do
    v.handle (.declare label ns)
    modify fun r => { r with scopes := r.scopes.declare label ns }
  let scopes := (← get).scopes
  let name ← Attempt.answer (scopes.resolve tag.written)
  let attributes ← Attempt.answer ((others raw).mapM (resolved scopes))
  v.handle (.startElement name tag.written attributes)
  modify fun r => { r with opened := ⟨name, tag.written, declared.map Prod.fst⟩ :: r.opened }

def finish (v : Validator (Reading σ)) : Step σ Unit := do
  match (← get).opened with
  | [] => throw (.xml .badMarkup)
  | element :: outer =>
    modify fun r => { r with opened := outer }
    v.handle (.endElement element.name element.written)
    element.labels.forM fun label => v.handle (.undeclare label)
    modify fun r => { r with scopes := r.scopes.pop }

/-- Tells text, unless it is empty. -/
def text (v : Validator (Reading σ)) (content : String) : Step σ Unit :=
  if content.isEmpty then pure () else v.handle (.text content)

def read (v : Validator (Reading σ)) : Piece → Step σ Unit
  | .startTag tag => start v tag
  | .emptyTag tag => do
    start v tag
    finish v
  | .endTag => finish v
  | .text chars =>
    match resolveReferences? chars with
    | some content => text v content
    | none => throw (.xml .badText)
  | .literal chars => text v (String.ofList chars)
  | .doctype chars => (UnparsedEntity.declaredIn (String.ofList chars)).forM fun entity => v.handle (.entity entity)
  | .remark => pure ()

/-- Reads the pieces of a scan, whose offsets `place` turns into locations, and tells whether no error was reported. -/
def readScan (v : Validator (Reading σ)) (place : Nat → Location) (scan : Scan) : Step σ Bool := do
  locate v (place 0)
  v.handle .startDocument
  scan.pieces.forM fun (offset, piece) => do
    locate v (place offset)
    read v piece
  match scan.ending with
  | .malformed => throw (.xml .badMarkup)
  | .finished offset =>
    locate v (place offset)
    unless (← get).opened.isEmpty do throw (.xml .unexpectedEnd)
    v.handle .endDocument
    return !v.hadError (← get)

/-- Reads a scan for a validator, from its beginning. -/
def validateScan (v : Validator σ) (place : Nat → Location) (scan : Scan) : Attempt σ Bool :=
  ExceptT.mk fun state =>
    let (answer, r) := (readScan (Reading.within v) place scan).runFrom { state }
    (answer, r.state)

/-- Reads a document for a validator. The answer is whether no error was reported since the validator's last reset. -/
def validate (v : Validator σ) (document : String) : Attempt σ Bool :=
  let chars := document.toList
  validateScan v (Location.inChars none chars) (.of chars)

end Document

end RelaxNg.Xml
