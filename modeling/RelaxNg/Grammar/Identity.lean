import RelaxNg.Grammar.Walk
import RelaxNg.Violation

/-!
# Identity types of a grammar

An attribute or an element can have a value of an identity type. `Grammar.identityMap` collects the types over all
elements that are reached, by the names of elements and attributes, and refuses a grammar for which a name would not
settle the type: all declarations of a name must agree, those without an identity type counted, and a name class with a
wildcard can neither have such a type nor take in a name that has one. A value of an identity type must be the whole
value of an attribute or element.
-/

namespace RelaxNg

structure IdentityMap where
  /-- The types of attributes, by the names of element and attribute. -/
  attributes : List ((QName × QName) × IdentityType) := []
  /-- The types of elements, by name. -/
  elements : List (QName × IdentityType) := []
deriving DecidableEq, Inhabited

namespace IdentityMap

def empty : IdentityMap := {}

def attribute? (m : IdentityMap) (element name : QName) : Option IdentityType :=
  (m.attributes.find? fun entry => entry.1.1 == element && entry.1.2 == name).map Prod.snd

def element? (m : IdentityMap) (name : QName) : Option IdentityType :=
  (m.elements.find? fun entry => entry.1 == name).map Prod.snd

def hasAttributes (m : IdentityMap) (element : QName) : Bool := m.attributes.any fun entry => entry.1.1 == element

def size (m : IdentityMap) : Nat := m.attributes.length + m.elements.length

def isEmpty (m : IdentityMap) : Bool := m.attributes.isEmpty && m.elements.isEmpty

end IdentityMap

namespace IdentityCollection

/-- What is declared of a name: its identity type, if it has one, and where. -/
structure Declared (κ : Type) where
  key : κ
  type : Option IdentityType
  /-- Where it was declared first, if that is known. -/
  location : Option Location

/-- Declarations by name in the order of the first of each name. -/
abbrev Declarations (κ : Type) := Array (Declared κ)

/-- Adds a declaration. One that another of the name contradicts is refused. -/
def Declarations.add {κ : Type} [BEq κ] (ds : Declarations κ) (key : κ) (type : Option IdentityType)
    (location : Option Location) : Except Violation (Declarations κ) :=
  match ds.find? fun d => d.key == key with
  | none => .ok (ds.push ⟨key, type, location⟩)
  | some d => if d.type = type then .ok ds else .error (.of .idTypeConflict)

/-- An attribute of which the element's or its own name class has a wildcard. -/
structure OpenAttribute where
  element : NameClass
  names : NameClass
  location : Option Location

structure OpenElement where
  names : NameClass
  location : Option Location

structure Collected where
  attributes : Declarations (QName × QName) := #[]
  elements : Declarations QName := #[]
  openAttributes : Array OpenAttribute := #[]
  openElements : Array OpenElement := #[]

/-- What is reached in one step inside a value. -/
def valueSuccessors (g : Grammar) (p : PatternId) : List PatternId :=
  match g.pattern p with
  | .attr _ _ _ | .element _ => []
  | _ => g.successors p

def identityOf? : Pattern → Option IdentityType
  | .data type _ | .dataExcept type _ _ | .value type _ => type.identity?
  | _ => none

/-- Refuses an identity type inside a value. -/
def refuseInside (g : Grammar) (p : PatternId) : Except Violation Unit :=
  if (g.walkFrom (valueSuccessors g) p).any fun q => (identityOf? (g.pattern q)).isSome then .error (.of .idParent)
  else .ok ()

/-- A pattern in a content, and whether it is outside every repetition. -/
abbrev Part := PatternId × Bool

def Part.number (part : Part) : Nat := 2 * part.1.index + (if part.2 then 1 else 0)

/-- What is reached in one step in a content, without entering attributes, elements or values. -/
def partSuccessors (g : Grammar) (part : Part) : List Part :=
  match g.pattern part.1 with
  | .oneOrMore operand => [(operand, false)]
  | _ => (g.topSuccessors part.1).map (·, part.2)

def parts (g : Grammar) (content : PatternId) : List Part :=
  (walk Part.number (partSuccessors g) (.upTo (2 * g.nodes.size)) #[] [(content, true)]).toList

/-- The identity type of an element's content after one more datatype in it. -/
def contentIdentity (element : NameClass) (whole : Bool) (found type : Option IdentityType) :
    Except Violation (Option IdentityType) :=
  match type with
  | none => .ok found
  | some t =>
    if !whole then .error (.of .idParent)
    else if element.isOpen then .error (.of .idElementNameClass)
    else if found.isSome ∧ found ≠ some t then .error (.of .idTypeConflict)
    else .ok (some t)

def attributeIdentity (g : Grammar) (content : PatternId) : Except Violation (Option IdentityType) :=
  match g.pattern content with
  | .data type _ | .value type _ => .ok type.identity?
  | .dataExcept type _ except => (refuseInside g except).map fun _ => type.identity?
  | _ => (refuseInside g content).map fun _ => none

def addAttribute (g : Grammar) (element names : NameClass) (content : PatternId) (c : Collected) :
    Except Violation Collected := do
  let type ← attributeIdentity g content
  let location := g.location? content
  match element.simpleNames?, names.simpleNames? with
  | some elementNames, some attributeNames =>
    -- Every name of the element goes with every name of the attribute.
    let keys := elementNames.flatMap fun e => attributeNames.map fun a => (e, a)
    let attributes ← keys.foldlM (fun ds key => Declarations.add ds key type location) c.attributes
    return { c with attributes }
  | elementNames?, _ =>
    if type.isSome then
      throw (.of (if elementNames?.isNone then .idElementNameClass else .idAttributeNameClass))
    return { c with openAttributes := c.openAttributes.push ⟨element, names, location⟩ }

def located {α : Type} (loc : Option Location) : Except Violation α → Except Violation α
  | .ok a => .ok a
  | .error v => .error (v.within loc)

/-- Collects from one part of an element's content. The identity type found in the content before goes along. -/
def addPart (g : Grammar) (element : NameClass) (state : Collected × Option IdentityType) (part : Part) :
    Except Violation (Collected × Option IdentityType) :=
  let (c, found) := state
  match g.pattern part.1 with
  | .list operand => (refuseInside g operand).map fun _ => (c, found)
  | .data type _ | .value type _ => (contentIdentity element part.2 found type.identity?).map (c, ·)
  | .dataExcept type _ except => do
    refuseInside g except
    return (c, ← contentIdentity element part.2 found type.identity?)
  | .attr names content _ =>
    (located (g.location? part.1) (addAttribute g element names content c)).map (·, found)
  | _ => .ok (c, found)

/-- Collects the identity type of an element's content under its names. -/
def addElement (e : Element) (type : Option IdentityType) (c : Collected) : Except Violation Collected :=
  match e.names.simpleNames? with
  | none => .ok { c with openElements := c.openElements.push ⟨e.names, e.location⟩ }
  | some names => do
    let elements ← names.foldlM (fun ds name => Declarations.add ds name type e.location) c.elements
    return { c with elements }

def collect (g : Grammar) (c : Collected) (id : ElementId) : Except Violation Collected :=
  let e := g.element id
  located e.location do
    let (c, type) ← (parts g e.content).foldlM (addPart g e.names) (c, none)
    addElement e type c

/-- The first declaration with an identity type that a name class with a wildcard takes in. -/
def takenIn? {κ : Type} (ds : Declarations κ) (takes : κ → Bool) : Option (Declared κ) :=
  ds.find? fun d => d.type.isSome && takes d.key

/-- Refuses a name class with a wildcard that takes in a name with an identity type. -/
def refuseTaken {κ : Type} (ds : Declarations κ) (takes : κ → Bool) (location : Option Location) :
    Except Violation Unit :=
  match takenIn? ds takes with
  | some d => .error ((Violation.of .idTypeConflict).within (d.location.or location))
  | none => .ok ()

def typed {κ : Type} (ds : Declarations κ) : List (κ × IdentityType) :=
  ds.toList.filterMap fun d => d.type.map (d.key, ·)

end IdentityCollection

/-- The identity types declared by the elements that are reached from a start pattern. -/
def Grammar.identityMap (g : Grammar) (start : PatternId) : Except Violation IdentityMap := do
  let c ← (g.reachableElements start).foldlM (IdentityCollection.collect g) {}
  -- Wildcards come last, when all single names are known.
  c.openAttributes.forM fun o =>
    IdentityCollection.refuseTaken c.attributes (fun key => o.element.contains key.1 && o.names.contains key.2)
      o.location
  c.openElements.forM fun o => IdentityCollection.refuseTaken c.elements o.names.contains o.location
  return ⟨IdentityCollection.typed c.attributes, IdentityCollection.typed c.elements⟩

end RelaxNg
