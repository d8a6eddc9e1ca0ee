import RelaxNg.Grammar.Walk

/-!
# Content models

The content model of a grammar tells for each element that is reached what may stand directly in it: elements,
attributes and text, without order or number. It serves to suggest what may come next in a document.
-/

namespace RelaxNg

/-- What may stand directly in an element. -/
structure ElementModel where
  names : NameClass
  children : List ElementId
  attributes : List NameClass
  allowsText : Bool
  documentation : Option String
deriving DecidableEq, Inhabited

structure ContentModel where
  /-- The elements in the order in which they are reached. -/
  elements : List (ElementId × ElementModel) := []
  /-- The elements that may be the outermost. -/
  start : List ElementId := []
deriving DecidableEq, Inhabited

namespace ContentModel

def empty : ContentModel := {}

def element? (m : ContentModel) (e : ElementId) : Option ElementModel :=
  (m.elements.find? fun entry => entry.1 == e).map Prod.snd

def size (m : ContentModel) : Nat := m.elements.length

def isEmpty (m : ContentModel) : Bool := m.elements.isEmpty

/-- Those of some elements that can have a name. -/
def matching (m : ContentModel) (candidates : List ElementId) (name : QName) : List ElementId :=
  candidates.filter fun e => (m.element? e).any fun model => model.names.contains name

end ContentModel

def Grammar.elementModel (g : Grammar) (e : ElementId) : ElementModel :=
  let element := g.element e
  { names := element.names
    children := g.topElements element.content
    attributes := g.topAttributes element.content
    allowsText := (g.contentType element.content).allowsText
    documentation := element.annotations.documentation? }

def Grammar.contentModel (g : Grammar) (start : PatternId) : ContentModel :=
  ⟨(g.reachableElements start).map fun e => (e, g.elementModel e), g.topElements start⟩

end RelaxNg
