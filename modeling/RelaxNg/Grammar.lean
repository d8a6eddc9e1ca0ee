import RelaxNg.Grammar.Pattern
import RelaxNg.Location

/-!
# Grammars

A grammar stores its patterns, elements and definitions under numbers, in the order in which they came up. Each pattern
is stored with what is known of it: whether it accepts no content, which content it describes and where it was written.
A number that the grammar does not have reads as the pattern that accepts nothing, as an element without a name or as
a definition without a body.
-/

namespace RelaxNg

/-- A stored pattern with what is known of it. -/
structure Node where
  pattern : Pattern
  nullable : Bool
  contentType : ContentType
  location : Option Location
deriving DecidableEq, Inhabited

structure Element where
  names : NameClass
  /-- The pattern of its content and attributes. -/
  content : PatternId
  location : Option Location
  annotations : Annotations
deriving DecidableEq, Inhabited

structure Definition where
  name : String
  /-- The pattern it stands for; none as long as it is only referred to. -/
  body : Option PatternId
  /-- Where it was first referred to, if that is known. -/
  location : Option Location
deriving DecidableEq, Inhabited

structure Grammar where
  nodes : Array Node := #[]
  elements : Array Element := #[]
  definitions : Array Definition := #[]
deriving DecidableEq, Inhabited

namespace Grammar

/-- What a number reads as that the grammar does not have. -/
def missingNode : Node := ⟨.notAllowed, false, .empty, none⟩

/-- What an element reads as that the grammar does not have: it has no name and no content. -/
def missingElement : Element := ⟨.anyExcept .any, ⟨1⟩, none, .none⟩

def missingDefinition : Definition := ⟨"", none, none⟩

def node (g : Grammar) (p : PatternId) : Node := g.nodes.getD p.index missingNode

def pattern (g : Grammar) (p : PatternId) : Pattern := (g.node p).pattern

/-- Whether a pattern accepts no content. -/
def nullable (g : Grammar) (p : PatternId) : Bool := (g.node p).nullable

def contentType (g : Grammar) (p : PatternId) : ContentType := (g.node p).contentType

def location? (g : Grammar) (p : PatternId) : Option Location := (g.node p).location

def element (g : Grammar) (e : ElementId) : Element := g.elements.getD e.index missingElement

def definition (g : Grammar) (d : DefinitionId) : Definition := g.definitions.getD d.index missingDefinition

def body? (g : Grammar) (d : DefinitionId) : Option PatternId := (g.definition d).body

def definition? (g : Grammar) (name : String) : Option DefinitionId :=
  (g.definitions.findIdx? fun d => d.name == name).map DefinitionId.mk

/-- What is to be stored for a pattern over the stored ones. -/
def nodeOf (g : Grammar) (pattern : Pattern) (location : Option Location) : Node :=
  ⟨pattern, pattern.isNullable g.nullable, pattern.contentType g.contentType, location⟩

/-- The patterns that a choice decides between, from left to right, in front of `rest`. A pattern that is no choice is
the only one. -/
def alternativesBefore (g : Grammar) (p : PatternId) (rest : List PatternId) : List PatternId :=
  match g.pattern p with
  | .choice left right =>
    if _ : left.index < p.index ∧ right.index < p.index then
      g.alternativesBefore left (g.alternativesBefore right rest)
    else p :: rest
  | _ => p :: rest
termination_by p.index

def alternatives (g : Grammar) (p : PatternId) : List PatternId := g.alternativesBefore p []

end Grammar

end RelaxNg
