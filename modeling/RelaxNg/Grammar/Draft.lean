import RelaxNg.Error
import RelaxNg.Grammar.Table
import Std.Data.HashSet

/-!
# Drafts

A draft is a grammar that is being put together. A pattern is stored once: who asks for a pattern that is there gets
its number. The operations simplify what they are asked for, so that no choice holds an alternative twice, nothing is
grouped with `empty` or `notAllowed`, and nothing is repeated twice. Every element is new, and a definition can be
referred to before it has a body.
-/

namespace RelaxNg

structure Draft where
  grammar : Grammar
  /-- Finds the patterns of the grammar. -/
  table : Table
  /-- The elements whose content is free of references or about to be. -/
  expanded : Std.HashSet ElementId
deriving Inhabited

namespace Draft

/-- Completes the location of a stored pattern: it keeps the one it has. -/
def locate (d : Draft) (p : PatternId) (location : Option Location) : Draft :=
  match location with
  | none => d
  | some _ =>
    { d with grammar.nodes := d.grammar.nodes.modify p.index fun n => { n with location := n.location.or location } }

/-- Stores a pattern under the next number. -/
def store (d : Draft) (pattern : Pattern) (location : Option Location) : Draft :=
  { d with
    grammar.nodes := d.grammar.nodes.push (d.grammar.nodeOf pattern location)
    table := d.table.enter ⟨d.grammar.nodes.size⟩ pattern }

/-- The number of a pattern, which is stored if it is not there yet. -/
def intern (d : Draft) (pattern : Pattern) (location : Option Location) : PatternId × Draft :=
  match d.table.number? d.grammar pattern with
  | some p => (p, d.locate p location)
  | none => (⟨d.grammar.nodes.size⟩, d.store pattern location)

/-! ## Leaves -/

def empty : PatternId := ⟨0⟩

def notAllowed : PatternId := ⟨1⟩

def text : PatternId := ⟨2⟩

/-- The draft that holds the three leaves only. -/
def initial : Draft :=
  let d : Draft := ⟨{}, {}, {}⟩
  let (_, d) := d.intern .empty none
  let (_, d) := d.intern .notAllowed none
  (d.intern .text none).2

def patternCount (d : Draft) : Nat := d.grammar.nodes.size

def data (d : Draft) (type : Datatype) (params : List Param) : PatternId × Draft := d.intern (.data type params) none

def value (d : Draft) (type : Datatype) (value : String) : PatternId × Draft := d.intern (.value type value) none

/-! ## Choice, order and repetition -/

/-- Adds those of some alternatives that are not `known` to a choice, in order. -/
def addAlternatives (d : Draft) (result : PatternId) (known : List PatternId) : List PatternId → PatternId × Draft
  | [] => (result, d)
  | p :: rest =>
    if known.contains p then d.addAlternatives result known rest
    else
      let (result, d) := d.intern (.choice result p) none
      d.addAlternatives result (p :: known) rest

/-- One of two patterns. What accepts nothing is no alternative, `empty` is none beside a pattern that accepts no
content, and the alternatives of the right pattern are added one by one if they are new. -/
def choice (d : Draft) (left right : PatternId) : PatternId × Draft :=
  if left = right ∨ right = notAllowed then (left, d)
  else if left = notAllowed then (right, d)
  else if left = empty ∧ d.grammar.nullable right then (right, d)
  else if right = empty ∧ d.grammar.nullable left then (left, d)
  else d.addAlternatives left (d.grammar.alternatives left) (d.grammar.alternatives right)

/-- Two patterns put together by `pattern`. Beside `empty` the other one stands alone, and beside what accepts nothing
nothing is accepted. -/
def pair (pattern : PatternId → PatternId → Pattern) (d : Draft) (left right : PatternId) : PatternId × Draft :=
  if left = empty then (right, d)
  else if right = empty then (left, d)
  else if left = notAllowed ∨ right = notAllowed then (notAllowed, d)
  else d.intern (pattern left right) none

def group (d : Draft) (left right : PatternId) : PatternId × Draft := pair .group d left right

def interleave (d : Draft) (left right : PatternId) : PatternId × Draft := pair .interleave d left right

/-- A pattern once or more. `empty`, what accepts nothing and what is repeated already are not repeated. -/
def oneOrMore (d : Draft) (p : PatternId) : PatternId × Draft :=
  if p = empty ∨ p = notAllowed then (p, d)
  else match d.grammar.pattern p with
    | .oneOrMore _ => (p, d)
    | _ => d.intern (.oneOrMore p) none

def optional (d : Draft) (p : PatternId) : PatternId × Draft := d.choice p empty

def zeroOrMore (d : Draft) (p : PatternId) : PatternId × Draft :=
  let (repeated, d) := d.oneOrMore p
  d.optional repeated

def mixed (d : Draft) (p : PatternId) : PatternId × Draft := d.interleave p text

/-! ## Values, attributes and elements -/

def list (d : Draft) (p : PatternId) (location : Option Location) : PatternId × Draft :=
  if p = notAllowed then (p, d) else d.intern (.list p) location

def dataExcept (d : Draft) (type : Datatype) (params : List Param) (except : PatternId) (location : Option Location) :
    PatternId × Draft :=
  -- Nothing is excepted: what remains is stored without a location.
  if except = notAllowed then d.data type params else d.intern (.dataExcept type params except) location

/-- An attribute. One whose value cannot be accepted cannot either. -/
def attr (d : Draft) (names : NameClass) (value : PatternId) (location : Option Location)
    (annotations : Annotations) : PatternId × Draft :=
  if value = notAllowed then (value, d) else d.intern (.attr names value annotations) location

def element (d : Draft) (names : NameClass) (content : PatternId) (location : Option Location)
    (annotations : Annotations) : PatternId × Draft :=
  let e : ElementId := ⟨d.grammar.elements.size⟩
  let d := { d with grammar.elements := d.grammar.elements.push ⟨names, content, location, annotations⟩ }
  d.intern (.element e) location

def setContent (d : Draft) (e : ElementId) (content : PatternId) : Draft :=
  { d with grammar.elements := d.grammar.elements.modify e.index fun old => { old with content } }

/-! ## Definitions -/

/-- What the definition with a name stands for. A name that is new gets a definition without a body. -/
def ref (d : Draft) (name : String) (location : Option Location) : PatternId × Draft :=
  match d.grammar.definition? name with
  | some definition => d.intern (.ref definition) location
  | none =>
    let definition : DefinitionId := ⟨d.grammar.definitions.size⟩
    let d := { d with grammar.definitions := d.grammar.definitions.push ⟨name, none, location⟩ }
    d.intern (.ref definition) location

/-- Gives the definition with a name its body, once. -/
def define (d : Draft) (name : String) (body : PatternId) : Except Error Draft :=
  match d.grammar.definition? name with
  | some definition =>
    match d.grammar.body? definition with
    | some _ => .error (.grammar (.duplicateDefinition name))
    | none =>
      .ok { d with grammar.definitions :=
        d.grammar.definitions.modify definition.index fun old => { old with body := some body } }
  -- Nothing has referred to it yet, so its location is not known.
  | none => .ok { d with grammar.definitions := d.grammar.definitions.push ⟨name, some body, none⟩ }

end Draft

end RelaxNg
