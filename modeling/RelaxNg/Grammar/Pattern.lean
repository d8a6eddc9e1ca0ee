import RelaxNg.Grammar.ContentType
import RelaxNg.Grammar.Datatype
import RelaxNg.NameClass

/-!
# Patterns

A pattern refers to its operands, to the element that it stands for and to the definition that it names by number, so
that operands are shared and grammars can be cyclic. What a pattern accepts is told from its operands: whether it
accepts no content at all (`isNullable`), which content it describes (`contentType`) and the number that it is looked up
by (`structuralHash`).
-/

namespace RelaxNg

/-- The number of a pattern in its grammar. -/
structure PatternId where
  index : Nat
deriving DecidableEq, Hashable, Inhabited

structure ElementId where
  index : Nat
deriving DecidableEq, Hashable, Inhabited

structure DefinitionId where
  index : Nat
deriving DecidableEq, Hashable, Inhabited

/-- Mixes the code of a kind of pattern with the hashes of the parts, in their order. -/
def combineHash (code : UInt64) (parts : List UInt64) : UInt64 := parts.foldl mixHash (hash code)

def PatternId.render (p : PatternId) : String := "#" ++ toString p.index

/-- A pattern over the patterns of a grammar. -/
inductive Pattern where
  | empty
  /-- Nothing at all is accepted. -/
  | notAllowed
  | text
  | choice (left right : PatternId)
  | group (left right : PatternId)
  /-- Two patterns in any order, their parts mixed. -/
  | interleave (left right : PatternId)
  | oneOrMore (operand : PatternId)
  /-- A value whose words match a pattern. -/
  | list (operand : PatternId)
  | data (type : Datatype) (params : List Param)
  /-- A value of a datatype that a pattern does not match. -/
  | dataExcept (type : Datatype) (params : List Param) (except : PatternId)
  | value (type : Datatype) (value : String)
  | attr (names : NameClass) (value : PatternId) (annotations : Annotations)
  | element (element : ElementId)
  /-- What a definition stands for. -/
  | ref (definition : DefinitionId)
deriving DecidableEq, Inhabited

namespace Pattern

/-- The patterns that a pattern is made of, from left to right. An element and a reference are made of none. -/
def operands : Pattern → List PatternId
  | choice left right | group left right | interleave left right => [left, right]
  | oneOrMore operand | list operand => [operand]
  | dataExcept _ _ except => [except]
  | attr _ operand _ => [operand]
  | empty | notAllowed | text | data _ _ | value _ _ | element _ | ref _ => []

/-- Whether a pattern accepts no content, told from its operands. -/
def isNullable (nullable : PatternId → Bool) : Pattern → Bool
  | empty | text => true
  | choice left right => nullable left || nullable right
  | group left right | interleave left right => nullable left && nullable right
  | oneOrMore operand => nullable operand
  | notAllowed | list _ | data _ _ | dataExcept _ _ _ | value _ _ | attr _ _ _ | element _ | ref _ => false

/-- What a pattern describes, told from its operands. A reference counts as empty until it is resolved. -/
def contentType (type : PatternId → ContentType) : Pattern → ContentType
  | text => .mixed
  | choice left right | group left right | interleave left right => (type left).combine (type right)
  | oneOrMore operand => type operand
  | list _ | data _ _ | dataExcept _ _ _ | value _ _ => .simple
  | element _ => .complex
  | empty | notAllowed | attr _ _ _ | ref _ => .empty

/-- The hash of a pattern, told from the hashes of its operands. Different patterns can have the same. -/
def structuralHash (hashes : PatternId → UInt64) : Pattern → UInt64
  | empty => combineHash 1 []
  | notAllowed => combineHash 2 []
  | text => combineHash 3 []
  | choice left right => combineHash 11 [hashes left, hashes right]
  | group left right => combineHash 13 [hashes left, hashes right]
  | interleave left right => combineHash 17 [hashes left, hashes right]
  | oneOrMore operand => combineHash 19 [hashes operand]
  | list operand => combineHash 23 [hashes operand]
  | data type params => combineHash 29 [hash type, hash params]
  | dataExcept type params except => combineHash 31 [hash type, hash params, hashes except]
  | value type content => combineHash 37 [hash type, hash content]
  | attr names operand annotations => combineHash 41 [hash names, hashes operand, hash annotations]
  | element e => combineHash 43 [e.index.toUInt64]
  | ref d => combineHash 47 [d.index.toUInt64]

def kindName : Pattern → String
  | empty => "empty"
  | notAllowed => "notAllowed"
  | text => "text"
  | choice _ _ => "choice"
  | group _ _ => "group"
  | interleave _ _ => "interleave"
  | oneOrMore _ => "oneOrMore"
  | list _ => "list"
  | data _ _ | dataExcept _ _ _ => "data"
  | value _ _ => "value"
  | attr _ _ _ => "attribute"
  | element _ => "element"
  | ref _ => "ref"

end Pattern

end RelaxNg
