/-!
# Content types

The content type of a pattern tells what it describes: nothing but attributes, elements, elements with text between
them, or a value. The types are ranked in this order, and a pattern with operands takes the highest rank among them. A
value cannot stand beside any other content.
-/

namespace RelaxNg

inductive ContentType where
  /-- Attributes at most. -/
  | empty
  /-- Elements. -/
  | complex
  /-- Elements and text. -/
  | mixed
  /-- A value. -/
  | simple
deriving DecidableEq, Inhabited

namespace ContentType

def rank : ContentType → Nat
  | empty => 0
  | complex => 1
  | mixed => 2
  | simple => 3

def combine (a b : ContentType) : ContentType := if a.rank < b.rank then b else a

theorem rank_combine (a b : ContentType) : (a.combine b).rank = max a.rank b.rank := by
  cases a <;> cases b <;> rfl

/-- Whether contents of two types can stand side by side: one is empty, or neither is a value. -/
def groupable (a b : ContentType) : Bool :=
  a == empty || b == empty || (a != simple && b != simple)

def allowsText (t : ContentType) : Bool := t == mixed || t == simple

def render : ContentType → String
  | empty => "empty"
  | complex => "complex"
  | mixed => "mixed"
  | simple => "simple"

def ofText? (text : String) : Option ContentType :=
  [empty, complex, mixed, simple].find? fun t => t.render = text

end ContentType

end RelaxNg
