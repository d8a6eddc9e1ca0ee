import RelaxNg.NameClass
import RelaxNg.Violation

/-!
# Attribute names of an element

While the content of an element is read, the name classes of its attributes are collected. Two of them must not share a
name, unless they stand in different branches of a choice. An open choice is remembered by the number of attributes
before it and before its current branch: what stands between the two belongs to its earlier branches.
-/

namespace RelaxNg

structure OpenChoice where
  /-- The attributes before the choice. -/
  beforeChoice : Nat
  /-- The attributes before the current branch. -/
  beforeBranch : Nat
deriving DecidableEq, Inhabited

/-- The attributes of an element as far as its content is read. -/
structure AttributeNames where
  classes : List NameClass := []
  /-- The open choices, the innermost first. -/
  choices : List OpenChoice := []
deriving DecidableEq, Inhabited

namespace AttributeNames

def empty : AttributeNames := {}

/-- Whether a class shares a name with one of those numbered from `first` to before `last`. -/
def overlapsBetween (names : AttributeNames) (nc : NameClass) (first last : Nat) : Bool :=
  ((names.classes.take last).drop first).any fun seen => seen.overlaps nc

/-- Whether a class shares a name with one that is before `last` and in no earlier branch of the choices. -/
def conflicts (names : AttributeNames) (nc : NameClass) : List OpenChoice → Nat → Bool
  | [], last => names.overlapsBetween nc 0 last
  | c :: outer, last => names.overlapsBetween nc c.beforeBranch last || names.conflicts nc outer c.beforeChoice

/-- Adds an attribute, unless it shares a name with another one that can stand beside it. -/
def add (names : AttributeNames) (nc : NameClass) : Except Violation AttributeNames :=
  if names.conflicts nc names.choices names.classes.length then .error (.of .duplicateAttribute)
  else .ok { names with classes := names.classes ++ [nc] }

def openChoice (names : AttributeNames) : AttributeNames :=
  { names with choices := ⟨names.classes.length, names.classes.length⟩ :: names.choices }

def nextBranch (names : AttributeNames) : AttributeNames :=
  match names.choices with
  | [] => names
  | c :: outer => { names with choices := { c with beforeBranch := names.classes.length } :: outer }

def closeChoice (names : AttributeNames) : AttributeNames := { names with choices := names.choices.tail }

end AttributeNames

end RelaxNg
