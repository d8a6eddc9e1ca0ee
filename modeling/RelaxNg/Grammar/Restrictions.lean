import RelaxNg.Attempt
import RelaxNg.Grammar
import RelaxNg.Limits
import RelaxNg.NameClass.Alphabet
import RelaxNg.NameClass.AttributeNames
import Std.Data.HashSet

/-!
# Restrictions

A grammar without references has to keep the restrictions: some patterns must not stand in some places (`prohibited?`),
two attributes of an element and two elements on the sides of an interleave must not share a name, and a value must not
stand beside other content. One walk checks them all and stops at the first that is broken. It carries the place in
which a pattern stands, and it enters the content of each element once. A violation gets the location of the innermost
attribute, element, list or exception around the offending pattern that has one.
-/

namespace RelaxNg

inductive Place where
  | start
  | element
  /-- In an element, repeated. -/
  | repeated
  /-- In a group that is repeated in an element. -/
  | repeatedGroup
  /-- In an interleave that is repeated in an element. -/
  | repeatedInterleave
  | list
  | attributeValue
  /-- Among the values excepted from a datatype. -/
  | exception
deriving DecidableEq, Inhabited

namespace Place

def underOneOrMore : Place → Place
  | element => repeated
  | place => place

def underGroup : Place → Place
  | repeated => repeatedGroup
  | place => place

def underInterleave : Place → Place
  | repeated => repeatedInterleave
  | place => place

/-- The restriction that a pattern breaks by standing in a place. -/
def prohibited? (place : Place) : Pattern → Option Restriction
  | .empty => match place with
    | start => some .startContainsEmpty
    | exception => some .dataExceptContainsEmpty
    | _ => none
  | .text => match place with
    | start => some .startContainsText
    | list => some .listContainsText
    | exception => some .dataExceptContainsText
    | _ => none
  | .data _ _ | .dataExcept _ _ _ => match place with
    | start => some .startContainsData
    | _ => none
  | .value _ _ => match place with
    | start => some .startContainsValue
    | _ => none
  | .list _ => match place with
    | start => some .startContainsList
    | list => some .listContainsList
    | exception => some .dataExceptContainsList
    | _ => none
  | .attr names _ _ => match place with
    | start => some .startContainsAttribute
    | element => if names.isOpen then some .openNameClassNotRepeated else none
    | repeated => none
    | repeatedGroup => some .oneOrMoreContainsGroupContainsAttribute
    | repeatedInterleave => some .oneOrMoreContainsInterleaveContainsAttribute
    | list => some .listContainsAttribute
    | attributeValue => some .attributeContainsAttribute
    | exception => some .dataExceptContainsAttribute
  | .element _ => match place with
    | exception => some .dataExceptContainsElement
    | list => some .listContainsElement
    | attributeValue => some .attributeContainsElement
    | _ => none
  | .group _ _ => match place with
    | start => some .startContainsGroup
    | exception => some .dataExceptContainsGroup
    | _ => none
  | .interleave _ _ => match place with
    | start => some .startContainsInterleave
    | exception => some .dataExceptContainsInterleave
    | list => some .listContainsInterleave
    | _ => none
  | .oneOrMore _ => match place with
    | start => some .startContainsOneOrMore
    | exception => some .dataExceptContainsOneOrMore
    | _ => none
  | .notAllowed | .choice _ _ | .ref _ => none

end Place

/-- Whether a class names a namespace declaration: the name `xmlns` itself, or a name or wildcard of its namespace. -/
def NameClass.namesXmlns : NameClass → Bool
  | .name n => n.ns == Namespace.xmlns || n == .plain "xmlns"
  | .ofNamespace ns | .ofNamespaceExcept ns _ => ns == Namespace.xmlns
  | .choice left right => left.namesXmlns || right.namesXmlns
  | .any | .anyExcept _ => false

def Error.within (loc : Option Location) : Error → Error
  | .restriction v => .restriction (v.within loc)
  | e => e

namespace RestrictionCheck

structure State where
  /-- The elements whose content was entered. -/
  checked : Std.HashSet ElementId := {}
  /-- The definitions that are open. -/
  active : Std.HashSet DefinitionId := {}
  /-- The attributes of the element around, where they are collected. -/
  attributes : Option AttributeNames := none
  /-- The elements of the interleave's side around, where they are collected. -/
  alphabet : Option Alphabet := none
deriving Inhabited

abbrev Check := Attempt State Unit

def refuse (broken : Option Restriction) : Check :=
  match broken with
  | some r => throw (.restriction (.of r))
  | none => pure ()

def located (loc : Option Location) (step : Check) : Check := ExceptT.adapt (Error.within loc) step

/-- Takes a step with other collections and puts the present ones back. -/
def isolated (attributes : Option AttributeNames) (alphabet : Option Alphabet) (step : Check) : Check :=
  ExceptT.mk fun s =>
    let outerAttributes := s.attributes
    let outerAlphabet := s.alphabet
    let (answer, s) := step.runFrom { s with attributes, alphabet }
    (answer, { s with attributes := outerAttributes, alphabet := outerAlphabet })

/-- Takes a step on one side of an interleave; the answer is the alphabet of that side. -/
def side (step : Check) : Attempt State Alphabet :=
  ExceptT.mk fun s =>
    let outer := s.alphabet
    let (answer, s) := step.runFrom { s with alphabet := some .empty }
    let collected := s.alphabet.getD .empty
    (answer.map fun _ => collected, { s with alphabet := outer })

def inside (d : DefinitionId) (step : Check) : Check :=
  ExceptT.mk fun s =>
    let (answer, s) := step.runFrom { s with active := s.active.insert d }
    (answer, { s with active := s.active.erase d })

def onAttributes (change : AttributeNames → AttributeNames) : Check :=
  modify fun s => { s with attributes := s.attributes.map change }

def addAttribute (names : NameClass) : Check := do
  match (← get).attributes with
  | none => pure ()
  | some attributes =>
    match attributes.add names with
    | .ok attributes => modify fun s => { s with attributes := some attributes }
    | .error v => throw (.restriction v)

def onAlphabet (change : Alphabet → Alphabet) : Check :=
  modify fun s => { s with alphabet := s.alphabet.map change }

/-- Checks a pattern in a place. Patterns nest less deep than `levels`; below that the grammar is refused, being deeper
than `limit`. -/
def check (g : Grammar) (limit : Nat) : (levels : Nat) → PatternId → Place → Check
  | 0, _, _ => throw (.recursion (.depthExceeded (limit + 1) limit))
  | levels + 1, p, place =>
    let pattern := g.pattern p
    match pattern with
    | .element e => do
      let element := g.element e
      -- The names count for the interleave around even if the content was checked before.
      onAlphabet (·.add element.names)
      if (← get).checked.contains e then return
      located (element.location.or (g.location? p)) do
        refuse (place.prohibited? pattern)
        modify fun s => { s with checked := s.checked.insert e }
        isolated (some .empty) none (check g limit levels element.content .element)
    | .attr names value _ =>
      located (g.location? p) do
        refuse (place.prohibited? pattern)
        refuse (if names.namesXmlns then some .xmlnsAttributeName else none)
        addAttribute names
        isolated none none (check g limit levels value .attributeValue)
    | .dataExcept _ _ except => do
      refuse (place.prohibited? pattern)
      located (g.location? p) (isolated none none (check g limit levels except .exception))
    | .list operand => do
      refuse (place.prohibited? pattern)
      located (g.location? p) (isolated none none (check g limit levels operand .list))
    | .choice left right => do
      onAttributes (·.openChoice)
      check g limit levels left place
      onAttributes (·.nextBranch)
      check g limit levels right place
      onAttributes (·.closeChoice)
    | .group left right => do
      refuse (place.prohibited? pattern)
      check g limit levels left place.underGroup
      check g limit levels right place.underGroup
      -- The words of a list may stand side by side.
      refuse (if place ≠ .list ∧ !(g.contentType left).groupable (g.contentType right) then some .groupString
        else none)
    | .interleave left right => do
      refuse (place.prohibited? pattern)
      let leftNames ← side (check g limit levels left place.underInterleave)
      let rightNames ← side (check g limit levels right place.underInterleave)
      refuse (if leftNames.overlaps rightNames then some .interleaveElementOverlap else none)
      -- For an interleave further out both sides belong to one.
      onAlphabet fun a => (a.merge leftNames).merge rightNames
      refuse (if (g.contentType left).groupable (g.contentType right) then none else some .interleaveString)
      refuse (if g.contentType left = .mixed ∧ g.contentType right = .mixed then some .interleaveTextOverlap
        else none)
    | .oneOrMore operand => do
      refuse (place.prohibited? pattern)
      check g limit levels operand place.underOneOrMore
      refuse (if place ≠ .list ∧ !(g.contentType operand).groupable (g.contentType operand) then some .oneOrMoreString
        else none)
    | .ref d => do
      match g.body? d with
      | none => return
      | some body =>
        if (← get).active.contains d then return
        inside d (check g limit levels body place)
    | .empty | .notAllowed | .text | .data _ _ | .value _ _ => refuse (place.prohibited? pattern)

theorem check_zero (g : Grammar) (limit : Nat) (p : PatternId) (place : Place) :
    check g limit 0 p place = throw (.recursion (.depthExceeded (limit + 1) limit)) := by
  rw [check]

def checkIn (g : Grammar) (limits : Limits) (p : PatternId) (place : Place) : Check :=
  check g limits.maxRecursionDepth (limits.maxRecursionDepth + 1) p place

/-- Checks a start pattern and every element that is reached from it. -/
def checkStart (g : Grammar) (limits : Limits) (start : PatternId) : Check :=
  isolated none none (checkIn g limits start .start)

end RestrictionCheck

def Grammar.checkRestrictions (g : Grammar) (limits : Limits) (start : PatternId) : Except Error Unit :=
  ((RestrictionCheck.checkStart g limits start).runFrom {}).1

end RelaxNg
