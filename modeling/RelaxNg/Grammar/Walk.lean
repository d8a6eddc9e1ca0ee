import RelaxNg.Grammar
import RelaxNg.Grammar.Marks

/-!
# Walks through a grammar

A walk follows the successors of patterns depth first and from left to right, and meets each pattern once. Everything
reachable is met when operands, contents of elements and bodies of definitions are followed; what stands at the top of
a content is met when elements, attributes and values are not looked into.
-/

namespace RelaxNg

/-- The places met from a stack of places, behind those `found` before. Places whose number has a mark are passed
over. -/
def walk {α : Type} (number : α → Nat) (next : α → List α) (marks : Marks) (found : Array α) : List α → Array α
  | [] => found
  | x :: stack =>
    if h : marks.has (number x) then walk number next marks found stack
    else
      have : (marks.mark (number x)).free < marks.free := Marks.free_mark_lt (by simpa using h)
      walk number next (marks.mark (number x)) (found.push x) (next x ++ stack)
termination_by stack => (marks.free, stack.length)

/-- Keeps the first of equal items. -/
def firsts {α : Type} [BEq α] (items : List α) : List α :=
  (items.foldl (fun kept item => if kept.contains item then kept else kept.push item) (#[] : Array α)).toList

namespace Grammar

/-- The patterns met from a pattern, each once in the order of the walk. -/
def walkFrom (g : Grammar) (next : PatternId → List PatternId) (start : PatternId) : List PatternId :=
  (walk PatternId.index next (.upTo g.nodes.size) #[] [start]).toList

/-- What is reached in one step: operands, the content of an element and the body of a definition. -/
def successors (g : Grammar) (p : PatternId) : List PatternId :=
  match g.pattern p with
  | .element e => [(g.element e).content]
  | .ref d => (g.body? d).toList
  | pattern => pattern.operands

/-- What is reached in one step at the top of a content. -/
def topSuccessors (g : Grammar) (p : PatternId) : List PatternId :=
  match g.pattern p with
  | .choice left right | .group left right | .interleave left right => [left, right]
  | .oneOrMore operand => [operand]
  | .ref d => (g.body? d).toList
  | _ => []

def reachable (g : Grammar) (start : PatternId) : List PatternId := g.walkFrom g.successors start

def elementOf? (g : Grammar) (p : PatternId) : Option ElementId :=
  match g.pattern p with
  | .element e => some e
  | _ => none

def attributeOf? (g : Grammar) (p : PatternId) : Option NameClass :=
  match g.pattern p with
  | .attr names _ _ => some names
  | _ => none

def reachableElements (g : Grammar) (start : PatternId) : List ElementId :=
  firsts ((g.reachable start).filterMap g.elementOf?)

def top (g : Grammar) (content : PatternId) : List PatternId := g.walkFrom g.topSuccessors content

def topElements (g : Grammar) (content : PatternId) : List ElementId :=
  firsts ((g.top content).filterMap g.elementOf?)

def topAttributes (g : Grammar) (content : PatternId) : List NameClass :=
  firsts ((g.top content).filterMap g.attributeOf?)

end Grammar

end RelaxNg
