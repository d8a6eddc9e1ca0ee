import RelaxNg.Grammar.Restrictions
import RelaxNg.Grammar.Walk
import Mathlib.Logic.Relation

/-!
# Occurrences

A pattern can be reached on many ways and stands in a place on each of them. `Grammar.Occurs` says in which places it
stands, and `Place.Forbids` is the table of the places in which a pattern must not stand; `prohibited?_eq_none_iff`
ties the table to the restriction that a pattern breaks. `Grammar.Reaches` forgets the places.
-/

namespace RelaxNg

/-! ## The table -/

namespace Place

def Forbids (place : Place) : Pattern → Prop
  | .attr names _ _ =>
    place ∈ [start, repeatedGroup, repeatedInterleave, list, attributeValue, exception] ∨
      place = element ∧ names.isOpen
  | .element _ => place ∈ [list, attributeValue, exception]
  | .group _ _ | .oneOrMore _ | .empty => place ∈ [start, exception]
  | .interleave _ _ | .list _ | .text => place ∈ [start, list, exception]
  | .data _ _ | .dataExcept _ _ _ | .value _ _ => place = start
  | .notAllowed | .choice _ _ | .ref _ => False

instance (place : Place) (pattern : Pattern) : Decidable (place.Forbids pattern) := by
  cases pattern <;> unfold Forbids <;> infer_instance

theorem prohibited?_eq_none_iff {place : Place} {pattern : Pattern} :
    place.prohibited? pattern = none ↔ ¬ place.Forbids pattern := by
  cases pattern <;> cases place <;> simp [prohibited?, Forbids]

end Place

namespace Grammar

variable {g : Grammar} {start p q : PatternId} {place : Place}

/-! ## Ways through a grammar -/

/-- A pattern is reached from another by operands, contents of elements and bodies of definitions. -/
def Reaches (g : Grammar) : PatternId → PatternId → Prop := Relation.ReflTransGen fun p q => q ∈ g.successors p

def RefFree (g : Grammar) (p : PatternId) : Prop := ∀ q, g.Reaches p q → ∀ d, g.pattern q ≠ .ref d

theorem RefFree.of_successor (h : g.RefFree p) (hq : q ∈ g.successors p) : g.RefFree q :=
  fun r hr => h r (.head hq hr)

/-- What holds of all stored patterns holds of all, if it holds of the one that the others read as. -/
theorem pattern_of_nodes {P : Pattern → Prop} (h : ∀ n ∈ g.nodes, P n.pattern) (hm : P .notAllowed) (p : PatternId) :
    P (g.pattern p) := by
  unfold pattern node Array.getD
  split
  · exact h _ (Array.getElem_mem _)
  · exact hm

theorem refFree_of_nodes (h : ∀ n ∈ g.nodes, ∀ d, n.pattern ≠ .ref d) (p : PatternId) : g.RefFree p :=
  fun q _ => pattern_of_nodes (P := fun pattern => ∀ d, pattern ≠ .ref d) h nofun q

/-- What stands directly in a pattern, and in which place it does if the pattern stands in a given one. -/
def below (g : Grammar) (p : PatternId) (place : Place) : List (PatternId × Place) :=
  match g.pattern p with
  | .choice left right => [(left, place), (right, place)]
  | .group left right => [(left, place.underGroup), (right, place.underGroup)]
  | .interleave left right => [(left, place.underInterleave), (right, place.underInterleave)]
  | .oneOrMore operand => [(operand, place.underOneOrMore)]
  | .list operand => [(operand, .list)]
  | .dataExcept _ _ except => [(except, .exception)]
  | .attr _ value _ => [(value, .attributeValue)]
  | .element e => [((g.element e).content, .element)]
  | .ref d => (g.body? d).toList.map (·, place)
  | .empty | .notAllowed | .text | .data _ _ | .value _ _ => []

/-- A pattern in a place stands directly in another. -/
def Below (g : Grammar) (outer inner : PatternId × Place) : Prop := inner ∈ g.below outer.1 outer.2

instance (outer inner : PatternId × Place) : Decidable (g.Below outer inner) :=
  inferInstanceAs (Decidable (_ ∈ g.below _ _))

/-- A pattern stands in a place, on some way from the start. -/
def Occurs (g : Grammar) (start p : PatternId) (place : Place) : Prop :=
  Relation.ReflTransGen g.Below (start, .start) (p, place)

theorem Below.mem_successors {inner outer : PatternId × Place} (h : g.Below outer inner) :
    inner.1 ∈ g.successors outer.1 := by
  obtain ⟨q, place⟩ := inner
  unfold Below below at h
  unfold successors
  cases hp : g.pattern outer.1 <;> simp_all [Pattern.operands] <;> grind

theorem Below.reaches {inner outer : PatternId × Place} (h : Relation.ReflTransGen g.Below outer inner) :
    g.Reaches outer.1 inner.1 := by
  induction h with
  | refl => exact .refl
  | tail _ hb ih => exact ih.tail hb.mem_successors

theorem Occurs.reaches (h : g.Occurs start p place) : g.Reaches start p := Below.reaches h

end Grammar

end RelaxNg
