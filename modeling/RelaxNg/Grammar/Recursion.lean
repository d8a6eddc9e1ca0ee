import RelaxNg.Grammar.Draft
import RelaxNg.Limits
import RelaxNg.Machine

/-!
# Recursion

A definition may reach itself only through an element: otherwise nothing can be put in the place of a reference to it.
`Grammar.checkRecursion` walks a grammar with the number of elements entered on the way, the depth. A reference to a
definition that is still open at the same depth is refused, and so is a definition without a body and a grammar whose
patterns nest deeper than the limits allow.
-/

namespace RelaxNg

namespace RecursionCheck

inductive Progress where
  /-- It was entered at a depth and is not left yet. -/
  | openAt (depth : Nat)
  | done
deriving DecidableEq, Inhabited

inductive Task where
  /-- Walk a pattern at a depth, so many patterns below the start. -/
  | visit (p : PatternId) (depth level : Nat)
  | leave (d : DefinitionId)
deriving DecidableEq, Inhabited

structure State where
  definitions : Std.HashMap DefinitionId Progress := {}
  elements : Std.HashSet ElementId := {}
  /-- The patterns that were walked, with the depth. -/
  visited : Std.HashSet (PatternId × Nat) := {}
  tasks : List Task

/-- Where a reference was written: its own location or that of the first reference to its definition. -/
def placeOfRef (g : Grammar) (p : PatternId) (d : DefinitionId) : Option Location :=
  (g.location? p).or (g.definition d).location

/-- Walks a pattern; what remains to be walked of it goes on top of the tasks. -/
def visit (g : Grammar) (s : State) (p : PatternId) (depth level : Nat) : Except Error State :=
  match g.pattern p with
  | .ref d =>
    match s.definitions[d]? with
    | none =>
      match g.body? d with
      | none => .error (.undefinedReference (g.definition d).name (placeOfRef g p d))
      | some body =>
        .ok { s with
          definitions := s.definitions.insert d (.openAt depth)
          tasks := .visit body depth (level + 1) :: .leave d :: s.tasks }
    | some progress =>
      -- Open at another depth, an element stands between the definition and its reference.
      if progress = .openAt depth then
        .error (.recursion (.recursiveReference (g.definition d).name (placeOfRef g p d)))
      else .ok s
  | pattern =>
    if s.visited.contains (p, depth) then .ok s
    else
      let s := { s with visited := s.visited.insert (p, depth) }
      match pattern with
      | .element e =>
        if s.elements.contains e then .ok s
        else
          .ok { s with
            elements := s.elements.insert e
            tasks := .visit (g.element e).content (depth + 1) (level + 1) :: s.tasks }
      | pattern => .ok { s with tasks := (pattern.operands.map fun q => .visit q depth (level + 1)) ++ s.tasks }

/-- Does the next task; without one the grammar passes. -/
def step (g : Grammar) (limits : Limits) (s : State) : State ⊕ Except Error Unit :=
  match s with
  | ⟨definitions, elements, visited, tasks⟩ =>
    match tasks with
    | [] => .inr (.ok ())
    | .leave d :: rest => .inl ⟨definitions.insert d .done, elements, visited, rest⟩
    | .visit p depth level :: rest =>
      -- The level counts before anything else, also for a pattern that was walked already.
      match limits.checkRecursion level with
      | .error e => .inr (.error e)
      | .ok () =>
        match visit g ⟨definitions, elements, visited, rest⟩ p depth level with
        | .error e => .inr (.error e)
        | .ok s => .inl s

end RecursionCheck

/-- Refuses a grammar in which a definition reaches itself without an element between, a reference has no body behind
it or patterns nest too deep. -/
def Grammar.checkRecursion (g : Grammar) (start : PatternId) (limits : Limits) : Except Error Unit :=
  (Machine.run (RecursionCheck.step g limits) { tasks := [.visit start 0 0] }).getD (.error (.grammar .unfinished))

end RelaxNg
