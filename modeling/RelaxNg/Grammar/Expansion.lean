import RelaxNg.Grammar.Draft
import RelaxNg.Machine

/-!
# Expansion

`Draft.expand` puts the bodies of definitions in the place of references. Patterns whose operands change are asked for
again, so that they are simplified like all others; the others keep their numbers. The content of an element is
replaced where it stands, once, and within it every definition may be entered again, because the element stands
between. The draft that is left stands also when the expansion fails: the elements it entered stay marked, and those it
left have their new content.
-/

namespace RelaxNg

namespace Expansion

inductive Task where
  | visit (p : PatternId)
  /-- Put a pattern together from its expanded operands. -/
  | rebuild (p : PatternId)
  /-- Take the expanded body of a definition for a reference to it. -/
  | leaveRef (p : PatternId) (d : DefinitionId)
  /-- Take an expanded content for an element; `outer` are the definitions open around it. -/
  | leaveElement (p : PatternId) (e : ElementId) (outer : Std.HashSet DefinitionId)

structure State where
  draft : Draft
  /-- The patterns that are expanded, with the outcome. -/
  done : Std.HashMap PatternId PatternId
  /-- The definitions that are open since the last element. -/
  active : Std.HashSet DefinitionId
  /-- What is to be done, the next first. -/
  tasks : List Task
  /-- Expanded patterns that wait to be taken, the last first. -/
  results : List PatternId

def State.finish (s : State) (p result : PatternId) : State :=
  { s with done := s.done.insert p result, results := result :: s.results }

def State.schedule (s : State) (tasks : List Task) : State := { s with tasks := tasks ++ s.tasks }

def State.fail (s : State) (e : Error) : State ⊕ (Except Error PatternId × Draft) := .inr (.error e, s.draft)

/-- Begins to expand a pattern that is not expanded yet. -/
def enter (s : State) (p : PatternId) : State ⊕ (Except Error PatternId × Draft) :=
  let g := s.draft.grammar
  match g.pattern p with
  | .element e =>
    if s.draft.expanded.contains e then .inl (s.finish p p)
    else
      -- The element is marked before its content is expanded, so that it is left alone inside itself.
      let content := (g.element e).content
      .inl { s with
        draft.expanded := s.draft.expanded.insert e
        active := {}
        tasks := .visit content :: .leaveElement p e s.active :: s.tasks }
  | .ref d =>
    match g.body? d with
    | none => s.fail (.undefinedReference (g.definition d).name (g.location? p))
    | some body =>
      if s.active.contains d then s.fail (.recursion (.recursiveReference (g.definition d).name (g.location? p)))
      else .inl { s with active := s.active.insert d, tasks := .visit body :: .leaveRef p d :: s.tasks }
  | pattern =>
    match pattern.operands with
    | [] => .inl (s.finish p p)
    | operands => .inl (s.schedule (operands.map .visit ++ [.rebuild p]))

/-- The pattern with other operands, from left to right. It is the same one if the operands are. -/
def withOperands (d : Draft) (p : PatternId) (operands : List PatternId) : Except GrammarFault PatternId × Draft :=
  let pattern := d.grammar.pattern p
  if pattern.operands = [] then (.error (.notRebuilt pattern.kindName), d)
  else if pattern.operands = operands then (.ok p, d)
  else
    let location := d.grammar.location? p
    match pattern, operands with
    | .choice _ _, [left, right] => made (d.choice left right)
    | .group _ _, [left, right] => made (d.group left right)
    | .interleave _ _, [left, right] => made (d.interleave left right)
    | .oneOrMore _, [operand] => made (d.oneOrMore operand)
    | .list _, [operand] => made (d.list operand location)
    | .dataExcept type params _, [except] => made (d.dataExcept type params except location)
    | .attr names _ annotations, [value] => made (d.attr names value location annotations)
    -- An operand is missing.
    | _, _ => (.error .noResult, d)
where
  made (r : PatternId × Draft) : Except GrammarFault PatternId × Draft := (.ok r.1, r.2)

/-- Does the next task; without one the last result is the answer. -/
def step (s : State) : State ⊕ (Except Error PatternId × Draft) :=
  match s with
  | ⟨draft, done, active, tasks, results⟩ =>
    match tasks with
    | [] =>
      match results with
      | result :: _ => .inr (.ok result, draft)
      | [] => .inr (.error (.grammar .noResult), draft)
    | .visit p :: rest =>
      match done[p]? with
      | some result => .inl ⟨draft, done, active, rest, result :: results⟩
      | none => enter ⟨draft, done, active, rest, results⟩ p
    | .rebuild p :: rest =>
      let count := (draft.grammar.pattern p).operands.length
      match withOperands draft p (results.take count).reverse with
      | (.ok result, draft) => .inl (State.finish ⟨draft, done, active, rest, results.drop count⟩ p result)
      | (.error fault, draft) => .inr (.error (.grammar fault), draft)
    | .leaveRef p d :: rest =>
      match results with
      | result :: results => .inl (State.finish ⟨draft, done, active.erase d, rest, results⟩ p result)
      | [] => .inr (.error (.grammar .noResult), draft)
    -- The element keeps its number; only its content is another one.
    | .leaveElement p e outer :: rest =>
      match results with
      | result :: results => .inl (State.finish ⟨draft.setContent e result, done, outer, rest, results⟩ p p)
      | [] => .inr (.error (.grammar .noResult), draft)

end Expansion

/-- The pattern without references, and the draft that is left. -/
def Draft.expand (d : Draft) (p : PatternId) : Except Error PatternId × Draft :=
  (Machine.run Expansion.step ⟨d, {}, {}, [.visit p], []⟩).getD (.error (.grammar .unfinished), d)

end RelaxNg
