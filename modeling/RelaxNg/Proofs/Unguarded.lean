import RelaxNg.Proofs.Draft.Calls
import RelaxNg.Proofs.Walk

/-!
# Ways that enter no element

`Grammar.Spans` is reachability without the contents of elements, and a definition recurs (`Grammar.Recurs`) if it
reaches itself in this way: nothing can be put in the place of a reference to it. Both say the same as `Tree.Spans` of
the trees (`Draft.Sound.spans_iff`, `Draft.Sound.recurs_iff`). A reference that is reached at all stands outside the
contents of elements or in the content of one that a walk enters (`Draft.Sound.refers_iff`).

`Draft.looping` is the smallest draft with a definition that recurs: its body repeats the reference to it.
-/

namespace RelaxNg

open Relation

namespace Grammar

/-- What is reached in one step that enters no element: operands and the body of a definition. -/
def spanSuccessors (g : Grammar) (p : PatternId) : List PatternId :=
  match g.pattern p with
  | .ref f => (g.body? f).toList
  | pattern => pattern.operands

/-- A pattern is reached from another without entering an element. -/
def Spans (g : Grammar) : PatternId → PatternId → Prop := ReflTransGen fun p q => q ∈ g.spanSuccessors p

/-- A reference to a definition is reached from a pattern. -/
def Refers (g : Grammar) (p : PatternId) (f : DefinitionId) : Prop := ∃ q, g.Reaches p q ∧ g.pattern q = .ref f

/-- A definition reaches itself without entering an element. -/
def Recurs (g : Grammar) (f : DefinitionId) : Prop :=
  ∃ b q, g.body? f = some b ∧ g.Spans b q ∧ g.pattern q = .ref f

/-- An error names a definition without a body, or one that recurs, to which a reference is reached. -/
inductive Faults (g : Grammar) (p : PatternId) : Error → Prop
  | undefined {f : DefinitionId} (loc : Option Location) (hf : g.Refers p f) (hb : g.body? f = none) :
      Faults g p (.undefinedReference (g.definition f).name loc)
  | recursive {f : DefinitionId} (loc : Option Location) (hf : g.Refers p f) (hr : g.Recurs f) :
      Faults g p (.recursion (.recursiveReference (g.definition f).name loc))

variable {g : Grammar} {p q r : PatternId} {e : ElementId} {f : DefinitionId} {error : Error}

theorem mem_spanSuccessors_of_operand (h : q ∈ (g.pattern p).operands) : q ∈ g.spanSuccessors p := by
  unfold spanSuccessors
  split <;> simp_all [Pattern.operands]

theorem body_mem_spanSuccessors (hp : g.pattern p = .ref f) (hb : g.body? f = some q) : q ∈ g.spanSuccessors p := by
  simp [spanSuccessors, hp, hb]

theorem mem_successors_iff : q ∈ g.successors p ↔
    q ∈ g.spanSuccessors p ∨ ∃ e, g.pattern p = .element e ∧ q = (g.element e).content := by
  unfold successors spanSuccessors
  cases g.pattern p <;> simp [Pattern.operands]

theorem mem_operands_of_mem_spanSuccessors (hp : ∀ f, g.pattern p ≠ .ref f) (h : q ∈ g.spanSuccessors p) :
    q ∈ (g.pattern p).operands := by
  unfold spanSuccessors at h
  split at h
  · next f hf => exact absurd hf (hp f)
  · exact h

theorem body_mem_successors (hp : g.pattern p = .ref f) (hb : g.body? f = some q) : q ∈ g.successors p :=
  mem_successors_iff.2 (.inl (body_mem_spanSuccessors hp hb))

theorem Spans.reaches (h : g.Spans p q) : g.Reaches p q :=
  ReflTransGen.mono (fun _ _ hs => mem_successors_iff.2 (.inl hs)) _ _ h

theorem Refers.of_reaches (h : g.Refers q f) (hp : g.Reaches p q) : g.Refers p f := by
  obtain ⟨r, hr, hf⟩ := h
  exact ⟨r, hp.trans hr, hf⟩

theorem Faults.of_reaches (h : g.Faults q error) (hp : g.Reaches p q) : g.Faults p error := by
  cases h with
  | undefined loc hf hb => exact .undefined loc (hf.of_reaches hp) hb
  | recursive loc hf hr => exact .recursive loc (hf.of_reaches hp) hr

theorem Faults.exists_refers (h : g.Faults p error) : ∃ f, g.Refers p f ∧ (g.body? f = none ∨ g.Recurs f) := by
  cases h with
  | undefined _ hf hb => exact ⟨_, hf, .inl hb⟩
  | recursive _ hf hr => exact ⟨_, hf, .inr hr⟩

end Grammar

namespace Draft

open Tree

variable {d : Draft} {p q : PatternId} {e : ElementId} {f : DefinitionId} {s : Tree}

/-! ## The same ways on trees -/

theorem Sound.down_of_mem (hd : d.Sound) (h : q ∈ d.grammar.spanSuccessors p) :
    Down d.bodies (d.grammar.tree p) (d.grammar.tree q) := by
  unfold Grammar.spanSuccessors at h
  split at h
  · next f hf =>
    rw [hd.grammar.pattern_eq_ref_iff.1 hf]
    exact .body (by simp [bodies, Option.mem_toList.1 h])
  · exact .operand (hd.grammar.operands_tree p ▸ List.mem_map_of_mem h)

theorem Sound.spans_tree (hd : d.Sound) (h : d.grammar.Spans p q) :
    (d.grammar.tree p).Spans d.bodies (d.grammar.tree q) := by
  induction h with
  | refl => exact .refl
  | tail _ hq ih => exact ih.tail (hd.down_of_mem hq)

theorem Sound.exists_spans (hd : d.Sound) (h : (d.grammar.tree p).Spans d.bodies s) :
    ∃ q, d.grammar.Spans p q ∧ d.grammar.tree q = s := by
  induction h with
  | refl => exact ⟨p, .refl, rfl⟩
  | tail _ hdown ih =>
    obtain ⟨q, hq, rfl⟩ := ih
    generalize ht : d.grammar.tree q = t at hdown
    cases hdown with
    | operand ho =>
      rw [← ht, hd.grammar.operands_tree] at ho
      obtain ⟨r, hr, rfl⟩ := List.mem_map.1 ho
      exact ⟨r, hq.tail (Grammar.mem_spanSuccessors_of_operand hr), rfl⟩
    | body h =>
      obtain ⟨b, hb, rfl⟩ := Option.map_eq_some_iff.1 h
      exact ⟨b, hq.tail (Grammar.body_mem_spanSuccessors (hd.grammar.pattern_eq_ref_iff.2 ht) hb), rfl⟩

theorem Sound.spans_iff (hd : d.Sound) :
    (d.grammar.tree p).Spans d.bodies (.ref f) ↔ ∃ q, d.grammar.Spans p q ∧ d.grammar.pattern q = .ref f := by
  constructor
  · intro h
    obtain ⟨q, hq, ht⟩ := hd.exists_spans h
    exact ⟨q, hq, hd.grammar.pattern_eq_ref_iff.2 ht⟩
  · rintro ⟨q, hq, hf⟩
    rw [← hd.grammar.pattern_eq_ref_iff.1 hf]
    exact hd.spans_tree hq

theorem Sound.recurs_iff (hd : d.Sound) : d.grammar.Recurs f ↔ TransGen (Down d.bodies) (.ref f) (.ref f) := by
  constructor
  · rintro ⟨b, q, hb, hq, hf⟩
    exact .head' (.body (by simp [bodies, hb])) (hd.spans_iff.2 ⟨q, hq, hf⟩)
  · intro h
    obtain ⟨t, hdown, ht⟩ := TransGen.head'_iff.1 h
    cases hdown with
    | operand ho => simp [operands] at ho
    | body h =>
      obtain ⟨b, hb, rfl⟩ := Option.map_eq_some_iff.1 h
      obtain ⟨q, hq, hf⟩ := hd.spans_iff.1 ht
      exact ⟨b, q, hb, hq, hf⟩

/-! ## The elements in between -/

theorem exists_reaches_of_enters (hd : d.Sound) (h : d.Enters (d.grammar.tree p) e) :
    ∃ q, d.grammar.Reaches p q ∧ d.grammar.pattern q = .element e := by
  induction h with
  | here hs _ =>
    obtain ⟨q, hq, ht⟩ := hd.exists_spans hs
    exact ⟨q, hq.reaches, hd.grammar.pattern_eq_element_iff.2 ht⟩
  | @inner e e' _ hs _ ih =>
    obtain ⟨q, hq, hqe⟩ := ih
    obtain ⟨r, hr, ht⟩ := hd.exists_spans hs
    exact ⟨r, hq.trans (.head (Grammar.content_mem_successors hqe) hr.reaches), hd.grammar.pattern_eq_element_iff.2 ht⟩

theorem refFree_of_enters (hd : d.Sound) (hf : d.grammar.RefFree p) (h : d.Enters (d.grammar.tree p) e) :
    (d.contents e).RefFree := by
  obtain ⟨q, hq, hqe⟩ := exists_reaches_of_enters hd h
  exact ((hf.of_reaches hq).of_successor (Grammar.content_mem_successors hqe)).tree hd.grammar

/-- Where no element is marked, everything that is reached stands outside of elements or in the content of one that a
walk enters. -/
theorem Sound.spans_or_exists_enters (hd : d.Sound) (hm : ∀ e, e ∉ d.expanded) (h : d.grammar.Reaches p q) :
    (d.grammar.tree p).Spans d.bodies (d.grammar.tree q) ∨
      ∃ e, d.Enters (d.grammar.tree p) e ∧ (d.contents e).Spans d.bodies (d.grammar.tree q) := by
  induction h with
  | refl => exact .inl .refl
  | @tail q r _ hr ih =>
    rcases Grammar.mem_successors_iff.1 hr with hr | ⟨e, he, rfl⟩
    · have hdown := hd.down_of_mem hr
      exact ih.imp (·.tail hdown) fun ⟨e, hent, hs⟩ => ⟨e, hent, hs.tail hdown⟩
    -- A step into an element enters it, because it is not marked.
    · rw [hd.grammar.pattern_eq_element_iff.1 he] at ih
      refine .inr ⟨e, ?_, .refl⟩
      rcases ih with hs | ⟨e', hent, hs⟩
      · exact .here hs (hm e)
      · exact .inner hent hs (hm e)

theorem Sound.refers_iff (hd : d.Sound) (hm : ∀ e, e ∉ d.expanded) : d.grammar.Refers p f ↔
    (d.grammar.tree p).Spans d.bodies (.ref f) ∨
      ∃ e, d.Enters (d.grammar.tree p) e ∧ (d.contents e).Spans d.bodies (.ref f) := by
  constructor
  · rintro ⟨q, hq, hf⟩
    rw [← hd.grammar.pattern_eq_ref_iff.1 hf]
    exact hd.spans_or_exists_enters hm hq
  · rintro (hs | ⟨e, hent, hs⟩)
    · obtain ⟨q, hq, hf⟩ := hd.spans_iff.1 hs
      exact ⟨q, hq.reaches, hf⟩
    · obtain ⟨q, hq, hqe⟩ := exists_reaches_of_enters hd hent
      obtain ⟨r, hr, hf⟩ := hd.spans_iff.1 hs
      exact ⟨r, hq.trans (.head (Grammar.content_mem_successors hqe) hr.reaches), hf⟩

/-! ## A definition that recurs -/

/-- A draft in which pattern 4 repeats a reference, pattern 3, to a definition without a body. -/
def repeating : Draft := (initial.after (.ref "a" none)).after (.oneOrMore ⟨3⟩)

/-- The draft in which the repetition is the body of the definition. -/
def looping : Draft := repeating.after (.define "a" ⟨4⟩)

theorem repeating_grammar : repeating.grammar =
    ⟨#[⟨.empty, true, .empty, none⟩, ⟨.notAllowed, false, .empty, none⟩, ⟨.text, true, .mixed, none⟩,
      ⟨.ref ⟨0⟩, false, .empty, none⟩, ⟨.oneOrMore ⟨3⟩, false, .empty, none⟩], #[], #[⟨"a", none, none⟩]⟩ := by
  have hrepeated : repeating.grammar = (initial.after (.ref "a" none)).grammar.storing (.oneOrMore ⟨3⟩) none := by
    rw [← initial_ref_fresh.sound.toStored.grammar_intern (by simp [initial_ref_grammar])]
    change (oneOrMore _ _).2.grammar = _
    simp [oneOrMore, empty, notAllowed, Grammar.pattern, Grammar.node, initial_ref_grammar]
  rw [hrepeated, initial_ref_grammar]
  rfl

theorem looping_grammar :
    looping.grammar = { repeating.grammar with definitions := #[⟨"a", some ⟨4⟩, none⟩] } := by
  simp [looping, after, define, Grammar.definition?, Grammar.body?, Grammar.definition, repeating_grammar]

theorem repeating_fresh : repeating.Fresh :=
  .call initial_ref_fresh (by simp) (List.forall_mem_singleton.2 initial_ref_has)

theorem repeating_has : repeating.grammar.Has ⟨4⟩ := by
  rw [repeating_grammar]
  decide

theorem looping_fresh : looping.Fresh := by
  refine .call repeating_fresh (by simp) fun p hp => ?_
  rw [Call.arguments, List.mem_singleton] at hp
  rw [hp]
  exact repeating_has

theorem looping_has : looping.grammar.Has ⟨4⟩ := by
  rw [looping_grammar, repeating_grammar]
  decide

theorem looping_name : (looping.grammar.definition ⟨0⟩).name = "a" := by
  rw [looping_grammar]
  rfl

theorem looping_eq (h : looping.grammar.pattern p = .ref f) : f = ⟨0⟩ := by
  have hlt := (looping_fresh.sound.grammar.settled p).ref_lt f h
  rw [looping_grammar] at hlt
  cases f
  simp_all

theorem looping_recurs : looping.grammar.Recurs ⟨0⟩ := by
  rw [looping_grammar, repeating_grammar]
  exact ⟨⟨4⟩, ⟨3⟩, rfl, .single List.mem_cons_self, rfl⟩

theorem looping_refers : looping.grammar.Refers ⟨4⟩ ⟨0⟩ := by
  rw [looping_grammar, repeating_grammar]
  exact ⟨⟨3⟩, .single List.mem_cons_self, rfl⟩

end Draft

end RelaxNg
