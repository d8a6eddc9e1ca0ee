import RelaxNg.Proofs.Expansion.Run

/-!
# Drafts that calls lead to

`Call` lists what can be asked of a draft, and `Draft.after` is the draft that a call leaves, also when it fails. A
draft is `Built` if calls lead to it from the initial one whose arguments are stored, and `Fresh` if no expansion is
among them. All of these are sound (`ReachedBy.sound`), and no call touches what is stored (`grows_after`).
-/

namespace RelaxNg

/-- What can be asked of a draft. -/
inductive Call where
  | data (type : Datatype) (params : List Param)
  | value (type : Datatype) (content : String)
  | choice (left right : PatternId)
  | group (left right : PatternId)
  | interleave (left right : PatternId)
  | oneOrMore (p : PatternId)
  | optional (p : PatternId)
  | zeroOrMore (p : PatternId)
  | mixed (p : PatternId)
  | list (p : PatternId) (location : Option Location)
  | dataExcept (type : Datatype) (params : List Param) (except : PatternId) (location : Option Location)
  | attr (names : NameClass) (operand : PatternId) (location : Option Location) (annotations : Annotations)
  | element (names : NameClass) (content : PatternId) (location : Option Location) (annotations : Annotations)
  | ref (name : String) (location : Option Location)
  | define (name : String) (body : PatternId)
  | expand (p : PatternId)

def Call.arguments : Call → List PatternId
  | data _ _ | value _ _ | ref _ _ => []
  | choice left right | group left right | interleave left right => [left, right]
  | oneOrMore p | optional p | zeroOrMore p | mixed p | list p _ | dataExcept _ _ p _ | attr _ p _ _ | element _ p _ _
  | define _ p | expand p => [p]

namespace Draft

/-- The draft that a call leaves. One that fails to define leaves the draft as it is. -/
def after (d : Draft) : Call → Draft
  | .data type params => (d.data type params).2
  | .value type content => (d.value type content).2
  | .choice left right => (d.choice left right).2
  | .group left right => (d.group left right).2
  | .interleave left right => (d.interleave left right).2
  | .oneOrMore p => (d.oneOrMore p).2
  | .optional p => (d.optional p).2
  | .zeroOrMore p => (d.zeroOrMore p).2
  | .mixed p => (d.mixed p).2
  | .list p location => (d.list p location).2
  | .dataExcept type params except location => (d.dataExcept type params except location).2
  | .attr names operand location annotations => (d.attr names operand location annotations).2
  | .element names content location annotations => (d.element names content location annotations).2
  | .ref name location => (d.ref name location).2
  | .define name body =>
    match d.define name body with
    | .ok defined => defined
    | .error _ => d
  | .expand p => (d.expand p).2

/-- A draft to which calls of some kind lead from the initial one, with arguments that are stored. -/
inductive ReachedBy (allowed : Call → Prop) : Draft → Prop
  | initial : ReachedBy allowed initial
  | call {d : Draft} {c : Call} (h : ReachedBy allowed d) (hc : allowed c)
      (ha : ∀ p ∈ c.arguments, d.grammar.Has p) : ReachedBy allowed (d.after c)

/-- A draft to which calls lead. -/
abbrev Built : Draft → Prop := ReachedBy fun _ => True

/-- A draft to which calls lead, but no expansion. -/
abbrev Fresh : Draft → Prop := ReachedBy fun c => ∀ p, c ≠ .expand p

variable {d d' : Draft} {p : PatternId} {c : Call} {t : Tree}

/-! ## Calls that expand nothing -/

theorem made_optional (hd : d.Sound) (hp : d.grammar.Has p) :
    d.Made ((d.grammar.tree p).either .empty) (d.optional p) := by
  have h := made_choice hd hp hd.has_empty
  rwa [hd.tree_empty] at h

theorem made_zeroOrMore (hd : d.Sound) (hp : d.grammar.Has p) :
    d.Made ((d.grammar.tree p).repeated.either .empty) (d.zeroOrMore p) := by
  by_cases hn : d.grammar.tree p = .notAllowed
  · -- What accepts nothing is not repeated, so it is no part of what is made.
    have hself : d.oneOrMore p = (p, d) := if_pos (.inr ((hd.eq_notAllowed_iff hp).2 hn))
    have ht : (d.grammar.tree p).repeated = d.grammar.tree p := if_pos (.inr hn)
    rw [zeroOrMore, hself, ht]
    exact made_optional hd hp
  · have h := made_oneOrMore hd hp
    have h' := made_optional h.sound h.has
    rw [h.tree_eq] at h'
    exact h.trans h' (Tree.part_either_empty (Tree.repeated_ne_notAllowed hn))

theorem made_mixed (hd : d.Sound) (hp : d.grammar.Has p) :
    d.Made (Tree.both .interleave (d.grammar.tree p) .text) (d.mixed p) := by
  have h := made_interleave hd hp hd.has_text
  rwa [hd.tree_text] at h

/-- A call that expands nothing keeps what is stored and marks nothing. -/
structure Keeps (d d' : Draft) : Prop where
  sound : d'.Sound
  grows : d.grammar.Grows d'.grammar
  expanded_eq : d'.expanded = d.expanded

theorem Made.keeps {r : PatternId × Draft} (h : d.Made t r) : d.Keeps r.2 := ⟨h.sound, h.grows, h.expanded_eq⟩

theorem Sound.addElement (hd : d.Sound) (hp : d.grammar.Has p) (names : NameClass) (location : Option Location)
    (annotations : Annotations) :
    Sound { d with grammar.elements := d.grammar.elements.push ⟨names, p, location, annotations⟩ } := by
  refine hd.withParts (by simp) le_rfl (fun e he => ?_) fun _ => hd.body_of_mem
  rcases Array.mem_push.1 he with he | rfl
  · exact hd.content_of_mem he
  · exact hp

theorem keeps_element (hd : d.Sound) (hp : d.grammar.Has p) (names : NameClass) (location : Option Location)
    (annotations : Annotations) : d.Keeps (d.element names p location annotations).2 := by
  unfold element
  have hm := (hd.addElement hp names location annotations).made_intern (.element ⟨d.grammar.elements.size⟩)
    ⟨by simp [Pattern.operands], by simp, by simp⟩ location
  have hgrows : d.grammar.Grows { d.grammar with
      elements := d.grammar.elements.push ⟨names, p, location, annotations⟩ } := .of_nodes_eq rfl
  exact ⟨hm.sound, hgrows.trans hm.grows, hm.expanded_eq⟩

/-- The pattern of a new element is new. -/
theorem Sound.grammar_after_element (hd : d.Sound) (hp : d.grammar.Has p) (names : NameClass)
    (location : Option Location) (annotations : Annotations) :
    (d.after (.element names p location annotations)).grammar =
      Grammar.storing { d.grammar with elements := d.grammar.elements.push ⟨names, p, location, annotations⟩ }
        (.element ⟨d.grammar.elements.size⟩) location := by
  have hnew : ∀ n ∈ d.grammar.nodes, n.pattern ≠ .element ⟨d.grammar.elements.size⟩ := by
    intro n hn hpattern
    obtain ⟨q, -, rfl⟩ := Grammar.exists_has_of_mem (g := d.grammar) hn
    exact lt_irrefl _ ((hd.grammar.settled q).element_lt _ hpattern)
  rw [after, element, (hd.addElement hp names location annotations).toStored.intern_eq_store hnew]
  rfl

theorem Sound.grammar_after_group (hd : d.Sound) {q : PatternId} (hp : p ≠ empty ∧ p ≠ notAllowed)
    (hq : q ≠ empty ∧ q ≠ notAllowed) (hnew : ∀ n ∈ d.grammar.nodes, n.pattern ≠ .group p q) :
    (d.after (.group p q)).grammar = d.grammar.storing (.group p q) none := by
  rw [← hd.toStored.grammar_intern hnew]
  simp [after, group, pair, hp, hq]

/-- A choice between patterns that are no choices themselves is stored as it is asked for. -/
theorem Sound.grammar_after_choice (hd : d.Sound) {q : PatternId} (hne : p ≠ q) (hp : p ≠ empty ∧ p ≠ notAllowed)
    (hq : q ≠ empty ∧ q ≠ notAllowed) (hleft : ∀ l r, d.grammar.pattern p ≠ .choice l r)
    (hright : ∀ l r, d.grammar.pattern q ≠ .choice l r) (hnew : ∀ n ∈ d.grammar.nodes, n.pattern ≠ .choice p q) :
    (d.after (.choice p q)).grammar = d.grammar.storing (.choice p q) none := by
  rw [← hd.toStored.grammar_intern hnew]
  simp [after, choice, hne, hne.symm, hp, hq, Grammar.alternatives_eq_self hleft, Grammar.alternatives_eq_self hright,
    addAlternatives]

theorem Sound.addDefinition (hd : d.Sound) (name : String) (location : Option Location) :
    Sound { d with grammar.definitions := d.grammar.definitions.push ⟨name, none, location⟩ } := by
  refine hd.withParts le_rfl (by simp) (fun _ => hd.content_of_mem) fun f hf b hb => ?_
  rcases Array.mem_push.1 hf with hf | rfl
  · exact hd.body_of_mem hf hb
  · cases hb

/-- The reference to a new definition is new. -/
theorem Sound.ref_eq (hd : d.Sound) {name : String} (hname : d.grammar.definition? name = none)
    (location : Option Location) :
    d.ref name location = (⟨d.grammar.nodes.size⟩,
      store { d with grammar.definitions := d.grammar.definitions.push ⟨name, none, location⟩ }
        (.ref ⟨d.grammar.definitions.size⟩) location) := by
  simp only [ref, hname]
  refine (hd.addDefinition name location).toStored.intern_eq_store (fun n hn hpattern => ?_) location
  obtain ⟨q, -, rfl⟩ := Grammar.exists_has_of_mem (g := d.grammar) hn
  exact lt_irrefl _ ((hd.grammar.settled q).ref_lt _ hpattern)

theorem definition?_lt {g : Grammar} {name : String} {f : DefinitionId} (hf : g.definition? name = some f) :
    f.index < g.definitions.size := by
  unfold Grammar.definition? at hf
  obtain ⟨i, hi, rfl⟩ := Option.map_eq_some_iff.1 hf
  exact (Array.findIdx?_eq_some_iff_findIdx_eq.1 hi).1

theorem keeps_ref (hd : d.Sound) (name : String) (location : Option Location) :
    d.Keeps (d.ref name location).2 := by
  unfold ref
  split
  · next f hf =>
    have hlt := definition?_lt hf
    exact (hd.made_intern (.ref f) ⟨by simp [Pattern.operands], by simp, by simp [hlt]⟩ location).keeps
  · have hm := (hd.addDefinition name location).made_intern (.ref ⟨d.grammar.definitions.size⟩)
      ⟨by simp [Pattern.operands], by simp, by simp⟩ location
    have hgrows : d.grammar.Grows { d.grammar with
        definitions := d.grammar.definitions.push ⟨name, none, location⟩ } := .of_nodes_eq rfl
    exact ⟨hm.sound, hgrows.trans hm.grows, hm.expanded_eq⟩

/-- A definition that gets its body changes nothing but the definitions. -/
theorem exists_define_eq {name : String} (h : d.define name p = .ok d') :
    ∃ definitions : Array Definition, d' = { d with grammar.definitions := definitions } ∧
      d.grammar.definitions.size ≤ definitions.size ∧
      ∀ f ∈ definitions, f ∈ d.grammar.definitions ∨ f.body = some p := by
  unfold define at h
  split at h
  · split at h
    · cases h
    · cases h
      refine ⟨_, rfl, by simp, fun f hf => ?_⟩
      obtain ⟨i, hi, rfl⟩ := Array.mem_iff_getElem.1 hf
      rw [Array.getElem_modify]
      split
      · exact .inr rfl
      · exact .inl (Array.getElem_mem _)
  · cases h
    refine ⟨_, rfl, by simp, fun f hf => ?_⟩
    rcases Array.mem_push.1 hf with hf | rfl
    · exact .inl hf
    · exact .inr rfl

theorem keeps_define (hd : d.Sound) (hp : d.grammar.Has p) {name : String} (h : d.define name p = .ok d') :
    d.Keeps d' := by
  obtain ⟨definitions, rfl, hsize, hmem⟩ := exists_define_eq h
  refine ⟨hd.withParts le_rfl hsize (fun _ => hd.content_of_mem) fun f hf b hb => ?_, .of_nodes_eq rfl, rfl⟩
  rcases hmem f hf with hf | hbody
  · exact hd.body_of_mem hf hb
  · rw [hbody] at hb
    cases hb
    exact hp

theorem keeps_after (hd : d.Sound) (ha : ∀ p ∈ c.arguments, d.grammar.Has p) (hc : ∀ p, c ≠ .expand p) :
    d.Keeps (d.after c) := by
  cases c <;> simp only [Call.arguments, List.forall_mem_cons, List.not_mem_nil, IsEmpty.forall_iff, implies_true,
    and_true] at ha
  case data type params => exact (made_data hd type params).keeps
  case value type content => exact (made_value hd type content).keeps
  case choice left right => exact (made_choice hd ha.1 ha.2).keeps
  case group left right => exact (made_group hd ha.1 ha.2).keeps
  case interleave left right => exact (made_interleave hd ha.1 ha.2).keeps
  case oneOrMore p => exact (made_oneOrMore hd ha).keeps
  case optional p => exact (made_optional hd ha).keeps
  case zeroOrMore p => exact (made_zeroOrMore hd ha).keeps
  case mixed p => exact (made_mixed hd ha).keeps
  case list p location => exact (made_list hd ha location).keeps
  case dataExcept type params except location => exact (made_dataExcept hd type params ha location).keeps
  case attr names operand location annotations => exact (made_attr hd names ha location annotations).keeps
  case element names content location annotations => exact keeps_element hd ha names location annotations
  case ref name location => exact keeps_ref hd name location
  case define name body =>
    rw [after]
    cases h : d.define name body with
    | ok defined => exact keeps_define hd ha h
    | error => exact ⟨hd, .refl _, rfl⟩
  case expand p => exact absurd rfl (hc p)

/-! ## All calls -/

theorem walked_expand (hd : d.Sound) (hp : d.grammar.Has p) : d.Walked (d.grammar.tree p) (d.expand p).2 := by
  rcases expand_cases hd hp with ⟨q, d', h, -, hr⟩ | ⟨error, d', h, hr⟩
  · rw [h]
    exact hr.toWalked
  · rw [h]
    exact hr.toWalked

/-- No call touches what is stored, and every call leaves a sound draft. -/
theorem grows_after (hd : d.Sound) (ha : ∀ p ∈ c.arguments, d.grammar.Has p) :
    (d.after c).Sound ∧ d.grammar.Grows (d.after c).grammar := by
  by_cases hc : ∃ p, c = .expand p
  · obtain ⟨p, rfl⟩ := hc
    have h := walked_expand hd (ha p (by simp [Call.arguments]))
    exact ⟨h.sound, h.grows⟩
  · have h := keeps_after hd ha fun p hp => hc ⟨p, hp⟩
    exact ⟨h.sound, h.grows⟩

theorem ReachedBy.sound {allowed : Call → Prop} (h : ReachedBy allowed d) : d.Sound := by
  induction h with
  | initial => exact initial_sound
  | call _ _ ha ih => exact (grows_after ih ha).1

theorem ReachedBy.built {allowed : Call → Prop} (h : ReachedBy allowed d) : d.Built := by
  induction h with
  | initial => exact .initial
  | call _ _ ha ih => exact .call ih trivial ha

theorem exists_has_of_spans {s : Tree} (hd : d.Sound) (hp : d.grammar.Has p)
    (h : (d.grammar.tree p).Spans d.bodies s) : ∃ q, d.grammar.Has q ∧ d.grammar.tree q = s := by
  induction h with
  | refl => exact ⟨p, hp, rfl⟩
  | tail _ hdown ih =>
    obtain ⟨q, hq, rfl⟩ := ih
    generalize ht : d.grammar.tree q = t at hdown
    cases hdown with
    | operand ho =>
      rw [← ht, hd.grammar.operands_tree] at ho
      obtain ⟨r, hr, rfl⟩ := List.mem_map.1 ho
      exact ⟨r, hd.grammar.operand_has hq hr, rfl⟩
    | body hf =>
      obtain ⟨b, hb, rfl⟩ := Option.map_eq_some_iff.1 hf
      exact ⟨b, hd.grammar.body_has _ b hb, rfl⟩

theorem exists_has_of_enters {e : ElementId} (hd : d.Sound) (hp : d.grammar.Has p)
    (h : d.Enters (d.grammar.tree p) e) : ∃ q, d.grammar.Has q ∧ d.grammar.tree q = .element e := by
  induction h with
  | here hs _ => exact exists_has_of_spans hd hp hs
  | @inner e _ _ hs _ _ => exact exists_has_of_spans hd (hd.has_content e) hs

theorem ReachedBy.exists_has_of_mem {allowed : Call → Prop} (h : ReachedBy allowed d) {e : ElementId}
    (he : e ∈ d.expanded) : ∃ q, d.grammar.Has q ∧ d.grammar.tree q = .element e := by
  induction h with
  | initial => simp [Draft.initial] at he
  | @call d c h _ ha ih =>
    have hd := h.sound
    have hgrows := (grows_after hd ha).2
    suffices hold : ∃ q, d.grammar.Has q ∧ d.grammar.tree q = .element e by
      obtain ⟨q, hq, ht⟩ := hold
      exact ⟨q, hgrows.has hq, by rw [hgrows.tree_eq hq, ht]⟩
    by_cases hold : e ∈ d.expanded
    · exact ih hold
    by_cases hc : ∃ p, c = .expand p
    · obtain ⟨p, rfl⟩ := hc
      have hp := ha p (by simp [Call.arguments])
      exact exists_has_of_enters hd hp ((walked_expand hd hp).entered e he hold)
    · rw [(keeps_after hd ha fun p hp => hc ⟨p, hp⟩).expanded_eq] at he
      exact absurd he hold

theorem Fresh.not_mem_expanded (h : d.Fresh) (e : ElementId) : e ∉ d.expanded := by
  induction h with
  | initial => simp [initial]
  | call h hc ha ih =>
    rw [(keeps_after h.sound ha hc).expanded_eq]
    exact ih

/-! ## An element that refers to a definition -/

/-- A draft with one element, whose content refers to a definition without a body. -/
def referring : Draft := (initial.after (.ref "a" none)).after (.element (.plain "e") ⟨3⟩ none .none)

/-- The draft with a body for the definition: any text. -/
def resolvable : Draft := referring.after (.define "a" text)

theorem initial_ref : initial.ref "a" none = (⟨3⟩,
    store { initial with grammar.definitions := initial.grammar.definitions.push ⟨"a", none, none⟩ }
      (.ref ⟨0⟩) none) := by
  have hnodes : initial.grammar.nodes.size = 3 := by
    rw [initial_grammar]
    rfl
  have hdefinitions : initial.grammar.definitions.size = 0 := by
    rw [initial_grammar]
    rfl
  rw [initial_sound.ref_eq (by simp [initial_grammar, Grammar.definition?]), hnodes, hdefinitions]

theorem initial_ref_grammar : (initial.after (.ref "a" none)).grammar =
    ⟨#[⟨.empty, true, .empty, none⟩, ⟨.notAllowed, false, .empty, none⟩, ⟨.text, true, .mixed, none⟩,
      ⟨.ref ⟨0⟩, false, .empty, none⟩], #[], #[⟨"a", none, none⟩]⟩ := by
  simp [after, initial_ref, initial_grammar, Grammar.storing, Grammar.nodeOf, Pattern.isNullable, Pattern.contentType]

theorem initial_ref_fresh : (initial.after (.ref "a" none)).Fresh :=
  .call .initial (by simp) (by simp [Call.arguments])

theorem initial_ref_has : (initial.after (.ref "a" none)).grammar.Has ⟨3⟩ := by
  rw [initial_ref_grammar]
  decide

theorem referring_grammar : referring.grammar =
    ⟨#[⟨.empty, true, .empty, none⟩, ⟨.notAllowed, false, .empty, none⟩, ⟨.text, true, .mixed, none⟩,
      ⟨.ref ⟨0⟩, false, .empty, none⟩, ⟨.element ⟨0⟩, false, .complex, none⟩],
      #[⟨.plain "e", ⟨3⟩, none, .none⟩], #[⟨"a", none, none⟩]⟩ := by
  simp [referring, initial_ref_fresh.sound.grammar_after_element initial_ref_has, initial_ref_grammar, Grammar.storing,
    Grammar.nodeOf, Pattern.isNullable, Pattern.contentType]

theorem resolvable_grammar :
    resolvable.grammar = { referring.grammar with definitions := #[⟨"a", some text, none⟩] } := by
  simp [resolvable, after, define, Grammar.definition?, Grammar.body?, Grammar.definition, referring_grammar]

theorem referring_fresh : referring.Fresh :=
  .call initial_ref_fresh (by simp) (List.forall_mem_singleton.2 initial_ref_has)

theorem referring_has : referring.grammar.Has ⟨4⟩ := by
  rw [referring_grammar]
  decide

theorem resolvable_fresh : resolvable.Fresh := by
  refine .call referring_fresh (by simp) fun p hp => ?_
  rw [Call.arguments, List.mem_singleton] at hp
  subst hp
  exact referring_fresh.sound.has_text

theorem referring_tree : referring.grammar.tree ⟨4⟩ = .element ⟨0⟩ := by
  rw [referring_fresh.sound.grammar.tree_eq, referring_grammar]
  rfl

theorem referring_tree_ref : referring.grammar.tree ⟨3⟩ = .ref ⟨0⟩ := by
  rw [referring_fresh.sound.grammar.tree_eq, referring_grammar]
  rfl

theorem referring_contents : referring.contents ⟨0⟩ = .ref ⟨0⟩ := by
  have hcontent : (referring.grammar.element ⟨0⟩).content = ⟨3⟩ := by
    rw [referring_grammar]
    rfl
  rw [contents, hcontent, referring_tree_ref]

theorem referring_bodies : referring.bodies ⟨0⟩ = none := by
  rw [bodies, referring_grammar]
  rfl

theorem referring_enters {e : ElementId} (h : referring.Enters (.element ⟨0⟩) e) : e = ⟨0⟩ := by
  induction h with
  | here hs _ =>
    cases hs.eq_element
    rfl
  | inner _ hs _ ih =>
    rw [ih, referring_contents] at hs
    cases hs.eq_undefined referring_bodies

/-- Expanding the element fails, and leaves it marked with the reference in it. -/
theorem referring_expand : ∃ error d₁, referring.expand ⟨4⟩ = (.error error, d₁) ∧
    referring.Walked (.element ⟨0⟩) d₁ ∧ ⟨0⟩ ∈ d₁.expanded ∧ d₁.contents ⟨0⟩ = .ref ⟨0⟩ := by
  have hundefined : ¬ Tree.Expandable referring.bodies (.ref ⟨0⟩) := Tree.not_expandable_of_undefined referring_bodies
  have hkept {d₁ : Draft} (hw : referring.Walked (.element ⟨0⟩) d₁) : d₁.contents ⟨0⟩ = .ref ⟨0⟩ := by
    rcases hw.kept ⟨0⟩ with hk | ⟨-, -, hx⟩
    · rw [hk, referring_contents]
    · rw [referring_contents] at hx
      exact absurd ⟨_, hx⟩ hundefined
  rcases expand_cases referring_fresh.sound referring_has with ⟨q, d', -, -, hr⟩ | ⟨error, d', h, hr⟩ <;>
    rw [referring_tree] at hr
  · have hent : referring.Enters (.element ⟨0⟩) ⟨0⟩ := .here .refl (referring_fresh.not_mem_expanded _)
    have hc := (hr.completed _ (hr.mem_of_enters hent) hent.not_mem).1
    rw [referring_contents] at hc
    exact absurd ⟨_, hc⟩ hundefined
  · refine ⟨error, d', h, hr.toWalked, ?_, hkept hr.toWalked⟩
    rcases hr.blamed with ⟨hb, -⟩ | ⟨e, he, hn, -⟩
    · exact absurd ⟨_, Tree.Expands.of_leaf (by simp) rfl⟩ hb.not_expandable
    · exact referring_enters (hr.entered e he hn) ▸ he

theorem resolvable_tree : resolvable.grammar.tree = referring.grammar.tree :=
  Grammar.tree_eq_of_nodes_eq (by rw [resolvable_grammar])

theorem resolvable_contents : resolvable.contents = referring.contents := by
  funext e
  rw [contents, resolvable_tree, resolvable_grammar]
  rfl

theorem resolvable_bodies : resolvable.bodies ⟨0⟩ = some .text := by
  have hb : resolvable.grammar.body? ⟨0⟩ = some text := by
    rw [resolvable_grammar]
    rfl
  rw [bodies, hb, Option.map_some, resolvable_fresh.sound.tree_text]

end Draft

end RelaxNg
