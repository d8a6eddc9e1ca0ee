import RelaxNg.Proofs.Draft.Calls

/-!
# Asking again

Who asks a draft for a pattern twice gets the same number twice, whatever was asked, defined and expanded in between,
and the second time the draft is left as it is. This rests on what later drafts agree on (`Draft.Extends`): every
pattern is stored once and the table finds it, whatever hashes patterns share (`Table.Keeps`), nothing that is stored is
touched, and the definition that a name stands for stays the same. Each operation is answered alike by all drafts that
extend the one it left (`Draft.Lasts`); elements are the exception, because every element is new.
-/

namespace RelaxNg

namespace Grammar

variable {g h k : Grammar} {name : String} {f : DefinitionId}

/-- The names of the definitions, in the order in which they came up. -/
def definitionNames (g : Grammar) : List String := g.definitions.toList.map Definition.name

theorem definition?_eq_findIdx? (g : Grammar) (name : String) :
    g.definition? name = (g.definitionNames.findIdx? (· == name)).map DefinitionId.mk := by
  rw [definition?, definitionNames, List.findIdx?_map, ← List.findIdx?_toArray, Array.toArray_toList]
  rfl

/-- Definitions that come later do not take a name from an earlier one. -/
theorem definition?_of_isPrefix (hn : g.definitionNames <+: h.definitionNames) (hf : g.definition? name = some f) :
    h.definition? name = some f := by
  rw [definition?_eq_findIdx?] at hf ⊢
  obtain ⟨i, hi, rfl⟩ := Option.map_eq_some_iff.1 hf
  rw [hn.findIdx?_eq_some hi, Option.map_some]

theorem definitionNames_push (g : Grammar) (definition : Definition) :
    definitionNames { g with definitions := g.definitions.push definition } =
      g.definitionNames ++ [definition.name] := by
  simp [definitionNames]

theorem definitionNames_modify (g : Grammar) (i : Nat) (body : Option PatternId) :
    definitionNames { g with definitions := g.definitions.modify i fun old => { old with body } } =
      g.definitionNames := by
  refine List.ext_getElem (by simp [definitionNames]) fun j _ _ => ?_
  simp only [definitionNames, List.getElem_map, Array.getElem_toList, Array.getElem_modify]
  split <;> rfl

theorem Grows.alternativesBefore_eq (hg : g.Sound) (hgh : g.Grows h) {p : PatternId} (hp : g.Has p)
    (rest : List PatternId) : h.alternativesBefore p rest = g.alternativesBefore p rest := by
  fun_induction g.alternativesBefore p rest with
  | case1 p rest left right hpat hlt ih2 ih1 =>
    have hop (q) (hq : q ∈ [left, right]) : g.Has q := hg.operand_has hp (by rwa [hpat])
    rw [alternativesBefore, hgh.pattern_eq hp, hpat]
    simp only [dif_pos hlt]
    rw [ih2 (hop right (by simp)), ih1 (hop left (by simp))]
  | case2 p rest left right hpat hlt =>
    rw [alternativesBefore, hgh.pattern_eq hp, hpat]
    simp only [dif_neg hlt]
  | case3 p rest hpat =>
    rw [alternativesBefore, hgh.pattern_eq hp]
    split
    · next left right h => exact absurd h (hpat left right)
    · rfl

theorem Grows.alternatives_eq (hg : g.Sound) (hgh : g.Grows h) {p : PatternId} (hp : g.Has p) :
    h.alternatives p = g.alternatives p :=
  hgh.alternativesBefore_eq hg hp []

/-- A name that is new stands for the definition that is added for it. -/
theorem definition?_push (hn : g.definition? name = none) (body : Option PatternId) (location : Option Location) :
    definition? { g with definitions := g.definitions.push ⟨name, body, location⟩ } name =
      some ⟨g.definitions.size⟩ := by
  rw [definition?_eq_findIdx?, Option.map_eq_none_iff] at hn
  rw [definition?_eq_findIdx?, definitionNames_push, List.findIdx?_append, hn]
  simp [definitionNames, List.findIdx?_cons]

end Grammar

/-- A call asks for a pattern that may be there already; elements are always new. -/
def Call.Shares : Call → Prop
  | element _ _ _ _ | define _ _ | expand _ => False
  | _ => True

namespace Draft

variable {d d' d₁ d₂ : Draft} {p q : PatternId} {pattern : Pattern} {location : Option Location} {c : Call}
  {name : String}

/-! ## Drafts that agree -/

/-- A later draft stores each of its patterns once, and it agrees on all that the earlier one knows. -/
structure Extends (d d' : Draft) : Prop where
  stored : d'.Stored
  grows : d.grammar.Grows d'.grammar
  names : d.grammar.definitionNames <+: d'.grammar.definitionNames

theorem Extends.trans (h : d.Extends d₁) (h' : d₁.Extends d₂) : d.Extends d₂ :=
  ⟨h'.stored, h.grows.trans h'.grows, h.names.trans h'.names⟩

theorem Made.extends {t : Tree} {r : PatternId × Draft} (h : d.Made t r) : d.Extends r.2 :=
  ⟨h.sound.toStored, h.grows, by rw [Grammar.definitionNames, Grammar.definitionNames, h.definitions_eq]⟩

/-- All drafts that extend the one an operation leaves answer the operation alike and are left as they are. -/
def Lasts (d : Draft) (op : Draft → PatternId × Draft) : Prop :=
  ∀ d', (op d).2.Extends d' → op d' = ((op d).1, d')

/-! ## Storing again -/

theorem locate_eq_self {l : Location} (hl : d.grammar.location? p = some l) : d.locate p location = d := by
  unfold locate
  split
  · rfl
  · have hnodes (l' : Location) : (d.grammar.nodes.modify p.index fun n =>
        { n with location := n.location.or (some l') }) = d.grammar.nodes := by
      refine Array.ext (by simp) fun i hi hi' => ?_
      rw [Array.getElem_modify]
      split
      · next h =>
        subst h
        rw [Grammar.location?, Grammar.node, Array.getElem_eq_getD (h := hi')] at *
        rw [hl, Option.some_or, ← hl]
      · rfl
    rw [hnodes]

theorem exists_location_intern (hd : d.Stored) (pattern : Pattern) (l : Location) :
    ∃ l', (d.intern pattern (some l)).2.grammar.location? (d.intern pattern (some l)).1 = some l' := by
  unfold intern
  split
  · next p hp =>
    have hlt : p.index < d.grammar.nodes.size := (hd.table.number?_eq_some_iff.1 hp).1
    simp [locate, Grammar.location?, Grammar.node, Array.getD_eq_getD_getElem?, Array.getElem_modify, hlt]
  · exact ⟨l, by simp [store, Grammar.location?, Grammar.node, Grammar.nodeOf]⟩

theorem lasts_intern (hd : d.Stored) (pattern : Pattern) (location : Option Location) :
    d.Lasts (·.intern pattern location) := by
  intro d' h
  obtain ⟨hhas, hpattern⟩ := hd.pattern_intern pattern location
  have hnumber : d'.table.number? d'.grammar pattern = some (d.intern pattern location).1 :=
    h.stored.table.number?_eq_some_iff.2 ⟨h.grows.has hhas, by rw [h.grows.pattern_eq hhas, hpattern]⟩
  have hself : d'.locate (d.intern pattern location).1 location = d' := by
    cases location with
    | none => rfl
    | some l =>
      obtain ⟨l', hl⟩ := exists_location_intern hd pattern l
      exact locate_eq_self (h.grows.location_eq hl)
  simp only [intern, hnumber]
  rw [← intern, hself]

/-! ## Asking for the same again -/

/-- What comes of one operation after the other lasts if both do. -/
theorem Lasts.bind {op : Draft → PatternId × Draft} (h : d.Lasts op) (next : PatternId → Draft → PatternId × Draft)
    (hnext : (op d).2.Lasts (next (op d).1)) (hx : (op d).2.Extends (next (op d).1 (op d).2).2) :
    d.Lasts fun d => next (op d).1 (op d).2 := by
  intro d' h'
  have hfirst := h d' (hx.trans h')
  simp only [hfirst]
  exact hnext d' h'

theorem lasts_addAlternatives (hd : d.Sound) {result : PatternId} (hr : d.grammar.Has result)
    {known rest : List PatternId} (hk : ∀ q ∈ known, d.grammar.Has q) (hrest : ∀ q ∈ rest, d.grammar.Has q) :
    d.Lasts (·.addAlternatives result known rest) := by
  induction rest generalizing d result known with
  | nil => exact fun _ _ => rfl
  | cons p rest ih =>
    simp only [List.forall_mem_cons] at hrest
    simp only [addAlternatives]
    split
    · exact ih hd hr hk hrest.2
    · have hm := hd.made_intern (.choice result p) ⟨by simp [Pattern.operands, hr, hrest.1], by simp, by simp⟩ none
      have hk' : ∀ q ∈ p :: known, (d.intern (.choice result p) none).2.grammar.Has q := by
        simpa [hm.grows.has hrest.1] using fun q hq => hm.grows.has (hk q hq)
      have hrest' : ∀ q ∈ rest, (d.intern (.choice result p) none).2.grammar.Has q :=
        fun q hq => hm.grows.has (hrest.2 q hq)
      exact (lasts_intern hd.toStored _ none).bind (fun result d => d.addAlternatives result (p :: known) rest)
        (ih hm.sound hm.has hk' hrest') (made_addAlternatives hm.sound hm.has hk' hrest').extends

theorem lasts_choice (hd : d.Sound) (hp : d.grammar.Has p) (hq : d.grammar.Has q) : d.Lasts (·.choice p q) := by
  intro d' (h : (d.choice p q).2.Extends d')
  have hgrows := (made_choice hd hp hq).grows.trans h.grows
  simp only [choice, hgrows.nullable_eq hp, hgrows.nullable_eq hq, hgrows.alternatives_eq hd.grammar hp,
    hgrows.alternatives_eq hd.grammar hq]
  -- Both drafts take the same branch, because they agree on what it is chosen by.
  unfold choice at h
  split_ifs at h ⊢
  · rfl
  · rfl
  · rfl
  · rfl
  · exact lasts_addAlternatives hd hp (alternatives_has hd hp) (alternatives_has hd hq) d' h

theorem lasts_pair (hd : d.Stored) (pattern : PatternId → PatternId → Pattern) (p q : PatternId) :
    d.Lasts (pair pattern · p q) := by
  unfold pair
  split_ifs
  · exact fun _ _ => rfl
  · exact fun _ _ => rfl
  · exact fun _ _ => rfl
  · exact lasts_intern hd _ none

theorem lasts_oneOrMore (hd : d.Sound) (hp : d.grammar.Has p) : d.Lasts (·.oneOrMore p) := by
  intro d' (h : (d.oneOrMore p).2.Extends d')
  have hgrows := (made_oneOrMore hd hp).grows.trans h.grows
  simp only [oneOrMore, hgrows.pattern_eq hp]
  unfold oneOrMore at h
  split_ifs at h ⊢
  · rfl
  · cases hpat : d.grammar.pattern p with
    | oneOrMore => rfl
    | _ =>
      rw [hpat] at h
      exact lasts_intern hd.toStored _ none d' h

theorem lasts_list (hd : d.Stored) (p : PatternId) (location : Option Location) : d.Lasts (·.list p location) := by
  unfold list
  split_ifs
  · exact fun _ _ => rfl
  · exact lasts_intern hd _ location

theorem lasts_dataExcept (hd : d.Stored) (type : Datatype) (params : List Param) (p : PatternId)
    (location : Option Location) : d.Lasts (·.dataExcept type params p location) := by
  unfold dataExcept
  split_ifs
  · exact lasts_intern hd _ none
  · exact lasts_intern hd _ location

theorem lasts_attr (hd : d.Stored) (names : NameClass) (p : PatternId) (location : Option Location)
    (annotations : Annotations) : d.Lasts (·.attr names p location annotations) := by
  unfold attr
  split_ifs
  · exact fun _ _ => rfl
  · exact lasts_intern hd _ location

theorem lasts_ref (hd : d.Sound) (name : String) (location : Option Location) : d.Lasts (·.ref name location) := by
  intro d' (h : (d.ref name location).2.Extends d')
  cases hf : d.grammar.definition? name with
  | some f =>
    simp only [ref, hf] at h ⊢
    have hsame : d'.grammar.definition? name = some f :=
      Grammar.definition?_of_isPrefix h.names (by rwa [Grammar.definition?, intern_definitions])
    simp only [hsame]
    exact lasts_intern hd.toStored _ location d' h
  | none =>
    simp only [ref, hf] at h ⊢
    -- The first call added the definition that the second one finds.
    have hsame : d'.grammar.definition? name = some ⟨d.grammar.definitions.size⟩ := by
      refine Grammar.definition?_of_isPrefix h.names ?_
      rw [Grammar.definition?, intern_definitions]
      exact Grammar.definition?_push hf none location
    simp only [hsame]
    exact lasts_intern (hd.addDefinition name location).toStored _ location d' h

/-! ## What happens later -/

/-- Calls lead from a draft to a later one, with arguments that are stored when they are made. -/
inductive Later (d : Draft) : Draft → Prop
  | refl : Later d d
  | call {d' : Draft} {c : Call} (h : Later d d') (ha : ∀ p ∈ c.arguments, d'.grammar.Has p) : Later d (d'.after c)

theorem names_define (h : d.define name p = .ok d') : d.grammar.definitionNames <+: d'.grammar.definitionNames := by
  unfold define at h
  split at h
  · split at h
    · cases h
    · cases h
      rw [Grammar.definitionNames_modify]
  · cases h
    rw [Grammar.definitionNames_push]
    exact List.prefix_append ..

theorem names_ref (name : String) (location : Option Location) :
    d.grammar.definitionNames <+: (d.ref name location).2.grammar.definitionNames := by
  unfold ref
  split
  · rw [Grammar.definitionNames, Grammar.definitionNames, intern_definitions]
  · rw [Grammar.definitionNames, Grammar.definitionNames, intern_definitions]
    simp

theorem extends_after (hd : d.Sound) (ha : ∀ p ∈ c.arguments, d.grammar.Has p) : d.Extends (d.after c) := by
  obtain ⟨hsound, hgrows⟩ := grows_after hd ha
  refine ⟨hsound.toStored, hgrows, ?_⟩
  cases c <;> simp only [Call.arguments, List.forall_mem_cons, List.not_mem_nil, IsEmpty.forall_iff, implies_true,
    and_true] at ha
  case data type params => exact (made_data hd type params).extends.names
  case value type content => exact (made_value hd type content).extends.names
  case choice left right => exact (made_choice hd ha.1 ha.2).extends.names
  case group left right => exact (made_group hd ha.1 ha.2).extends.names
  case interleave left right => exact (made_interleave hd ha.1 ha.2).extends.names
  case oneOrMore p => exact (made_oneOrMore hd ha).extends.names
  case optional p => exact (made_optional hd ha).extends.names
  case zeroOrMore p => exact (made_zeroOrMore hd ha).extends.names
  case mixed p => exact (made_mixed hd ha).extends.names
  case list p location => exact (made_list hd ha location).extends.names
  case dataExcept type params except location => exact (made_dataExcept hd type params ha location).extends.names
  case attr names operand location annotations => exact (made_attr hd names ha location annotations).extends.names
  case element names content location annotations =>
    rw [after, element, Grammar.definitionNames, Grammar.definitionNames, intern_definitions]
  case ref name location => exact names_ref name location
  case define name body =>
    rw [after]
    cases h : d.define name body with
    | ok defined => exact names_define h
    | error => exact List.prefix_rfl
  case expand p =>
    rw [after, Grammar.definitionNames, Grammar.definitionNames, (walked_expand hd ha).definitions_eq]

theorem Later.extends (hd : d.Sound) (h : d.Later d') : d.Extends d' := by
  induction h with
  | refl => exact ⟨hd.toStored, .refl _, List.prefix_rfl⟩
  | call _ ha ih => exact ih.trans (extends_after (hd.of_grows ih.stored ih.grows) ha)

/-! ## Answers -/

/-- What a call answers that asks for a pattern, and the draft that it leaves. -/
def ask (d : Draft) : Call → Option (PatternId × Draft)
  | .data type params => some (d.data type params)
  | .value type content => some (d.value type content)
  | .choice left right => some (d.choice left right)
  | .group left right => some (d.group left right)
  | .interleave left right => some (d.interleave left right)
  | .oneOrMore p => some (d.oneOrMore p)
  | .optional p => some (d.optional p)
  | .zeroOrMore p => some (d.zeroOrMore p)
  | .mixed p => some (d.mixed p)
  | .list p location => some (d.list p location)
  | .dataExcept type params except location => some (d.dataExcept type params except location)
  | .attr names operand location annotations => some (d.attr names operand location annotations)
  | .element names content location annotations => some (d.element names content location annotations)
  | .ref name location => some (d.ref name location)
  | .define _ _ | .expand _ => none

theorem ask_again (hd : d.Sound) (ha : ∀ p ∈ c.arguments, d.grammar.Has p) (hc : c.Shares) :
    ∃ p, d.ask c = some (p, d.after c) ∧ ∀ d', (d.after c).Extends d' → d'.ask c = some (p, d') := by
  have answered {op : Draft → PatternId × Draft} (h : d.Lasts op) :
      ∃ p, some (op d) = some (p, (op d).2) ∧ ∀ d', (op d).2.Extends d' → some (op d') = some (p, d') :=
    ⟨_, rfl, fun d' hx => congrArg some (h d' hx)⟩
  cases c <;> simp only [Call.arguments, List.forall_mem_cons, List.not_mem_nil, IsEmpty.forall_iff, implies_true,
    and_true] at ha
  case data type params => exact answered (lasts_intern hd.toStored _ none)
  case value type content => exact answered (lasts_intern hd.toStored _ none)
  case choice left right => exact answered (lasts_choice hd ha.1 ha.2)
  case group left right => exact answered (lasts_pair hd.toStored .group left right)
  case interleave left right => exact answered (lasts_pair hd.toStored .interleave left right)
  case oneOrMore p => exact answered (lasts_oneOrMore hd ha)
  case optional p => exact answered (lasts_choice hd ha hd.has_empty)
  case zeroOrMore p =>
    have hm := made_oneOrMore hd ha
    have hempty : (d.oneOrMore p).2.grammar.Has empty := hm.sound.has_empty
    exact answered ((lasts_oneOrMore hd ha).bind (fun p d => d.choice p empty)
      (lasts_choice hm.sound hm.has hempty) (made_choice hm.sound hm.has hempty).extends)
  case mixed p => exact answered (lasts_pair hd.toStored .interleave p text)
  case list p location => exact answered (lasts_list hd.toStored p location)
  case dataExcept type params except location =>
    exact answered (lasts_dataExcept hd.toStored type params except location)
  case attr names operand location annotations =>
    exact answered (lasts_attr hd.toStored names operand location annotations)
  case element => exact hc.elim
  case ref name location => exact answered (lasts_ref hd name location)
  case define => exact hc.elim
  case expand => exact hc.elim

/-- In a draft that calls lead to, patterns of one kind have one number, and operands have smaller numbers. No call that
comes later touches what is stored. Who asks again for a pattern other than an element is given the same number then,
and nothing changes. -/
theorem ReachedBy.answers_last (hd : d.Built) :
    (∀ p q, d.grammar.Has p → d.grammar.Has q → d.grammar.pattern p = d.grammar.pattern q → p = q) ∧
    (∀ p, ∀ q ∈ (d.grammar.pattern p).operands, q.index < p.index) ∧
    (∀ d', d.Later d' → d.grammar.Grows d'.grammar) ∧
    ∀ c : Call, c.Shares → (∀ p ∈ c.arguments, d.grammar.Has p) →
      ∃ p, d.ask c = some (p, d.after c) ∧ ∀ d', (d.after c).Later d' → d'.ask c = some (p, d') := by
  have hs := hd.sound
  refine ⟨fun p q => hs.toStored.pattern_inj, fun p => (hs.grammar.settled p).operand_lt, fun d' h => ?_,
    fun c hc ha => ?_⟩
  · exact (h.extends hs).grows
  · obtain ⟨p, hp, hagain⟩ := ask_again hs ha hc
    exact ⟨p, hp, fun d' h => hagain d' (h.extends (grows_after hs ha).1)⟩

/-- A reference that is asked for again after its definition got a body has the number that it had before. -/
theorem answers_last_resolvable :
    initial.Built ∧ Call.Shares (.ref "a" none) ∧ resolvable.ask (.ref "a" none) = some (⟨3⟩, resolvable) := by
  refine ⟨.initial, trivial, ?_⟩
  obtain ⟨-, -, -, hask⟩ := ReachedBy.answers_last (d := initial) .initial
  obtain ⟨p, hp, hagain⟩ := hask (.ref "a" none) trivial (by simp [Call.arguments])
  have hnumber : p = ⟨3⟩ := by
    have hfirst : (initial.ask (.ref "a" none)).map Prod.fst = some ⟨3⟩ := by rw [ask, initial_ref, Option.map_some]
    simpa [hp] using hfirst
  have hlater : (initial.after (.ref "a" none)).Later resolvable := by
    refine .call (.call .refl fun p hp => ?_) fun p hp => ?_ <;> rw [Call.arguments, List.mem_singleton] at hp
    · rw [hp]
      exact initial_ref_has
    · rw [hp]
      exact referring_fresh.sound.has_text
  rw [hagain resolvable hlater, hnumber]

end Draft

end RelaxNg
