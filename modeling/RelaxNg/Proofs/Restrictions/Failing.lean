import RelaxNg.Proofs.Restrictions.Passing

/-!
# Checks that fail

With which errors a check fails, kind of pattern by kind of pattern (`check_*_fails`): the pattern stands in a place
that prohibits it, the check of an operand fails after those before it passed, or the pattern itself breaks a
restriction. `Breaks` leaves out locations and is about the restriction only; `check_*_breaks` says of it what follows.
-/

namespace RelaxNg

/-- The restrictions of the check that are not about the place of a pattern alone. -/
def Restriction.beyondPlaces : List Restriction :=
  [xmlnsAttributeName, duplicateAttribute, interleaveElementOverlap, interleaveTextOverlap, groupString,
    interleaveString, oneOrMoreString]

theorem Place.prohibited?_ne {r : Restriction} (hr : r ∈ Restriction.beyondPlaces) (place : Place) (pattern : Pattern) :
    place.prohibited? pattern ≠ some r := by
  rintro h
  cases pattern <;> cases place <;> simp [prohibited?] at h <;> simp [← h, Restriction.beyondPlaces] at hr

namespace RestrictionCheck

open Attempt

variable {g : Grammar} {limit levels : Nat} {p : PatternId} {place : Place} {s u : State} {r : Restriction} {e : Error}
  {α : Type}

/-- A step fails with an error. -/
def Fails (step : Attempt State α) (s : State) (e : Error) : Prop := (step.runFrom s).1 = .error e

/-- A step fails because a restriction is broken. -/
def Breaks (step : Attempt State α) (s : State) (r : Restriction) : Prop :=
  ∃ v, (step.runFrom s).1 = .error (.restriction v) ∧ v.restriction = r

theorem breaks_iff {step : Attempt State α} :
    Breaks step s r ↔ ∃ v, Fails step s (.restriction v) ∧ v.restriction = r := .rfl

/-! ## The parts of a check -/

theorem bind_fails {step : Attempt State α} {next : α → Check} :
    Fails (step >>= next) s e ↔ Fails step s e ∨ ∃ a t, step.runFrom s = (.ok a, t) ∧ Fails (next a) t e := by
  unfold Fails
  rw [runFrom_bind]
  rcases step.runFrom s with ⟨_ | a, t⟩
  · simp
  · constructor
    · intro h
      exact .inr ⟨a, t, rfl, h⟩
    · rintro (h | ⟨_, _, ⟨⟩, h⟩)
      · cases h
      · exact h

theorem then_fails {step : Check} {next : Unit → Check} :
    Fails (step >>= next) s e ↔ Fails step s e ∨ ∃ t, step.runFrom s = (.ok (), t) ∧ Fails (next ()) t e :=
  bind_fails.trans ⟨Or.imp_right fun ⟨_, h⟩ => h, Or.imp_right fun h => ⟨(), h⟩⟩

@[simp] theorem not_pure_fails {a : α} : ¬ Fails (pure a : Attempt State α) s e := by simp [Fails]

@[simp] theorem not_modify_fails {f : State → State} : ¬ Fails (modify f : Check) s e := by simp [Fails]

@[simp] theorem not_onAttributes_fails {change : AttributeNames → AttributeNames} :
    ¬ Fails (onAttributes change) s e := not_modify_fails

theorem onAlphabet_then_fails {change : Alphabet → Alphabet} {next : Unit → Check} :
    Fails (onAlphabet change >>= next) s e ↔ Fails (next ()) { s with alphabet := s.alphabet.map change } e := .rfl

theorem refuse_fails {broken : Option Restriction} :
    Fails (refuse broken) s e ↔ ∃ r, broken = some r ∧ e = .restriction (.of r) := by
  cases broken <;> simp [refuse, Fails, eq_comm]

theorem refuse_then_fails {broken : Option Restriction} {next : Unit → Check} :
    Fails (refuse broken >>= next) s e ↔
      (∃ r, broken = some r ∧ e = .restriction (.of r)) ∨ broken = none ∧ Fails (next ()) s e := by
  simp only [then_fails, refuse_fails, refuse_ok, and_assoc, exists_and_left, exists_eq_left]

theorem refuseIf_fails {c : Prop} [Decidable c] :
    Fails (refuse (if c then some r else none)) s e ↔ c ∧ e = .restriction (.of r) := by
  by_cases hc : c <;> simp [hc, refuse_fails]

theorem located_fails {loc : Option Location} {step : Check} :
    Fails (located loc step) s e ↔ ∃ e', Fails step s e' ∧ e = e'.within loc := by
  have h : ((located loc step).runFrom s).1 = (step.runFrom s).1.mapError (Error.within loc) := rfl
  unfold Fails
  rw [h]
  rcases (step.runFrom s).1 with e' | a
  · change Except.error (Error.within loc e') = .error e ↔ _
    simp [eq_comm]
  · change Except.ok a = .error e ↔ _
    simp

theorem isolated_fails {attributes : Option AttributeNames} {alphabet : Option Alphabet} {step : Check} :
    Fails (isolated attributes alphabet step) s e ↔ Fails step { s with attributes, alphabet } e := .rfl

theorem inside_fails {d : DefinitionId} {step : Check} :
    Fails (inside d step) s e ↔ Fails step { s with active := s.active.insert d } e := .rfl

theorem side_fails {step : Check} : Fails (side step) s e ↔ Fails step { s with alphabet := some .empty } e := by
  have h : ((side step).runFrom s).1 = (step.runFrom { s with alphabet := some .empty }).1.map
      fun _ => (step.runFrom { s with alphabet := some .empty }).2.alphabet.getD .empty := rfl
  unfold Fails
  rw [h]
  rcases (step.runFrom { s with alphabet := some .empty }).1 with e | a <;> simp [Except.map]

theorem side_then_fails {step : Check} {next : Alphabet → Check} :
    Fails (side step >>= next) s e ↔ Fails step { s with alphabet := some .empty } e ∨
      ∃ a t, (side step).runFrom s = (.ok a, t) ∧ Fails (next a) t e := by
  rw [bind_fails, side_fails]

theorem addAttribute_fails {names : NameClass} : Fails (addAttribute names) s e ↔
    ∃ before v, s.attributes = some before ∧ before.add names = .error v ∧ e = .restriction v := by
  unfold addAttribute Fails
  rw [runFrom_get_then]
  cases ha : s.attributes with
  | none => simp
  | some before => cases hb : before.add names <;> simp [hb, eq_comm]

/-- A class that shares a name with an attribute before is refused without a location. -/
theorem eq_of_add_error {names : AttributeNames} {nc : NameClass} {v : Violation} (h : names.add nc = .error v) :
    v = .of .duplicateAttribute := by
  unfold AttributeNames.add at h
  split at h <;> cases h
  rfl

/-! ## Kinds of patterns that fail -/

/-- The error for a pattern that stands where it must not. -/
def Misplaced (place : Place) (pattern : Pattern) (e : Error) : Prop :=
  ∃ r, place.prohibited? pattern = some r ∧ e = .restriction (.of r)

theorem check_zero_fails : Fails (check g limit 0 p place) s e ↔ e = .recursion (.depthExceeded (limit + 1) limit) := by
  simp [Fails, check_zero, eq_comm]

theorem check_leaf_fails (hp : (g.pattern p).operands = []) (he : ∀ element, g.pattern p ≠ .element element)
    (hd : ∀ d, g.pattern p ≠ .ref d) :
    Fails (check g limit (levels + 1) p place) s e ↔ Misplaced place (g.pattern p) e := by
  rw [check]
  cases h : g.pattern p with
  | element element => exact absurd h (he element)
  | ref d => exact absurd h (hd d)
  | empty | text | data | value | notAllowed => simp only [refuse_fails, Misplaced]
  | _ => simp [h, Pattern.operands] at hp

theorem check_ref_fails {d : DefinitionId} (hp : g.pattern p = .ref d) :
    Fails (check g limit (levels + 1) p place) s e ↔ ∃ body, g.body? d = some body ∧ s.active.contains d = false ∧
      Fails (check g limit levels body place) { s with active := s.active.insert d } e := by
  rw [check]
  simp only [hp]
  cases hb : g.body? d with
  | none => simp
  | some body =>
    unfold Fails
    rw [runFrom_get_then]
    show Fails _ _ _ ↔ _
    -- A definition that is open passes.
    cases hs : s.active.contains d
    · simp [inside_fails]
      rfl
    · simp

theorem check_element_fails {element : ElementId} (hp : g.pattern p = .element element) :
    Fails (check g limit (levels + 1) p place) s e ↔ s.checked.contains element = false ∧
      ∃ e', (Misplaced place (.element element) e' ∨ place.prohibited? (.element element) = none ∧
          Fails (check g limit levels (g.element element).content .element)
            { s with checked := s.checked.insert element, attributes := some .empty, alphabet := none } e') ∧
        e = e'.within ((g.element element).location.or (g.location? p)) := by
  rw [check]
  simp only [hp, onAlphabet_then_fails]
  unfold Fails
  rw [runFrom_get_then]
  show Fails _ _ _ ↔ _
  -- An element whose content was entered before breaks nothing.
  cases hs : s.checked.contains element
  · simp only [Bool.false_eq_true, if_false, located_fails, refuse_then_fails, true_and]
    rfl
  · simp only [if_true, not_pure_fails, Bool.true_eq_false, false_and]

theorem check_attr_fails {names : NameClass} {value : PatternId} {annotations : Annotations}
    (hp : g.pattern p = .attr names value annotations) : Fails (check g limit (levels + 1) p place) s e ↔
      ∃ e', (Misplaced place (.attr names value annotations) e' ∨
        place.prohibited? (.attr names value annotations) = none ∧
          (names.namesXmlns = true ∧ e' = .restriction (.of .xmlnsAttributeName) ∨ names.namesXmlns = false ∧
            (Fails (addAttribute names) s e' ∨ ∃ t, (addAttribute names).runFrom s = (.ok (), t) ∧
              Fails (check g limit levels value .attributeValue) { t with attributes := none, alphabet := none } e'))) ∧
        e = e'.within (g.location? p) := by
  rw [check]
  simp only [hp, located_fails, refuse_then_fails, Misplaced]
  cases names.namesXmlns <;> simp [then_fails, isolated_fails]

theorem check_dataExcept_fails {type : Datatype} {params : List Param} {except : PatternId}
    (hp : g.pattern p = .dataExcept type params except) : Fails (check g limit (levels + 1) p place) s e ↔
      Misplaced place (.dataExcept type params except) e ∨ place.prohibited? (.dataExcept type params except) = none ∧
        ∃ e', Fails (check g limit levels except .exception) { s with attributes := none, alphabet := none } e' ∧
          e = e'.within (g.location? p) := by
  rw [check]
  simp only [hp, located_fails, refuse_then_fails, isolated_fails, Misplaced]

theorem check_list_fails {operand : PatternId} (hp : g.pattern p = .list operand) :
    Fails (check g limit (levels + 1) p place) s e ↔
      Misplaced place (.list operand) e ∨ place.prohibited? (.list operand) = none ∧
        ∃ e', Fails (check g limit levels operand .list) { s with attributes := none, alphabet := none } e' ∧
          e = e'.within (g.location? p) := by
  rw [check]
  simp only [hp, located_fails, refuse_then_fails, isolated_fails, Misplaced]

theorem check_choice_fails {left right : PatternId} (hp : g.pattern p = .choice left right) :
    Fails (check g limit (levels + 1) p place) s e ↔
      Fails (check g limit levels left place) { s with attributes := s.attributes.map (·.openChoice) } e ∨
      ∃ t, (check g limit levels left place).runFrom { s with attributes := s.attributes.map (·.openChoice) } =
          (.ok (), t) ∧
        Fails (check g limit levels right place) { t with attributes := t.attributes.map (·.nextBranch) } e := by
  rw [check]
  simp only [hp, then_fails, not_onAttributes_fails, runFrom_onAttributes, Prod.mk.injEq, true_and, exists_eq_left',
    false_or, and_false, exists_false, or_false]

theorem check_group_fails {left right : PatternId} (hp : g.pattern p = .group left right) :
    Fails (check g limit (levels + 1) p place) s e ↔
      Misplaced place (.group left right) e ∨ place.prohibited? (.group left right) = none ∧
        (Fails (check g limit levels left place.underGroup) s e ∨
          ∃ t, (check g limit levels left place.underGroup).runFrom s = (.ok (), t) ∧
            (Fails (check g limit levels right place.underGroup) t e ∨
              ∃ u, (check g limit levels right place.underGroup).runFrom t = (.ok (), u) ∧
                (place ≠ .list ∧ (g.contentType left).groupable (g.contentType right) = false) ∧
                  e = .restriction (.of .groupString))) := by
  rw [check]
  simp only [hp, refuse_then_fails, Misplaced]
  simp only [then_fails, refuseIf_fails, Bool.not_eq_true']

theorem check_interleave_fails {left right : PatternId} (hp : g.pattern p = .interleave left right) :
    Fails (check g limit (levels + 1) p place) s e ↔
      Misplaced place (.interleave left right) e ∨ place.prohibited? (.interleave left right) = none ∧
        (Fails (check g limit levels left place.underInterleave) { s with alphabet := some .empty } e ∨
          ∃ a t, (side (check g limit levels left place.underInterleave)).runFrom s = (.ok a, t) ∧
            (Fails (check g limit levels right place.underInterleave) { t with alphabet := some .empty } e ∨
              ∃ b w, (side (check g limit levels right place.underInterleave)).runFrom t = (.ok b, w) ∧
                (a.overlaps b = true ∧ e = .restriction (.of .interleaveElementOverlap) ∨ a.overlaps b = false ∧
                  ((g.contentType left).groupable (g.contentType right) = false ∧
                      e = .restriction (.of .interleaveString) ∨
                    (g.contentType left).groupable (g.contentType right) = true ∧
                      (g.contentType left = .mixed ∧ g.contentType right = .mixed) ∧
                        e = .restriction (.of .interleaveTextOverlap))))) := by
  rw [check]
  simp only [hp, refuse_then_fails, side_then_fails, onAlphabet_then_fails, refuseIf_fails, Misplaced]
  simp [and_assoc]

theorem check_oneOrMore_fails {operand : PatternId} (hp : g.pattern p = .oneOrMore operand) :
    Fails (check g limit (levels + 1) p place) s e ↔
      Misplaced place (.oneOrMore operand) e ∨ place.prohibited? (.oneOrMore operand) = none ∧
        (Fails (check g limit levels operand place.underOneOrMore) s e ∨
          ∃ t, (check g limit levels operand place.underOneOrMore).runFrom s = (.ok (), t) ∧
            (place ≠ .list ∧ (g.contentType operand).groupable (g.contentType operand) = false) ∧
              e = .restriction (.of .oneOrMoreString)) := by
  rw [check]
  simp only [hp, refuse_then_fails, Misplaced]
  simp only [then_fails, refuseIf_fails, Bool.not_eq_true']

/-! ## Broken restrictions -/

theorem Misplaced.prohibited?_eq {pattern : Pattern} {v : Violation} (h : Misplaced place pattern (.restriction v)) :
    place.prohibited? pattern = some v.restriction := by
  obtain ⟨r, ho, ⟨⟩⟩ := h
  exact ho

theorem exists_of_eq_within {loc : Option Location} {v : Violation} (h : .restriction v = e.within loc) :
    ∃ v', e = .restriction v' ∧ v = v'.within loc := by
  cases e <;> cases h
  exact ⟨_, rfl, rfl⟩

theorem isolated_breaks {attributes : Option AttributeNames} {alphabet : Option Alphabet} {step : Check} :
    Breaks (isolated attributes alphabet step) s r ↔ Breaks step { s with attributes, alphabet } r := .rfl

theorem addAttribute_breaks {names : NameClass} : Breaks (addAttribute names) s r ↔
    ∃ before v, s.attributes = some before ∧ before.add names = .error v ∧ v.restriction = r := by
  simp only [breaks_iff, addAttribute_fails]
  constructor
  · rintro ⟨v, ⟨before, _, hs, hadd, ⟨⟩⟩, hr⟩
    exact ⟨before, v, hs, hadd, hr⟩
  · rintro ⟨before, v, hs, hadd, hr⟩
    exact ⟨v, ⟨before, v, hs, hadd, rfl⟩, hr⟩

theorem eq_of_addAttribute_breaks {names : NameClass} (h : Breaks (addAttribute names) s r) :
    r = .duplicateAttribute := by
  obtain ⟨before, v, -, hadd, rfl⟩ := addAttribute_breaks.1 h
  rw [eq_of_add_error hadd]
  rfl

theorem not_check_zero_breaks : ¬ Breaks (check g limit 0 p place) s r := by
  simp [breaks_iff, check_zero_fails]

theorem check_leaf_breaks (hp : (g.pattern p).operands = []) (he : ∀ e, g.pattern p ≠ .element e)
    (hd : ∀ d, g.pattern p ≠ .ref d) (h : Breaks (check g limit (levels + 1) p place) s r) :
    place.prohibited? (g.pattern p) = some r := by
  obtain ⟨v, h, rfl⟩ := h
  exact ((check_leaf_fails hp he hd).1 h).prohibited?_eq

theorem check_element_breaks {e : ElementId} (hp : g.pattern p = .element e)
    (h : Breaks (check g limit (levels + 1) p place) s r) :
    place.prohibited? (.element e) = some r ∨
      ∃ t, t.attributes = some .empty ∧ Breaks (check g limit levels (g.element e).content .element) t r := by
  obtain ⟨v, hv, rfl⟩ := h
  obtain ⟨-, error, h, he⟩ := (check_element_fails hp).1 hv
  obtain ⟨w, rfl, rfl⟩ := exists_of_eq_within he
  rcases h with h | ⟨-, h⟩
  · exact .inl h.prohibited?_eq
  · exact .inr ⟨_, rfl, w, h, rfl⟩

theorem check_attr_breaks {names : NameClass} {value : PatternId} {annotations : Annotations}
    (hp : g.pattern p = .attr names value annotations) (h : Breaks (check g limit (levels + 1) p place) s r) :
    place.prohibited? (.attr names value annotations) = some r ∨ r = .xmlnsAttributeName ∨
      Breaks (addAttribute names) s r ∨
      ∃ t, t.attributes = none ∧ Breaks (check g limit levels value .attributeValue) t r := by
  obtain ⟨v, hv, rfl⟩ := h
  obtain ⟨error, h, he⟩ := (check_attr_fails hp).1 hv
  obtain ⟨w, rfl, rfl⟩ := exists_of_eq_within he
  rcases h with h | ⟨-, ⟨-, ⟨⟩⟩ | ⟨-, h | ⟨t, -, h⟩⟩⟩
  · exact .inl h.prohibited?_eq
  · exact .inr (.inl rfl)
  · exact .inr (.inr (.inl ⟨w, h, rfl⟩))
  · exact .inr (.inr (.inr ⟨_, rfl, w, h, rfl⟩))

theorem check_dataExcept_breaks {type : Datatype} {params : List Param} {except : PatternId}
    (hp : g.pattern p = .dataExcept type params except) (h : Breaks (check g limit (levels + 1) p place) s r) :
    place.prohibited? (.dataExcept type params except) = some r ∨
      ∃ t, t.attributes = none ∧ Breaks (check g limit levels except .exception) t r := by
  obtain ⟨v, hv, rfl⟩ := h
  rcases (check_dataExcept_fails hp).1 hv with h | ⟨-, error, h, he⟩
  · exact .inl h.prohibited?_eq
  · obtain ⟨w, rfl, rfl⟩ := exists_of_eq_within he
    exact .inr ⟨_, rfl, w, h, rfl⟩

theorem check_list_breaks {operand : PatternId} (hp : g.pattern p = .list operand)
    (h : Breaks (check g limit (levels + 1) p place) s r) :
    place.prohibited? (.list operand) = some r ∨
      ∃ t, t.attributes = none ∧ Breaks (check g limit levels operand .list) t r := by
  obtain ⟨v, hv, rfl⟩ := h
  rcases (check_list_fails hp).1 hv with h | ⟨-, error, h, he⟩
  · exact .inl h.prohibited?_eq
  · obtain ⟨w, rfl, rfl⟩ := exists_of_eq_within he
    exact .inr ⟨_, rfl, w, h, rfl⟩

theorem check_choice_breaks {left right : PatternId} (hp : g.pattern p = .choice left right)
    (h : Breaks (check g limit (levels + 1) p place) s r) :
    Breaks (check g limit levels left place) { s with attributes := s.attributes.map (·.openChoice) } r ∨
      ∃ t, (check g limit levels left place).runFrom { s with attributes := s.attributes.map (·.openChoice) } =
          (.ok (), t) ∧
        Breaks (check g limit levels right place) { t with attributes := t.attributes.map (·.nextBranch) } r := by
  obtain ⟨v, h, hr⟩ := h
  rcases (check_choice_fails hp).1 h with h | ⟨t, ht, h⟩
  · exact .inl ⟨v, h, hr⟩
  · exact .inr ⟨t, ht, v, h, hr⟩

theorem check_group_breaks {left right : PatternId} (hp : g.pattern p = .group left right)
    (h : Breaks (check g limit (levels + 1) p place) s r) :
    place.prohibited? (.group left right) = some r ∨
      (r = .groupString ∧ place.prohibited? (.group left right) = none ∧ place ≠ .list ∧
        (g.contentType left).groupable (g.contentType right) = false) ∨
      Breaks (check g limit levels left place.underGroup) s r ∨
      ∃ t, (check g limit levels left place.underGroup).runFrom s = (.ok (), t) ∧
        Breaks (check g limit levels right place.underGroup) t r := by
  obtain ⟨v, h, rfl⟩ := h
  rcases (check_group_fails hp).1 h with h | ⟨ho, h | ⟨t, ht, h | ⟨_, -, ⟨hl, hc⟩, ⟨⟩⟩⟩⟩
  · exact .inl h.prohibited?_eq
  · exact .inr (.inr (.inl ⟨v, h, rfl⟩))
  · exact .inr (.inr (.inr ⟨t, ht, v, h, rfl⟩))
  · exact .inr (.inl ⟨rfl, ho, hl, hc⟩)

theorem check_interleave_breaks {left right : PatternId} (hp : g.pattern p = .interleave left right)
    (h : Breaks (check g limit (levels + 1) p place) s r) :
    place.prohibited? (.interleave left right) = some r ∨
      r ∈ [.interleaveElementOverlap, .interleaveTextOverlap] ∨
      (r = .interleaveString ∧ place.prohibited? (.interleave left right) = none ∧
        (g.contentType left).groupable (g.contentType right) = false) ∨
      Breaks (check g limit levels left place.underInterleave) { s with alphabet := some .empty } r ∨
      ∃ a t, (side (check g limit levels left place.underInterleave)).runFrom s = (.ok a, t) ∧
        Breaks (check g limit levels right place.underInterleave) { t with alphabet := some .empty } r := by
  obtain ⟨v, h, rfl⟩ := h
  rcases (check_interleave_fails hp).1 h with
    h | ⟨ho, h | ⟨a, t, ht, h | ⟨_, _, -, ⟨-, ⟨⟩⟩ | ⟨-, ⟨hc, ⟨⟩⟩ | ⟨-, -, ⟨⟩⟩⟩⟩⟩⟩
  · exact .inl h.prohibited?_eq
  · exact .inr (.inr (.inr (.inl ⟨v, h, rfl⟩)))
  · exact .inr (.inr (.inr (.inr ⟨a, t, ht, v, h, rfl⟩)))
  · exact .inr (.inl (by simp [Violation.of]))
  · exact .inr (.inr (.inl ⟨rfl, ho, hc⟩))
  · exact .inr (.inl (by simp [Violation.of]))

/-- Where the sides of an interleave overlap, the interleave itself stood where it may, and both sides passed; or it
happened on one of the sides. -/
theorem check_interleave_overlaps {left right : PatternId} (hp : g.pattern p = .interleave left right)
    (h : Breaks (check g limit (levels + 1) p place) s .interleaveElementOverlap) :
    (∃ a b t w, (side (check g limit levels left place.underInterleave)).runFrom s = (.ok a, t) ∧
      (side (check g limit levels right place.underInterleave)).runFrom t = (.ok b, w) ∧ a.overlaps b = true) ∨
      Breaks (check g limit levels left place.underInterleave) { s with alphabet := some .empty }
        .interleaveElementOverlap ∨
      ∃ t, Breaks (check g limit levels right place.underInterleave) t .interleaveElementOverlap := by
  obtain ⟨v, h, hr⟩ := h
  rcases (check_interleave_fails hp).1 h with
    h | ⟨-, h | ⟨a, t, ht, h | ⟨b, w, hw, ⟨ho, -⟩ | ⟨-, ⟨-, ⟨⟩⟩ | ⟨-, -, ⟨⟩⟩⟩⟩⟩⟩
  · exact absurd (hr ▸ h.prohibited?_eq) (Place.prohibited?_ne (by decide) place _)
  · exact .inr (.inl ⟨v, h, hr⟩)
  · exact .inr (.inr ⟨_, v, h, hr⟩)
  · exact .inl ⟨a, b, t, w, ht, hw, ho⟩
  · cases hr
  · cases hr

theorem check_oneOrMore_breaks {operand : PatternId} (hp : g.pattern p = .oneOrMore operand)
    (h : Breaks (check g limit (levels + 1) p place) s r) :
    place.prohibited? (.oneOrMore operand) = some r ∨
      (r = .oneOrMoreString ∧ place.prohibited? (.oneOrMore operand) = none ∧ place ≠ .list ∧
        (g.contentType operand).groupable (g.contentType operand) = false) ∨
      Breaks (check g limit levels operand place.underOneOrMore) s r := by
  obtain ⟨v, h, rfl⟩ := h
  rcases (check_oneOrMore_fails hp).1 h with h | ⟨ho, h | ⟨_, -, ⟨hl, hc⟩, ⟨⟩⟩⟩
  · exact .inl h.prohibited?_eq
  · exact .inr (.inr ⟨v, h, rfl⟩)
  · exact .inr (.inl ⟨rfl, ho, hl, hc⟩)

/-- A pattern that stands where it must not breaks nothing else. -/
theorem eq_of_breaks_of_prohibited {r' : Restriction} (hp : place.prohibited? (g.pattern p) = some r')
    (h : Breaks (check g limit (levels + 1) p place) s r) : r = r' := by
  obtain ⟨v, hfails, rfl⟩ := h
  suffices hv : place.prohibited? (g.pattern p) = some v.restriction from Option.some.inj (hv.symm.trans hp)
  have refused {pattern : Pattern} {rest : Prop} {v : Violation} (hpat : g.pattern p = pattern)
      (h : Misplaced place pattern (.restriction v) ∨ place.prohibited? pattern = none ∧ rest) :
      place.prohibited? pattern = some v.restriction := by
    rcases h with h | ⟨ho, -⟩
    · exact h.prohibited?_eq
    · simp [hpat, ho] at hp
  cases hpat : g.pattern p with
  | element e =>
    obtain ⟨-, error, h, he⟩ := (check_element_fails hpat).1 hfails
    obtain ⟨w, rfl, rfl⟩ := exists_of_eq_within he
    exact refused (v := w) hpat h
  | attr names value annotations =>
    obtain ⟨error, h, he⟩ := (check_attr_fails hpat).1 hfails
    obtain ⟨w, rfl, rfl⟩ := exists_of_eq_within he
    exact refused (v := w) hpat h
  | empty | text | data | value =>
    rw [← hpat]
    exact ((check_leaf_fails (by simp [hpat, Pattern.operands]) (by simp [hpat]) (by simp [hpat])).1
      hfails).prohibited?_eq
  | notAllowed | choice | ref => simp [hpat, Place.prohibited?] at hp
  | list => exact refused hpat ((check_list_fails hpat).1 hfails)
  | dataExcept => exact refused hpat ((check_dataExcept_fails hpat).1 hfails)
  | group => exact refused hpat ((check_group_fails hpat).1 hfails)
  | interleave => exact refused hpat ((check_interleave_fails hpat).1 hfails)
  | oneOrMore => exact refused hpat ((check_oneOrMore_fails hpat).1 hfails)

end RestrictionCheck

end RelaxNg
