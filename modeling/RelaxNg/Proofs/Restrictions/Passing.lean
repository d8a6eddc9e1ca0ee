import RelaxNg.Grammar.Restrictions

/-!
# Checks that pass

What a check that passes has done, kind of pattern by kind of pattern: which checks of operands passed, from which
state to which, and which restrictions were kept in between (`check_*_ok`). Later proofs about the check take it apart
by these lemmas only.
-/

namespace RelaxNg.RestrictionCheck

open Attempt

variable {g : Grammar} {limit levels : Nat} {p : PatternId} {place : Place} {s u : State}

/-! ## The parts of a check -/

theorem refuse_ok {broken : Option Restriction} : (refuse broken).runFrom s = (.ok (), u) ↔ broken = none ∧ u = s := by
  cases broken <;> simp [refuse, eq_comm]

theorem located_ok {loc : Option Location} {step : Check} :
    (located loc step).runFrom s = (.ok (), u) ↔ step.runFrom s = (.ok (), u) := by
  have h : (located loc step).runFrom s = ((step.runFrom s).1.mapError (Error.within loc), (step.runFrom s).2) := rfl
  rw [h]
  rcases step.runFrom s with ⟨e | a, t⟩
  · show (Except.error (Error.within loc e), t) = (.ok (), u) ↔ _
    simp
  · rfl

theorem isolated_ok {attributes : Option AttributeNames} {alphabet : Option Alphabet} {step : Check} :
    (isolated attributes alphabet step).runFrom s = (.ok (), u) ↔
      ∃ t, step.runFrom { s with attributes, alphabet } = (.ok (), t) ∧
        u = { t with attributes := s.attributes, alphabet := s.alphabet } := by
  have h : (isolated attributes alphabet step).runFrom s =
      ((step.runFrom { s with attributes, alphabet }).1,
        { (step.runFrom { s with attributes, alphabet }).2 with
          attributes := s.attributes, alphabet := s.alphabet }) := rfl
  rw [h]
  rcases step.runFrom { s with attributes, alphabet } with ⟨r, t⟩
  constructor
  · rintro ⟨⟩
    exact ⟨t, rfl, rfl⟩
  · rintro ⟨_, ⟨⟩, rfl⟩
    rfl

theorem side_ok {step : Check} {a : Alphabet} :
    (side step).runFrom s = (.ok a, u) ↔
      ∃ t, step.runFrom { s with alphabet := some .empty } = (.ok (), t) ∧ a = t.alphabet.getD .empty ∧
        u = { t with alphabet := s.alphabet } := by
  have h : (side step).runFrom s =
      ((step.runFrom { s with alphabet := some .empty }).1.map
          fun _ => (step.runFrom { s with alphabet := some .empty }).2.alphabet.getD .empty,
        { (step.runFrom { s with alphabet := some .empty }).2 with alphabet := s.alphabet }) := rfl
  rw [h]
  rcases step.runFrom { s with alphabet := some .empty } with ⟨_ | _, t⟩ <;> simp [Except.map, eq_comm]

theorem side_then_ok {step : Check} {next : Alphabet → Check} :
    (side step >>= next).runFrom s = (.ok (), u) ↔
      ∃ a t, (side step).runFrom s = (.ok a, t) ∧ (next a).runFrom t = (.ok (), u) :=
  runFrom_bind_ok

theorem addAttribute_ok {names : NameClass} :
    (addAttribute names).runFrom s = (.ok (), u) ↔
      (s.attributes = none ∧ u = s) ∨
      ∃ before after, s.attributes = some before ∧ before.add names = .ok after ∧
        u = { s with attributes := some after } := by
  unfold addAttribute
  rw [runFrom_get_then]
  cases ha : s.attributes with
  | none => simp [eq_comm]
  | some before =>
    cases hb : before.add names <;> simp [eq_comm, hb]

@[simp] theorem runFrom_onAttributes (change : AttributeNames → AttributeNames) :
    (onAttributes change).runFrom s = (.ok (), { s with attributes := s.attributes.map change }) := rfl

@[simp] theorem runFrom_onAlphabet (change : Alphabet → Alphabet) :
    (onAlphabet change).runFrom s = (.ok (), { s with alphabet := s.alphabet.map change }) := rfl

/-! ## Kinds of patterns -/

/-- A pattern that is made of none passes in every place that does not forbid it. -/
theorem check_leaf_ok (hp : (g.pattern p).operands = []) (he : ∀ e, g.pattern p ≠ .element e)
    (hd : ∀ d, g.pattern p ≠ .ref d) :
    (check g limit (levels + 1) p place).runFrom s = (.ok (), u) ↔ place.prohibited? (g.pattern p) = none ∧ u = s := by
  rw [check]
  cases h : g.pattern p with
  | element e => exact absurd h (he e)
  | ref d => exact absurd h (hd d)
  | empty | text | data | value => simp only [refuse_ok]
  | notAllowed => simp only [refuse_ok]
  | _ => simp [h, Pattern.operands] at hp

theorem check_element_ok {e : ElementId} (hp : g.pattern p = .element e) :
    (check g limit (levels + 1) p place).runFrom s = (.ok (), u) ↔
      (s.checked.contains e = true ∧ u = { s with alphabet := s.alphabet.map (·.add (g.element e).names) }) ∨
      (s.checked.contains e = false ∧ place.prohibited? (.element e) = none ∧
        ∃ t, (check g limit levels (g.element e).content .element).runFrom
            { s with checked := s.checked.insert e, attributes := some .empty, alphabet := none } = (.ok (), t) ∧
          u = { t with attributes := s.attributes, alphabet := s.alphabet.map (·.add (g.element e).names) }) := by
  rw [check]
  simp only [hp, runFrom_then_ok, runFrom_onAlphabet, runFrom_get_then, Prod.mk.injEq, true_and, exists_eq_left']
  cases hc : s.checked.contains e
  · simp only [Bool.false_eq_true, if_false, located_ok, runFrom_then_ok, refuse_ok, runFrom_modify_then, isolated_ok]
    constructor
    · rintro ⟨_, ⟨hr, rfl⟩, t, ht, rfl⟩
      exact .inr ⟨trivial, hr, t, ht, rfl⟩
    · rintro (h | ⟨-, hr, t, ht, rfl⟩)
      · exact absurd h.1 (by simp)
      · exact ⟨_, ⟨hr, rfl⟩, t, ht, rfl⟩
  · simp [eq_comm]

theorem check_attr_ok {names : NameClass} {value : PatternId} {annotations : Annotations}
    (hp : g.pattern p = .attr names value annotations) :
    (check g limit (levels + 1) p place).runFrom s = (.ok (), u) ↔
      place.prohibited? (.attr names value annotations) = none ∧ names.namesXmlns = false ∧
        ∃ t w, (addAttribute names).runFrom s = (.ok (), t) ∧
          (check g limit levels value .attributeValue).runFrom { t with attributes := none, alphabet := none } =
            (.ok (), w) ∧
          u = { w with attributes := t.attributes, alphabet := t.alphabet } := by
  rw [check]
  simp only [hp, located_ok, runFrom_then_ok, refuse_ok, isolated_ok]
  constructor
  · rintro ⟨_, ⟨hr, rfl⟩, _, ⟨hx, rfl⟩, t, ht, w, hw, rfl⟩
    exact ⟨hr, by simpa using hx, t, w, ht, hw, rfl⟩
  · rintro ⟨hr, hx, t, w, ht, hw, rfl⟩
    exact ⟨_, ⟨hr, rfl⟩, _, ⟨by simp [hx], rfl⟩, t, ht, w, hw, rfl⟩

theorem check_dataExcept_ok {type : Datatype} {params : List Param} {except : PatternId}
    (hp : g.pattern p = .dataExcept type params except) :
    (check g limit (levels + 1) p place).runFrom s = (.ok (), u) ↔
      place.prohibited? (.dataExcept type params except) = none ∧
        ∃ t, (check g limit levels except .exception).runFrom { s with attributes := none, alphabet := none } =
            (.ok (), t) ∧
          u = { t with attributes := s.attributes, alphabet := s.alphabet } := by
  rw [check]
  simp only [hp, located_ok, runFrom_then_ok, refuse_ok, isolated_ok]
  constructor
  · rintro ⟨_, ⟨hr, rfl⟩, h⟩
    exact ⟨hr, h⟩
  · rintro ⟨hr, h⟩
    exact ⟨_, ⟨hr, rfl⟩, h⟩

theorem check_list_ok {operand : PatternId} (hp : g.pattern p = .list operand) :
    (check g limit (levels + 1) p place).runFrom s = (.ok (), u) ↔
      place.prohibited? (.list operand) = none ∧
        ∃ t, (check g limit levels operand .list).runFrom { s with attributes := none, alphabet := none } =
            (.ok (), t) ∧
          u = { t with attributes := s.attributes, alphabet := s.alphabet } := by
  rw [check]
  simp only [hp, located_ok, runFrom_then_ok, refuse_ok, isolated_ok]
  constructor
  · rintro ⟨_, ⟨hr, rfl⟩, h⟩
    exact ⟨hr, h⟩
  · rintro ⟨hr, h⟩
    exact ⟨_, ⟨hr, rfl⟩, h⟩

theorem check_choice_ok {left right : PatternId} (hp : g.pattern p = .choice left right) :
    (check g limit (levels + 1) p place).runFrom s = (.ok (), u) ↔
      ∃ t w, (check g limit levels left place).runFrom { s with attributes := s.attributes.map (·.openChoice) } =
          (.ok (), t) ∧
        (check g limit levels right place).runFrom { t with attributes := t.attributes.map (·.nextBranch) } =
          (.ok (), w) ∧
        u = { w with attributes := w.attributes.map (·.closeChoice) } := by
  rw [check]
  simp only [hp, runFrom_then_ok, runFrom_onAttributes, Prod.mk.injEq, true_and, exists_eq_left']
  constructor
  · rintro ⟨t, ht, w, hw, rfl⟩
    exact ⟨t, w, ht, hw, rfl⟩
  · rintro ⟨t, w, ht, hw, rfl⟩
    exact ⟨t, ht, w, hw, rfl⟩

theorem check_group_ok {left right : PatternId} (hp : g.pattern p = .group left right) :
    (check g limit (levels + 1) p place).runFrom s = (.ok (), u) ↔
      place.prohibited? (.group left right) = none ∧
        ∃ t, (check g limit levels left place.underGroup).runFrom s = (.ok (), t) ∧
          (check g limit levels right place.underGroup).runFrom t = (.ok (), u) ∧
          (place ≠ .list → (g.contentType left).groupable (g.contentType right) = true) := by
  rw [check]
  simp only [hp, runFrom_then_ok, refuse_ok]
  constructor
  · rintro ⟨_, ⟨hr, rfl⟩, t, ht, w, hw, hc, rfl⟩
    exact ⟨hr, t, ht, hw, by simpa using hc⟩
  · rintro ⟨hr, t, ht, hw, hc⟩
    exact ⟨_, ⟨hr, rfl⟩, t, ht, u, hw, by simpa using hc, rfl⟩

theorem check_interleave_ok {left right : PatternId} (hp : g.pattern p = .interleave left right) :
    (check g limit (levels + 1) p place).runFrom s = (.ok (), u) ↔
      place.prohibited? (.interleave left right) = none ∧
        ∃ a b t w, (side (check g limit levels left place.underInterleave)).runFrom s = (.ok a, t) ∧
          (side (check g limit levels right place.underInterleave)).runFrom t = (.ok b, w) ∧
          a.overlaps b = false ∧
          (g.contentType left).groupable (g.contentType right) = true ∧
          ¬ (g.contentType left = .mixed ∧ g.contentType right = .mixed) ∧
          u = { w with alphabet := w.alphabet.map fun names => (names.merge a).merge b } := by
  rw [check]
  simp only [hp, runFrom_then_ok, side_then_ok, refuse_ok, runFrom_onAlphabet, Prod.mk.injEq, true_and,
    exists_eq_left']
  constructor
  · rintro ⟨_, ⟨hr, rfl⟩, a, t, ht, b, w, hw, _, ⟨ho, rfl⟩, _, ⟨hc, rfl⟩, hm, rfl⟩
    exact ⟨hr, a, b, t, _, ht, hw, by simpa using ho, by simpa using hc, by simpa using hm, rfl⟩
  · rintro ⟨hr, a, b, t, w, ht, hw, ho, hc, hm, rfl⟩
    exact ⟨_, ⟨hr, rfl⟩, a, t, ht, b, w, hw, _, ⟨by simp [ho], rfl⟩, _, ⟨by simp [hc], rfl⟩, by simpa using hm, rfl⟩

theorem check_oneOrMore_ok {operand : PatternId} (hp : g.pattern p = .oneOrMore operand) :
    (check g limit (levels + 1) p place).runFrom s = (.ok (), u) ↔
      place.prohibited? (.oneOrMore operand) = none ∧
        (check g limit levels operand place.underOneOrMore).runFrom s = (.ok (), u) ∧
        (place ≠ .list → (g.contentType operand).groupable (g.contentType operand) = true) := by
  rw [check]
  simp only [hp, runFrom_then_ok, refuse_ok]
  constructor
  · rintro ⟨_, ⟨hr, rfl⟩, t, ht, hc, rfl⟩
    exact ⟨hr, ht, by simpa using hc⟩
  · rintro ⟨hr, ht, hc⟩
    exact ⟨_, ⟨hr, rfl⟩, u, ht, by simpa using hc, rfl⟩

theorem check_zero_ok : ¬ (check g limit 0 p place).runFrom s = (.ok (), u) := by
  simp [check_zero]

end RelaxNg.RestrictionCheck
