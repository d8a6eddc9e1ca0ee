import RelaxNg.Proofs.Occurrence
import RelaxNg.Proofs.Restrictions.Passing

/-!
# Places in a grammar that passed

`RestrictionCheck.Clears` says what a passing check of a pattern has settled: what stands in the pattern outside the
contents of elements, and what stands in the content of each element that was entered on the way, is in no place that
forbids it, but for elements that are entered by the end. The check skips an element that was entered before without
asking where it stands now. So `no_forbidden_occurrence_iff`: in a grammar that passed nothing stands where it must
not, exactly if no element stands both in a place that allows it and in one that forbids it;
`shared_element_in_attribute` is a grammar that passes all the same.
-/

namespace RelaxNg

open Relation

variable {g : Grammar} {limit levels : Nat} {p : PatternId} {place : Place}

/-! ## Inside an element -/

namespace Grammar

/-- A pattern in a place stands directly in another that is no element. -/
def Inside (g : Grammar) (outer inner : PatternId × Place) : Prop :=
  (∀ e, g.pattern outer.1 ≠ .element e) ∧ g.Below outer inner

end Grammar

namespace RestrictionCheck

abbrev Entered := Std.HashSet ElementId

/-- What a check asks of a pattern in a place, in the end: an element is entered, all else is allowed. -/
def Cleared (g : Grammar) (entered : Entered) (o : PatternId × Place) : Prop :=
  match g.pattern o.1 with
  | .element e => entered.contains e = true
  | pattern => ¬ o.2.Forbids pattern

theorem Cleared.mono {s t : Entered} (h : ∀ e, s.contains e = true → t.contains e = true) {o : PatternId × Place}
    (ho : Cleared g s o) : Cleared g t o := by
  unfold Cleared at ho ⊢
  split at ho <;> simp_all

theorem cleared_of_not_element {s : Entered} {o : PatternId × Place} (he : ∀ e, g.pattern o.1 ≠ .element e) :
    Cleared g s o ↔ ¬ o.2.Forbids (g.pattern o.1) := by
  unfold Cleared
  split
  · next e h => exact absurd h (he e)
  · rfl

/-- What a check of a pattern in a place has settled that passed: the elements entered before and after. -/
structure Clears (g : Grammar) (before after : Entered) (o : PatternId × Place) : Prop where
  /-- Entered elements stay entered. -/
  grows : ∀ e, before.contains e = true → after.contains e = true
  /-- What stands in the pattern is cleared. -/
  here : ∀ i, ReflTransGen g.Inside o i → Cleared g after i
  /-- What stands in a new element is cleared. -/
  contents : ∀ e, after.contains e = true → before.contains e = false →
    ∀ i, ReflTransGen g.Inside ((g.element e).content, .element) i → Cleared g after i
  /-- A new element stands in a place that allows it. -/
  allowed : ∀ e, after.contains e = true → before.contains e = false →
    ∃ i, ReflTransGen g.Below o i ∧ g.pattern i.1 = .element e ∧ ¬ i.2.Forbids (.element e)

theorem Clears.trans {s t u : Entered} {o a b : PatternId × Place} (he : ∀ e, g.pattern o.1 ≠ .element e)
    (ho : ¬ o.2.Forbids (g.pattern o.1)) (hb : ∀ i, g.Below o i ↔ i = a ∨ i = b) (h₁ : Clears g s t a)
    (h₂ : Clears g t u b) : Clears g s u o := by
  refine ⟨fun e h => h₂.grows e (h₁.grows e h), fun i hi => ?_, fun e hu hs i hi => ?_, fun e hu hs => ?_⟩
  · rcases hi.cases_head with rfl | ⟨j, hj, hji⟩
    · exact (cleared_of_not_element he).2 ho
    · rcases (hb j).1 hj.2 with rfl | rfl
      · exact (h₁.here i hji).mono h₂.grows
      · exact h₂.here i hji
  · cases ht : t.contains e with
    | true => exact (h₁.contents e ht hs i hi).mono h₂.grows
    | false => exact h₂.contents e hu ht i hi
  · cases ht : t.contains e with
    | true =>
      obtain ⟨i, hi, h⟩ := h₁.allowed e ht hs
      exact ⟨i, .head ((hb a).2 (.inl rfl)) hi, h⟩
    | false =>
      obtain ⟨i, hi, h⟩ := h₂.allowed e hu ht
      exact ⟨i, .head ((hb b).2 (.inr rfl)) hi, h⟩

theorem Clears.of_leaf {s : Entered} {o : PatternId × Place} (he : ∀ e, g.pattern o.1 ≠ .element e)
    (ho : ¬ o.2.Forbids (g.pattern o.1)) (hb : ∀ i, ¬ g.Below o i) : Clears g s s o := by
  refine ⟨fun _ h => h, fun i hi => ?_, fun e h h' => by simp [h] at h', fun e h h' => by simp [h] at h'⟩
  rcases hi.cases_head with rfl | ⟨j, hj, -⟩
  · exact (cleared_of_not_element he).2 ho
  · exact absurd hj.2 (hb j)

theorem Clears.of_below {s t : Entered} {o a : PatternId × Place} (he : ∀ e, g.pattern o.1 ≠ .element e)
    (ho : ¬ o.2.Forbids (g.pattern o.1)) (hb : ∀ i, g.Below o i ↔ i = a) (h : Clears g s t a) : Clears g s t o := by
  refine ⟨h.grows, fun i hi => ?_, h.contents, fun e ht hs => ?_⟩
  · rcases hi.cases_head with rfl | ⟨j, hj, hji⟩
    · exact (cleared_of_not_element he).2 ho
    · cases (hb j).1 hj.2
      exact h.here i hji
  · obtain ⟨i, hi, hp⟩ := h.allowed e ht hs
    exact ⟨i, .head ((hb a).2 rfl) hi, hp⟩

theorem eq_of_inside_element {o i : PatternId × Place} {e : ElementId} (hp : g.pattern o.1 = .element e)
    (h : ReflTransGen g.Inside o i) : i = o := by
  rcases h.cases_head with rfl | ⟨j, hj, -⟩
  · rfl
  · exact absurd hp (hj.1 e)

theorem Clears.of_entered {s : Entered} {o : PatternId × Place} {e : ElementId} (hp : g.pattern o.1 = .element e)
    (hs : s.contains e = true) : Clears g s s o := by
  refine ⟨fun _ h => h, fun i hi => ?_, fun e h h' => by simp [h] at h', fun e h h' => by simp [h] at h'⟩
  rw [eq_of_inside_element hp hi]
  simp [Cleared, hp, hs]

theorem Clears.of_content {s t : Entered} {o : PatternId × Place} {e : ElementId} (hp : g.pattern o.1 = .element e)
    (ho : ¬ o.2.Forbids (.element e))
    (h : Clears g (s.insert e) t ((g.element e).content, .element)) : Clears g s t o := by
  have ht : t.contains e = true := h.grows e (by simp)
  have hstep : g.Below o ((g.element e).content, .element) := by simp [Grammar.Below, Grammar.below, hp]
  have hnew : ∀ a, s.contains a = false → a ≠ e → (s.insert e).contains a = false := fun a ha hae => by
    rw [Std.HashSet.contains_insert, ha, Bool.or_false]
    exact beq_false_of_ne hae.symm
  refine ⟨fun a ha => h.grows a (by simp_all), fun i hi => ?_, fun a ha hs i hi => ?_, fun a ha hs => ?_⟩
  · rw [eq_of_inside_element hp hi]
    simpa [Cleared, hp] using ht
  · by_cases hae : a = e
    · subst hae
      exact h.here i hi
    · exact h.contents a ha (hnew a hs hae) i hi
  · by_cases hae : a = e
    · subst hae
      exact ⟨o, .refl, hp, ho⟩
    · obtain ⟨i, hi, hr⟩ := h.allowed a ha (hnew a hs hae)
      exact ⟨i, .head hstep hi, hr⟩

/-- A check that passes clears its pattern. -/
theorem check_clears (hr : g.RefFree p) {s u : State} (h : (check g limit levels p place).runFrom s = (.ok (), u)) :
    Clears g s.checked u.checked (p, place) := by
  induction levels generalizing p place s u with
  | zero => exact absurd h check_zero_ok
  | succ levels ih =>
    have below {q : PatternId} (hq : q ∈ g.successors p) {pl : Place} {s u : State}
        (h : (check g limit levels q pl).runFrom s = (.ok (), u)) : Clears g s.checked u.checked (q, pl) :=
      ih (hr.of_successor hq) h
    cases hp : g.pattern p with
    | element e =>
      rw [check_element_ok hp] at h
      rcases h with ⟨hs, rfl⟩ | ⟨-, ho, t, ht, rfl⟩
      · exact .of_entered hp hs
      · have h₁ := below (by simp [Grammar.successors, hp]) ht
        exact .of_content hp (Place.prohibited?_eq_none_iff.1 ho) h₁
    | ref d => exact absurd hp (hr p .refl d)
    | choice left right =>
      rw [check_choice_ok hp] at h
      obtain ⟨t, w, ht, hw, rfl⟩ := h
      have h₁ := below (by simp [Grammar.successors, Pattern.operands, hp]) ht
      have h₂ := below (by simp [Grammar.successors, Pattern.operands, hp]) hw
      exact .trans (by simp [hp]) (by simp [hp, Place.Forbids]) (by simp [Grammar.Below, Grammar.below, hp]) h₁ h₂
    | group left right =>
      rw [check_group_ok hp, Place.prohibited?_eq_none_iff] at h
      obtain ⟨ho, t, ht, hw, -⟩ := h
      have h₁ := below (by simp [Grammar.successors, Pattern.operands, hp]) ht
      have h₂ := below (by simp [Grammar.successors, Pattern.operands, hp]) hw
      exact .trans (by simp [hp]) (by simpa [hp] using ho) (by simp [Grammar.Below, Grammar.below, hp]) h₁ h₂
    | interleave left right =>
      rw [check_interleave_ok hp, Place.prohibited?_eq_none_iff] at h
      obtain ⟨ho, a, b, t, w, hleft, hright, -, -, -, rfl⟩ := h
      obtain ⟨t, ht, -, rfl⟩ := side_ok.1 hleft
      obtain ⟨w, hw, -, rfl⟩ := side_ok.1 hright
      have h₁ := below (by simp [Grammar.successors, Pattern.operands, hp]) ht
      have h₂ := below (by simp [Grammar.successors, Pattern.operands, hp]) hw
      exact .trans (by simp [hp]) (by simpa [hp] using ho) (by simp [Grammar.Below, Grammar.below, hp]) h₁ h₂
    | oneOrMore operand =>
      rw [check_oneOrMore_ok hp, Place.prohibited?_eq_none_iff] at h
      have h₁ := below (by simp [Grammar.successors, Pattern.operands, hp]) h.2.1
      exact .of_below (by simp [hp]) (by simpa [hp] using h.1) (by simp [Grammar.Below, Grammar.below, hp]) h₁
    | list operand =>
      rw [check_list_ok hp, Place.prohibited?_eq_none_iff] at h
      obtain ⟨ho, t, ht, rfl⟩ := h
      have h₁ := below (by simp [Grammar.successors, Pattern.operands, hp]) ht
      exact .of_below (by simp [hp]) (by simpa [hp] using ho) (by simp [Grammar.Below, Grammar.below, hp]) h₁
    | dataExcept type params except =>
      rw [check_dataExcept_ok hp, Place.prohibited?_eq_none_iff] at h
      obtain ⟨ho, t, ht, rfl⟩ := h
      have h₁ := below (by simp [Grammar.successors, Pattern.operands, hp]) ht
      exact .of_below (by simp [hp]) (by simpa [hp] using ho) (by simp [Grammar.Below, Grammar.below, hp]) h₁
    | attr names value annotations =>
      rw [check_attr_ok hp, Place.prohibited?_eq_none_iff] at h
      obtain ⟨ho, -, t, w, hn, hw, rfl⟩ := h
      -- The attribute is collected, which enters no element.
      have hc : t.checked = s.checked := by
        rcases addAttribute_ok.1 hn with ⟨-, rfl⟩ | ⟨_, _, -, -, rfl⟩ <;> rfl
      have h₁ := below (by simp [Grammar.successors, Pattern.operands, hp]) hw
      rw [← hc]
      exact .of_below (by simp [hp]) (by simpa [hp] using ho) (by simp [Grammar.Below, Grammar.below, hp]) h₁
    | empty | notAllowed | text | data | value =>
      rw [check_leaf_ok (by simp [hp, Pattern.operands]) (by simp [hp]) (by simp [hp]),
        Place.prohibited?_eq_none_iff] at h
      obtain ⟨ho, rfl⟩ := h
      exact .of_leaf (by simp [hp]) ho (by simp [Grammar.Below, Grammar.below, hp])

end RestrictionCheck

/-! ## The whole grammar -/

namespace Grammar

open RestrictionCheck

variable {limits : Limits} {start : PatternId}

/-- The start pattern and the contents of entered elements: whatever occurs stands inside one of them. -/
def Root (g : Grammar) (start : PatternId) (entered : Entered) (o : PatternId × Place) : Prop :=
  o = (start, .start) ∨ ∃ e, entered.contains e = true ∧ o = ((g.element e).content, .element)

theorem exists_root_of_occurs {entered : Entered}
    (hc : ∀ r, g.Root start entered r → ∀ i, ReflTransGen g.Inside r i → Cleared g entered i) {o : PatternId × Place}
    (ho : ReflTransGen g.Below (start, .start) o) : ∃ r, g.Root start entered r ∧ ReflTransGen g.Inside r o := by
  induction ho with
  | refl => exact ⟨_, .inl rfl, .refl⟩
  | @tail o i _ hi ih =>
    obtain ⟨r, hr, hro⟩ := ih
    by_cases he : ∃ e, g.pattern o.1 = .element e
    · obtain ⟨e, he⟩ := he
      have hs : entered.contains e = true := by simpa [Cleared, he] using hc r hr o hro
      have hie : i = ((g.element e).content, .element) := by simpa [Below, below, he] using hi
      exact ⟨i, .inr ⟨e, hs, hie⟩, .refl⟩
    · exact ⟨r, hr, hro.tail ⟨fun e h => he ⟨e, h⟩, hi⟩⟩

/-- The check of a start pattern that passes clears whatever occurs. -/
theorem exists_cleared (hr : g.RefFree start) (hok : g.checkRestrictions limits start = .ok ()) :
    ∃ t, (checkIn g limits start .start).runFrom {} = (.ok (), t) ∧ Clears g {} t.checked (start, .start) ∧
      ∀ p place, g.Occurs start p place → Cleared g t.checked (p, place) := by
  obtain ⟨u, hu⟩ : ∃ u, (checkStart g limits start).runFrom {} = (.ok (), u) :=
    ⟨_, Prod.ext hok rfl⟩
  obtain ⟨t, ht, -⟩ := isolated_ok.1 hu
  have hcl := check_clears hr ht
  have hc : ∀ r, g.Root start t.checked r → ∀ i, ReflTransGen g.Inside r i → Cleared g t.checked i := by
    rintro r (rfl | ⟨e, he, rfl⟩) i hi
    · exact hcl.here i hi
    · exact hcl.contents e he (by simp) i hi
  refine ⟨t, ht, hcl, fun p place ho => ?_⟩
  obtain ⟨r, hroot, hin⟩ := exists_root_of_occurs hc ho
  exact hc r hroot _ hin

/-- In a grammar that passed, only elements stand in places that forbid them, and each of these stands in a place that
allows it, too. -/
theorem exists_allowed_of_forbidden (hr : g.RefFree start) (hok : g.checkRestrictions limits start = .ok ())
    (ho : g.Occurs start p place) (hf : place.Forbids (g.pattern p)) :
    ∃ e q other, g.pattern p = .element e ∧ g.Occurs start q other ∧ g.pattern q = .element e ∧
      ¬ other.Forbids (.element e) := by
  obtain ⟨t, -, hcl, hall⟩ := exists_cleared hr hok
  have hcleared := hall p place ho
  by_cases he : ∃ e, g.pattern p = .element e
  · obtain ⟨e, he⟩ := he
    have hs : t.checked.contains e = true := by simpa [Cleared, he] using hcleared
    obtain ⟨⟨q, other⟩, hq, hqe, ha⟩ := hcl.allowed e hs (by simp)
    exact ⟨e, q, other, he, hq, hqe, ha⟩
  · exact absurd hf ((cleared_of_not_element fun e h => he ⟨e, h⟩).1 hcleared)

/-- In a grammar that passed, only an element can stand in a place that forbids it, and only one that stands in a place
that allows it, too. So nothing does, exactly if no element stands in places of both kinds. -/
theorem no_forbidden_occurrence_iff (hr : g.RefFree start) (hok : g.checkRestrictions limits start = .ok ()) :
    (∀ p place, g.Occurs start p place → place.Forbids (g.pattern p) →
      ∃ e q other, g.pattern p = .element e ∧ g.Occurs start q other ∧ g.pattern q = .element e ∧
        ¬ other.Forbids (.element e)) ∧
    ((∀ p place, g.Occurs start p place → ¬ place.Forbids (g.pattern p)) ↔
      ∀ e p q place other, g.Occurs start p place → g.Occurs start q other →
        g.pattern p = .element e → g.pattern q = .element e →
        place.Forbids (.element e) → other.Forbids (.element e)) := by
  refine ⟨fun p place => exists_allowed_of_forbidden hr hok, fun h => ?_, fun h p place hp hf => ?_⟩
  · intro e p q place other hp _ he _ hf
    exact absurd (he ▸ hf) (h p place hp)
  · obtain ⟨e, q, other, he, hq, hqe, ha⟩ := exists_allowed_of_forbidden hr hok hp hf
    exact ha (h e p q place other hp hq he hqe (he ▸ hf))

/-- Element 0 stands at the start and, behind it, in the value of an attribute of element 1. -/
def sharedElement : Grammar where
  nodes := #[⟨.empty, true, .empty, none⟩, ⟨.notAllowed, false, .empty, none⟩, ⟨.text, true, .mixed, none⟩,
    ⟨.element ⟨0⟩, false, .complex, none⟩, ⟨.attr (.plain "a") ⟨3⟩ .none, false, .empty, none⟩,
    ⟨.element ⟨1⟩, false, .complex, none⟩, ⟨.choice ⟨3⟩ ⟨5⟩, false, .complex, none⟩]
  elements := #[⟨.plain "e", ⟨2⟩, none, .none⟩, ⟨.plain "f", ⟨4⟩, none, .none⟩]

theorem sharedElement_refFree : sharedElement.RefFree ⟨6⟩ := by
  apply refFree_of_nodes
  simp [sharedElement]

theorem sharedElement_passes : sharedElement.checkRestrictions .standard ⟨6⟩ = .ok () := by
  have text (n : Nat) (s : State) : (check sharedElement 5000 (n + 1) ⟨2⟩ .element).runFrom s = (.ok (), s) := by
    have hp : sharedElement.pattern ⟨2⟩ = .text := rfl
    exact (check_leaf_ok rfl (by simp [hp]) (by simp [hp])).2 ⟨rfl, rfl⟩
  have again (n : Nat) (s : State) (hs : s.checked.contains ⟨0⟩ = true) :
      ∃ u, (check sharedElement 5000 (n + 1) ⟨3⟩ .attributeValue).runFrom s = (.ok (), u) :=
    ⟨_, (check_element_ok rfl).2 (.inl ⟨hs, rfl⟩)⟩
  have first (s : State) (hs : s.checked = {}) :
      ∃ u, (check sharedElement 5000 5000 ⟨3⟩ .start).runFrom s = (.ok (), u) ∧
        u.checked = ({} : Entered).insert ⟨0⟩ :=
    ⟨_, (check_element_ok (e := ⟨0⟩) rfl).2 (.inr ⟨by simp [hs], rfl, _, text 4998 _, rfl⟩), by simp [hs]⟩
  have second (s : State) (hs : s.checked = ({} : Entered).insert ⟨0⟩) :
      ∃ u, (check sharedElement 5000 5000 ⟨5⟩ .start).runFrom s = (.ok (), u) := by
    obtain ⟨u, hu⟩ := again 4997 { s with checked := s.checked.insert ⟨1⟩, attributes := none, alphabet := none }
      (by simp [hs])
    exact ⟨_, (check_element_ok (e := ⟨1⟩) rfl).2 (.inr ⟨by simp [hs], rfl, _, (check_attr_ok rfl).2 ⟨rfl, by decide, _, _,
      addAttribute_ok.2 (.inr ⟨_, _, rfl, rfl, rfl⟩), hu, rfl⟩, rfl⟩)⟩
  obtain ⟨t, ht, hc⟩ := first {} rfl
  obtain ⟨w, hw⟩ := second { t with attributes := t.attributes.map (·.nextBranch) } hc
  exact congrArg Prod.fst (isolated_ok.2 ⟨_, (check_choice_ok rfl).2 ⟨t, w, ht, hw, rfl⟩, rfl⟩)

theorem sharedElement_occurs_in_attribute : sharedElement.Occurs ⟨6⟩ ⟨3⟩ .attributeValue := by
  refine .tail (b := (⟨4⟩, .element)) (.tail (b := (⟨5⟩, .start)) (.single ?_) ?_) ?_ <;> decide

/-- The statement at `sharedElement`, on the side on which it fails. -/
theorem no_forbidden_occurrence_iff_sharedElement :
    sharedElement.RefFree ⟨6⟩ ∧ sharedElement.checkRestrictions .standard ⟨6⟩ = .ok () ∧
      ¬ ∀ e p q place other, sharedElement.Occurs ⟨6⟩ p place → sharedElement.Occurs ⟨6⟩ q other →
        sharedElement.pattern p = .element e → sharedElement.pattern q = .element e →
        place.Forbids (.element e) → other.Forbids (.element e) := by
  refine ⟨sharedElement_refFree, sharedElement_passes, fun h => ?_⟩
  have hf := (no_forbidden_occurrence_iff sharedElement_refFree sharedElement_passes).2.2 h
  exact hf _ _ sharedElement_occurs_in_attribute (by decide)

/-- A grammar that passes, in which an element stands in the value of an attribute. -/
theorem shared_element_in_attribute :
    sharedElement.RefFree ⟨6⟩ ∧ sharedElement.checkRestrictions .standard ⟨6⟩ = .ok () ∧
      sharedElement.Occurs ⟨6⟩ ⟨3⟩ .attributeValue ∧ Place.attributeValue.Forbids (sharedElement.pattern ⟨3⟩) :=
  ⟨sharedElement_refFree, sharedElement_passes, sharedElement_occurs_in_attribute, by decide⟩

end Grammar

end RelaxNg
