import RelaxNg.Proofs.AttributeNames
import RelaxNg.Proofs.NameClass
import RelaxNg.Proofs.Restrictions.Contents
import RelaxNg.Proofs.Restrictions.Failing
import Mathlib.Tactic.IntervalCases

/-!
# Attributes of one element

Two attributes stand beside each other if they stand on two sides of a group or an interleave (`Grammar.Beside`); those
in two branches of a choice do not. What a check has collected of a pattern that passed is what stands at its top, and
attributes that stand beside each other have been compared (`Collects`). If the check breaks `duplicateAttribute`, an
attribute of the pattern clashes with one that stands beside it or that was visible before, or this happened in the
content of an element (`check_finds`). Together: a grammar that passed has no two attributes beside each other that
share a name, and one that is refused for it has.
-/

namespace RelaxNg

open Relation

namespace Grammar

/-- An attribute with some names stands at the top of a content. -/
def HasAttribute (g : Grammar) (p : PatternId) (names : NameClass) : Prop :=
  ∃ q value annotations, g.ReachesTop p q ∧ g.pattern q = .attr names value annotations

/-- A pattern groups or interleaves two others. -/
def Joins (g : Grammar) (p left right : PatternId) : Prop :=
  g.pattern p = .group left right ∨ g.pattern p = .interleave left right

/-- Two attributes stand on the two sides of a group or an interleave at the top of a content. -/
def Beside (g : Grammar) (p : PatternId) (a b : NameClass) : Prop :=
  ∃ q left right, g.ReachesTop p q ∧ g.Joins q left right ∧ g.HasAttribute left a ∧ g.HasAttribute right b

variable {g : Grammar} {p q left right : PatternId} {names a b : NameClass}

theorem hasAttribute_iff : g.HasAttribute p names ↔
    (∃ value annotations, g.pattern p = .attr names value annotations) ∨
      ∃ q ∈ g.topSuccessors p, g.HasAttribute q names := by
  constructor
  · rintro ⟨q, value, annotations, hq, hattr⟩
    rcases hq.cases_head with rfl | ⟨r, hr, hrq⟩
    · exact .inl ⟨value, annotations, hattr⟩
    · exact .inr ⟨r, hr, q, value, annotations, hrq, hattr⟩
  · rintro (⟨value, annotations, hattr⟩ | ⟨r, hr, q, value, annotations, hrq, hattr⟩)
    · exact ⟨p, value, annotations, .refl, hattr⟩
    · exact ⟨q, value, annotations, .head hr hrq, hattr⟩

theorem beside_iff : g.Beside p a b ↔
    (∃ left right, g.Joins p left right ∧ g.HasAttribute left a ∧ g.HasAttribute right b) ∨
      ∃ q ∈ g.topSuccessors p, g.Beside q a b := by
  constructor
  · rintro ⟨q, left, right, hq, h⟩
    rcases hq.cases_head with rfl | ⟨r, hr, hrq⟩
    · exact .inl ⟨left, right, h⟩
    · exact .inr ⟨r, hr, q, left, right, hrq, h⟩
  · rintro (⟨left, right, h⟩ | ⟨r, hr, q, left, right, hrq, h⟩)
    · exact ⟨p, left, right, .refl, h⟩
    · exact ⟨q, left, right, .head hr hrq, h⟩

theorem Joins.topSuccessors_eq (h : g.Joins p left right) : g.topSuccessors p = [left, right] := by
  rcases h with h | h <;> simp [topSuccessors, h]

/-- Nothing stands beside an attribute because of a choice: what is beside is so within one branch. -/
theorem beside_choice_iff (hp : g.pattern p = .choice left right) :
    g.Beside p a b ↔ g.Beside left a b ∨ g.Beside right a b := by
  rw [beside_iff]
  simp [Joins, hp, topSuccessors]

theorem Beside.exists_reaches (h : g.Beside p a b) :
    (∃ q value annotations, g.Reaches p q ∧ g.pattern q = .attr a value annotations) ∧
      ∃ q value annotations, g.Reaches p q ∧ g.pattern q = .attr b value annotations := by
  obtain ⟨q, left, right, hq, hj, hl, hr⟩ := h
  have side {r : PatternId} {names : NameClass} (hr : r ∈ g.topSuccessors q) (h : g.HasAttribute r names) :
      ∃ q value annotations, g.Reaches p q ∧ g.pattern q = .attr names value annotations := by
    obtain ⟨s, value, annotations, hs, hattr⟩ := h
    exact ⟨s, value, annotations, ReachesTop.reaches (hq.trans (.head hr hs)), hattr⟩
  exact ⟨side (by simp [hj.topSuccessors_eq]) hl, side (by simp [hj.topSuccessors_eq]) hr⟩

end Grammar

namespace RestrictionCheck

variable {g : Grammar} {limit levels : Nat} {p q left right : PatternId} {place : Place} {s u : State}
  {names a b : NameClass} {seen added added' : List NameClass}

/-! ## What is collected -/

/-- A pattern adds attributes to those that are seen: all at its top, none of which shares a name with one that is seen
or stands beside it. -/
structure Collects (g : Grammar) (p : PatternId) (seen added : List NameClass) : Prop where
  mem_iff : ∀ names, names ∈ added ↔ g.HasAttribute p names
  apart : ∀ a ∈ seen, ∀ b ∈ added, a.overlaps b = false
  beside : ∀ a b, g.Beside p a b → a.overlaps b = false

theorem Collects.of_leaf (ht : g.topSuccessors p = []) (ha : ∀ names value annotations,
    g.pattern p ≠ .attr names value annotations) : Collects g p seen [] := by
  have hj (left right) : ¬ g.Joins p left right := fun h => by simp [h.topSuccessors_eq] at ht
  refine ⟨fun names => ?_, by simp, fun a b h => ?_⟩
  · rw [Grammar.hasAttribute_iff]
    simp [ht, ha]
  · rw [Grammar.beside_iff] at h
    simp [ht, hj] at h

theorem Collects.attr {value : PatternId} {annotations : Annotations} (hp : g.pattern p = .attr names value annotations)
    (h : ∀ a ∈ seen, a.overlaps names = false) : Collects g p seen [names] := by
  have ht : g.topSuccessors p = [] := by simp [Grammar.topSuccessors, hp]
  have hj (left right) : ¬ g.Joins p left right := fun h => by simp [h.topSuccessors_eq] at ht
  refine ⟨fun names' => ?_, by simpa using h, fun a b h => ?_⟩
  · rw [Grammar.hasAttribute_iff]
    simp [ht, hp, eq_comm]
  · rw [Grammar.beside_iff] at h
    simp [ht, hj] at h

theorem Collects.choice (hp : g.pattern p = .choice left right) (hl : Collects g left seen added)
    (hr : Collects g right seen added') : Collects g p seen (added ++ added') := by
  have ht : g.topSuccessors p = [left, right] := by simp [Grammar.topSuccessors, hp]
  refine ⟨fun names => ?_, fun a ha b hb => ?_, fun a b h => ?_⟩
  · rw [Grammar.hasAttribute_iff, List.mem_append, hl.mem_iff, hr.mem_iff]
    simp [ht, hp]
  · exact (List.mem_append.1 hb).elim (hl.apart a ha b) (hr.apart a ha b)
  · exact ((Grammar.beside_choice_iff hp).1 h).elim (hl.beside a b) (hr.beside a b)

/-- The attributes of the left side are seen on the right side. -/
theorem Collects.join (hp : g.Joins p left right) (hl : Collects g left seen added)
    (hr : Collects g right (seen ++ added) added') : Collects g p seen (added ++ added') := by
  have ht := hp.topSuccessors_eq
  refine ⟨fun names => ?_, fun a ha b hb => ?_, fun a b h => ?_⟩
  · have hn (value annotations) : g.pattern p ≠ .attr names value annotations := by
      rcases hp with hp | hp <;> simp [hp]
    rw [Grammar.hasAttribute_iff, List.mem_append, hl.mem_iff, hr.mem_iff]
    simp [ht, hn]
  · exact (List.mem_append.1 hb).elim (hl.apart a ha b) (hr.apart a (List.mem_append_left _ ha) b)
  · rcases Grammar.beside_iff.1 h with ⟨left', right', hp', hla, hrb⟩ | ⟨q, hq, hb⟩
    · have hsame := hp'.topSuccessors_eq
      rw [ht] at hsame
      cases hsame
      exact hr.apart a (List.mem_append_right _ ((hl.mem_iff a).2 hla)) b ((hr.mem_iff b).2 hrb)
    · rw [ht] at hq
      rcases List.mem_cons.1 hq with rfl | hq
      · exact hl.beside a b hb
      · exact hr.beside a b (List.mem_singleton.1 hq ▸ hb)

theorem Collects.oneOrMore (hp : g.pattern p = .oneOrMore q) (h : Collects g q seen added) :
    Collects g p seen added := by
  have ht : g.topSuccessors p = [q] := by simp [Grammar.topSuccessors, hp]
  refine ⟨fun names => ?_, h.apart, fun a b hb => ?_⟩
  · rw [h.mem_iff, Grammar.hasAttribute_iff (p := p)]
    simp [ht, hp]
  · rw [Grammar.beside_iff] at hb
    simp only [ht, Grammar.Joins, hp, List.mem_singleton, reduceCtorEq, or_self, false_and, exists_false, false_or,
      exists_eq_left] at hb
    exact h.beside a b hb

/-- The attributes of a pattern are appended to those collected before, if any are, and have been compared with them. -/
def Gathers (g : Grammar) (p : PatternId) (before after : Option AttributeNames) : Prop :=
  ∃ added, after = before.map (·.append added) ∧
    ∀ names, before = some names → names.WellFormed → Collects g p names.visible added

variable {before mid after : Option AttributeNames}

theorem Gathers.of_leaf (ht : g.topSuccessors p = []) (ha : ∀ names value annotations,
    g.pattern p ≠ .attr names value annotations) : Gathers g p before before := by
  refine ⟨[], ?_, fun _ _ _ => .of_leaf ht ha⟩
  cases before <;> simp

theorem Gathers.choice (hp : g.pattern p = .choice left right)
    (hl : Gathers g left (before.map (·.openChoice)) mid) (hr : Gathers g right (mid.map (·.nextBranch)) after) :
    Gathers g p before (after.map (·.closeChoice)) := by
  obtain ⟨added, rfl, hl⟩ := hl
  obtain ⟨added', rfl, hr⟩ := hr
  refine ⟨added ++ added', ?_, fun names hn hw => ?_⟩
  · cases before with
    | none => rfl
    | some names => exact congrArg some AttributeNames.closeChoice_branch
  · subst hn
    have hl := hl names.openChoice rfl hw.openChoice
    have hr := hr (names.branch added) rfl (hw.branch added)
    rw [AttributeNames.visible_openChoice] at hl
    rw [AttributeNames.visible_branch hw] at hr
    exact .choice hp hl hr

theorem Gathers.join (hp : g.Joins p left right) (hl : Gathers g left before mid) (hr : Gathers g right mid after) :
    Gathers g p before after := by
  obtain ⟨added, rfl, hl⟩ := hl
  obtain ⟨added', rfl, hr⟩ := hr
  refine ⟨added ++ added', ?_, fun names hn hw => ?_⟩
  · cases before <;> simp
  · subst hn
    have hr := hr (names.append added) rfl (hw.append added)
    rw [AttributeNames.visible_append hw] at hr
    exact .join hp (hl names rfl hw) hr

theorem Gathers.oneOrMore (hp : g.pattern p = .oneOrMore q) (h : Gathers g q before after) :
    Gathers g p before after := by
  obtain ⟨added, ha, hc⟩ := h
  exact ⟨added, ha, fun names hn hw => .oneOrMore hp (hc names hn hw)⟩

theorem Gathers.attr {value : PatternId} {annotations : Annotations} {t : State}
    (hp : g.pattern p = .attr names value annotations) (h : (addAttribute names).runFrom s = (.ok (), t)) :
    Gathers g p s.attributes t.attributes := by
  rcases addAttribute_ok.1 h with ⟨hn, rfl⟩ | ⟨names', after, hn, hadd, rfl⟩
  · exact ⟨[], by rw [hn, Option.map_none], fun names' hn' => by simp [hn] at hn'⟩
  · obtain ⟨hseen, rfl⟩ := AttributeNames.add_ok_iff.1 hadd
    refine ⟨[names], by rw [hn, Option.map_some], fun names'' hn'' _ => ?_⟩
    rw [hn] at hn''
    cases hn''
    exact .attr hp hseen

/-- A check that passes gathers the attributes of its pattern. -/
theorem check_gathers (hr : g.RefFree p) (h : (check g limit levels p place).runFrom s = (.ok (), u)) :
    Gathers g p s.attributes u.attributes := by
  induction levels generalizing p place s u with
  | zero => exact absurd h check_zero_ok
  | succ levels ih =>
    cases hp : g.pattern p with
    | element e =>
      have hu : u.attributes = s.attributes := by
        rcases (check_element_ok hp).1 h with ⟨-, rfl⟩ | ⟨-, -, t, -, rfl⟩ <;> rfl
      rw [hu]
      exact .of_leaf (by simp [Grammar.topSuccessors, hp]) (by simp [hp])
    | ref d => exact absurd hp (hr p .refl d)
    | list operand =>
      obtain ⟨-, t, -, rfl⟩ := (check_list_ok hp).1 h
      exact .of_leaf (by simp [Grammar.topSuccessors, hp]) (by simp [hp])
    | dataExcept type params except =>
      obtain ⟨-, t, -, rfl⟩ := (check_dataExcept_ok hp).1 h
      exact .of_leaf (by simp [Grammar.topSuccessors, hp]) (by simp [hp])
    | empty | notAllowed | text | data | value =>
      rw [check_leaf_ok (by simp [hp, Pattern.operands]) (by simp [hp]) (by simp [hp])] at h
      rw [h.2]
      exact .of_leaf (by simp [Grammar.topSuccessors, hp]) (by simp [hp])
    | attr names value annotations =>
      obtain ⟨-, -, t, w, hn, -, rfl⟩ := (check_attr_ok hp).1 h
      exact (Gathers.attr hp hn : Gathers g p s.attributes t.attributes)
    | choice left right =>
      obtain ⟨t, w, ht, hw, rfl⟩ := (check_choice_ok hp).1 h
      have hl := ih (hr.of_operand (by simp [hp, Pattern.operands])) ht
      have hr := ih (hr.of_operand (by simp [hp, Pattern.operands])) hw
      exact .choice hp hl hr
    | group left right =>
      obtain ⟨-, t, ht, hw, -⟩ := (check_group_ok hp).1 h
      have hl := ih (hr.of_operand (by simp [hp, Pattern.operands])) ht
      have hr := ih (hr.of_operand (by simp [hp, Pattern.operands])) hw
      exact .join (.inl hp) hl hr
    | interleave left right =>
      obtain ⟨-, _, _, t, w, hside, hside', -, -, -, rfl⟩ := (check_interleave_ok hp).1 h
      obtain ⟨t, ht, -, rfl⟩ := side_ok.1 hside
      obtain ⟨w, hw, -, rfl⟩ := side_ok.1 hside'
      have hl := ih (hr.of_operand (by simp [hp, Pattern.operands])) ht
      have hr := ih (hr.of_operand (by simp [hp, Pattern.operands])) hw
      exact .join (.inr hp) hl hr
    | oneOrMore q =>
      obtain ⟨-, ht, -⟩ := (check_oneOrMore_ok hp).1 h
      exact .oneOrMore hp (ih (hr.of_operand (by simp [hp, Pattern.operands])) ht)

/-! ## What clashes -/

/-- An attribute of a pattern shares a name with one that is seen or that stands beside it. -/
inductive Clashes (g : Grammar) (p : PatternId) (seen : List NameClass) : Prop
  | seen {a b : NameClass} (ha : a ∈ seen) (hb : g.HasAttribute p b) (h : a.overlaps b = true) : Clashes g p seen
  | beside {a b : NameClass} (hb : g.Beside p a b) (h : a.overlaps b = true) : Clashes g p seen

theorem Clashes.of_top (h : Clashes g q seen) (hq : q ∈ g.topSuccessors p) : Clashes g p seen := by
  cases h with
  | seen ha hb h => exact .seen ha (Grammar.hasAttribute_iff.2 (.inr ⟨q, hq, hb⟩)) h
  | beside hb h => exact .beside (Grammar.beside_iff.2 (.inr ⟨q, hq, hb⟩)) h

/-- What clashes on the right side with an attribute of the left side stands beside it. -/
theorem Clashes.of_right (h : Clashes g right (seen ++ added)) (hp : g.Joins p left right)
    (hadded : ∀ a ∈ added, g.HasAttribute left a) : Clashes g p seen := by
  have hq : right ∈ g.topSuccessors p := by simp [hp.topSuccessors_eq]
  cases h with
  | seen ha hb h =>
    rcases List.mem_append.1 ha with ha | ha
    · exact .seen ha (Grammar.hasAttribute_iff.2 (.inr ⟨right, hq, hb⟩)) h
    · exact .beside (Grammar.beside_iff.2 (.inl ⟨left, right, hp, hadded _ ha, hb⟩)) h
  | beside hb h => exact .beside (Grammar.beside_iff.2 (.inr ⟨right, hq, hb⟩)) h

/-- There is a clash in a pattern where attributes are collected, or in the content of an element that is reached. -/
inductive Finds (g : Grammar) (p : PatternId) (before : Option AttributeNames) : Prop
  | here {names : AttributeNames} (hb : before = some names) (h : names.WellFormed → Clashes g p names.visible) :
      Finds g p before
  | content {q : PatternId} {e : ElementId} {a b : NameClass} (hq : g.Reaches p q) (he : g.pattern q = .element e)
      (hb : g.Beside (g.element e).content a b) (h : a.overlaps b = true) : Finds g p before

/-- Where no attributes are collected, all clashes are in contents of elements. -/
theorem Finds.of_none (h : Finds g q none) (hq : q ∈ g.successors p) : Finds g p before := by
  cases h with
  | here hb => cases hb
  | content hr he hb h => exact .content (.head hq hr) he hb h

/-- A content is read with no attributes collected before. -/
theorem Finds.of_content {e : ElementId} (h : Finds g (g.element e).content (some .empty))
    (hp : g.pattern p = .element e) : Finds g p before := by
  cases h with
  | here hn h =>
    cases hn
    cases h trivial with
    | seen ha => cases ha
    | beside hb h => exact .content .refl hp hb h
  | content hr he hb h => exact .content (.head (Grammar.content_mem_successors hp) hr) he hb h

/-- A clash at the top of a pattern is one in the pattern, if the same attributes are visible. -/
theorem Finds.of_top (change : AttributeNames → AttributeNames) (h : Finds g q (before.map change))
    (hq : q ∈ g.topSuccessors p) (hv : ∀ names : AttributeNames, names.WellFormed →
      (change names).WellFormed ∧ (change names).visible = names.visible) : Finds g p before := by
  cases h with
  | here hn h =>
    obtain ⟨names, hb, rfl⟩ := Option.map_eq_some_iff.1 hn
    refine .here hb fun hw => ?_
    obtain ⟨hw', hv⟩ := hv names hw
    exact ((hv ▸ h hw') : Clashes g q names.visible).of_top hq
  | content hr he hb h => exact .content (.head (Grammar.mem_successors_of_top hq) hr) he hb h

theorem Finds.of_second_branch (h : Finds g right (mid.map (·.nextBranch))) (hp : g.pattern p = .choice left right)
    (hl : Gathers g left (before.map (·.openChoice)) mid) : Finds g p before := by
  obtain ⟨added, rfl, -⟩ := hl
  -- What the first branch added is still there, but the second one is not compared with it.
  have hmap : ((before.map (·.openChoice)).map (·.append added)).map (·.nextBranch) = before.map (·.branch added) := by
    cases before <;> rfl
  rw [hmap] at h
  refine h.of_top (·.branch added) (by simp [Grammar.topSuccessors, hp]) fun names hw => ?_
  exact ⟨hw.branch added, AttributeNames.visible_branch hw⟩

theorem Finds.of_right (h : Finds g right mid) (hp : g.Joins p left right) (hl : Gathers g left before mid) :
    Finds g p before := by
  obtain ⟨added, rfl, hl⟩ := hl
  cases h with
  | here hn h =>
    obtain ⟨names, hb, rfl⟩ := Option.map_eq_some_iff.1 hn
    refine .here hb fun hw => ?_
    have hclash := h (hw.append added)
    rw [AttributeNames.visible_append hw] at hclash
    exact hclash.of_right hp fun a ha => ((hl names hb hw).mem_iff a).1 ha
  | content hr he hb h =>
    have hq : right ∈ g.topSuccessors p := by simp [hp.topSuccessors_eq]
    exact .content (.head (Grammar.mem_successors_of_top hq) hr) he hb h

/-- A check that breaks the restriction has found a clash. -/
theorem check_finds (hr : g.RefFree p) (h : Breaks (check g limit levels p place) s .duplicateAttribute) :
    Finds g p s.attributes := by
  induction levels generalizing p place s with
  | zero => exact absurd h not_check_zero_breaks
  | succ levels ih =>
    have hallowed (pattern : Pattern) : place.prohibited? pattern ≠ some .duplicateAttribute :=
      Place.prohibited?_ne (by decide) place pattern
    -- In values, lists and exceptions no attributes are collected.
    have inner {q : PatternId} {place : Place} {t : State} (hq : q ∈ (g.pattern p).operands) (ht : t.attributes = none)
        (h : Breaks (check g limit levels q place) t .duplicateAttribute) : Finds g p s.attributes := by
      have hc := ih (hr.of_operand hq) h
      exact (ht ▸ hc : Finds g q none).of_none (Grammar.mem_successors_of_operand hq)
    have same {q : PatternId} (h : Finds g q s.attributes) (hq : q ∈ g.topSuccessors p) : Finds g p s.attributes :=
      Finds.of_top id (by simpa using h) hq fun names hw => ⟨hw, rfl⟩
    cases hp : g.pattern p with
    | element e =>
      rcases check_element_breaks hp h with h | ⟨t, ht, h⟩
      · exact absurd h (hallowed _)
      · have hc := ih (hr.of_successor (Grammar.content_mem_successors hp)) h
        exact (ht ▸ hc : Finds g (g.element e).content (some .empty)).of_content hp
    | ref d => exact absurd hp (hr p .refl d)
    | attr names value annotations =>
      rcases check_attr_breaks hp h with h | h | h | ⟨t, ht, h⟩
      · exact absurd h (hallowed _)
      · cases h
      · obtain ⟨before, v, hb, hadd, -⟩ := addAttribute_breaks.1 h
        obtain ⟨a, ha, ho⟩ := AttributeNames.overlaps_of_add_error hadd
        exact .here hb fun _ => .seen ha (Grammar.hasAttribute_iff.2 (.inl ⟨value, annotations, hp⟩)) ho
      · exact inner (by simp [hp, Pattern.operands]) ht h
    | list q =>
      rcases check_list_breaks hp h with h | ⟨t, ht, h⟩
      · exact absurd h (hallowed _)
      · exact inner (by simp [hp, Pattern.operands]) ht h
    | dataExcept type params q =>
      rcases check_dataExcept_breaks hp h with h | ⟨t, ht, h⟩
      · exact absurd h (hallowed _)
      · exact inner (by simp [hp, Pattern.operands]) ht h
    | empty | notAllowed | text | data | value =>
      have hleaf := check_leaf_breaks (by simp [hp, Pattern.operands]) (by simp [hp]) (by simp [hp]) h
      exact absurd hleaf (hallowed _)
    | choice left right =>
      rcases check_choice_breaks hp h with h | ⟨t, ht, h⟩
      · have hc := ih (hr.of_operand (by simp [hp, Pattern.operands])) h
        refine hc.of_top (·.openChoice) (by simp [Grammar.topSuccessors, hp]) fun names hw => ?_
        exact ⟨hw.openChoice, AttributeNames.visible_openChoice⟩
      · have hl := check_gathers (hr.of_operand (by simp [hp, Pattern.operands])) ht
        have hc := ih (hr.of_operand (by simp [hp, Pattern.operands])) h
        exact hc.of_second_branch hp hl
    | group left right =>
      rcases check_group_breaks hp h with h | ⟨h, -⟩ | h | ⟨t, ht, h⟩
      · exact absurd h (hallowed _)
      · cases h
      · exact same (ih (hr.of_operand (by simp [hp, Pattern.operands])) h) (by simp [Grammar.topSuccessors, hp])
      · have hl := check_gathers (hr.of_operand (by simp [hp, Pattern.operands])) ht
        exact (ih (hr.of_operand (by simp [hp, Pattern.operands])) h).of_right (.inl hp) hl
    | interleave left right =>
      rcases check_interleave_breaks hp h with h | h | ⟨h, -⟩ | h | ⟨a, t, hside, h⟩
      · exact absurd h (hallowed _)
      · simp at h
      · cases h
      · have hc := ih (hr.of_operand (q := left) (by simp [hp, Pattern.operands])) h
        exact same hc (by simp [Grammar.topSuccessors, hp])
      · obtain ⟨t, ht, -, rfl⟩ := side_ok.1 hside
        have hl := check_gathers (hr.of_operand (by simp [hp, Pattern.operands])) ht
        exact (ih (hr.of_operand (by simp [hp, Pattern.operands])) h).of_right (.inr hp) hl
    | oneOrMore q =>
      rcases check_oneOrMore_breaks hp h with h | ⟨h, -⟩ | h
      · exact absurd h (hallowed _)
      · cases h
      · exact same (ih (hr.of_operand (by simp [hp, Pattern.operands])) h) (by simp [Grammar.topSuccessors, hp])

end RestrictionCheck

namespace Grammar

open RestrictionCheck

variable {g : Grammar} {limits : Limits} {start p : PatternId} {e : ElementId} {a b : NameClass}

/-- In a grammar that passed, no two attributes beside each other share a name; one that is refused for a duplicate
attribute has two that share a real name. -/
theorem duplicate_attribute_exact (hr : g.RefFree start)
    (hproper : ∀ p names value annotations,
      g.Reaches start p → g.pattern p = .attr names value annotations → names.Proper) :
    (g.checkRestrictions limits start = .ok () →
      ∀ p e a b, g.Reaches start p → g.pattern p = .element e → g.Beside (g.element e).content a b →
        ∀ q, ¬ (a.contains q = true ∧ b.contains q = true)) ∧
    ∀ v, g.checkRestrictions limits start = .error (.restriction v) → v.restriction = .duplicateAttribute →
      ∃ p e a b q, g.Reaches start p ∧ g.pattern p = .element e ∧ g.Beside (g.element e).content a b ∧
        q.IsReal ∧ a.contains q = true ∧ b.contains q = true := by
  have proper {p e a b} (hp : g.Reaches start p) (he : g.pattern p = .element e)
      (hb : g.Beside (g.element e).content a b) : a.Proper ∧ b.Proper := by
    have hcontent : g.Reaches start (g.element e).content := hp.tail (content_mem_successors he)
    obtain ⟨⟨q, value, annotations, hq, ha⟩, r, value', annotations', hr, hb⟩ := hb.exists_reaches
    exact ⟨hproper q a value annotations (hcontent.trans hq) ha, hproper r b value' annotations' (hcontent.trans hr) hb⟩
  constructor
  · rintro hok p e a b hp he hb q ⟨hqa, hqb⟩
    obtain ⟨levels, s, u, hs, -, hpass⟩ := passes_of_reaches hr hok hp he
    have hfree := (hr.of_reaches hp).of_successor (content_mem_successors he)
    obtain ⟨added, -, hc⟩ := check_gathers hfree hpass
    have hno := (hc .empty hs trivial).beside a b hb
    obtain ⟨ha, hb⟩ := proper hp he hb
    rw [ha.overlaps_of_contains hb hqa hqb] at hno
    cases hno
  · intro v herror hv
    have hbreaks : Breaks (checkStart g limits start) {} .duplicateAttribute := ⟨v, herror, hv⟩
    -- Nothing is collected around the start, so the clash is in the content of an element.
    cases check_finds hr (isolated_breaks.1 hbreaks) with
    | here hn => cases hn
    | @content p e a b hp he hb h =>
      obtain ⟨ha, hb'⟩ := proper hp he hb
      obtain ⟨q, hq, hqa, hqb⟩ := ha.exists_of_overlaps hb' h
      exact ⟨p, e, a, b, q, hp, he, hb, hq, hqa, hqb⟩

/-- An element that has an attribute twice. -/
def doubled : Grammar where
  nodes := #[⟨.empty, true, .empty, none⟩, ⟨.notAllowed, false, .empty, none⟩, ⟨.text, true, .mixed, none⟩,
    ⟨.attr (.plain "a") ⟨2⟩ .none, false, .empty, none⟩, ⟨.group ⟨3⟩ ⟨3⟩, false, .empty, none⟩,
    ⟨.element ⟨0⟩, false, .complex, none⟩]
  elements := #[⟨.plain "e", ⟨4⟩, none, .none⟩]

/-- The attribute is collected when it is met first and refused when it is met again. -/
theorem doubled_fails :
    doubled.checkRestrictions .standard ⟨5⟩ = .error (.restriction (.of .duplicateAttribute)) := by
  have hvalue (s : State) : (check doubled 5000 4998 ⟨2⟩ .attributeValue).runFrom s = (.ok (), s) := by
    have htext : doubled.pattern ⟨2⟩ = .text := rfl
    exact (check_leaf_ok rfl (by simp [htext]) (by simp [htext])).2 ⟨rfl, rfl⟩
  have hattr : doubled.pattern ⟨3⟩ = .attr (.plain "a") ⟨2⟩ .none := rfl
  have hfirst (s : State) (hs : s.attributes = some .empty) :
      ∃ t, (check doubled 5000 4999 ⟨3⟩ .element).runFrom s = (.ok (), t) ∧ t.attributes = some ⟨[.plain "a"], []⟩ :=
    ⟨_, (check_attr_ok hattr).2 ⟨rfl, rfl, _, _, addAttribute_ok.2 (.inr ⟨_, _, hs, rfl, rfl⟩), hvalue _, rfl⟩, rfl⟩
  have hsecond (s : State) (hs : s.attributes = some ⟨[.plain "a"], []⟩) :
      Fails (check doubled 5000 4999 ⟨3⟩ .element) s (.restriction (.of .duplicateAttribute)) :=
    (check_attr_fails hattr).2
      ⟨_, .inr ⟨rfl, .inr ⟨rfl, .inl (addAttribute_fails.2 ⟨_, _, hs, rfl, rfl⟩)⟩⟩, rfl⟩
  have hcontent (s : State) (hs : s.attributes = some .empty) :
      Fails (check doubled 5000 5000 ⟨4⟩ .element) s (.restriction (.of .duplicateAttribute)) := by
    obtain ⟨t, ht, hattributes⟩ := hfirst s hs
    exact (check_group_fails rfl).2 (.inr ⟨rfl, .inr ⟨t, ht, .inl (hsecond t hattributes)⟩⟩)
  have helement : doubled.pattern ⟨5⟩ = .element ⟨0⟩ := rfl
  exact isolated_fails.2 ((check_element_fails helement).2 ⟨by simp, _, .inr ⟨rfl, hcontent _ rfl⟩, rfl⟩)

/-- The statement at `doubled`, which is refused: there are two attributes beside each other that share a name. -/
theorem duplicate_attribute_exact_doubled : doubled.RefFree ⟨5⟩ ∧
    (∀ p names value annotations,
      doubled.Reaches ⟨5⟩ p → doubled.pattern p = .attr names value annotations → names.Proper) ∧
    doubled.checkRestrictions .standard ⟨5⟩ = .error (.restriction (.of .duplicateAttribute)) ∧
    ∃ p e a b q, doubled.Reaches ⟨5⟩ p ∧ doubled.pattern p = .element e ∧
      doubled.Beside (doubled.element e).content a b ∧ q.IsReal ∧ a.contains q = true ∧ b.contains q = true := by
  have hfree : doubled.RefFree ⟨5⟩ := refFree_of_nodes (by simp [doubled]) _
  have hproper : ∀ p names value annotations,
      doubled.Reaches ⟨5⟩ p → doubled.pattern p = .attr names value annotations → names.Proper := by
    intro p names value annotations _ hp
    have hhas : doubled.Has p := has_of_pattern_ne (by simp [hp])
    have hlt : p.index < 6 := hhas
    obtain ⟨i⟩ := p
    interval_cases i <;> cases hp
    exact ⟨by decide, by decide⟩
  exact ⟨hfree, hproper, doubled_fails, (duplicate_attribute_exact hfree hproper).2 _ doubled_fails rfl⟩

end Grammar

end RelaxNg
