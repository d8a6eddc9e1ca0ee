import RelaxNg.Proofs.Occurrence
import RelaxNg.Proofs.Restrictions.Failing

/-!
# Locations of violations

A check calls the checks of the operands it comes to, each in its place and from the state in which it comes to it
(`Call.Enters`); where a check fails, either one of those that it called fails, or it breaks a restriction itself. So a
violation leads to the pattern that breaks it (`StopsAt`), and on its way back it meets every location around that
pattern, the innermost first. What `Grammar.violation_location` adds is the location of the offending pattern itself:
an element and an attribute tell theirs, but a list and a datatype with exceptions are refused before they do.
-/

namespace RelaxNg

/-- A list or a datatype with exceptions: their checks refuse the place first and tell their location afterwards. -/
def Pattern.refusesFirst : Pattern → Bool
  | .list _ | .dataExcept _ _ _ => true
  | _ => false

namespace Grammar

/-- The location that is recorded for an attribute, an element, a list or a datatype with exceptions. -/
def mark? (g : Grammar) (p : PatternId) : Option Location :=
  match g.pattern p with
  | .element e => (g.element e).location.or (g.location? p)
  | .attr _ _ _ | .list _ | .dataExcept _ _ _ => g.location? p
  | _ => none

/-- The innermost location on a way that begins at its outermost pattern. -/
def innermost? (g : Grammar) (way : List PatternId) : Option Location := way.reverse.findSome? g.mark?

variable {g : Grammar}

@[simp] theorem innermost?_nil : g.innermost? [] = none := rfl

@[simp] theorem innermost?_singleton (p : PatternId) : g.innermost? [p] = g.mark? p := by
  simp [innermost?]

theorem innermost?_append (outer inner : List PatternId) :
    g.innermost? (outer ++ inner) = (g.innermost? inner).or (g.innermost? outer) := by
  rw [innermost?, List.reverse_append, List.findSome?_append, innermost?, innermost?]

theorem innermost?_eq_none_iff {way : List PatternId} : g.innermost? way = none ↔ ∀ p ∈ way, g.mark? p = none := by
  simp [innermost?]

end Grammar

@[simp] theorem Error.within_none (e : Error) : e.within none = e := by
  cases e <;> simp [within, Violation.within]

namespace RestrictionCheck

variable {g : Grammar} {limit levels : Nat} {p : PatternId} {place : Place} {s t : State} {v : Violation}

/-! ## Calls -/

/-- The check of a pattern in a place, from a state. -/
structure Call where
  levels : Nat
  pattern : PatternId
  place : Place
  state : State

namespace Call

def Fails (g : Grammar) (limit : Nat) (c : Call) (e : Error) : Prop :=
  RestrictionCheck.Fails (check g limit c.levels c.pattern c.place) c.state e

/-- A check comes to the check of an operand, with what came before it passed. -/
inductive Enters (g : Grammar) (limit : Nat) : Call → Call → Prop
  | element {levels p place s e} (hp : g.pattern p = .element e) (hs : s.checked.contains e = false)
      (ho : place.prohibited? (.element e) = none) :
      Enters g limit ⟨levels + 1, p, place, s⟩ ⟨levels, (g.element e).content, .element,
        { s with checked := s.checked.insert e, attributes := some .empty, alphabet := none }⟩
  | attr {levels p place s names value annotations t} (hp : g.pattern p = .attr names value annotations)
      (ho : place.prohibited? (.attr names value annotations) = none) (hx : names.namesXmlns = false)
      (ht : (addAttribute names).runFrom s = (.ok (), t)) :
      Enters g limit ⟨levels + 1, p, place, s⟩
        ⟨levels, value, .attributeValue, { t with attributes := none, alphabet := none }⟩
  | dataExcept {levels p place s type params except} (hp : g.pattern p = .dataExcept type params except)
      (ho : place.prohibited? (.dataExcept type params except) = none) :
      Enters g limit ⟨levels + 1, p, place, s⟩
        ⟨levels, except, .exception, { s with attributes := none, alphabet := none }⟩
  | list {levels p place s operand} (hp : g.pattern p = .list operand)
      (ho : place.prohibited? (.list operand) = none) :
      Enters g limit ⟨levels + 1, p, place, s⟩
        ⟨levels, operand, .list, { s with attributes := none, alphabet := none }⟩
  | choiceLeft {levels p place s left right} (hp : g.pattern p = .choice left right) :
      Enters g limit ⟨levels + 1, p, place, s⟩
        ⟨levels, left, place, { s with attributes := s.attributes.map (·.openChoice) }⟩
  | choiceRight {levels p place s left right t} (hp : g.pattern p = .choice left right)
      (ht : (check g limit levels left place).runFrom { s with attributes := s.attributes.map (·.openChoice) } =
        (.ok (), t)) :
      Enters g limit ⟨levels + 1, p, place, s⟩
        ⟨levels, right, place, { t with attributes := t.attributes.map (·.nextBranch) }⟩
  | groupLeft {levels p place s left right} (hp : g.pattern p = .group left right)
      (ho : place.prohibited? (.group left right) = none) :
      Enters g limit ⟨levels + 1, p, place, s⟩ ⟨levels, left, place.underGroup, s⟩
  | groupRight {levels p place s left right t} (hp : g.pattern p = .group left right)
      (ho : place.prohibited? (.group left right) = none)
      (ht : (check g limit levels left place.underGroup).runFrom s = (.ok (), t)) :
      Enters g limit ⟨levels + 1, p, place, s⟩ ⟨levels, right, place.underGroup, t⟩
  | interleaveLeft {levels p place s left right} (hp : g.pattern p = .interleave left right)
      (ho : place.prohibited? (.interleave left right) = none) :
      Enters g limit ⟨levels + 1, p, place, s⟩
        ⟨levels, left, place.underInterleave, { s with alphabet := some .empty }⟩
  | interleaveRight {levels p place s left right a t} (hp : g.pattern p = .interleave left right)
      (ho : place.prohibited? (.interleave left right) = none)
      (ht : (side (check g limit levels left place.underInterleave)).runFrom s = (.ok a, t)) :
      Enters g limit ⟨levels + 1, p, place, s⟩
        ⟨levels, right, place.underInterleave, { t with alphabet := some .empty }⟩
  | oneOrMore {levels p place s operand} (hp : g.pattern p = .oneOrMore operand)
      (ho : place.prohibited? (.oneOrMore operand) = none) :
      Enters g limit ⟨levels + 1, p, place, s⟩ ⟨levels, operand, place.underOneOrMore, s⟩
  | ref {levels p place s d body} (hp : g.pattern p = .ref d) (hb : g.body? d = some body)
      (hs : s.active.contains d = false) :
      Enters g limit ⟨levels + 1, p, place, s⟩ ⟨levels, body, place, { s with active := s.active.insert d }⟩

variable {c d : Call} {e : Error}

/-- A check fails with what it called, which gets the location of the pattern unless it has one. -/
theorem Enters.fails (h : Enters g limit c d) (hd : d.Fails g limit e) :
    c.Fails g limit (e.within (g.mark? c.pattern)) := by
  unfold Fails at hd ⊢
  cases h with
  | element hp hs ho =>
    rw [Grammar.mark?, hp]
    exact (check_element_fails hp).2 ⟨hs, e, .inr ⟨ho, hd⟩, rfl⟩
  | attr hp ho hx ht =>
    rw [Grammar.mark?, hp]
    exact (check_attr_fails hp).2 ⟨e, .inr ⟨ho, .inr ⟨hx, .inr ⟨_, ht, hd⟩⟩⟩, rfl⟩
  | dataExcept hp ho =>
    rw [Grammar.mark?, hp]
    exact (check_dataExcept_fails hp).2 (.inr ⟨ho, e, hd, rfl⟩)
  | list hp ho =>
    rw [Grammar.mark?, hp]
    exact (check_list_fails hp).2 (.inr ⟨ho, e, hd, rfl⟩)
  | choiceLeft hp =>
    rw [Grammar.mark?, hp, Error.within_none]
    exact (check_choice_fails hp).2 (.inl hd)
  | choiceRight hp ht =>
    rw [Grammar.mark?, hp, Error.within_none]
    exact (check_choice_fails hp).2 (.inr ⟨_, ht, hd⟩)
  | groupLeft hp ho =>
    rw [Grammar.mark?, hp, Error.within_none]
    exact (check_group_fails hp).2 (.inr ⟨ho, .inl hd⟩)
  | groupRight hp ho ht =>
    rw [Grammar.mark?, hp, Error.within_none]
    exact (check_group_fails hp).2 (.inr ⟨ho, .inr ⟨_, ht, .inl hd⟩⟩)
  | interleaveLeft hp ho =>
    rw [Grammar.mark?, hp, Error.within_none]
    exact (check_interleave_fails hp).2 (.inr ⟨ho, .inl hd⟩)
  | interleaveRight hp ho ht =>
    rw [Grammar.mark?, hp, Error.within_none]
    exact (check_interleave_fails hp).2 (.inr ⟨ho, .inr ⟨_, _, ht, .inl hd⟩⟩)
  | oneOrMore hp ho =>
    rw [Grammar.mark?, hp, Error.within_none]
    exact (check_oneOrMore_fails hp).2 (.inr ⟨ho, .inl hd⟩)
  | ref hp hb hs =>
    rw [Grammar.mark?, hp, Error.within_none]
    exact (check_ref_fails hp).2 ⟨_, hb, hs, hd⟩

/-- A check breaks a restriction that one of those it called broke, or breaks it itself. What a pattern breaks itself
has the location of that pattern, but for a list and a datatype with exceptions. -/
theorem exists_enters_of_fails (hc : c.Fails g limit (.restriction v)) :
    (∃ d w, Enters g limit c d ∧ d.Fails g limit (.restriction w)) ∨
      v.location = if (g.pattern c.pattern).refusesFirst then none else g.mark? c.pattern := by
  unfold Fails at hc
  obtain ⟨levels, p, place, s⟩ := c
  cases levels with
  | zero => cases check_zero_fails.1 hc
  | succ levels =>
    unfold Grammar.mark?
    cases hp : g.pattern p with
    | element element =>
      obtain ⟨hs, error, h, he⟩ := (check_element_fails hp).1 hc
      obtain ⟨w, rfl, rfl⟩ := exists_of_eq_within he
      rcases h with ⟨r, -, ⟨⟩⟩ | ⟨ho, h⟩
      · exact .inr rfl
      · exact .inl ⟨_, w, .element hp hs ho, h⟩
    | attr names value annotations =>
      obtain ⟨error, h, he⟩ := (check_attr_fails hp).1 hc
      obtain ⟨w, rfl, rfl⟩ := exists_of_eq_within he
      rcases h with ⟨r, -, ⟨⟩⟩ | ⟨ho, ⟨-, ⟨⟩⟩ | ⟨hx, h | ⟨t, ht, h⟩⟩⟩
      · exact .inr rfl
      · exact .inr rfl
      · obtain ⟨before, w, -, hadd, ⟨⟩⟩ := addAttribute_fails.1 h
        rw [eq_of_add_error hadd]
        exact .inr rfl
      · exact .inl ⟨_, w, .attr hp ho hx ht, h⟩
    | dataExcept type params except =>
      rcases (check_dataExcept_fails hp).1 hc with ⟨r, -, ⟨⟩⟩ | ⟨ho, error, h, he⟩
      · exact .inr rfl
      · obtain ⟨w, rfl, rfl⟩ := exists_of_eq_within he
        exact .inl ⟨_, w, .dataExcept hp ho, h⟩
    | list operand =>
      rcases (check_list_fails hp).1 hc with ⟨r, -, ⟨⟩⟩ | ⟨ho, error, h, he⟩
      · exact .inr rfl
      · obtain ⟨w, rfl, rfl⟩ := exists_of_eq_within he
        exact .inl ⟨_, w, .list hp ho, h⟩
    | choice left right =>
      rcases (check_choice_fails hp).1 hc with h | ⟨t, ht, h⟩
      · exact .inl ⟨_, v, .choiceLeft hp, h⟩
      · exact .inl ⟨_, v, .choiceRight hp ht, h⟩
    | group left right =>
      rcases (check_group_fails hp).1 hc with ⟨r, -, ⟨⟩⟩ | ⟨ho, h | ⟨t, ht, h | ⟨_, -, -, ⟨⟩⟩⟩⟩
      · exact .inr rfl
      · exact .inl ⟨_, v, .groupLeft hp ho, h⟩
      · exact .inl ⟨_, v, .groupRight hp ho ht, h⟩
      · exact .inr rfl
    | interleave left right =>
      rcases (check_interleave_fails hp).1 hc with
        ⟨r, -, ⟨⟩⟩ | ⟨ho, h | ⟨a, t, ht, h | ⟨_, _, -, ⟨-, ⟨⟩⟩ | ⟨-, ⟨-, ⟨⟩⟩ | ⟨-, -, ⟨⟩⟩⟩⟩⟩⟩
      · exact .inr rfl
      · exact .inl ⟨_, v, .interleaveLeft hp ho, h⟩
      · exact .inl ⟨_, v, .interleaveRight hp ho ht, h⟩
      all_goals exact .inr rfl
    | oneOrMore operand =>
      rcases (check_oneOrMore_fails hp).1 hc with ⟨r, -, ⟨⟩⟩ | ⟨ho, h | ⟨_, -, -, ⟨⟩⟩⟩
      · exact .inr rfl
      · exact .inl ⟨_, v, .oneOrMore hp ho, h⟩
      · exact .inr rfl
    | ref d =>
      obtain ⟨body, hb, hs, h⟩ := (check_ref_fails hp).1 hc
      exact .inl ⟨_, v, .ref hp hb hs, h⟩
    | empty | notAllowed | text | data | value =>
      obtain ⟨r, -, ⟨⟩⟩ := (check_leaf_fails (by simp [hp, Pattern.operands]) (by simp [hp]) (by simp [hp])).1 hc
      exact .inr rfl

/-! ## Ways to a violation -/

/-- A check fails because of a pattern: `around` are the patterns from its own to the offending one, that one left out.
The check of the offending pattern breaks a restriction, and no check that it calls does. -/
inductive StopsAt (g : Grammar) (limit : Nat) : Call → (around : List PatternId) → (offending : PatternId) → Prop
  | here {c : Call} {v : Violation} (h : c.Fails g limit (.restriction v))
      (hc : ∀ d w, Enters g limit c d → ¬ d.Fails g limit (.restriction w)) : StopsAt g limit c [] c.pattern
  | inside {c d : Call} {around : List PatternId} {offending : PatternId} (h : Enters g limit c d)
      (hd : StopsAt g limit d around offending) : StopsAt g limit c (c.pattern :: around) offending

variable {around : List PatternId} {offending : PatternId}

theorem StopsAt.exists_fails (h : StopsAt g limit c around offending) : ∃ v, c.Fails g limit (.restriction v) ∧
    v.location = (if (g.pattern offending).refusesFirst then none else g.mark? offending).or (g.innermost? around) := by
  induction h with
  | @here c v h hc =>
    refine ⟨v, h, ?_⟩
    rcases exists_enters_of_fails h with ⟨d, w, hd, hw⟩ | hv
    · exact absurd hw (hc d w hd)
    · simp [hv]
  | @inside c d around offending h _ ih =>
    obtain ⟨v, hv, hloc⟩ := ih
    refine ⟨v.within (g.mark? c.pattern), h.fails hv, ?_⟩
    rw [← List.singleton_append, Grammar.innermost?_append, Grammar.innermost?_singleton, ← Option.or_assoc, ← hloc]
    rfl

theorem Enters.levels_lt (h : Enters g limit c d) : d.levels < c.levels := by
  cases h <;> exact Nat.lt_succ_self _

/-- Whatever breaks a restriction leads to a pattern that does. -/
theorem exists_stopsAt (h : c.Fails g limit (.restriction v)) :
    ∃ around offending, StopsAt g limit c around offending := by
  induction hn : c.levels using Nat.strongRecOn generalizing c v with
  | _ n ih =>
    by_cases hc : ∃ d w, Enters g limit c d ∧ d.Fails g limit (.restriction w)
    · obtain ⟨d, w, hd, hw⟩ := hc
      obtain ⟨around, offending, hstop⟩ := ih _ (hn ▸ hd.levels_lt) hw rfl
      exact ⟨_, _, .inside hd hstop⟩
    · exact ⟨_, _, .here h fun d w hd hw => hc ⟨d, w, hd, hw⟩⟩

end Call

end RestrictionCheck

namespace Grammar

open RestrictionCheck

variable {g : Grammar} {limits : Limits} {start : PatternId} {v : Violation}

/-- The check of a grammar from a start pattern fails because of a pattern: the patterns on the way from the start to
the offending one, and that one. -/
def StopsAt (g : Grammar) (limits : Limits) (start : PatternId) : List PatternId → PatternId → Prop :=
  Call.StopsAt g limits.maxRecursionDepth ⟨limits.maxRecursionDepth + 1, start, .start, {}⟩

/-- A violation has the location of the innermost attribute, element, list or datatype with exceptions that has one, on
the way from the start to the offending pattern. Only where the offending pattern is a list or a datatype with
exceptions, its own location does not count. So it is the innermost on the whole way, exactly if there is no such
location to leave out or it is that of the innermost pattern around. -/
theorem violation_location (h : g.checkRestrictions limits start = .error (.restriction v)) :
    (∃ around offending, g.StopsAt limits start around offending) ∧
      ∀ around offending, g.StopsAt limits start around offending →
        (v.location = if (g.pattern offending).refusesFirst then g.innermost? around
          else g.innermost? (around ++ [offending])) ∧
        (v.location = g.innermost? (around ++ [offending]) ↔ ((g.pattern offending).refusesFirst = true →
          g.mark? offending = none ∨ g.mark? offending = g.innermost? around)) ∧
        (v.location = none ↔ (∀ p ∈ around, g.mark? p = none) ∧
          ((g.pattern offending).refusesFirst = false → g.mark? offending = none)) := by
  have hfails : Call.Fails g limits.maxRecursionDepth ⟨limits.maxRecursionDepth + 1, start, .start, {}⟩
      (.restriction v) := isolated_fails.1 h
  refine ⟨Call.exists_stopsAt hfails, fun around offending hstop => ?_⟩
  obtain ⟨w, hw, hloc⟩ := hstop.exists_fails
  obtain rfl : v = w := by simpa using hfails.symm.trans hw
  rw [← innermost?_eq_none_iff, innermost?_append, innermost?_singleton, hloc]
  cases (g.pattern offending).refusesFirst
  · simp [and_comm]
  · cases ho : g.mark? offending <;> simp [eq_comm]

/-- A list with a location at the start. -/
def listAtStart : Grammar where
  nodes := #[⟨.empty, true, .empty, none⟩, ⟨.notAllowed, false, .empty, none⟩, ⟨.text, true, .mixed, none⟩,
    ⟨.data (.xsd "token") [], false, .simple, none⟩, ⟨.list ⟨3⟩, false, .simple, some ⟨some "s.rng", 7, 2⟩⟩]

theorem listAtStart_fails :
    listAtStart.checkRestrictions .standard ⟨4⟩ = .error (.restriction (.of .startContainsList)) :=
  isolated_fails.2 ((check_list_fails rfl).2 (.inl ⟨_, rfl, rfl⟩))

/-- The statement at `listAtStart`: a pattern that breaks the restriction there, and the locations around it. -/
theorem violation_location_listAtStart :
    listAtStart.checkRestrictions .standard ⟨4⟩ = .error (.restriction (.of .startContainsList)) ∧
      ∃ around offending, listAtStart.StopsAt .standard ⟨4⟩ around offending ∧
        (∀ p ∈ around, listAtStart.mark? p = none) ∧
        ((listAtStart.pattern offending).refusesFirst = false → listAtStart.mark? offending = none) := by
  obtain ⟨⟨around, offending, hstop⟩, hway⟩ := violation_location listAtStart_fails
  obtain ⟨-, -, hnone⟩ := hway around offending hstop
  obtain ⟨haround, hlast⟩ := hnone.1 rfl
  exact ⟨listAtStart_fails, around, offending, hstop, haround, hlast⟩

/-- The violation has no location, though the offending pattern, on which the way ends, is a list with one. -/
theorem listAtStart_without_location :
    listAtStart.RefFree ⟨4⟩ ∧
      listAtStart.checkRestrictions .standard ⟨4⟩ = .error (.restriction ⟨.startContainsList, none⟩) ∧
      listAtStart.StopsAt .standard ⟨4⟩ [] ⟨4⟩ ∧ listAtStart.innermost? [⟨4⟩] = some ⟨some "s.rng", 7, 2⟩ := by
  refine ⟨refFree_of_nodes (by simp [listAtStart]) _, listAtStart_fails, ?_, rfl⟩
  refine .here (isolated_fails.1 listAtStart_fails) fun d w hd => ?_
  -- The place forbids a list before its operand is checked.
  cases hd with
  | list hp ho => cases ho
  | _ hp => cases hp

end Grammar

end RelaxNg
