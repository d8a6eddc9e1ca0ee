import RelaxNg.Proofs.Draft.Making
import RelaxNg.Proofs.Restrictions.Contents
import RelaxNg.Proofs.Restrictions.Failing
import Mathlib.Order.Lattice
import Mathlib.Tactic.IntervalCases

/-!
# Values beside other content

By the rules, the content of a pattern is of one of three sorts (`ContentSort`): attributes at most, elements and text,
or a value. A value stands beside nothing but attributes. The check decides this by the content type that is kept with
each pattern, which ranks text between elements and values. Leaving that rank out turns the content type of a pattern
into its sort (`Tree.sort_eq`), and both allow the same pairs to stand side by side (`ContentType.groupable_iff`).

In a grammar that passed, each pattern has passed in each place in which it stands (`PassedIn`), so that no value stands
beside other content outside lists. A grammar that is refused for such a value has one (`values_exact`).
-/

namespace RelaxNg

open Relation

/-! ## Sorts of content -/

inductive ContentSort where
  /-- Attributes at most. -/
  | empty
  /-- Elements and text. -/
  | complex
  /-- A value. -/
  | simple
deriving DecidableEq

namespace ContentSort

def rank : ContentSort → Nat
  | empty => 0
  | complex => 1
  | simple => 2

theorem rank_injective : Function.Injective rank := by
  intro a b h
  cases a <;> cases b <;> cases h <;> rfl

instance : LinearOrder ContentSort := LinearOrder.lift' rank rank_injective

/-- Contents of two sorts may stand side by side. -/
def Beside (a b : ContentSort) : Prop := a = empty ∨ b = empty ∨ a = complex ∧ b = complex

theorem beside_self_iff {a : ContentSort} : a.Beside a ↔ a ≠ simple := by
  cases a <;> simp [Beside]

end ContentSort

/-- What is put together takes the highest sort of its operands. -/
def Tree.sort : Tree → ContentSort
  | text | element _ => .complex
  | data _ _ | dataExcept _ _ _ | value _ _ | list _ => .simple
  | empty | notAllowed | attr _ _ _ | ref _ => .empty
  | choice left right | group left right | interleave left right => max left.sort right.sort
  | oneOrMore operand => operand.sort

namespace ContentType

def sort : ContentType → ContentSort
  | empty => .empty
  | complex | mixed => .complex
  | simple => .simple

theorem sort_combine (a b : ContentType) : (a.combine b).sort = max a.sort b.sort := by
  cases a <;> cases b <;> rfl

theorem groupable_iff {a b : ContentType} : a.groupable b = true ↔ a.sort.Beside b.sort := by
  cases a <;> cases b <;> simp [groupable, sort, ContentSort.Beside]

end ContentType

theorem Tree.sort_eq (t : Tree) : t.sort = t.contentType.sort := by
  induction t with
  | choice left right ihl ihr | group left right ihl ihr | interleave left right ihl ihr =>
    rw [sort, contentType, ContentType.sort_combine, ihl, ihr]
  | oneOrMore operand ih => exact ih
  | _ => rfl

namespace Grammar

variable {g : Grammar}

/-- The sort of content that a pattern describes. -/
def sort (g : Grammar) (p : PatternId) : ContentSort := (g.tree p).sort

theorem Sound.sort_contentType (hg : g.Sound) (p : PatternId) : (g.contentType p).sort = g.sort p := by
  rw [hg.contentType_tree, sort, Tree.sort_eq]

/-- A pattern itself puts a value beside other content, or beside itself, and breaks the restriction for that. -/
inductive MixesValues (g : Grammar) (p : PatternId) : Restriction → Prop
  | group {left right : PatternId} (hp : g.pattern p = .group left right)
      (h : ¬ (g.sort left).Beside (g.sort right)) : g.MixesValues p .groupString
  | interleave {left right : PatternId} (hp : g.pattern p = .interleave left right)
      (h : ¬ (g.sort left).Beside (g.sort right)) : g.MixesValues p .interleaveString
  | oneOrMore {operand : PatternId} (hp : g.pattern p = .oneOrMore operand) (h : g.sort operand = .simple) :
      g.MixesValues p .oneOrMoreString

theorem Sound.groupable_iff (hg : g.Sound) (p q : PatternId) :
    (g.contentType p).groupable (g.contentType q) = true ↔ (g.sort p).Beside (g.sort q) := by
  rw [ContentType.groupable_iff, hg.sort_contentType, hg.sort_contentType]

end Grammar

/-- The restrictions for values beside other content. -/
def Restriction.forValues : List Restriction := [groupString, interleaveString, oneOrMoreString]

theorem Restriction.mem_beyondPlaces_of_forValues : ∀ r ∈ forValues, r ∈ beyondPlaces := by decide

namespace RestrictionCheck

variable {g : Grammar} {limit levels : Nat} {p q : PatternId} {place inner : Place} {s u : State} {r : Restriction}

/-! ## Patterns that passed -/

/-- A pattern passed in a place. -/
def PassedIn (g : Grammar) (limit : Nat) (p : PatternId) (place : Place) : Prop :=
  ∃ levels s u, (check g limit levels p place).runFrom s = (.ok (), u)

/-- With a pattern passes what stands directly in it, the contents of elements aside. -/
theorem check_ok_below (he : ∀ e, g.pattern p ≠ .element e) (hr : ∀ d, g.pattern p ≠ .ref d)
    (h : (check g limit (levels + 1) p place).runFrom s = (.ok (), u)) :
    ∀ i ∈ g.below p place, PassedIn g limit i.1 i.2 := by
  unfold Grammar.below
  cases hp : g.pattern p with
  | element e => exact absurd hp (he e)
  | ref d => exact absurd hp (hr d)
  | choice left right =>
    obtain ⟨t, w, ht, hw, -⟩ := (check_choice_ok hp).1 h
    exact List.forall_mem_cons.2 ⟨⟨levels, _, t, ht⟩, List.forall_mem_singleton.2 ⟨levels, _, w, hw⟩⟩
  | group left right =>
    obtain ⟨-, t, ht, hw, -⟩ := (check_group_ok hp).1 h
    exact List.forall_mem_cons.2 ⟨⟨levels, s, t, ht⟩, List.forall_mem_singleton.2 ⟨levels, t, u, hw⟩⟩
  | interleave left right =>
    obtain ⟨-, a, b, t, w, hleft, hright, -⟩ := (check_interleave_ok hp).1 h
    obtain ⟨t', ht, -⟩ := side_ok.1 hleft
    obtain ⟨w', hw, -⟩ := side_ok.1 hright
    exact List.forall_mem_cons.2 ⟨⟨levels, _, t', ht⟩, List.forall_mem_singleton.2 ⟨levels, _, w', hw⟩⟩
  | oneOrMore operand =>
    obtain ⟨-, ht, -⟩ := (check_oneOrMore_ok hp).1 h
    exact List.forall_mem_singleton.2 ⟨levels, s, u, ht⟩
  | list operand =>
    obtain ⟨-, t, ht, -⟩ := (check_list_ok hp).1 h
    exact List.forall_mem_singleton.2 ⟨levels, _, t, ht⟩
  | dataExcept type params except =>
    obtain ⟨-, t, ht, -⟩ := (check_dataExcept_ok hp).1 h
    exact List.forall_mem_singleton.2 ⟨levels, _, t, ht⟩
  | attr names value annotations =>
    obtain ⟨-, -, t, w, -, hw, -⟩ := (check_attr_ok hp).1 h
    exact List.forall_mem_singleton.2 ⟨levels, _, w, hw⟩
  | empty | notAllowed | text | data | value => exact fun _ h => absurd h List.not_mem_nil

/-- In a grammar that passed, a pattern passed in every place in which it stands. -/
theorem passedIn_of_occurs {limits : Limits} {start : PatternId} (hr : g.RefFree start)
    (hok : g.checkRestrictions limits start = .ok ()) (ho : g.Occurs start p place) :
    PassedIn g limits.maxRecursionDepth p place := by
  suffices key : ∀ o, ReflTransGen g.Below (start, .start) o → PassedIn g limits.maxRecursionDepth o.1 o.2 from
    key _ ho
  intro o ho
  induction ho with
  | refl =>
    obtain ⟨t, ht, -⟩ := Grammar.exists_cleared hr hok
    exact ⟨_, _, t, ht⟩
  | @tail o i ho hb ih =>
    have hreach : g.Reaches start o.1 := Grammar.Below.reaches ho
    by_cases he : ∃ e, g.pattern o.1 = .element e
    · -- The content was checked where the element was entered, not necessarily here.
      obtain ⟨e, he⟩ := he
      have hi : i = ((g.element e).content, .element) := by simpa [Grammar.Below, Grammar.below, he] using hb
      obtain ⟨levels, s, u, -, -, h⟩ := Grammar.passes_of_reaches hr hok hreach he
      rw [hi]
      exact ⟨levels, s, u, h⟩
    · obtain ⟨levels, s, u, h⟩ := ih
      cases levels with
      | zero => exact absurd h check_zero_ok
      | succ levels => exact check_ok_below (not_exists.1 he) (hr o.1 hreach) h i hb

/-- A pattern that passed outside lists mixes no values. -/
theorem PassedIn.not_mixesValues (h : PassedIn g limit p place) (hg : g.Sound) (hplace : place ≠ .list) :
    ¬ g.MixesValues p r := by
  obtain ⟨levels, s, u, h⟩ := h
  cases levels with
  | zero => exact absurd h check_zero_ok
  | succ levels =>
    rintro (⟨hp, hmix⟩ | ⟨hp, hmix⟩ | ⟨hp, hmix⟩)
    · obtain ⟨-, t, -, -, hgroup⟩ := (check_group_ok hp).1 h
      exact hmix ((hg.groupable_iff _ _).1 (hgroup hplace))
    · obtain ⟨-, a, b, t, w, -, -, -, hgroup, -⟩ := (check_interleave_ok hp).1 h
      exact hmix ((hg.groupable_iff _ _).1 hgroup)
    · obtain ⟨-, -, hgroup⟩ := (check_oneOrMore_ok hp).1 h
      exact ContentSort.beside_self_iff.1 ((hg.groupable_iff _ _).1 (hgroup hplace)) hmix

/-! ## Values that are found -/

/-- A pattern that stands in another in some place, in a content or the value of an attribute and there outside lists,
breaks a restriction for values. -/
def FindsMix (g : Grammar) (p : PatternId) (place : Place) (r : Restriction) : Prop :=
  ∃ q inner, ReflTransGen g.Below (p, place) (q, inner) ∧ inner ∉ [.start, .list, .exception] ∧ g.MixesValues q r

theorem FindsMix.of_below (h : FindsMix g q inner r) (hb : g.Below (p, place) (q, inner)) : FindsMix g p place r := by
  obtain ⟨q', inner', hq, h⟩ := h
  exact ⟨q', inner', .head hb hq, h⟩

/-- A check that breaks a restriction for values has found where it is broken. -/
theorem check_finds_mix (hg : g.Sound) (hfree : g.RefFree p) (hr : r ∈ Restriction.forValues)
    (h : Breaks (check g limit levels p place) s r) : FindsMix g p place r := by
  induction levels generalizing p place s with
  | zero => exact absurd h not_check_zero_breaks
  | succ levels ih =>
    have hallowed (pattern : Pattern) : place.prohibited? pattern ≠ some r :=
      Place.prohibited?_ne (Restriction.mem_beyondPlaces_of_forValues r hr) place pattern
    have deeper {q : PatternId} {inner : Place} {t : State} (hb : g.Below (p, place) (q, inner))
        (h : Breaks (check g limit levels q inner) t r) : FindsMix g p place r :=
      (ih (hfree.of_successor hb.mem_successors) h).of_below hb
    have mixes {left right : PatternId} (h : (g.contentType left).groupable (g.contentType right) = false) :
        ¬ (g.sort left).Beside (g.sort right) := by
      rw [← hg.groupable_iff, h]
      exact Bool.false_ne_true
    cases hp : g.pattern p with
    | ref d => exact absurd hp (hfree p .refl d)
    | element e =>
      rcases check_element_breaks hp h with h | ⟨t, -, h⟩
      · exact absurd h (hallowed _)
      · exact deeper (by simp [Grammar.Below, Grammar.below, hp]) h
    | attr names value annotations =>
      rcases check_attr_breaks hp h with h | rfl | h | ⟨t, -, h⟩
      · exact absurd h (hallowed _)
      · simp [Restriction.forValues] at hr
      · cases eq_of_addAttribute_breaks h
        simp [Restriction.forValues] at hr
      · exact deeper (by simp [Grammar.Below, Grammar.below, hp]) h
    | dataExcept type params except =>
      rcases check_dataExcept_breaks hp h with h | ⟨t, -, h⟩
      · exact absurd h (hallowed _)
      · exact deeper (by simp [Grammar.Below, Grammar.below, hp]) h
    | list operand =>
      rcases check_list_breaks hp h with h | ⟨t, -, h⟩
      · exact absurd h (hallowed _)
      · exact deeper (by simp [Grammar.Below, Grammar.below, hp]) h
    | choice left right =>
      rcases check_choice_breaks hp h with h | ⟨t, -, h⟩
      · exact deeper (q := left) (by simp [Grammar.Below, Grammar.below, hp]) h
      · exact deeper (q := right) (by simp [Grammar.Below, Grammar.below, hp]) h
    | group left right =>
      rcases check_group_breaks hp h with h | ⟨rfl, ho, hlist, hmix⟩ | h | ⟨t, -, h⟩
      · exact absurd h (hallowed _)
      · rw [Place.prohibited?_eq_none_iff] at ho
        exact ⟨p, place, .refl, by simp_all [Place.Forbids], .group hp (mixes hmix)⟩
      · exact deeper (q := left) (by simp [Grammar.Below, Grammar.below, hp]) h
      · exact deeper (q := right) (by simp [Grammar.Below, Grammar.below, hp]) h
    | interleave left right =>
      rcases check_interleave_breaks hp h with h | h | ⟨rfl, ho, hmix⟩ | h | ⟨a, t, -, h⟩
      · exact absurd h (hallowed _)
      · simp only [List.mem_cons, List.not_mem_nil, or_false] at h
        rcases h with rfl | rfl <;> simp [Restriction.forValues] at hr
      · rw [Place.prohibited?_eq_none_iff] at ho
        exact ⟨p, place, .refl, by simp_all [Place.Forbids], .interleave hp (mixes hmix)⟩
      · exact deeper (q := left) (by simp [Grammar.Below, Grammar.below, hp]) h
      · exact deeper (q := right) (by simp [Grammar.Below, Grammar.below, hp]) h
    | oneOrMore operand =>
      rcases check_oneOrMore_breaks hp h with h | ⟨rfl, ho, hlist, hmix⟩ | h
      · exact absurd h (hallowed _)
      · rw [Place.prohibited?_eq_none_iff] at ho
        have hsimple : g.sort operand = .simple := by
          by_contra hne
          exact mixes hmix (ContentSort.beside_self_iff.2 hne)
        exact ⟨p, place, .refl, by simp_all [Place.Forbids], .oneOrMore hp hsimple⟩
      · exact deeper (by simp [Grammar.Below, Grammar.below, hp]) h
    | empty | notAllowed | text | data | value =>
      exact absurd (check_leaf_breaks (by simp [hp, Pattern.operands]) (by simp [hp]) (by simp [hp]) h) (hallowed _)

end RestrictionCheck

namespace Grammar

open RestrictionCheck

variable {g : Grammar} {limits : Limits} {start : PatternId}

/-- In a grammar that passed, nothing that stands outside lists puts a value beside other content. A grammar that is
refused for such a value has one, in the content of an element or the value of an attribute and there outside lists. -/
theorem values_exact (hg : g.Sound) (hr : g.RefFree start) :
    (g.checkRestrictions limits start = .ok () →
      ∀ p place r, g.Occurs start p place → place ≠ .list → ¬ g.MixesValues p r) ∧
    ∀ v, g.checkRestrictions limits start = .error (.restriction v) → v.restriction ∈ Restriction.forValues →
      ∃ p place, g.Occurs start p place ∧ place ∉ [.start, .list, .exception] ∧ g.MixesValues p v.restriction := by
  constructor
  · intro hok p place r ho hplace
    exact (passedIn_of_occurs hr hok ho).not_mixesValues hg hplace
  · intro v herror hv
    have hbreaks : Breaks (checkStart g limits start) {} v.restriction := ⟨v, herror, rfl⟩
    exact check_finds_mix hg hr hv (isolated_breaks.1 hbreaks)

/-- Element 0 holds a list of two values, beside text. -/
def listBesideText : Grammar where
  nodes := #[⟨.empty, true, .empty, none⟩, ⟨.notAllowed, false, .empty, none⟩, ⟨.text, true, .mixed, none⟩,
    ⟨.data .string [], false, .simple, none⟩, ⟨.group ⟨3⟩ ⟨3⟩, false, .simple, none⟩,
    ⟨.list ⟨4⟩, false, .simple, none⟩, ⟨.group ⟨5⟩ ⟨2⟩, false, .simple, none⟩,
    ⟨.element ⟨0⟩, false, .complex, none⟩]
  elements := #[⟨.plain "doc", ⟨6⟩, none, .none⟩]

theorem listBesideText_sound : listBesideText.Sound := by
  refine sound_of_parts (fun p hp => ?_) (by decide) (by decide)
  have hlt : p.index < 8 := hp
  obtain ⟨i⟩ := p
  interval_cases i <;> exact ⟨by decide, rfl, rfl, by rintro _ ⟨⟩ <;> decide, by rintro _ ⟨⟩⟩

/-- The values in the list stand beside each other, but the list must not stand beside the text. -/
theorem listBesideText_fails :
    listBesideText.checkRestrictions .standard ⟨7⟩ = .error (.restriction (.of .groupString)) := by
  have hvalue (s : State) : (check listBesideText 5000 4997 ⟨3⟩ .list).runFrom s = (.ok (), s) := by
    have hleaf : listBesideText.pattern ⟨3⟩ = .data .string [] := rfl
    exact (check_leaf_ok rfl (by simp [hleaf]) (by simp [hleaf])).2 ⟨rfl, rfl⟩
  have htext (s : State) : (check listBesideText 5000 4999 ⟨2⟩ .element).runFrom s = (.ok (), s) := by
    have hleaf : listBesideText.pattern ⟨2⟩ = .text := rfl
    exact (check_leaf_ok rfl (by simp [hleaf]) (by simp [hleaf])).2 ⟨rfl, rfl⟩
  have hvalues (s : State) : (check listBesideText 5000 4998 ⟨4⟩ .list).runFrom s = (.ok (), s) := by
    have hp : listBesideText.pattern ⟨4⟩ = .group ⟨3⟩ ⟨3⟩ := rfl
    exact (check_group_ok hp).2 ⟨rfl, s, hvalue s, hvalue s, by simp⟩
  have hlist (s : State) : ∃ t, (check listBesideText 5000 4999 ⟨5⟩ .element).runFrom s = (.ok (), t) := by
    have hp : listBesideText.pattern ⟨5⟩ = .list ⟨4⟩ := rfl
    exact ⟨_, (check_list_ok hp).2 ⟨rfl, _, hvalues _, rfl⟩⟩
  have hcontent (s : State) :
      Fails (check listBesideText 5000 5000 ⟨6⟩ .element) s (.restriction (.of .groupString)) := by
    have hp : listBesideText.pattern ⟨6⟩ = .group ⟨5⟩ ⟨2⟩ := rfl
    obtain ⟨t, ht⟩ := hlist s
    exact (check_group_fails hp).2 (.inr ⟨rfl, .inr ⟨t, ht, .inr ⟨t, htext t, ⟨by simp, rfl⟩, rfl⟩⟩⟩)
  have hp : listBesideText.pattern ⟨7⟩ = .element ⟨0⟩ := rfl
  exact isolated_fails.2 ((check_element_fails hp).2 ⟨by simp, _, .inr ⟨rfl, hcontent _⟩, rfl⟩)

/-- The statement at `listBesideText`, which is refused for a group: one mixes values with other content, and it is not
the one in the list, which mixes them too. -/
theorem values_exact_listBesideText : listBesideText.Sound ∧ listBesideText.RefFree ⟨7⟩ ∧
    listBesideText.MixesValues ⟨4⟩ .groupString ∧ listBesideText.Occurs ⟨7⟩ ⟨4⟩ .list ∧
    listBesideText.checkRestrictions .standard ⟨7⟩ = .error (.restriction (.of .groupString)) ∧
    ∃ p place, listBesideText.Occurs ⟨7⟩ p place ∧ place ∉ [.start, .list, .exception] ∧
      listBesideText.MixesValues p .groupString := by
  have hfree : listBesideText.RefFree ⟨7⟩ := refFree_of_nodes (by simp [listBesideText]) _
  have hmixes : listBesideText.MixesValues ⟨4⟩ .groupString := by
    have hp : listBesideText.pattern ⟨4⟩ = .group ⟨3⟩ ⟨3⟩ := rfl
    refine .group hp ?_
    rw [← listBesideText_sound.groupable_iff]
    decide
  have houter : listBesideText.Occurs ⟨7⟩ ⟨6⟩ .element := .single (by decide)
  have hlist : listBesideText.Occurs ⟨7⟩ ⟨5⟩ .element := .tail houter (by decide)
  exact ⟨listBesideText_sound, hfree, hmixes, .tail hlist (by decide), listBesideText_fails,
    (values_exact listBesideText_sound hfree).2 _ listBesideText_fails (by decide)⟩

end Grammar

end RelaxNg
