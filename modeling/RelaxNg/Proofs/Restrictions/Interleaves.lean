import RelaxNg.Proofs.Alphabet
import RelaxNg.Proofs.Draft.Making
import RelaxNg.Proofs.NameClass
import RelaxNg.Proofs.Restrictions.Contents
import RelaxNg.Proofs.Restrictions.Failing
import Mathlib.Tactic.IntervalCases

/-!
# Sides of an interleave

The check of a pattern adds the elements at its top to the alphabet that is collected around it, no matter whether their
contents were entered before (`Lists`, `check_lists`). An interleave that passed has compared the alphabets of its sides
and their content types, and in a content that passed every interleave has, however deep it stands (`Passed`). The
content type of a pattern ranks no lower than that of anything at its top, so that text on both sides shows in it.
Together: in a grammar that passed, the sides of an interleave share no element name and no text, and a grammar that is
refused for an overlap has two sides that share a real name.
-/

namespace RelaxNg

open Relation

namespace Grammar

/-- An element with some names stands at the top of a content. -/
def HasElement (g : Grammar) (p : PatternId) (names : NameClass) : Prop :=
  ∃ q e, g.ReachesTop p q ∧ g.pattern q = .element e ∧ (g.element e).names = names

/-- Text stands at the top of a content. -/
def HasText (g : Grammar) (p : PatternId) : Prop := ∃ q, g.ReachesTop p q ∧ g.pattern q = .text

variable {g : Grammar} {p q left right : PatternId} {names : NameClass} {e : ElementId}

theorem hasElement_iff : g.HasElement p names ↔
    (∃ e, g.pattern p = .element e ∧ (g.element e).names = names) ∨ ∃ q ∈ g.topSuccessors p, g.HasElement q names := by
  constructor
  · rintro ⟨q, e, hq, he, hn⟩
    rcases hq.cases_head with rfl | ⟨r, hr, hrq⟩
    · exact .inl ⟨e, he, hn⟩
    · exact .inr ⟨r, hr, q, e, hrq, he, hn⟩
  · rintro (⟨e, he, hn⟩ | ⟨r, hr, q, e, hrq, he, hn⟩)
    · exact ⟨p, e, .refl, he, hn⟩
    · exact ⟨q, e, .head hr hrq, he, hn⟩

/-! ## Content types -/

theorem Sound.two_le_rank_of_hasText (hg : g.Sound) (hr : g.RefFree p) (h : g.HasText p) :
    2 ≤ (g.contentType p).rank := by
  obtain ⟨q, hq, htext⟩ := h
  have hleaf := Tree.rank_le_of_mem_leaves (hg.mem_leaves_of_top hr hq (by simp [topSuccessors, htext]))
  rw [hg.tree_eq q, htext] at hleaf
  rw [hg.contentType_tree]
  exact hleaf

end Grammar

/-- Contents that both rank like text or above stand side by side only if both are mixed. -/
theorem ContentType.eq_mixed_of_groupable {a b : ContentType} (h : a.groupable b = true) (ha : 2 ≤ a.rank)
    (hb : 2 ≤ b.rank) : a = .mixed ∧ b = .mixed := by
  cases a <;> cases b <;> simp_all [groupable, rank]

/-! ## Alphabets -/

namespace Alphabet

variable {a b : Alphabet} {nc nc' : NameClass}

theorem mem_add : nc' ∈ (a.add nc).classes ↔ nc' ∈ a.classes ∨ nc' = nc := by
  unfold add
  split
  · next h =>
    have hmem : nc ∈ a.classes := List.contains_iff_mem.1 h
    constructor
    · exact .inl
    · rintro (h | rfl)
      · exact h
      · exact hmem
  · simp

theorem mem_merge : nc ∈ (a.merge b).classes ↔ nc ∈ a.classes ∨ nc ∈ b.classes := by
  unfold merge
  induction b.classes generalizing a with
  | nil => simp
  | cons c classes ih => rw [List.foldl_cons, ih, mem_add, List.mem_cons, or_assoc]

theorem overlaps_eq_true_iff : a.overlaps b = true ↔
    ∃ nc ∈ a.classes, ∃ nc' ∈ b.classes, nc.overlaps nc' = true := by
  simp only [overlaps, List.any_eq_true]

end Alphabet

namespace RestrictionCheck

variable {g : Grammar} {limit levels : Nat} {p q left right : PatternId} {place : Place} {s t u : State}
  {names : NameClass} {before mid after : Option Alphabet} {a b : Alphabet}

/-! ## What is collected -/

/-- The elements at the top of a pattern are added to the alphabet around it, if one is collected. -/
def Lists (g : Grammar) (p : PatternId) (before after : Option Alphabet) : Prop :=
  (before = none → after = none) ∧
    ∀ a, before = some a → ∃ b, after = some b ∧ ∀ names, names ∈ b.classes ↔ names ∈ a.classes ∨ g.HasElement p names

theorem Lists.of_leaf (ht : g.topSuccessors p = []) (he : ∀ e, g.pattern p ≠ .element e) :
    Lists g p before before := by
  refine ⟨id, fun a ha => ⟨a, ha, fun names => ?_⟩⟩
  rw [Grammar.hasElement_iff]
  simp [ht, he]

theorem Lists.element {e : ElementId} (hp : g.pattern p = .element e) :
    Lists g p before (before.map (·.add (g.element e).names)) := by
  refine ⟨?_, ?_⟩
  · rintro rfl
    rfl
  · rintro a rfl
    refine ⟨_, rfl, fun names => ?_⟩
    rw [Alphabet.mem_add, Grammar.hasElement_iff]
    simp [Grammar.topSuccessors, hp, eq_comm]

/-- What two patterns list one after the other, a pattern with both at its top lists. -/
theorem Lists.append (ht : g.topSuccessors p = [left, right]) (he : ∀ e, g.pattern p ≠ .element e)
    (hl : Lists g left before mid) (hr : Lists g right mid after) : Lists g p before after := by
  refine ⟨fun h => hr.1 (hl.1 h), fun a ha => ?_⟩
  obtain ⟨b, hb, hab⟩ := hl.2 a ha
  obtain ⟨c, hc, hbc⟩ := hr.2 b hb
  refine ⟨c, hc, fun names => ?_⟩
  rw [hbc, hab, Grammar.hasElement_iff (p := p), or_assoc]
  simp [ht, he]

theorem Lists.oneOrMore (hp : g.pattern p = .oneOrMore q) (h : Lists g q before after) : Lists g p before after := by
  refine ⟨h.1, fun a ha => ?_⟩
  obtain ⟨b, hb, hab⟩ := h.2 a ha
  refine ⟨b, hb, fun names => ?_⟩
  rw [hab, Grammar.hasElement_iff (p := p)]
  simp [Grammar.topSuccessors, hp]

/-- What the sides of an interleave list of their own goes into the alphabet around it. -/
theorem Lists.interleave (hp : g.pattern p = .interleave left right) (hl : Lists g left (some .empty) (some a))
    (hr : Lists g right (some .empty) (some b)) :
    Lists g p before (before.map fun names => (names.merge a).merge b) := by
  refine ⟨?_, ?_⟩
  · rintro rfl
    rfl
  · rintro c rfl
    refine ⟨_, rfl, fun names => ?_⟩
    obtain ⟨_, ⟨⟩, ha⟩ := hl.2 _ rfl
    obtain ⟨_, ⟨⟩, hb⟩ := hr.2 _ rfl
    rw [Alphabet.mem_merge, Alphabet.mem_merge, ha, hb, Grammar.hasElement_iff (p := p), or_assoc]
    simp [Grammar.topSuccessors, hp, Alphabet.empty]

/-- A side of an interleave lists its elements in an alphabet of its own and leaves the one around as it is. -/
theorem side_lists (h : (side (check g limit levels p place)).runFrom s = (.ok a, t))
    (hlists : ∀ {s u : State}, (check g limit levels p place).runFrom s = (.ok (), u) →
      Lists g p s.alphabet u.alphabet) :
    Lists g p (some .empty) (some a) ∧ t.alphabet = s.alphabet := by
  obtain ⟨w, hw, rfl, rfl⟩ := side_ok.1 h
  have hl := hlists hw
  obtain ⟨c, hc, -⟩ := hl.2 _ rfl
  refine ⟨?_, rfl⟩
  rw [hc] at hl ⊢
  exact hl

/-- A check that passes lists the elements of its pattern. -/
theorem check_lists (hr : g.RefFree p) (h : (check g limit levels p place).runFrom s = (.ok (), u)) :
    Lists g p s.alphabet u.alphabet := by
  induction levels generalizing p place s u with
  | zero => exact absurd h check_zero_ok
  | succ levels ih =>
    cases hp : g.pattern p with
    | element e =>
      have hu : u.alphabet = s.alphabet.map (·.add (g.element e).names) := by
        rcases (check_element_ok hp).1 h with ⟨-, rfl⟩ | ⟨-, -, t, -, rfl⟩ <;> rfl
      rw [hu]
      exact .element hp
    | ref d => exact absurd hp (hr p .refl d)
    | list operand =>
      obtain ⟨-, t, -, rfl⟩ := (check_list_ok hp).1 h
      exact .of_leaf (by simp [Grammar.topSuccessors, hp]) (by simp [hp])
    | dataExcept type params operand =>
      obtain ⟨-, t, -, rfl⟩ := (check_dataExcept_ok hp).1 h
      exact .of_leaf (by simp [Grammar.topSuccessors, hp]) (by simp [hp])
    | attr names value annotations =>
      obtain ⟨-, -, t, w, hn, -, rfl⟩ := (check_attr_ok hp).1 h
      have ht : t.alphabet = s.alphabet := by
        rcases addAttribute_ok.1 hn with ⟨-, rfl⟩ | ⟨_, _, -, -, rfl⟩ <;> rfl
      show Lists g p s.alphabet t.alphabet
      rw [ht]
      exact .of_leaf (by simp [Grammar.topSuccessors, hp]) (by simp [hp])
    | empty | notAllowed | text | data | value =>
      rw [check_leaf_ok (by simp [hp, Pattern.operands]) (by simp [hp]) (by simp [hp])] at h
      rw [h.2]
      exact .of_leaf (by simp [Grammar.topSuccessors, hp]) (by simp [hp])
    | choice left right =>
      obtain ⟨t, w, ht, hw, rfl⟩ := (check_choice_ok hp).1 h
      have hl := ih (hr.of_operand (by simp [hp, Pattern.operands])) ht
      have hr := ih (hr.of_operand (by simp [hp, Pattern.operands])) hw
      exact .append (by simp [Grammar.topSuccessors, hp]) (by simp [hp]) hl hr
    | group left right =>
      obtain ⟨-, t, ht, hw, -⟩ := (check_group_ok hp).1 h
      have hl := ih (hr.of_operand (by simp [hp, Pattern.operands])) ht
      have hr := ih (hr.of_operand (by simp [hp, Pattern.operands])) hw
      exact .append (by simp [Grammar.topSuccessors, hp]) (by simp [hp]) hl hr
    | interleave left right =>
      obtain ⟨-, a, b, t, w, ha, hb, -, -, -, rfl⟩ := (check_interleave_ok hp).1 h
      obtain ⟨hl, ht⟩ := side_lists ha fun h => ih (hr.of_operand (by simp [hp, Pattern.operands])) h
      obtain ⟨hr, hw⟩ := side_lists hb fun h => ih (hr.of_operand (by simp [hp, Pattern.operands])) h
      show Lists g p s.alphabet (w.alphabet.map _)
      rw [hw, ht]
      exact .interleave hp hl hr
    | oneOrMore q =>
      obtain ⟨-, ht, -⟩ := (check_oneOrMore_ok hp).1 h
      exact .oneOrMore hp (ih (hr.of_operand (by simp [hp, Pattern.operands])) ht)

theorem overlaps_eq_true_iff_of_lists (hl : Lists g left (some .empty) (some a))
    (hr : Lists g right (some .empty) (some b)) :
    a.overlaps b = true ↔ ∃ c d, g.HasElement left c ∧ g.HasElement right d ∧ c.overlaps d = true := by
  obtain ⟨_, ⟨⟩, ha⟩ := hl.2 _ rfl
  obtain ⟨_, ⟨⟩, hb⟩ := hr.2 _ rfl
  simp only [Alphabet.overlaps_eq_true_iff, ha, hb, Alphabet.empty, List.not_mem_nil, false_or]
  constructor
  · rintro ⟨c, hc, d, hd, h⟩
    exact ⟨c, d, hc, hd, h⟩
  · rintro ⟨c, d, hc, hd, h⟩
    exact ⟨c, hc, d, hd, h⟩

/-! ## Interleaves that passed -/

/-- The sides of an interleave that passed share no name of an element, by the test for a common name, and can stand
beside each other without text on both. -/
theorem Passed.interleave (h : Passed g limit p) (hr : g.RefFree p) (hp : g.pattern p = .interleave left right) :
    (∀ a b, g.HasElement left a → g.HasElement right b → a.overlaps b = false) ∧
      (g.contentType left).groupable (g.contentType right) = true ∧
      ¬ (g.contentType left = .mixed ∧ g.contentType right = .mixed) := by
  obtain ⟨levels, place, s, u, h⟩ := h
  cases levels with
  | zero => exact absurd h check_zero_ok
  | succ levels =>
    obtain ⟨-, a, b, t, w, ha, hb, hno, hgroup, hmixed, -⟩ := (check_interleave_ok hp).1 h
    obtain ⟨hleft, -⟩ := side_lists ha fun h => check_lists (hr.of_operand (by simp [hp, Pattern.operands])) h
    obtain ⟨hright, -⟩ := side_lists hb fun h => check_lists (hr.of_operand (by simp [hp, Pattern.operands])) h
    refine ⟨fun c d hc hd => ?_, hgroup, hmixed⟩
    rw [← Bool.not_eq_true]
    intro h
    rw [(overlaps_eq_true_iff_of_lists hleft hright).2 ⟨c, d, hc, hd, h⟩] at hno
    cases hno

/-! ## Overlaps that are found -/

/-- An interleave in a content has elements on its sides whose names overlap. -/
def Overlapping (g : Grammar) (content : PatternId) : Prop :=
  ∃ q left right a b, g.Within content q ∧ g.pattern q = .interleave left right ∧ g.HasElement left a ∧
    g.HasElement right b ∧ a.overlaps b = true

/-- There is an overlap in the content of an element that is reached. -/
def OverlappingContent (g : Grammar) (p : PatternId) : Prop :=
  ∃ q e, g.Reaches p q ∧ g.pattern q = .element e ∧ Overlapping g (g.element e).content

theorem Overlapping.of_operand (h : Overlapping g q) (hq : q ∈ (g.pattern p).operands) : Overlapping g p := by
  obtain ⟨r, left, right, a, b, hr, h⟩ := h
  exact ⟨r, left, right, a, b, .head hq hr, h⟩

theorem OverlappingContent.of_successor (h : OverlappingContent g q) (hq : q ∈ g.successors p) :
    OverlappingContent g p := by
  obtain ⟨r, e, hr, h⟩ := h
  exact ⟨r, e, .head hq hr, h⟩

/-- Only a choice or an element can stand at the start and break anything but the rules for the start. -/
theorem place_ne_start (he : ∀ e, g.pattern p ≠ .element e) (hc : ∀ a b, g.pattern p ≠ .choice a b)
    (hd : ∀ d, g.pattern p ≠ .ref d) (h : Breaks (check g limit (levels + 1) p place) s .interleaveElementOverlap) :
    place ≠ .start := by
  rintro rfl
  have no {r : Restriction} (hr : Place.start.prohibited? (g.pattern p) = some r)
      (hne : r ≠ .interleaveElementOverlap) : False := hne (eq_of_breaks_of_prohibited hr h).symm
  cases hp : g.pattern p with
  | element e => exact he e hp
  | choice a b => exact hc a b hp
  | ref d => exact hd d hp
  | notAllowed =>
    have := check_leaf_breaks (by simp [hp, Pattern.operands]) he hd h
    simp [hp, Place.prohibited?] at this
  | _ => exact no (by rw [hp]; rfl) (by decide)

/-- A check that breaks the restriction has found an overlap in the pattern, which is not the start then, or in the
content of an element. -/
theorem check_finds_overlap (hr : g.RefFree p)
    (h : Breaks (check g limit levels p place) s .interleaveElementOverlap) :
    place ≠ .start ∧ Overlapping g p ∨ OverlappingContent g p := by
  induction levels generalizing p place s with
  | zero => exact absurd h not_check_zero_breaks
  | succ levels ih =>
    -- An overlap in an operand is one in the pattern, unless the pattern stands at the start.
    have below {q : PatternId} {place' : Place} {t : State} (hq : q ∈ (g.pattern p).operands)
        (hplace : place' ≠ .start → place ≠ .start)
        (h : Breaks (check g limit levels q place') t .interleaveElementOverlap) :
        place ≠ .start ∧ Overlapping g p ∨ OverlappingContent g p := by
      rcases ih (hr.of_operand hq) h with ⟨hne, ho⟩ | ho
      · exact .inl ⟨hplace hne, ho.of_operand hq⟩
      · exact .inr (ho.of_successor (Grammar.mem_successors_of_operand hq))
    have prohibited {pattern : Pattern} : place.prohibited? pattern ≠ some .interleaveElementOverlap :=
      Place.prohibited?_ne (by decide) place pattern
    cases hp : g.pattern p with
    | element e =>
      rcases check_element_breaks hp h with h | ⟨t, -, h⟩
      · exact absurd h prohibited
      · rcases ih (hr.of_successor (Grammar.content_mem_successors hp)) h with ⟨-, ho⟩ | ho
        · exact .inr ⟨p, e, .refl, hp, ho⟩
        · exact .inr (ho.of_successor (Grammar.content_mem_successors hp))
    | ref d => exact absurd hp (hr p .refl d)
    | choice left right =>
      rcases check_choice_breaks hp h with h | ⟨t, -, h⟩
      · exact below (by simp [hp, Pattern.operands]) id h
      · exact below (by simp [hp, Pattern.operands]) id h
    | attr names value annotations =>
      have hplace := place_ne_start (by simp [hp]) (by simp [hp]) (by simp [hp]) h
      rcases check_attr_breaks hp h with h | h | h | ⟨t, -, h⟩
      · exact absurd h prohibited
      · cases h
      · cases eq_of_addAttribute_breaks h
      · exact below (by simp [hp, Pattern.operands]) (fun _ => hplace) h
    | list q =>
      have hplace := place_ne_start (by simp [hp]) (by simp [hp]) (by simp [hp]) h
      rcases check_list_breaks hp h with h | ⟨t, -, h⟩
      · exact absurd h prohibited
      · exact below (by simp [hp, Pattern.operands]) (fun _ => hplace) h
    | dataExcept type params q =>
      have hplace := place_ne_start (by simp [hp]) (by simp [hp]) (by simp [hp]) h
      rcases check_dataExcept_breaks hp h with h | ⟨t, -, h⟩
      · exact absurd h prohibited
      · exact below (by simp [hp, Pattern.operands]) (fun _ => hplace) h
    | empty | notAllowed | text | data | value =>
      have hleaf := check_leaf_breaks (by simp [hp, Pattern.operands]) (by simp [hp]) (by simp [hp]) h
      exact absurd hleaf prohibited
    | group left right =>
      have hplace := place_ne_start (by simp [hp]) (by simp [hp]) (by simp [hp]) h
      rcases check_group_breaks hp h with h | ⟨h, -⟩ | h | ⟨t, -, h⟩
      · exact absurd h prohibited
      · cases h
      · exact below (by simp [hp, Pattern.operands]) (fun _ => hplace) h
      · exact below (by simp [hp, Pattern.operands]) (fun _ => hplace) h
    | oneOrMore q =>
      have hplace := place_ne_start (by simp [hp]) (by simp [hp]) (by simp [hp]) h
      rcases check_oneOrMore_breaks hp h with h | ⟨h, -⟩ | h
      · exact absurd h prohibited
      · cases h
      · exact below (by simp [hp, Pattern.operands]) (fun _ => hplace) h
    | interleave left right =>
      have hplace := place_ne_start (by simp [hp]) (by simp [hp]) (by simp [hp]) h
      rcases check_interleave_overlaps hp h with ⟨a, b, t, w, ha, hb, ho⟩ | h | ⟨t, h⟩
      · obtain ⟨hl, -⟩ := side_lists ha fun h => check_lists (hr.of_operand (by simp [hp, Pattern.operands])) h
        obtain ⟨hr, -⟩ := side_lists hb fun h => check_lists (hr.of_operand (by simp [hp, Pattern.operands])) h
        obtain ⟨c, d, hc, hd, hcd⟩ := (overlaps_eq_true_iff_of_lists hl hr).1 ho
        exact .inl ⟨hplace, p, left, right, c, d, .refl, hp, hc, hd, hcd⟩
      · exact below (q := left) (by simp [hp, Pattern.operands]) (fun _ => hplace) h
      · exact below (q := right) (by simp [hp, Pattern.operands]) (fun _ => hplace) h

end RestrictionCheck

namespace Grammar

open RestrictionCheck

variable {g : Grammar} {limits : Limits} {start p q left right : PatternId} {e : ElementId} {names : NameClass}

theorem HasElement.exists_reaches (h : g.HasElement p names) :
    ∃ q e, g.Reaches p q ∧ g.pattern q = .element e ∧ (g.element e).names = names := by
  obtain ⟨q, e, hq, he, hn⟩ := h
  exact ⟨q, e, hq.reaches, he, hn⟩

/-- In a grammar that passed, the sides of an interleave share no element name and no text; one that is refused for an
overlap has two sides that share a real name. -/
theorem interleave_sides_exact (hg : g.Sound) (hr : g.RefFree start)
    (hproper : ∀ p e, g.Reaches start p → g.pattern p = .element e → (g.element e).names.Proper) :
    (g.checkRestrictions limits start = .ok () →
      ∀ p e q left right, g.Reaches start p → g.pattern p = .element e → g.Within (g.element e).content q →
        g.pattern q = .interleave left right →
        (∀ a b name, g.HasElement left a → g.HasElement right b →
          ¬ (a.contains name = true ∧ b.contains name = true)) ∧
        ¬ (g.HasText left ∧ g.HasText right)) ∧
    ∀ v, g.checkRestrictions limits start = .error (.restriction v) → v.restriction = .interleaveElementOverlap →
      ∃ p e q left right a b name, g.Reaches start p ∧ g.pattern p = .element e ∧
        g.Within (g.element e).content q ∧ g.pattern q = .interleave left right ∧ g.HasElement left a ∧
        g.HasElement right b ∧ name.IsReal ∧ a.contains name = true ∧ b.contains name = true := by
  have proper {q left right r names} (hq : g.Reaches start q) (hi : g.pattern q = .interleave left right)
      (hside : r ∈ (g.pattern q).operands) (h : g.HasElement r names) : names.Proper := by
    obtain ⟨r', e, hr', he, rfl⟩ := h.exists_reaches
    exact hproper r' e (hq.trans (.head (mem_successors_of_operand hside) hr')) he
  have inside {p e q} (hp : g.Reaches start p) (he : g.pattern p = .element e)
      (hq : g.Within (g.element e).content q) : g.Reaches start q :=
    hp.trans (.head (content_mem_successors he) hq.reaches)
  constructor
  · intro hok p e q left right hp he hq hi
    obtain ⟨levels, s, u, -, -, hpass⟩ := passes_of_reaches hr hok hp he
    have hcontent : g.RefFree (g.element e).content := (hr.of_reaches hp).of_successor (content_mem_successors he)
    have hreach := inside hp he hq
    have hpassed := Passed.of_within ⟨levels, _, s, u, hpass⟩ hcontent hq
    obtain ⟨hnames, hgroup, hmixed⟩ := hpassed.interleave (hr.of_reaches hreach) hi
    have hleft : left ∈ (g.pattern q).operands := by simp [hi, Pattern.operands]
    have hright : right ∈ (g.pattern q).operands := by simp [hi, Pattern.operands]
    constructor
    · rintro a b name ha hb ⟨hna, hnb⟩
      have hno := hnames a b ha hb
      rw [(proper hreach hi hleft ha).overlaps_of_contains (proper hreach hi hright hb) hna hnb] at hno
      cases hno
    · rintro ⟨htl, htr⟩
      have hfree := hr.of_reaches hreach
      have hl := hg.two_le_rank_of_hasText (hfree.of_operand hleft) htl
      have hr := hg.two_le_rank_of_hasText (hfree.of_operand hright) htr
      exact hmixed (ContentType.eq_mixed_of_groupable hgroup hl hr)
  · intro v herror hv
    have hbreaks : Breaks (checkStart g limits start) {} .interleaveElementOverlap := ⟨v, herror, hv⟩
    rcases check_finds_overlap hr (isolated_breaks.1 hbreaks) with ⟨hne, -⟩ | ⟨p, e, hp, he, hoverlap⟩
    · exact absurd rfl hne
    · obtain ⟨q, left, right, a, b, hq, hi, ha, hb, ho⟩ := hoverlap
      have hreach := inside hp he hq
      have hpa := proper hreach hi (by simp [hi, Pattern.operands]) ha
      have hpb := proper hreach hi (by simp [hi, Pattern.operands]) hb
      obtain ⟨name, hreal, hna, hnb⟩ := hpa.exists_of_overlaps hpb ho
      exact ⟨p, e, q, left, right, a, b, name, hp, he, hq, hi, ha, hb, hreal, hna, hnb⟩

/-- Element 4 holds `(a & b) & (c & a)`, with two elements `a`. -/
def nestedSides : Grammar where
  nodes := #[⟨.empty, true, .empty, none⟩, ⟨.notAllowed, false, .empty, none⟩, ⟨.text, true, .mixed, none⟩,
    ⟨.element ⟨0⟩, false, .complex, none⟩, ⟨.element ⟨1⟩, false, .complex, none⟩,
    ⟨.interleave ⟨3⟩ ⟨4⟩, false, .complex, none⟩, ⟨.element ⟨2⟩, false, .complex, none⟩,
    ⟨.element ⟨3⟩, false, .complex, none⟩, ⟨.interleave ⟨6⟩ ⟨7⟩, false, .complex, none⟩,
    ⟨.interleave ⟨5⟩ ⟨8⟩, false, .complex, none⟩, ⟨.element ⟨4⟩, false, .complex, none⟩]
  elements := #[⟨.plain "a", ⟨0⟩, none, .none⟩, ⟨.plain "b", ⟨0⟩, none, .none⟩, ⟨.plain "c", ⟨0⟩, none, .none⟩,
    ⟨.plain "a", ⟨0⟩, none, .none⟩, ⟨.plain "doc", ⟨9⟩, none, .none⟩]

theorem nestedSides_sound : nestedSides.Sound := by
  refine sound_of_parts (fun p hp => ?_) (by decide) (by decide)
  have hlt : p.index < 11 := hp
  obtain ⟨i⟩ := p
  interval_cases i <;> exact ⟨by decide, rfl, rfl, by rintro _ ⟨⟩ <;> decide, by rintro _ ⟨⟩⟩

/-- Both sides of the content pass for themselves, and `a` is among the names of each. -/
theorem nestedSides_fails :
    nestedSides.checkRestrictions .standard ⟨10⟩ = .error (.restriction (.of .interleaveElementOverlap)) := by
  have hempty (s : State) : (check nestedSides 5000 4997 ⟨0⟩ .element).runFrom s = (.ok (), s) := by
    have hleaf : nestedSides.pattern ⟨0⟩ = .empty := rfl
    exact (check_leaf_ok rfl (by simp [hleaf]) (by simp [hleaf])).2 ⟨rfl, rfl⟩
  have helement (p : PatternId) (e : ElementId) (hp : nestedSides.pattern p = .element e)
      (hc : (nestedSides.element e).content = ⟨0⟩) (s : State) : ∃ t,
      (side (check nestedSides 5000 4998 p .element)).runFrom s = (.ok ⟨[(nestedSides.element e).names]⟩, t) ∧
        t.alphabet = s.alphabet := by
    cases hs : s.checked.contains e with
    | true => exact ⟨_, side_ok.2 ⟨_, (check_element_ok hp).2 (.inl ⟨hs, rfl⟩), rfl, rfl⟩, rfl⟩
    | false =>
      have hentered := hempty { s with checked := s.checked.insert e, attributes := some .empty, alphabet := none }
      rw [← hc] at hentered
      exact ⟨_, side_ok.2 ⟨_, (check_element_ok hp).2 (.inr ⟨hs, rfl, _, hentered, rfl⟩), rfl, rfl⟩, rfl⟩
  have hside (p : PatternId) (e f : ElementId) (left right : PatternId)
      (hp : nestedSides.pattern p = .interleave left right)
      (he : nestedSides.pattern left = .element e ∧ (nestedSides.element e).content = ⟨0⟩)
      (hf : nestedSides.pattern right = .element f ∧ (nestedSides.element f).content = ⟨0⟩)
      (hno : Alphabet.overlaps ⟨[(nestedSides.element e).names]⟩ ⟨[(nestedSides.element f).names]⟩ = false)
      (hc : nestedSides.contentType left = .complex ∧ nestedSides.contentType right = .complex) (s : State) :
      ∃ t, (side (check nestedSides 5000 4999 p .element)).runFrom s =
        (.ok (Alphabet.merge ⟨[(nestedSides.element e).names]⟩ ⟨[(nestedSides.element f).names]⟩), t) := by
    obtain ⟨t, ht, hat⟩ := helement left e he.1 he.2 { s with alphabet := some .empty }
    obtain ⟨u, hu, hau⟩ := helement right f hf.1 hf.2 t
    refine ⟨_, side_ok.2 ⟨_, (check_interleave_ok hp).2 ⟨rfl, _, _, t, u, ht, hu, hno, ?_, ?_, rfl⟩, ?_, rfl⟩⟩
    · rw [hc.1, hc.2]
      rfl
    · simp [hc]
    · rw [hau, hat]
      rfl
  have hcontent (s : State) :
      Fails (check nestedSides 5000 5000 ⟨9⟩ .element) s (.restriction (.of .interleaveElementOverlap)) := by
    have hp : nestedSides.pattern ⟨9⟩ = .interleave ⟨5⟩ ⟨8⟩ := rfl
    obtain ⟨t, ht⟩ := hside ⟨5⟩ ⟨0⟩ ⟨1⟩ _ _ rfl ⟨rfl, rfl⟩ ⟨rfl, rfl⟩ rfl ⟨rfl, rfl⟩ s
    obtain ⟨u, hu⟩ := hside ⟨8⟩ ⟨2⟩ ⟨3⟩ _ _ rfl ⟨rfl, rfl⟩ ⟨rfl, rfl⟩ rfl ⟨rfl, rfl⟩ t
    exact (check_interleave_fails hp).2 (.inr ⟨rfl, .inr ⟨_, t, ht, .inr ⟨_, u, hu, .inl ⟨rfl, rfl⟩⟩⟩⟩)
  have hp : nestedSides.pattern ⟨10⟩ = .element ⟨4⟩ := rfl
  exact isolated_fails.2 ((check_element_fails hp).2 ⟨by simp, _, .inr ⟨rfl, hcontent _⟩, rfl⟩)

/-- The statement at `nestedSides`, which is refused: there are sides that share a name, and they are interleaves
themselves. -/
theorem interleave_sides_exact_nestedSides : nestedSides.Sound ∧ nestedSides.RefFree ⟨10⟩ ∧
    (∀ p e, nestedSides.Reaches ⟨10⟩ p → nestedSides.pattern p = .element e → (nestedSides.element e).names.Proper) ∧
    nestedSides.checkRestrictions .standard ⟨10⟩ = .error (.restriction (.of .interleaveElementOverlap)) ∧
    ∃ p e q left right a b name, nestedSides.Reaches ⟨10⟩ p ∧ nestedSides.pattern p = .element e ∧
      nestedSides.Within (nestedSides.element e).content q ∧ nestedSides.pattern q = .interleave left right ∧
      nestedSides.HasElement left a ∧ nestedSides.HasElement right b ∧ name.IsReal ∧ a.contains name = true ∧
      b.contains name = true := by
  have hfree : nestedSides.RefFree ⟨10⟩ := refFree_of_nodes (by simp [nestedSides]) _
  have hproper : ∀ p e, nestedSides.Reaches ⟨10⟩ p → nestedSides.pattern p = .element e →
      (nestedSides.element e).names.Proper := by
    intro p e _ hp
    have hlt : p.index < 11 := has_of_pattern_ne (g := nestedSides) (by simp [hp])
    obtain ⟨i⟩ := p
    interval_cases i <;> cases hp <;> exact ⟨by decide, by decide⟩
  exact ⟨nestedSides_sound, hfree, hproper, nestedSides_fails,
    (interleave_sides_exact nestedSides_sound hfree hproper).2 _ nestedSides_fails rfl⟩

end Grammar

end RelaxNg
