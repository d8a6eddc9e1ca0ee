import RelaxNg.Proofs.Alphabet
import RelaxNg.Proofs.Restrictions.Contents

/-!
# Values in the words of a content

A value can stand beside nothing but attributes. A content that passed has only contents side by side that go together
(`Tree.Grouped`), and beside a value that is what has the empty content type, the words of which are made of attributes.
So a letter of a value in a word of such a content is the only one that the word has beside attributes
(`Tree.Grouped.beside_eq`).

Whether a tree has a word without letters of certain datatypes can be computed (`Tree.avoids`).
-/

namespace RelaxNg

open Computability

variable {X : Type}

/-! ## Letters beside attributes -/

namespace Letter

def isAttribute : Letter X → Bool
  | attr _ _ _ => true
  | _ => false

/-- A letter of a value. -/
def isValue : Letter X → Bool
  | list _ | data _ _ _ | value _ _ => true
  | _ => false

/-- The datatype of a letter that has one. -/
def datatype? : Letter X → Option Datatype
  | data type _ _ | value type _ => some type
  | _ => none

/-- The identity type of a letter. -/
def identity? (a : Letter X) : Option IdentityType := a.datatype?.bind Datatype.identity?

theorem isValue_of_identity? {a : Letter X} {t : IdentityType} (h : a.identity? = some t) : a.isValue = true := by
  cases a with
  | data | value => rfl
  | text | element | attr | list => cases h

theorem isAttribute_of_isValue {a : Letter X} (h : a.isValue = true) : a.isAttribute = false := by
  cases a with
  | attr => cases h
  | _ => rfl

end Letter

/-- A word without its attributes. -/
def beside (w : List (Letter X)) : List (Letter X) := w.filter fun a => !a.isAttribute

section beside

variable {a : Letter X} {u v w : List (Letter X)}

theorem beside_append : beside (u ++ v) = beside u ++ beside v := List.filter_append ..

theorem beside_eq_nil (h : ∀ a ∈ w, a.isAttribute = true) : beside w = [] := by
  rw [beside, List.filter_eq_nil_iff]
  intro a ha
  simp [h a ha]

theorem beside_eq_of_eq_singleton {b : Letter X} (hw : w = [b]) (ha : a ∈ w) (hv : a.isValue = true) :
    beside w = [a] := by
  subst hw
  rw [← List.mem_singleton.1 ha]
  simp [beside, Letter.isAttribute_of_isValue hv]

theorem Shuffle.beside (h : Shuffle u v w) : Shuffle (beside u) (RelaxNg.beside v) (RelaxNg.beside w) := by
  induction h with
  | nil => exact .nil
  | left a _ ih =>
    cases ha : a.isAttribute
    · simpa [RelaxNg.beside, ha] using ih.left a
    · simpa [RelaxNg.beside, ha] using ih
  | right a _ ih =>
    cases ha : a.isAttribute
    · simpa [RelaxNg.beside, ha] using ih.right a
    · simpa [RelaxNg.beside, ha] using ih

end beside

namespace Tree

/-- At the top of a tree, contents that stand side by side go together. -/
def Grouped : Tree → Prop
  | choice left right => left.Grouped ∧ right.Grouped
  | group left right | interleave left right =>
    left.Grouped ∧ right.Grouped ∧ left.contentType.groupable right.contentType = true
  | oneOrMore operand => operand.Grouped ∧ operand.contentType.groupable operand.contentType = true
  | _ => True

variable {nothing : X} {sense : Tree → X} {refs : DefinitionId → Language (Letter X)} {s t left right : Tree}
  {a : Letter X} {u v w : List (Letter X)}

theorem contentType_eq_simple (ht : t.RefFree) (hw : w ∈ t.language nothing sense refs) (ha : a ∈ w)
    (hv : a.isValue = true) : t.contentType = .simple := by
  obtain ⟨s, hs, hl⟩ := exists_leaf_of_mem_alphabet ht (mem_alphabet hw ha)
  have hrank := rank_le_of_mem_leaves hs
  have hsimple : s.contentType = .simple := by
    cases s <;> simp [letter?] at hl <;> first | rfl | (subst hl; cases hv)
  rw [hsimple] at hrank
  cases hc : t.contentType <;> simp [hc, ContentType.rank] at hrank ⊢

theorem beside_eq_nil_of_empty (ht : t.RefFree) (hc : t.contentType = .empty)
    (hw : w ∈ t.language nothing sense refs) : beside w = [] := by
  refine beside_eq_nil fun a ha => ?_
  obtain ⟨s, hs, hl⟩ := exists_leaf_of_mem_alphabet ht (mem_alphabet hw ha)
  have hrank := rank_le_of_mem_leaves hs
  rw [hc] at hrank
  cases s <;> simp [letter?] at hl <;> simp [contentType, ContentType.rank] at hrank
  subst hl
  rfl

theorem eq_empty_of_groupable {a b : ContentType} (h : a.groupable b = true) :
    (a = .simple → b = .empty) ∧ (b = .simple → a = .empty) := by
  cases a <;> cases b <;> simp_all [ContentType.groupable]

/-- A letter of a value is all that a word has beside attributes. -/
theorem Grouped.beside_eq (hg : t.Grouped) (ht : t.RefFree) (hw : w ∈ t.language nothing sense refs) (ha : a ∈ w)
    (hv : a.isValue = true) : beside w = [a] := by
  induction t generalizing w with
  | empty =>
    obtain rfl : w = [] := hw
    cases ha
  | notAllowed => exact hw.elim
  | choice left right ihl ihr =>
    rcases hw with hw | hw
    · exact ihl hg.1 (ht.of_operand (by simp [operands])) hw ha
    · exact ihr hg.2 (ht.of_operand (by simp [operands])) hw ha
  | group left right ihl ihr =>
    have htl : left.RefFree := ht.of_operand (by simp [operands])
    have htr : right.RefFree := ht.of_operand (by simp [operands])
    obtain ⟨hgl, hgr, hgroup⟩ := hg
    obtain ⟨u, hu, v, hv', rfl⟩ := hw
    change beside (u ++ v) = [a]
    rw [beside_append]
    rcases List.mem_append.1 ha with ha | ha
    · have hempty := (eq_empty_of_groupable hgroup).1 (contentType_eq_simple htl hu ha hv)
      rw [ihl hgl htl hu ha, beside_eq_nil_of_empty htr hempty hv', List.append_nil]
    · have hempty := (eq_empty_of_groupable hgroup).2 (contentType_eq_simple htr hv' ha hv)
      rw [ihr hgr htr hv' ha, beside_eq_nil_of_empty htl hempty hu, List.nil_append]
  | interleave left right ihl ihr =>
    have htl : left.RefFree := ht.of_operand (by simp [operands])
    have htr : right.RefFree := ht.of_operand (by simp [operands])
    obtain ⟨hgl, hgr, hgroup⟩ := hg
    obtain ⟨u, hu, v, hv', hs⟩ := hw
    have hmixed := hs.beside
    rcases (hs.mem_iff a).1 ha with ha | ha
    · have hempty := (eq_empty_of_groupable hgroup).1 (contentType_eq_simple htl hu ha hv)
      rw [beside_eq_nil_of_empty htr hempty hv'] at hmixed
      exact hmixed.eq_of_nil_right ▸ ihl hgl htl hu ha
    · have hempty := (eq_empty_of_groupable hgroup).2 (contentType_eq_simple htr hv' ha hv)
      rw [beside_eq_nil_of_empty htl hempty hu] at hmixed
      exact hmixed.eq_of_nil_left ▸ ihr hgr htr hv' ha
  | oneOrMore operand ih =>
    -- What can be repeated has no value in its words.
    have hsimple := contentType_eq_simple ht hw ha hv
    have hempty := (eq_empty_of_groupable hg.2).1 hsimple
    rw [show operand.contentType = .simple from hsimple] at hempty
    cases hempty
  | text =>
    rw [← eq_of_mem_alphabet_word (mem_alphabet_kstar (mem_alphabet hw ha))] at hv
    cases hv
  | list | attr => exact beside_eq_of_eq_singleton hw.1 ha hv
  | ref f => exact absurd (.refl _) (ht f)
  | data | dataExcept | value | element => exact beside_eq_of_eq_singleton hw ha hv

/-! ## Words without some datatypes -/

/-- Whether a tree has a word in which no letter is of a `bad` datatype. -/
def avoids : Tree → (bad : Datatype → Bool) → Bool
  | empty, _ | text, _ | element _, _ => true
  | notAllowed, _ | ref _, _ => false
  | choice left right, bad => left.avoids bad || right.avoids bad
  | group left right, bad | interleave left right, bad => left.avoids bad && right.avoids bad
  | oneOrMore operand, bad => operand.avoids bad
  -- The operand needs a word, no matter which.
  | list operand, _ | attr _ operand _, _ => operand.avoids fun _ => false
  | data type _, bad | dataExcept type _ _, bad | value type _, bad => !bad type

/-- No letter of a word is of a bad datatype. -/
def Clean (bad : Datatype → Bool) (w : List (Letter X)) : Prop :=
  ∀ a ∈ w, ∀ type, a.datatype? = some type → bad type = false

variable {bad : Datatype → Bool} {b : Letter X}

theorem clean_append : Clean bad (u ++ v) ↔ Clean bad u ∧ Clean bad v := List.forall_mem_append

theorem clean_shuffle (h : Shuffle u v w) : Clean bad w ↔ Clean bad u ∧ Clean bad v := by
  simp only [Clean, h.mem_iff, or_imp, forall_and]

theorem exists_clean_word :
    (∃ w ∈ ({[b]} : Language (Letter X)), Clean bad w) ↔ ∀ type, b.datatype? = some type → bad type = false := by
  constructor
  · rintro ⟨w, hw, hc⟩
    obtain rfl : w = [b] := hw
    exact hc b (List.mem_singleton_self b)
  · exact fun h => ⟨[b], rfl, fun a ha => List.mem_singleton.1 ha ▸ h⟩

theorem exists_clean_wordIf {l : Language (Letter X)} (hb : b.datatype? = none) :
    (∃ w ∈ wordIf l b, Clean bad w) ↔ ∃ w ∈ l, Clean (fun _ => false) w := by
  constructor
  · rintro ⟨_, ⟨-, hne⟩, -⟩
    obtain ⟨w, hw⟩ := Set.nonempty_iff_ne_empty.2 hne
    exact ⟨w, hw, fun _ _ _ _ => rfl⟩
  · rintro ⟨w, hw, -⟩
    refine ⟨[b], ⟨rfl, fun h => ?_⟩, by simp [Clean, hb]⟩
    rw [h] at hw
    exact hw.elim

theorem avoids_iff (ht : t.RefFree) : t.avoids bad = true ↔ ∃ w ∈ t.language nothing sense refs, Clean bad w := by
  induction t generalizing bad with
  | empty => exact ⟨fun _ => ⟨[], rfl, by simp [Clean]⟩, fun _ => rfl⟩
  | notAllowed => exact ⟨fun h => (by cases h), fun ⟨_, hw, _⟩ => hw.elim⟩
  | text => exact ⟨fun _ => ⟨[], Language.nil_mem_kstar _, by simp [Clean]⟩, fun _ => rfl⟩
  | choice left right ihl ihr =>
    rw [avoids, Bool.or_eq_true, ihl (ht.of_operand (by simp [operands])), ihr (ht.of_operand (by simp [operands]))]
    constructor
    · rintro (⟨w, hw, hc⟩ | ⟨w, hw, hc⟩)
      · exact ⟨w, .inl hw, hc⟩
      · exact ⟨w, .inr hw, hc⟩
    · rintro ⟨w, hw | hw, hc⟩
      · exact .inl ⟨w, hw, hc⟩
      · exact .inr ⟨w, hw, hc⟩
  | group left right ihl ihr =>
    rw [avoids, Bool.and_eq_true, ihl (ht.of_operand (by simp [operands])), ihr (ht.of_operand (by simp [operands]))]
    constructor
    · rintro ⟨⟨u, hu, hcu⟩, v, hv, hcv⟩
      exact ⟨u ++ v, ⟨u, hu, v, hv, rfl⟩, clean_append.2 ⟨hcu, hcv⟩⟩
    · rintro ⟨_, ⟨u, hu, v, hv, rfl⟩, hc⟩
      obtain ⟨hcu, hcv⟩ := clean_append.1 hc
      exact ⟨⟨u, hu, hcu⟩, v, hv, hcv⟩
  | interleave left right ihl ihr =>
    rw [avoids, Bool.and_eq_true, ihl (ht.of_operand (by simp [operands])), ihr (ht.of_operand (by simp [operands]))]
    constructor
    · rintro ⟨⟨u, hu, hcu⟩, v, hv, hcv⟩
      exact ⟨u ++ v, ⟨u, hu, v, hv, .append u v⟩, clean_append.2 ⟨hcu, hcv⟩⟩
    · rintro ⟨w, ⟨u, hu, v, hv, hs⟩, hc⟩
      obtain ⟨hcu, hcv⟩ := (clean_shuffle hs).1 hc
      exact ⟨⟨u, hu, hcu⟩, v, hv, hcv⟩
  | oneOrMore operand ih =>
    rw [avoids, ih (ht.of_operand (by simp [operands]))]
    constructor
    · rintro ⟨w, hw, hc⟩
      exact ⟨w, ⟨w, hw, [], Language.nil_mem_kstar _, List.append_nil w⟩, hc⟩
    · rintro ⟨_, ⟨u, hu, v, hv, rfl⟩, hc⟩
      exact ⟨u, hu, (clean_append.1 hc).1⟩
  | list operand ih | attr names operand annotations ih =>
    exact (ih (ht.of_operand (by simp [operands]))).trans (exists_clean_wordIf rfl).symm
  | ref f => exact absurd (.refl _) (ht f)
  | data | dataExcept | value | element =>
    refine Iff.trans ?_ exists_clean_word.symm
    simp [avoids, Letter.datatype?]

end Tree

end RelaxNg
