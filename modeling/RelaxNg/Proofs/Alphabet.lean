import RelaxNg.Proofs.Language
import RelaxNg.Proofs.Walk
import RelaxNg.Schema.ContentModel

/-!
# Letters of a content

The letters in the words of a tree are letters of its leaves, the trees that stand at its top and are put together of
no others (`Tree.exists_leaf_of_mem_alphabet`). A walk meets all leaves of a content, and no content type ranks below
that of a leaf. So the model of an element covers its content: whatever letter the words of the content have, the model
tells that it may stand in the element (`Grammar.elementModel_covers`).
-/

namespace RelaxNg

open Computability Relation

/-! ## Alphabets -/

/-- The letters that occur in the words of a language. -/
def alphabet {α : Type} (l : Language α) : Set α := {a | ∃ w ∈ l, a ∈ w}

section alphabet

variable {α : Type} {l m : Language α} {a b : α}

theorem mem_alphabet {w : List α} (hw : w ∈ l) (ha : a ∈ w) : a ∈ alphabet l := ⟨w, hw, ha⟩

theorem mem_alphabet_add (h : a ∈ alphabet (l + m)) : a ∈ alphabet l ∨ a ∈ alphabet m := by
  obtain ⟨w, hw | hw, ha⟩ := h
  · exact .inl ⟨w, hw, ha⟩
  · exact .inr ⟨w, hw, ha⟩

theorem mem_alphabet_mul (h : a ∈ alphabet (l * m)) : a ∈ alphabet l ∨ a ∈ alphabet m := by
  obtain ⟨_, ⟨u, hu, v, hv, rfl⟩, ha⟩ := h
  rcases List.mem_append.1 ha with ha | ha
  · exact .inl ⟨u, hu, ha⟩
  · exact .inr ⟨v, hv, ha⟩

theorem mem_alphabet_shuffles (h : a ∈ alphabet (shuffles l m)) : a ∈ alphabet l ∨ a ∈ alphabet m := by
  obtain ⟨w, ⟨u, hu, v, hv, hs⟩, ha⟩ := h
  rcases (hs.mem_iff a).1 ha with ha | ha
  · exact .inl ⟨u, hu, ha⟩
  · exact .inr ⟨v, hv, ha⟩

theorem mem_alphabet_kstar (h : a ∈ alphabet l∗) : a ∈ alphabet l := by
  obtain ⟨w, hw, ha⟩ := h
  obtain ⟨words, rfl, hwords⟩ := Language.mem_kstar.1 hw
  obtain ⟨u, hu, ha⟩ := List.mem_flatten.1 ha
  exact ⟨u, hwords u hu, ha⟩

theorem eq_of_mem_alphabet_word (h : a ∈ alphabet ({[b]} : Language α)) : b = a := by
  obtain ⟨w, hw, ha⟩ := h
  obtain rfl : w = [b] := hw
  exact (List.mem_singleton.1 ha).symm

theorem eq_of_mem_alphabet_wordIf (h : a ∈ alphabet (wordIf l b)) : b = a := by
  obtain ⟨w, hw, ha⟩ := h
  exact (List.mem_singleton.1 (hw.1 ▸ ha)).symm

end alphabet

/-! ## Leaves -/

variable {X : Type}

def Letter.isText : Letter X → Bool
  | text | list _ | data _ _ _ | value _ _ => true
  | element _ | attr _ _ _ => false

namespace Tree

/-- What stands at the top of a tree, from left to right: its elements, attributes, texts and values. -/
def leaves : Tree → List Tree
  | choice left right | group left right | interleave left right => left.leaves ++ right.leaves
  | oneOrMore operand => operand.leaves
  | t => [t]

/-- The letter of a leaf. -/
def letter? (nothing : X) (sense : Tree → X) : Tree → Option (Letter X)
  | text => some .text
  | list operand => some (.list (sense operand))
  | data type params => some (.data type params nothing)
  | dataExcept type params operand => some (.data type params (sense operand))
  | value type content => some (.value type content)
  | attr names operand annotations => some (.attr names annotations (sense operand))
  | element e => some (.element e)
  | _ => none

variable {nothing : X} {sense : Tree → X} {refs : DefinitionId → Language (Letter X)} {s t : Tree} {a : Letter X}

/-- A letter in the words of a tree without references is the letter of a leaf. -/
theorem exists_leaf_of_mem_alphabet (ht : t.RefFree) (ha : a ∈ alphabet (t.language nothing sense refs)) :
    ∃ s ∈ t.leaves, s.letter? nothing sense = some a := by
  -- What two trees have in their words, their leaves have together.
  have either {left right : Tree} (hl : a ∈ alphabet (left.language nothing sense refs) →
      ∃ s ∈ left.leaves, s.letter? nothing sense = some a)
      (hr : a ∈ alphabet (right.language nothing sense refs) → ∃ s ∈ right.leaves, s.letter? nothing sense = some a)
      (ha : a ∈ alphabet (left.language nothing sense refs) ∨ a ∈ alphabet (right.language nothing sense refs)) :
      ∃ s ∈ left.leaves ++ right.leaves, s.letter? nothing sense = some a := by
    rcases ha with ha | ha
    · obtain ⟨s, hs, h⟩ := hl ha
      exact ⟨s, List.mem_append_left _ hs, h⟩
    · obtain ⟨s, hs, h⟩ := hr ha
      exact ⟨s, List.mem_append_right _ hs, h⟩
  induction t with
  | empty =>
    obtain ⟨w, hw, ha⟩ := ha
    exact absurd ((show w = [] from hw) ▸ ha) List.not_mem_nil
  | notAllowed =>
    obtain ⟨w, hw, -⟩ := ha
    exact hw.elim
  | choice left right ihl ihr =>
    exact either (ihl (ht.of_operand (by simp [operands]))) (ihr (ht.of_operand (by simp [operands])))
      (mem_alphabet_add ha)
  | group left right ihl ihr =>
    exact either (ihl (ht.of_operand (by simp [operands]))) (ihr (ht.of_operand (by simp [operands])))
      (mem_alphabet_mul ha)
  | interleave left right ihl ihr =>
    exact either (ihl (ht.of_operand (by simp [operands]))) (ihr (ht.of_operand (by simp [operands])))
      (mem_alphabet_shuffles ha)
  | oneOrMore operand ih =>
    have ho := ht.of_operand (o := operand) (by simp [operands])
    rcases mem_alphabet_mul ha with ha | ha
    · exact ih ho ha
    · exact ih ho (mem_alphabet_kstar ha)
  | text => exact ⟨text, List.mem_singleton_self _, congrArg some (eq_of_mem_alphabet_word (mem_alphabet_kstar ha))⟩
  | list | attr => exact ⟨_, List.mem_singleton_self _, congrArg some (eq_of_mem_alphabet_wordIf ha)⟩
  | ref f => exact absurd (.refl _) (ht f)
  | _ => exact ⟨_, List.mem_singleton_self _, congrArg some (eq_of_mem_alphabet_word ha)⟩

theorem rank_le_of_mem_leaves (hs : s ∈ t.leaves) : s.contentType.rank ≤ t.contentType.rank := by
  induction t with
  | choice left right ihl ihr | group left right ihl ihr | interleave left right ihl ihr =>
    rw [contentType, ContentType.rank_combine]
    rcases List.mem_append.1 hs with hs | hs
    · exact le_max_of_le_left (ihl hs)
    · exact le_max_of_le_right (ihr hs)
  | oneOrMore operand ih => exact ih hs
  | _ => exact le_of_eq (congrArg _ (congrArg _ (List.mem_singleton.1 hs)))

theorem allowsText_of_mem_leaves (hs : s ∈ t.leaves) (h : s.contentType.allowsText) : t.contentType.allowsText := by
  have iff (type : ContentType) : type.allowsText ↔ 2 ≤ type.rank := by cases type <;> decide
  rw [iff] at h ⊢
  exact le_trans h (rank_le_of_mem_leaves hs)

end Tree

/-! ## Contents of a grammar -/

namespace Grammar

variable {g : Grammar} {p : PatternId} {e : ElementId} {s : Tree} {names : NameClass} {nothing : X} {sense : Tree → X}
  {refs : DefinitionId → Language (Letter X)} {a : Letter X} {annotations : Annotations} {operand : X}

theorem Sound.exists_top_of_mem_leaves (hg : g.Sound) (hs : s ∈ (g.tree p).leaves) :
    ∃ q, g.ReachesTop p q ∧ g.tree q = s := by
  induction hi : p.index using Nat.strong_induction_on generalizing p with
  | _ n ih =>
    subst hi
    have below (q) (hq : q ∈ g.topSuccessors p) (hlt : q.index < p.index) (hs : s ∈ (g.tree q).leaves) :
        ∃ r, g.ReachesTop p r ∧ g.tree r = s := by
      obtain ⟨r, hr, ht⟩ := ih _ hlt hs rfl
      exact ⟨r, .head hq hr, ht⟩
    have hlt := (hg.settled p).operand_lt
    rw [hg.tree_eq p] at hs
    cases hp : g.pattern p with
    | choice left right | group left right | interleave left right =>
      rw [hp] at hs hlt
      rcases List.mem_append.1 hs with hs | hs
      · exact below left (by simp [topSuccessors, hp]) (hlt _ (by simp [Pattern.operands])) hs
      · exact below right (by simp [topSuccessors, hp]) (hlt _ (by simp [Pattern.operands])) hs
    | oneOrMore operand =>
      rw [hp] at hs hlt
      exact below operand (by simp [topSuccessors, hp]) (hlt _ (by simp [Pattern.operands])) hs
    | _ =>
      rw [hp] at hs
      exact ⟨p, .refl, by rw [hg.tree_eq, hp]; exact (List.mem_singleton.1 hs).symm⟩

/-- What stands at the top of a pattern and is put together of nothing else there is a leaf of its tree. -/
theorem Sound.mem_leaves_of_top {q : PatternId} (hg : g.Sound) (hr : g.RefFree p) (h : g.ReachesTop p q)
    (hq : g.topSuccessors q = []) : g.tree q ∈ (g.tree p).leaves := by
  induction h using ReflTransGen.head_induction_on with
  | refl =>
    rw [hg.tree_eq q]
    unfold topSuccessors at hq
    cases hp : g.pattern q <;> simp_all [Pattern.tree, Tree.leaves]
  | @head p r hpr _ ih =>
    have ih := ih (hr.of_successor (mem_successors_of_top hpr))
    rw [hg.tree_eq p]
    unfold topSuccessors at hpr
    cases hp : g.pattern p with
    | choice a b | group a b | interleave a b =>
      have hmem : r = a ∨ r = b := by simpa [hp] using hpr
      rcases hmem with rfl | rfl
      · exact List.mem_append_left _ ih
      · exact List.mem_append_right _ ih
    | oneOrMore a =>
      have hmem : r = a := by simpa [hp] using hpr
      exact hmem ▸ ih
    | ref d => exact absurd hp (hr p .refl d)
    | _ => simp [hp] at hpr

theorem Sound.exists_top_of_mem_alphabet (hg : g.Sound) (ht : (g.tree p).RefFree)
    (ha : a ∈ alphabet ((g.tree p).language nothing sense refs)) :
    ∃ q, g.ReachesTop p q ∧ ((g.pattern q).tree g.tree).letter? nothing sense = some a := by
  obtain ⟨s, hs, hl⟩ := Tree.exists_leaf_of_mem_alphabet ht ha
  obtain ⟨q, hq, rfl⟩ := hg.exists_top_of_mem_leaves hs
  exact ⟨q, hq, hg.tree_eq q ▸ hl⟩

theorem Sound.mem_topElements_of_mem_alphabet (hg : g.Sound) (hp : g.Has p) (ht : (g.tree p).RefFree)
    (ha : .element e ∈ alphabet ((g.tree p).language nothing sense refs)) : e ∈ g.topElements p := by
  obtain ⟨q, hq, hl⟩ := hg.exists_top_of_mem_alphabet ht ha
  refine (hg.mem_topElements_iff hp).2 ⟨q, hq, ?_⟩
  cases hq : g.pattern q <;> simp_all [Pattern.tree, Tree.letter?]

theorem Sound.mem_topAttributes_of_mem_alphabet (hg : g.Sound) (hp : g.Has p) (ht : (g.tree p).RefFree)
    (ha : .attr names annotations operand ∈ alphabet ((g.tree p).language nothing sense refs)) :
    names ∈ g.topAttributes p := by
  obtain ⟨q, hq, hl⟩ := hg.exists_top_of_mem_alphabet ht ha
  refine (hg.mem_topAttributes_iff hp).2 ⟨q, hq, ?_⟩
  cases hq : g.pattern q <;> simp_all [Pattern.tree, Tree.letter?]

theorem Sound.allowsText_of_mem_alphabet (hg : g.Sound) (ht : (g.tree p).RefFree)
    (ha : a ∈ alphabet ((g.tree p).language nothing sense refs)) (h : a.isText) : (g.contentType p).allowsText := by
  obtain ⟨s, hs, hl⟩ := Tree.exists_leaf_of_mem_alphabet ht ha
  rw [hg.contentType_tree]
  refine Tree.allowsText_of_mem_leaves hs ?_
  cases s <;> simp [Tree.letter?] at hl
  case element | attr =>
    subst hl
    cases h
  all_goals rfl

end Grammar

/-- A model of an element tells of every letter of a language that it may stand in the element. -/
structure ElementModel.Covers (m : ElementModel) (l : Language (Letter X)) : Prop where
  element : ∀ e, .element e ∈ alphabet l → e ∈ m.children
  attr : ∀ names annotations operand, .attr names annotations operand ∈ alphabet l → names ∈ m.attributes
  text : ∀ a ∈ alphabet l, a.isText → m.allowsText

theorem Grammar.elementModel_covers {g : Grammar} {e : ElementId} (hg : g.Sound) (hp : g.Has (g.element e).content)
    (ht : (g.tree (g.element e).content).RefFree) (nothing : X) (sense : Tree → X)
    (refs : DefinitionId → Language (Letter X)) :
    (g.elementModel e).Covers ((g.tree (g.element e).content).language nothing sense refs) where
  element _ := hg.mem_topElements_of_mem_alphabet hp ht
  attr _ _ _ := hg.mem_topAttributes_of_mem_alphabet hp ht
  text _ := hg.allowsText_of_mem_alphabet ht

end RelaxNg
