import RelaxNg.Proofs.Draft.Pruned
import RelaxNg.Proofs.Schema

/-!
# Content models are alphabets

In a tree with no dead part and no reference every leaf is of use: its letter occurs in a word
(`Tree.Pruned.mem_alphabet_iff`). The contents of a schema are such trees, so that the model of an element tells its
alphabet and nothing else: the elements, the attributes and whether there is text (`Draft.Fresh.contentModel_exact`).
-/

namespace RelaxNg

open Computability Relation

/-! ## Alphabets of what is put together -/

section alphabet

variable {α : Type} {l m : Language α} {a : α}

theorem alphabet_mono (h : l ≤ m) : alphabet l ⊆ alphabet m := fun _ ⟨w, hw, ha⟩ => ⟨w, h hw, ha⟩

theorem mem_alphabet_mul_left (h : a ∈ alphabet l) (hm : ∃ v, v ∈ m) : a ∈ alphabet (l * m) := by
  obtain ⟨u, hu, ha⟩ := h
  obtain ⟨v, hv⟩ := hm
  exact ⟨u ++ v, ⟨u, hu, v, hv, rfl⟩, List.mem_append_left _ ha⟩

theorem mem_alphabet_mul_right (h : a ∈ alphabet m) (hl : ∃ u, u ∈ l) : a ∈ alphabet (l * m) := by
  obtain ⟨v, hv, ha⟩ := h
  obtain ⟨u, hu⟩ := hl
  exact ⟨u ++ v, ⟨u, hu, v, hv, rfl⟩, List.mem_append_right _ ha⟩

/-- Words can be mixed by setting one behind the other. -/
theorem mul_le_shuffles (l m : Language α) : l * m ≤ shuffles l m := by
  rintro _ ⟨u, hu, v, hv, rfl⟩
  exact ⟨u, hu, v, hv, .append u v⟩

theorem mem_wordIf (h : ∃ w, w ∈ l) (b : α) : [b] ∈ wordIf l b := by
  obtain ⟨w, hw⟩ := h
  exact ⟨rfl, fun h0 => (h0 ▸ hw : w ∈ (0 : Language α)).elim⟩

end alphabet

/-! ## Leaves of use -/

variable {X : Type}

namespace Tree

variable {nothing : X} {sense : Tree → X} {refs : DefinitionId → Language (Letter X)} {s t u : Tree} {a : Letter X}

/-- No part of a tree accepts nothing, and none is a reference. -/
structure Live (t : Tree) : Prop where
  lacks : t.Lacks notAllowed
  refFree : t.RefFree

theorem Live.of_operand (h : t.Live) (hs : s ∈ t.operands) : s.Live :=
  ⟨h.lacks.of_operand hs, h.refFree.of_operand hs⟩

theorem Live.of_operands_eq (h : t.Live) (ho : t.operands = [s, u]) : s.Live ∧ u.Live :=
  ⟨h.of_operand (by simp [ho]), h.of_operand (by simp [ho])⟩

/-- A live tree accepts something. -/
theorem Live.exists_mem_language (h : t.Live) : ∃ w, w ∈ t.language nothing sense refs := by
  induction t with
  | empty => exact ⟨[], rfl⟩
  | notAllowed => exact absurd (.refl _) h.lacks
  | text => exact ⟨[], Language.nil_mem_kstar _⟩
  | choice left right ihl ihr =>
    obtain ⟨w, hw⟩ := ihl (h.of_operands_eq rfl).1
    exact ⟨w, .inl hw⟩
  | group left right ihl ihr =>
    obtain ⟨hleft, hright⟩ := h.of_operands_eq rfl
    obtain ⟨v, hv⟩ := ihl hleft
    obtain ⟨w, hw⟩ := ihr hright
    exact ⟨v ++ w, v, hv, w, hw, rfl⟩
  | interleave left right ihl ihr =>
    obtain ⟨hleft, hright⟩ := h.of_operands_eq rfl
    obtain ⟨v, hv⟩ := ihl hleft
    obtain ⟨w, hw⟩ := ihr hright
    exact ⟨v ++ w, v, hv, w, hw, .append v w⟩
  | oneOrMore operand ih =>
    obtain ⟨w, hw⟩ := ih (h.of_operand (by simp [operands]))
    exact ⟨w ++ [], w, hw, [], Language.nil_mem_kstar _, rfl⟩
  | list operand ih | attr names operand annotations ih =>
    exact ⟨_, mem_wordIf (ih (h.of_operand (by simp [operands]))) _⟩
  | ref f => exact absurd (.refl _) (h.refFree f)
  | data | dataExcept | value | element => exact ⟨_, rfl⟩

/-- The letter of every leaf of a live tree occurs in a word. -/
theorem Live.mem_alphabet_of_leaf (h : t.Live) (hs : s ∈ t.leaves) (ha : s.letter? nothing sense = some a) :
    a ∈ alphabet (t.language nothing sense refs) := by
  induction t with
  | choice left right ihl ihr =>
    obtain ⟨hleft, hright⟩ := h.of_operands_eq rfl
    rcases List.mem_append.1 hs with hs | hs
    · exact alphabet_mono le_sup_left (ihl hleft hs)
    · exact alphabet_mono le_sup_right (ihr hright hs)
  | group left right ihl ihr =>
    -- A word with the letter is continued by any word of the other side.
    obtain ⟨hleft, hright⟩ := h.of_operands_eq rfl
    rcases List.mem_append.1 hs with hs | hs
    · exact mem_alphabet_mul_left (ihl hleft hs) hright.exists_mem_language
    · exact mem_alphabet_mul_right (ihr hright hs) hleft.exists_mem_language
  | interleave left right ihl ihr =>
    obtain ⟨hleft, hright⟩ := h.of_operands_eq rfl
    refine alphabet_mono (mul_le_shuffles _ _) ?_
    rcases List.mem_append.1 hs with hs | hs
    · exact mem_alphabet_mul_left (ihl hleft hs) hright.exists_mem_language
    · exact mem_alphabet_mul_right (ihr hright hs) hleft.exists_mem_language
  | oneOrMore operand ih =>
    exact mem_alphabet_mul_left (ih (h.of_operand (by simp [operands])) hs) ⟨[], Language.nil_mem_kstar _⟩
  | text =>
    cases List.mem_singleton.1 hs
    cases ha
    have htext : [.text] ∈ ({[.text]} : Language (Letter X))∗ :=
      Language.mem_kstar.2 ⟨[[.text]], rfl, fun _ hu => List.mem_singleton.1 hu⟩
    exact ⟨[.text], htext, List.mem_singleton_self _⟩
  | list operand | attr names operand annotations =>
    cases List.mem_singleton.1 hs
    cases ha
    have ho : operand.Live := h.of_operand (by simp [operands])
    exact ⟨_, mem_wordIf ho.exists_mem_language _, List.mem_singleton_self _⟩
  | empty | notAllowed | ref f =>
    cases List.mem_singleton.1 hs
    cases ha
  | data | dataExcept | value | element =>
    cases List.mem_singleton.1 hs
    cases ha
    exact ⟨_, rfl, List.mem_singleton_self _⟩

/-- The letters in the words of a pruned tree without references are those of its leaves. -/
theorem Pruned.mem_alphabet_iff (hd : t.Pruned) (hr : t.RefFree) :
    a ∈ alphabet (t.language nothing sense refs) ↔ ∃ s ∈ t.leaves, s.letter? nothing sense = some a := by
  refine ⟨exists_leaf_of_mem_alphabet hr, fun ⟨s, hs, ha⟩ => ?_⟩
  rcases hd with rfl | hd
  · cases List.mem_singleton.1 hs
    cases ha
  · exact Live.mem_alphabet_of_leaf ⟨hd, hr⟩ hs ha

/-- A tree whose content type allows text has a leaf of text or of a value. -/
theorem exists_leaf_of_allowsText (nothing : X) (sense : Tree → X) (h : t.contentType.allowsText = true) :
    ∃ s ∈ t.leaves, ∃ a, s.letter? nothing sense = some a ∧ a.isText = true := by
  have combine {left right : ContentType} (h : (left.combine right).allowsText = true) :
      left.allowsText = true ∨ right.allowsText = true := by
    cases left <;> cases right <;> simp_all [ContentType.combine, ContentType.rank, ContentType.allowsText]
  induction t with
  | choice left right ihl ihr | group left right ihl ihr | interleave left right ihl ihr =>
    rcases combine h with h | h
    · obtain ⟨s, hs, hsa⟩ := ihl h
      exact ⟨s, List.mem_append_left _ hs, hsa⟩
    · obtain ⟨s, hs, hsa⟩ := ihr h
      exact ⟨s, List.mem_append_right _ hs, hsa⟩
  | oneOrMore operand ih => exact ih h
  | text | list | data | dataExcept | value => exact ⟨_, List.mem_singleton_self _, _, rfl, rfl⟩
  | empty | notAllowed | attr | element | ref => cases h

end Tree

/-! ## Models of elements -/

/-- A model of an element tells the elements, the attributes and the text that occur in the words of a language, each
once and nothing else. -/
structure ElementModel.Exact (m : ElementModel) (l : Language (Letter X)) : Prop where
  mem_children_iff : ∀ e, e ∈ m.children ↔ .element e ∈ alphabet l
  nodup_children : m.children.Nodup
  mem_attributes_iff : ∀ names, names ∈ m.attributes ↔
    ∃ annotations operand, .attr names annotations operand ∈ alphabet l
  nodup_attributes : m.attributes.Nodup
  allowsText_iff : m.allowsText = true ↔ ∃ a ∈ alphabet l, a.isText = true

namespace Grammar

variable {g : Grammar} {p : PatternId} {e : ElementId} {names : NameClass} {nothing : X} {sense : Tree → X}
  {refs : DefinitionId → Language (Letter X)}

theorem Closed.mem_topElements_iff_alphabet (hg : g.Closed p) (ht : (g.tree p).Pruned) :
    e ∈ g.topElements p ↔ .element e ∈ alphabet ((g.tree p).language nothing sense refs) := by
  have hfree := hg.refFree.tree hg.sound
  refine ⟨fun he => ?_, hg.sound.mem_topElements_of_mem_alphabet hg.has hfree⟩
  obtain ⟨q, hq, hqe⟩ := (hg.sound.mem_topElements_iff hg.has).1 he
  have hleaf := hg.sound.mem_leaves_of_top hg.refFree hq (by simp [topSuccessors, hqe])
  rw [hg.sound.pattern_eq_element_iff.1 hqe] at hleaf
  exact (ht.mem_alphabet_iff hfree).2 ⟨_, hleaf, rfl⟩

theorem Closed.mem_topAttributes_iff_alphabet (hg : g.Closed p) (ht : (g.tree p).Pruned) : names ∈ g.topAttributes p ↔
    ∃ annotations operand, .attr names annotations operand ∈ alphabet ((g.tree p).language nothing sense refs) := by
  have hfree := hg.refFree.tree hg.sound
  refine ⟨fun hn => ?_, fun ⟨_, _, ha⟩ => hg.sound.mem_topAttributes_of_mem_alphabet hg.has hfree ha⟩
  obtain ⟨q, hq, operand, annotations, hqn⟩ := (hg.sound.mem_topAttributes_iff hg.has).1 hn
  have hleaf := hg.sound.mem_leaves_of_top hg.refFree hq (by simp [topSuccessors, hqn])
  rw [hg.sound.tree_eq q, hqn, Pattern.tree] at hleaf
  exact ⟨annotations, sense (g.tree operand), (ht.mem_alphabet_iff hfree).2 ⟨_, hleaf, rfl⟩⟩

theorem Closed.allowsText_iff_alphabet (hg : g.Closed p) (ht : (g.tree p).Pruned) :
    (g.contentType p).allowsText = true ↔ ∃ a ∈ alphabet ((g.tree p).language nothing sense refs), a.isText = true := by
  have hfree := hg.refFree.tree hg.sound
  refine ⟨fun h => ?_, fun ⟨a, ha, htext⟩ => hg.sound.allowsText_of_mem_alphabet hfree ha htext⟩
  rw [hg.sound.contentType_tree] at h
  obtain ⟨s, hs, a, ha, htext⟩ := Tree.exists_leaf_of_allowsText nothing sense h
  exact ⟨a, (ht.mem_alphabet_iff hfree).2 ⟨s, hs, ha⟩, htext⟩

theorem Closed.elementModel_exact (hg : g.Closed (g.element e).content) (ht : (g.tree (g.element e).content).Pruned)
    (nothing : X) (sense : Tree → X) (refs : DefinitionId → Language (Letter X)) :
    (g.elementModel e).Exact ((g.tree (g.element e).content).language nothing sense refs) where
  mem_children_iff _ := hg.mem_topElements_iff_alphabet ht
  nodup_children := nodup_firsts _
  mem_attributes_iff _ := hg.mem_topAttributes_iff_alphabet ht
  nodup_attributes := nodup_firsts _
  allowsText_iff := hg.allowsText_iff_alphabet ht

end Grammar

/-! ## Schemas -/

namespace Draft

variable {d : Draft} {start : PatternId} {options : Options} {schema : Schema}

/-- In a schema of a draft without expansions, the start and all contents are pruned. -/
theorem Fresh.pruned_of_compile (hd : d.Fresh) (hp : d.grammar.Has start) (h : d.compile start options = .ok schema) :
    (schema.grammar.tree schema.start).Pruned ∧
      ∀ e, (schema.grammar.tree (schema.grammar.element e).content).Pruned := by
  have hc := compile_eq_ok_iff.1 h
  obtain ⟨-, hr⟩ := resolved_of_expand hd.sound hp (Prod.ext hc.expand rfl)
  rw [← hc.grammar]
  exact hr.pruned hd.canonical_trees hd.sound (hd.canonical_trees start hp)

/-- A schema that was compiled with content tracking from a draft without expansions has a content model, which tells
for every element that is reached the alphabet of its content and for the start the elements in its words; what operands
of letters mean does not matter. -/
theorem Fresh.contentModel_exact (hd : d.Fresh) (hp : d.grammar.Has start) (h : d.compile start options = .ok schema)
    (ht : options.trackContent = true) (nothing : X) (sense : Tree → X) (refs : DefinitionId → Language (Letter X)) :
    ∃ model, schema.contentModel = some model ∧
      (∀ q e, schema.grammar.Reaches schema.start q → schema.grammar.pattern q = .element e →
        ∃ m, model.element? e = some m ∧
          m.Exact ((schema.grammar.tree (schema.grammar.element e).content).language nothing sense refs)) ∧
      (∀ e, e ∈ model.start ↔
        .element e ∈ alphabet ((schema.grammar.tree schema.start).language nothing sense refs)) ∧
      model.start.Nodup := by
  have hclosed := hd.closed_of_compile hp h
  obtain ⟨hstart, hcontents⟩ := hd.pruned_of_compile hp h
  refine ⟨_, (compile_eq_ok_iff.1 h).contentModel.trans (if_pos ht), fun q e hq hqe => ?_, fun e => ?_, nodup_firsts _⟩
  · have hreach := (hclosed.sound.mem_reachableElements_iff hclosed.has).2 ⟨q, hq, hqe⟩
    exact ⟨_, Grammar.element?_contentModel hreach,
      (hclosed.content hreach).elementModel_exact (hcontents e) nothing sense refs⟩
  · exact hclosed.mem_topElements_iff_alphabet hstart

/-- The statement where an element has an attribute and holds an element, which holds text: the outer one alone may be
the outermost, and text stands only in the inner one. -/
theorem Fresh.contentModel_exact_enclosing :
    enclosing.Fresh ∧ enclosing.grammar.Has ⟨7⟩ ∧ enclosing.compile ⟨7⟩ { checkIdentity := false } = .ok enclosed ∧
      ∃ model, enclosed.contentModel = some model ∧ (∀ e, e ∈ model.start ↔ e = ⟨1⟩) ∧
        (∃ m, model.element? ⟨1⟩ = some m ∧ (∀ e, e ∈ m.children ↔ e = ⟨0⟩) ∧
          (∀ names, names ∈ m.attributes ↔ names = .plain "a") ∧ m.allowsText = false) ∧
        ∃ m, model.element? ⟨0⟩ = some m ∧ m.children = [] ∧ m.allowsText = true := by
  obtain ⟨model, hmodel, helements, hstart, -⟩ :=
    Fresh.contentModel_exact enclosing_fresh enclosing_has enclosing_compile rfl () (fun _ => ()) 0
  obtain ⟨htree, houter, hinner⟩ := enclosed_trees
  obtain ⟨m, hm, hexact⟩ := helements enclosed.start ⟨1⟩ .refl rfl
  have hreaches : enclosed.grammar.Reaches enclosed.start ⟨4⟩ :=
    .tail (.single (show ⟨6⟩ ∈ enclosed.grammar.successors ⟨7⟩ by decide)) (by decide)
  obtain ⟨m', hm', hexact'⟩ := helements ⟨4⟩ ⟨0⟩ hreaches rfl
  rw [htree] at hstart
  rw [hinner] at hexact'
  have hletters (a : Letter Unit) : a ∈ alphabet (Tree.language () (fun _ => ()) 0
      (enclosed.grammar.tree (enclosed.grammar.element ⟨1⟩).content)) ↔
        a = .attr (.plain "a") .none () ∨ a = .element ⟨0⟩ := by
    constructor
    · intro h
      rw [houter] at h
      rcases mem_alphabet_mul h with h | h
      · exact .inl (eq_of_mem_alphabet_wordIf h).symm
      · exact .inr (eq_of_mem_alphabet_word h).symm
    · rintro (rfl | rfl) <;> exact mem_alphabet (enclosed_word () (fun _ => ()) 0) (by simp)
  have htext : Letter.text ∈ alphabet (Tree.language () (fun _ => ()) 0 .text) :=
    ⟨[.text], Language.mem_kstar.2 ⟨[[.text]], rfl, fun _ hu => List.mem_singleton.1 hu⟩, List.mem_singleton_self _⟩
  refine ⟨enclosing_fresh, enclosing_has, enclosing_compile, model, hmodel, fun e => ?_,
    ⟨m, hm, fun e => ?_, fun names => ?_, ?_⟩, m', hm', ?_, hexact'.allowsText_iff.2 ⟨_, htext, rfl⟩⟩
  · rw [hstart]
    constructor
    · intro h
      cases eq_of_mem_alphabet_word h
      rfl
    · rintro rfl
      exact mem_alphabet rfl (List.mem_singleton_self _)
  · simp [hexact.mem_children_iff, hletters]
  · simp [hexact.mem_attributes_iff, hletters]
  · rw [← Bool.not_eq_true, hexact.allowsText_iff]
    rintro ⟨a, ha, htext⟩
    rcases (hletters a).1 ha with rfl | rfl <;> cases htext
  · refine List.eq_nil_iff_forall_not_mem.2 fun e he => ?_
    cases eq_of_mem_alphabet_word (mem_alphabet_kstar ((hexact'.mem_children_iff e).1 he))

end Draft

end RelaxNg
