import RelaxNg.Proofs.Draft.Making
import RelaxNg.Proofs.Expansion.Expands

/-!
# Progress of an expansion

What a walk that expands a tree may do to a draft (`Draft.Advance`): patterns are added, elements are marked, and the
content of an element that it marks may be replaced by what that content expands to. `Draft.Walked` adds that only
elements are marked which the tree leads to through elements that were not marked before (`Draft.Enters`), and that only
parts of what the trees on the way expand to are stored (`Draft.Yields`). A walk ends in `Draft.Resolved` or in
`Draft.Refused`. In the first case everything that it entered is completed and all that it yields is stored; in the
second case either nothing but the tree itself is to blame, and what was entered is completed, too, or an element was
entered whose content does not expand.
-/

namespace RelaxNg.Draft

open Relation Tree

variable {d d' d₁ d₂ : Draft} {p : PatternId} {e e' : ElementId} {s t u : Tree}

/-- The trees of the bodies of definitions. -/
def bodies (d : Draft) (f : DefinitionId) : Option Tree := (d.grammar.body? f).map d.grammar.tree

/-- The trees of the contents of elements. -/
def contents (d : Draft) (e : ElementId) : Tree := d.grammar.tree (d.grammar.element e).content

/-! ## Elements that a walk enters -/

/-- A walk from a tree enters an element: the tree leads there through elements that are not marked. -/
inductive Enters (d : Draft) (t : Tree) : ElementId → Prop
  | here {e : ElementId} (hs : t.Spans d.bodies (.element e)) (hm : e ∉ d.expanded) : Enters d t e
  | inner {e e' : ElementId} (h : Enters d t e) (hs : (d.contents e).Spans d.bodies (.element e'))
      (hm : e' ∉ d.expanded) : Enters d t e'

theorem Enters.not_mem (h : d.Enters t e) : e ∉ d.expanded := by
  cases h <;> assumption

theorem not_enters_of_spans (hs : ∀ e, t.Spans d.bodies (.element e) → e ∈ d.expanded) : ¬ d.Enters t e := by
  intro h
  induction h with
  | here hspans hm => exact hm (hs _ hspans)
  | inner _ _ _ ih => exact ih

theorem Enters.of_spans (h : d.Enters s e) (hs : t.Spans d.bodies s) : d.Enters t e := by
  induction h with
  | here hs' hm => exact .here (hs.trans hs') hm
  | inner _ hs' hm ih => exact .inner ih hs' hm

theorem Enters.trans (h : d.Enters t e) (h' : d.Enters (d.contents e) e') : d.Enters t e' := by
  induction h' with
  | here hs hm => exact .inner h hs hm
  | inner _ hs hm ih => exact .inner ih hs hm

theorem Enters.cases_head (h : d.Enters t e) (ht : ∀ e, t ≠ .element e) :
    ∃ s, Down d.bodies t s ∧ d.Enters s e := by
  induction h with
  | here hs hm =>
    rcases hs.cases_head with rfl | ⟨s, hts, hs⟩
    · exact absurd rfl (ht _)
    · exact ⟨s, hts, .here hs hm⟩
  | inner _ hs hm ih =>
    obtain ⟨s, hts, he⟩ := ih
    exact ⟨s, hts, .inner he hs hm⟩

/-! ## Trees that a walk leads to -/

/-- A walk from a tree yields another: what the tree leads to, in itself or in the content of an element that the walk
enters, expands to it. -/
inductive Yields (d : Draft) (t : Tree) : Tree → Prop
  | here {s u : Tree} (hs : t.Spans d.bodies s) (hx : Expands d.bodies s u) : Yields d t u
  | inner {e : ElementId} {s u : Tree} (he : d.Enters t e) (hs : (d.contents e).Spans d.bodies s)
      (hx : Expands d.bodies s u) : Yields d t u

theorem Yields.of_spans (h : d.Yields s u) (hs : t.Spans d.bodies s) : d.Yields t u := by
  cases h with
  | here hs' hx => exact .here (hs.trans hs') hx
  | inner he hs' hx => exact .inner (he.of_spans hs) hs' hx

theorem Yields.of_enters (h : d.Yields (d.contents e) u) (he : d.Enters t e) : d.Yields t u := by
  cases h with
  | here hs hx => exact .inner he hs hx
  | inner he' hs hx => exact .inner (he.trans he') hs hx

theorem Yields.cases_head (h : d.Yields t u) (ht : ∀ e, t ≠ .element e) :
    Expands d.bodies t u ∨ ∃ s, Down d.bodies t s ∧ d.Yields s u := by
  cases h with
  | here hs hx =>
    rcases hs.cases_head with rfl | ⟨s, hts, hs⟩
    · exact .inl hx
    · exact .inr ⟨s, hts, .here hs hx⟩
  | inner he hs hx =>
    obtain ⟨s, hts, he⟩ := he.cases_head ht
    exact .inr ⟨s, hts, .inner he hs hx⟩

/-- A tree is that of a stored pattern. -/
def Stores (d : Draft) (t : Tree) : Prop := ∃ q, d.grammar.Has q ∧ d.grammar.tree q = t

theorem Stores.of_grows (h : d.Stores t) (hg : d.grammar.Grows d'.grammar) : d'.Stores t := by
  obtain ⟨q, hq, rfl⟩ := h
  exact ⟨q, hg.has hq, hg.tree_eq hq⟩

theorem Stores.of_part (hd : d.Sound) (h : d.Stores t) (hs : Part s t) : d.Stores s := by
  induction hs with
  | refl => exact h
  | operand ho _ ih =>
    obtain ⟨q, hq, rfl⟩ := h
    rw [hd.grammar.operands_tree] at ho
    obtain ⟨r, hr, rfl⟩ := List.mem_map.1 ho
    exact ih ⟨r, hd.grammar.operand_has hq hr, rfl⟩

/-! ## What a walk does to a draft -/

/-- A draft is left behind by a walk: it grew, elements were marked, and contents of elements that were marked on the
way may be expanded. -/
structure Advance (d d' : Draft) : Prop where
  sound : d'.Sound
  grows : d.grammar.Grows d'.grammar
  definitions_eq : d'.grammar.definitions = d.grammar.definitions
  size_eq : d'.grammar.elements.size = d.grammar.elements.size
  names_eq : ∀ e, (d'.grammar.element e).names = (d.grammar.element e).names
  marks : ∀ e ∈ d.expanded, e ∈ d'.expanded
  kept : ∀ e, d'.contents e = d.contents e ∨
    e ∉ d.expanded ∧ e ∈ d'.expanded ∧ Expands d.bodies (d.contents e) (d'.contents e)

theorem Advance.refl (hd : d.Sound) : d.Advance d :=
  ⟨hd, .refl _, rfl, rfl, fun _ => rfl, fun _ => id, fun _ => .inl rfl⟩

theorem bodies_eq_of_grows (hd : d.Sound) (hg : d.grammar.Grows d'.grammar)
    (hf : d'.grammar.definitions = d.grammar.definitions) : d'.bodies = d.bodies := by
  funext f
  have hb : d'.grammar.body? f = d.grammar.body? f := by simp [Grammar.body?, Grammar.definition, hf]
  rw [bodies, bodies, hb]
  cases h : d.grammar.body? f with
  | none => rfl
  | some b => exact congrArg some (hg.tree_eq (hd.grammar.body_has f b h))

theorem Advance.bodies_eq (hd : d.Sound) (h : d.Advance d') : d'.bodies = d.bodies :=
  bodies_eq_of_grows hd h.grows h.definitions_eq

theorem Advance.definition_eq (h : d.Advance d') (f : DefinitionId) :
    d'.grammar.definition f = d.grammar.definition f := by
  simp [Grammar.definition, h.definitions_eq]

/-- The content of an element that was marked before or is not marked yet is left alone. -/
theorem Advance.contents_eq (h : d.Advance d') (he : e ∈ d.expanded ∨ e ∉ d'.expanded) :
    d'.contents e = d.contents e := by
  rcases h.kept e with hk | ⟨hm, hm', -⟩
  · exact hk
  · exact he.elim (absurd · hm) (absurd hm')

theorem Advance.trans (hd : d.Sound) (h : d.Advance d₁) (h' : d₁.Advance d₂) : d.Advance d₂ where
  sound := h'.sound
  grows := h.grows.trans h'.grows
  definitions_eq := h'.definitions_eq.trans h.definitions_eq
  size_eq := h'.size_eq.trans h.size_eq
  names_eq e := (h'.names_eq e).trans (h.names_eq e)
  marks e he := h'.marks e (h.marks e he)
  kept e := by
    have hb := h.bodies_eq hd
    rcases h'.kept e with hk | ⟨hm, hm', hx⟩
    · rw [hk]
      exact (h.kept e).imp_right fun ⟨hm, hm', hx⟩ => ⟨hm, h'.marks e hm', hx⟩
    · rw [hb, h.contents_eq (.inr hm)] at hx
      exact .inr ⟨fun hmem => hm (h.marks e hmem), hm', hx⟩

theorem Made.advance (hd : d.Sound) {r : PatternId × Draft} (h : d.Made t r) : d.Advance r.2 where
  sound := h.sound
  grows := h.grows
  definitions_eq := h.definitions_eq
  size_eq := by rw [h.elements_eq]
  names_eq e := by simp [Grammar.element, h.elements_eq]
  marks _ he := by rwa [h.expanded_eq]
  kept e := by
    have hel : r.2.grammar.element e = d.grammar.element e := by simp [Grammar.element, h.elements_eq]
    rw [contents, contents, hel]
    exact .inl (h.grows.tree_eq (hd.has_content e))

def mark (d : Draft) (e : ElementId) : Draft := { d with expanded := d.expanded.insert e }

theorem advance_mark (hd : d.Sound) (e : ElementId) : d.Advance (d.mark e) where
  sound := ⟨⟨hd.grammar, hd.table⟩, hd.three_le, hd.pattern_empty, hd.pattern_notAllowed, hd.pattern_text⟩
  grows := .refl _
  definitions_eq := rfl
  size_eq := rfl
  names_eq _ := rfl
  marks _ he := Std.HashSet.mem_insert.2 (.inr he)
  kept _ := .inl rfl

theorem Enters.of_advance (hd : d.Sound) (ha : d.Advance d₁) (h : d₁.Enters t e) : d.Enters t e := by
  have hb := ha.bodies_eq hd
  induction h with
  | here hs hm => exact .here (hb ▸ hs) fun hmem => hm (ha.marks _ hmem)
  | inner h hs hm ih =>
    rw [hb, ha.contents_eq (.inr h.not_mem)] at hs
    exact .inner ih hs fun hmem => hm (ha.marks _ hmem)

/-- What a walk enters, it enters with more marks, too, or by way of an element with one of these. -/
theorem enters_or_exists (hd : d.Sound) (ha : d.Advance d₁) (h : d.Enters t e) :
    d₁.Enters t e ∨ ∃ m ∈ d₁.expanded, m ∉ d.expanded ∧ (e = m ∨ d.Enters (d.contents m) e) := by
  have hb := ha.bodies_eq hd
  induction h with
  | @here e hs hm =>
    by_cases he : e ∈ d₁.expanded
    · exact .inr ⟨e, he, hm, .inl rfl⟩
    · exact .inl (.here (hb ▸ hs) he)
  | @inner e e' _ hs hm ih =>
    by_cases he : e' ∈ d₁.expanded
    · exact .inr ⟨e', he, hm, .inl rfl⟩
    rcases ih with h | ⟨m, hm₁, hmn, rfl | h⟩
    · refine .inl (.inner h ?_ he)
      rwa [hb, ha.contents_eq (.inr h.not_mem)]
    · exact .inr ⟨e, hm₁, hmn, .inr (.here hs hm)⟩
    · exact .inr ⟨m, hm₁, hmn, .inr (.inner h hs hm)⟩

theorem Yields.of_advance (hd : d.Sound) (ha : d.Advance d₁) (h : d₁.Yields t u) : d.Yields t u := by
  have hb := ha.bodies_eq hd
  cases h with
  | here hs hx => exact .here (hb ▸ hs) (hb ▸ hx)
  | inner he hs hx =>
    rw [hb, ha.contents_eq (.inr he.not_mem)] at hs
    exact .inner (he.of_advance hd ha) hs (hb ▸ hx)

theorem yields_or_exists (hd : d.Sound) (ha : d.Advance d₁) (h : d.Yields t u) :
    d₁.Yields t u ∨ ∃ m ∈ d₁.expanded, m ∉ d.expanded ∧ d.Yields (d.contents m) u := by
  have hb := ha.bodies_eq hd
  cases h with
  | here hs hx => exact .inl (.here (hb.symm ▸ hs) (hb.symm ▸ hx))
  | inner he hs hx =>
    rcases enters_or_exists hd ha he with he | ⟨m, hm, hn, rfl | he⟩
    · refine .inl (.inner he ?_ (hb.symm ▸ hx))
      rwa [hb, ha.contents_eq (.inr he.not_mem)]
    · exact .inr ⟨_, hm, hn, .here hs hx⟩
    · exact .inr ⟨m, hm, hn, .inner he hs hx⟩

theorem Enters.of_element (h : d.Enters (.element e) e') : e' = e ∨ (d.mark e).Enters (d.contents e) e' := by
  induction h with
  | here hs _ =>
    cases hs.eq_element
    exact .inl rfl
  | @inner _ e' _ hs hm ih =>
    by_cases heq : e' = e
    · exact .inl heq
    have hm' : e' ∉ (d.mark e).expanded := fun h =>
      (Std.HashSet.mem_insert.1 h).elim (fun h => heq (eq_of_beq h).symm) hm
    rcases ih with rfl | he
    · exact .inr (.here hs hm')
    · exact .inr (.inner he hs hm')

theorem Yields.of_element (h : d.Yields (.element e) u) : u = .element e ∨ (d.mark e).Yields (d.contents e) u := by
  cases h with
  | here hs hx =>
    cases hs.eq_element
    exact .inl (hx.unique (.of_leaf (by simp) rfl))
  | inner he hs hx =>
    rcases he.of_element with rfl | he
    · exact .inr (.here hs hx)
    · exact .inr (.inner he hs hx)

/-- The elements that were marked on the way have contents that are expanded and lead to marked elements only. -/
def Completed (d d' : Draft) : Prop :=
  ∀ e ∈ d'.expanded, e ∉ d.expanded → Expands d.bodies (d.contents e) (d'.contents e) ∧
    ∀ e', (d.contents e).Spans d.bodies (.element e') → e' ∈ d'.expanded

theorem completed_of_marks_eq (h : d'.expanded = d.expanded) : d.Completed d' :=
  fun _ he hn => absurd (h ▸ he) hn

theorem Completed.trans (hd : d.Sound) (ha : d.Advance d₁) (h : d.Completed d₁) (ha' : d₁.Advance d₂)
    (h' : d₁.Completed d₂) : d.Completed d₂ := by
  intro e he hn
  by_cases h₁ : e ∈ d₁.expanded
  · obtain ⟨hx, hc⟩ := h e h₁ hn
    rw [ha'.contents_eq (.inl h₁)]
    exact ⟨hx, fun e' hs => ha'.marks e' (hc e' hs)⟩
  · have hb := ha.bodies_eq hd
    have hc := h' e he h₁
    rwa [hb, ha.contents_eq (.inr h₁)] at hc

/-- A walk from a tree has left a draft: what it marked is what it entered, and what it stored is part of what it
yields. -/
structure Walked (d : Draft) (t : Tree) (d' : Draft) : Prop extends Advance d d' where
  entered : ∀ e ∈ d'.expanded, e ∉ d.expanded → d.Enters t e
  stored : ∀ q, d'.grammar.Has q → ¬ d.grammar.Has q → ∃ u, d.Yields t u ∧ Part (d'.grammar.tree q) u

theorem Walked.refl (hd : d.Sound) (t : Tree) : d.Walked t d :=
  ⟨.refl hd, fun _ he hn => absurd he hn, fun _ hq hn => absurd hq hn⟩

theorem Walked.of_spans (h : d.Walked s d') (hs : t.Spans d.bodies s) : d.Walked t d' where
  toAdvance := h.toAdvance
  entered e he hn := (h.entered e he hn).of_spans hs
  stored q hq hn := (h.stored q hq hn).imp fun _ hu => ⟨hu.1.of_spans hs, hu.2⟩

theorem Walked.trans (hd : d.Sound) (h : d.Walked t d₁) (h' : d₁.Walked t d₂) : d.Walked t d₂ where
  toAdvance := h.toAdvance.trans hd h'.toAdvance
  entered e he hn := by
    by_cases h₁ : e ∈ d₁.expanded
    · exact h.entered e h₁ hn
    · exact (h'.entered e he h₁).of_advance hd h.toAdvance
  stored q hq hn := by
    by_cases h₁ : d₁.grammar.Has q
    · rw [h'.grows.tree_eq h₁]
      exact h.stored q h₁ hn
    · exact (h'.stored q hq h₁).imp fun _ hu => ⟨hu.1.of_advance hd h.toAdvance, hu.2⟩

theorem Made.walked (hd : d.Sound) {r : PatternId × Draft} (h : d.Made u r) (hx : Expands d.bodies t u) :
    d.Walked t r.2 where
  toAdvance := h.advance hd
  entered _ he hn := absurd (h.expanded_eq ▸ he) hn
  stored q hq hn := ⟨u, .here .refl hx, h.part q hq hn⟩

/-! ## How a walk ends -/

/-- A walk from a tree came to its end: the tree became another, everything entered is completed, and everything that
the walk yields is stored. -/
structure Resolved (d : Draft) (t : Tree) (d' : Draft) (u : Tree) : Prop extends Walked d t d' where
  expands : Expands d.bodies t u
  met : ∀ e, t.Spans d.bodies (.element e) → e ∈ d'.expanded
  completed : d.Completed d'
  yielded : ∀ v, d.Yields t v → d'.Stores v

/-- A walk that has nothing to enter and nothing to store leaves the draft as it is. -/
theorem Resolved.of_met (hd : d.Sound) (hx : Expands d.bodies t u)
    (hmet : ∀ e, t.Spans d.bodies (.element e) → e ∈ d.expanded)
    (hstored : ∀ s v, t.Spans d.bodies s → Expands d.bodies s v → d.Stores v) : d.Resolved t d u where
  toWalked := .refl hd t
  expands := hx
  met := hmet
  completed := completed_of_marks_eq rfl
  yielded v hv := by
    cases hv with
    | here hs hx => exact hstored _ v hs hx
    | inner he => exact absurd he (not_enters_of_spans hmet)

theorem Resolved.mem_of_enters (h : d.Resolved t d' u) (he : d.Enters t e) : e ∈ d'.expanded := by
  induction he with
  | here hs _ => exact h.met _ hs
  | inner he hs _ ih => exact (h.completed _ ih he.not_mem).2 _ hs

/-- An error names a definition without a body or one that leads back to itself, to which a tree leads. -/
inductive Blames (d : Draft) (t : Tree) : Error → Prop
  | undefined {f : DefinitionId} (loc : Option Location) (hs : t.Spans d.bodies (.ref f)) (hf : d.bodies f = none) :
      Blames d t (.undefinedReference (d.grammar.definition f).name loc)
  | recursive {f : DefinitionId} (loc : Option Location) (hs : t.Spans d.bodies (.ref f))
      (hc : TransGen (Down d.bodies) (.ref f) (.ref f)) :
      Blames d t (.recursion (.recursiveReference (d.grammar.definition f).name loc))

/-- A walk from a tree failed. Either the tree itself is to blame, and everything entered is completed, or the content of
an element that was entered is. -/
structure Refused (d : Draft) (t : Tree) (d' : Draft) (error : Error) : Prop extends Walked d t d' where
  blamed : d.Blames t error ∧ d.Completed d' ∨ ∃ e ∈ d'.expanded, e ∉ d.expanded ∧ d.Blames (d.contents e) error

variable {error : Error}

theorem Blames.not_expandable (h : d.Blames t error) : ¬ Expandable d.bodies t := by
  cases h with
  | undefined _ hs hf => exact fun ht => not_expandable_of_undefined hf (ht.spans hs)
  | recursive _ hs hc => exact fun ht => not_expandable_of_cycle hc (ht.spans hs)

theorem Blames.of_spans (h : d.Blames s error) (hs : t.Spans d.bodies s) : d.Blames t error := by
  cases h with
  | undefined loc hs' hf => exact .undefined loc (hs.trans hs') hf
  | recursive loc hs' hc => exact .recursive loc (hs.trans hs') hc

theorem Blames.of_advance (hd : d.Sound) (ha : d.Advance d₁) (h : d₁.Blames t error) : d.Blames t error := by
  have hb := ha.bodies_eq hd
  cases h with
  | undefined loc hs hf =>
    rw [hb] at hs hf
    rw [ha.definition_eq]
    exact .undefined loc hs hf
  | recursive loc hs hc =>
    rw [hb] at hs hc
    rw [ha.definition_eq]
    exact .recursive loc hs hc

theorem Refused.of_spans (h : d.Refused s d' error) (hs : t.Spans d.bodies s) : d.Refused t d' error :=
  ⟨h.toWalked.of_spans hs, h.blamed.imp_left fun ⟨hb, hc⟩ => ⟨hb.of_spans hs, hc⟩⟩

/-- A walk that fails after another one from the same tree came to its end. -/
theorem Refused.after (hd : d.Sound) (hw : d.Walked t d₁) (hc : d.Completed d₁) (h : d₁.Refused t d₂ error) :
    d.Refused t d₂ error := by
  refine ⟨hw.trans hd h.toWalked, ?_⟩
  rcases h.blamed with ⟨hb, hc'⟩ | ⟨e, he, hn, hb⟩
  · exact .inl ⟨hb.of_advance hd hw.toAdvance, hc.trans hd hw.toAdvance h.toAdvance hc'⟩
  · rw [hw.contents_eq (.inr hn)] at hb
    exact .inr ⟨e, he, fun hmem => hn (hw.marks e hmem), hb.of_advance hd hw.toAdvance⟩

/-! ## Contents -/

theorem element_setContent (d : Draft) (e e' : ElementId) (q : PatternId) (he : e.index < d.grammar.elements.size) :
    (d.setContent e q).grammar.element e' =
      if e' = e then { d.grammar.element e with content := q } else d.grammar.element e' := by
  have hi : e.index = e'.index ↔ e' = e := ⟨fun h => by cases e; cases e'; simp_all, fun h => h ▸ rfl⟩
  simp only [Grammar.element, setContent, Array.getD_eq_getD_getElem?, Array.getElem?_modify, hi]
  split
  · next h =>
    subst h
    simp [he]
  · rfl

theorem tree_setContent (d : Draft) (e : ElementId) (q : PatternId) :
    (d.setContent e q).grammar.tree = d.grammar.tree :=
  Grammar.tree_eq_of_nodes_eq rfl

theorem bodies_setContent (d : Draft) (e : ElementId) (q : PatternId) : (d.setContent e q).bodies = d.bodies := by
  funext f
  rw [bodies, bodies, tree_setContent]
  rfl

theorem contents_setContent_self {q : PatternId} (he : e.index < d.grammar.elements.size) :
    (d.setContent e q).contents e = d.grammar.tree q := by
  rw [contents, tree_setContent, element_setContent d e e q he, if_pos rfl]

theorem contents_setContent_of_ne {q : PatternId} (he : e.index < d.grammar.elements.size) (hne : e' ≠ e) :
    (d.setContent e q).contents e' = d.contents e' := by
  rw [contents, tree_setContent, element_setContent d e e' q he, if_neg hne, contents]

theorem Sound.setContent {q : PatternId} (hd : d.Sound) (hq : d.grammar.Has q) : (d.setContent e q).Sound := by
  refine hd.withParts (by simp) le_rfl (fun el hel => ?_) fun _ => hd.body_of_mem
  obtain ⟨i, hi, rfl⟩ := Array.mem_iff_getElem.1 hel
  rw [Array.getElem_modify]
  split
  · exact hq
  · exact hd.content_of_mem (Array.getElem_mem _)

/-- A walk from the content of an element that was just marked is a walk from the element. -/
theorem Walked.of_mark (hd : d.Sound) (hm : e ∉ d.expanded) (h : (d.mark e).Walked (d.contents e) d') :
    d.Walked (.element e) d' := by
  have ha := advance_mark hd e
  have hself : d.Enters (.element e) e := .here .refl hm
  refine ⟨ha.trans hd h.toAdvance, fun e' he hn => ?_, fun q hq hn => ?_⟩
  · by_cases hee : e' ∈ (d.mark e).expanded
    · rcases Std.HashSet.mem_insert.1 hee with heq | hmem
      · cases eq_of_beq heq
        exact hself
      · exact absurd hmem hn
    · exact hself.trans ((h.entered e' he hee).of_advance hd ha)
  · exact (h.stored q hq hn).imp fun _ hu => ⟨(hu.1.of_advance hd ha).of_enters hself, hu.2⟩

theorem Refused.of_mark (hd : d.Sound) (hm : e ∉ d.expanded) (h : (d.mark e).Refused (d.contents e) d' error) :
    d.Refused (.element e) d' error := by
  have ha := advance_mark hd e
  refine ⟨h.toWalked.of_mark hd hm, ?_⟩
  rcases h.blamed with ⟨hb, -⟩ | ⟨e', he, hn, hb⟩
  · exact .inr ⟨e, h.marks e (by simp [mark]), hm, hb.of_advance hd ha⟩
  · exact .inr ⟨e', he, fun hmem => hn (ha.marks e' hmem), hb.of_advance hd ha⟩

/-- The content of an element that was just marked is replaced by what it became. -/
theorem Resolved.setContent {q : PatternId} (hd : d.Sound) (he : e.index < d.grammar.elements.size)
    (hs : d.Stores (.element e)) (hm : e ∉ d.expanded) (hq : d'.grammar.Has q)
    (h : (d.mark e).Resolved (d.contents e) d' (d'.grammar.tree q)) :
    d.Resolved (.element e) (d'.setContent e q) (.element e) := by
  have hw := h.toWalked.of_mark hd hm
  have he' : e.index < d'.grammar.elements.size := hw.size_eq ▸ he
  have hself : Expands d.bodies (d.contents e) ((d'.setContent e q).contents e) := by
    rw [contents_setContent_self he']
    exact h.expands
  have hmark : e ∈ d'.expanded := h.marks e (by simp [mark])
  refine ⟨⟨⟨hw.sound.setContent hq, hw.grows.trans (.of_nodes_eq rfl), hw.definitions_eq, ?_, fun e' => ?_, hw.marks,
    fun e' => ?_⟩, hw.entered, fun r hr hn => ?_⟩, ?_, fun e' hs => ?_, fun e' hmem hn => ?_, fun u hu => ?_⟩
  · simpa [Draft.setContent] using hw.size_eq
  · rw [element_setContent d' e e' q he']
    split
    · next heq => rw [heq, hw.names_eq]
    · exact hw.names_eq e'
  · by_cases hee : e' = e
    · subst hee
      exact .inr ⟨hm, hmark, hself⟩
    · rw [contents_setContent_of_ne he' hee]
      exact hw.kept e'
  · rw [tree_setContent]
    exact hw.stored r hr hn
  · exact .of_leaf (by simp) rfl
  · cases hs.eq_element
    exact hmark
  · by_cases hee : e' = e
    · subst hee
      exact ⟨hself, fun e' => h.met e'⟩
    · have hne : e' ∉ (d.mark e).expanded := fun hmem =>
        (Std.HashSet.mem_insert.1 hmem).elim (fun heq => hee (eq_of_beq heq).symm) hn
      rw [contents_setContent_of_ne he' hee]
      exact h.completed e' hmem hne
  · have hstores : d'.Stores u := by
      rcases hu.of_element with rfl | hu
      · exact hs.of_grows hw.grows
      · exact h.yielded u hu
    exact hstores.of_grows (.of_nodes_eq rfl)

end RelaxNg.Draft
