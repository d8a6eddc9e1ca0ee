import RelaxNg.Proofs.Draft.Reach

/-!
# Expanding again after a failure

A draft on which an expansion failed is compared with a copy on which it was not attempted, after the same definitions
were given bodies in both (`Draft.defineAll`). If the copy expands the pattern, so does the other draft
(`exists_expand_of_copy`). The converse holds exactly if the copy also expands the contents of the elements that the
failed expansion marked (`exists_copy_iff`), and the outcomes have the same structure exactly if no reference is left in
the contents of the elements that are held (`sameStructure_iff`).
-/

namespace RelaxNg.Draft

open Relation Tree

variable {d d₁ : Draft} {p q q₁ : PatternId} {e e' : ElementId} {s t u : Tree} {name : String} {b : PatternId}

/-! ## Giving bodies to definitions -/

/-- Gives definitions their bodies, one after the other. -/
def defineAll (d : Draft) (ds : List (String × PatternId)) : Draft :=
  ds.foldl (fun d x => d.after (.define x.1 x.2)) d

theorem exists_after_define_eq (d : Draft) (name : String) (b : PatternId) :
    ∃ definitions : Array Definition, d.after (.define name b) = { d with grammar.definitions := definitions } := by
  rw [after]
  cases h : d.define name b with
  | ok defined =>
    obtain ⟨definitions, rfl, -⟩ := exists_define_eq h
    exact ⟨definitions, rfl⟩
  | error => exact ⟨d.grammar.definitions, rfl⟩

theorem nodes_define : (d.after (.define name b)).grammar.nodes = d.grammar.nodes := by
  obtain ⟨definitions, h⟩ := d.exists_after_define_eq name b
  rw [h]

theorem elements_define : (d.after (.define name b)).grammar.elements = d.grammar.elements := by
  obtain ⟨definitions, h⟩ := d.exists_after_define_eq name b
  rw [h]

theorem expanded_define : (d.after (.define name b)).expanded = d.expanded := by
  obtain ⟨definitions, h⟩ := d.exists_after_define_eq name b
  rw [h]

theorem tree_define : (d.after (.define name b)).grammar.tree = d.grammar.tree :=
  Grammar.tree_eq_of_nodes_eq nodes_define

theorem element_define : (d.after (.define name b)).grammar.element e = d.grammar.element e := by
  rw [Grammar.element, elements_define, Grammar.element]

theorem contents_define : (d.after (.define name b)).contents = d.contents := by
  funext e
  rw [contents, contents, tree_define, element_define]

theorem has_define : (d.after (.define name b)).grammar.Has p ↔ d.grammar.Has p := by
  rw [Grammar.Has, Grammar.Has, nodes_define]

/-- Drafts with the same definitions define alike. -/
theorem definitions_define_congr (h : d₁.grammar.definitions = d.grammar.definitions) :
    (d₁.after (.define name b)).grammar.definitions = (d.after (.define name b)).grammar.definitions := by
  have hname : d₁.grammar.definition? name = d.grammar.definition? name := by
    rw [Grammar.definition?, h, Grammar.definition?]
  have hbody (f) : d₁.grammar.body? f = d.grammar.body? f := by
    rw [Grammar.body?, Grammar.definition, h, Grammar.body?, Grammar.definition]
  simp only [after, define, hname, hbody]
  cases d.grammar.definition? name with
  | none => simp [h]
  | some f => cases hb : d.grammar.body? f <;> simp [h, hb]

theorem body_of_define {d' : Draft} {f : DefinitionId} {b' : PatternId} (h : d.define name b = .ok d')
    (hb : d.grammar.body? f = some b') : d'.grammar.body? f = some b' := by
  have hlt : f.index < d.grammar.definitions.size := by
    by_contra hlt
    simp [Grammar.body?, Grammar.definition, Array.getD, hlt, Grammar.missingDefinition] at hb
  unfold Draft.define at h
  split at h
  · next f' _ =>
    split at h
    · cases h
    · next hf' =>
      cases h
      have hne : f'.index ≠ f.index := by
        intro hi
        have hff : f' = f := by cases f'; cases f; simp_all
        rw [hff, hb] at hf'
        cases hf'
      simp only [Grammar.body?, Grammar.definition, Array.getD_eq_getD_getElem?] at hb ⊢
      rwa [Array.getElem?_modify, if_neg hne]
  · cases h
    simp only [Grammar.body?, Grammar.definition, Array.getD_eq_getD_getElem?] at hb ⊢
    rwa [Array.getElem?_push_lt hlt, ← Array.getElem?_eq_getElem hlt]

theorem bodies_define (f : DefinitionId) (t : Tree) (h : d.bodies f = some t) :
    (d.after (.define name b)).bodies f = some t := by
  unfold bodies at h ⊢
  rw [tree_define]
  obtain ⟨b', hb', rfl⟩ := Option.map_eq_some_iff.1 h
  rw [Option.map_eq_some_iff]
  refine ⟨b', ?_, rfl⟩
  rw [after]
  cases hdef : d.define name b with
  | ok defined => exact body_of_define hdef hb'
  | error => exact hb'

theorem Sound.define (hd : d.Sound) (hb : d.grammar.Has b) : (d.after (.define name b)).Sound :=
  (grows_after hd (by simpa [Call.arguments] using hb)).1

theorem Enters.define (h : d.Enters t e) : (d.after (.define name b)).Enters t e := by
  induction h with
  | here hs hm => exact .here (hs.mono bodies_define) (by rwa [expanded_define])
  | inner _ hs hm ih =>
    exact .inner ih (by rw [contents_define]; exact hs.mono bodies_define) (by rwa [expanded_define])

theorem Yields.define (h : d.Yields t u) : (d.after (.define name b)).Yields t u := by
  cases h with
  | here hs hx => exact .here (hs.mono bodies_define) (hx.mono bodies_define)
  | inner he hs hx =>
    rw [← contents_define] at hs
    exact .inner he.define (hs.mono bodies_define) (hx.mono bodies_define)

theorem Walked.define (h : d.Walked t d₁) (hb : d.grammar.Has b) :
    (d.after (.define name b)).Walked t (d₁.after (.define name b)) := by
  refine ⟨⟨h.sound.define (h.grows.has hb), ?_, definitions_define_congr h.definitions_eq, ?_, fun e => ?_, fun e => ?_,
    fun e => ?_⟩, fun e => ?_, fun q => ?_⟩
  · exact ((Grammar.Grows.of_nodes_eq nodes_define).trans h.grows).trans (.of_nodes_eq nodes_define.symm)
  · rw [elements_define, elements_define, h.size_eq]
  · rw [element_define, element_define]
    exact h.names_eq e
  · rw [expanded_define, expanded_define]
    exact h.marks e
  · rw [expanded_define, expanded_define, contents_define, contents_define]
    exact (h.kept e).imp_right fun ⟨hn, he, hx⟩ => ⟨hn, he, hx.mono bodies_define⟩
  · rw [expanded_define, expanded_define]
    exact fun he hn => (h.entered e he hn).define
  · rw [has_define, has_define, tree_define]
    exact fun hq hn => (h.stored q hq hn).imp fun _ hu => ⟨hu.1.define, hu.2⟩

theorem Completed.define (h : d.Completed d₁) :
    (d.after (.define name b)).Completed (d₁.after (.define name b)) := by
  intro e
  rw [expanded_define, expanded_define, contents_define, contents_define]
  intro he hn
  obtain ⟨hx, hc⟩ := h e he hn
  exact ⟨hx.mono bodies_define, fun e' hs => hc e' ((Expandable.spans_iff bodies_define ⟨_, hx⟩).1 hs)⟩

/-- What two drafts are to each other of which a walk led from one to the other, they are after the same definitions
were given bodies in both. -/
theorem defineAll_spec (hd : d.Sound) (h : d.Walked t d₁) {ds : List (String × PatternId)}
    (hds : ∀ x ∈ ds, d.grammar.Has x.2) :
    (d.defineAll ds).Sound ∧ (d.defineAll ds).Walked t (d₁.defineAll ds) ∧
      (d.Completed d₁ → (d.defineAll ds).Completed (d₁.defineAll ds)) := by
  induction ds generalizing d d₁ with
  | nil => exact ⟨hd, h, id⟩
  | cons x ds ih =>
    simp only [List.forall_mem_cons] at hds
    have hds' (y) (hy : y ∈ ds) : (d.after (.define x.1 x.2)).grammar.Has y.2 := has_define.2 (hds.2 y hy)
    obtain ⟨hs, hw, hc⟩ := ih (hd.define hds.1) (h.define hds.1) hds'
    exact ⟨hs, hw, fun hcomp => hc hcomp.define⟩

variable (ds : List (String × PatternId))

theorem nodes_defineAll : (d.defineAll ds).grammar.nodes = d.grammar.nodes := by
  induction ds generalizing d with
  | nil => rfl
  | cons x ds ih => exact ih.trans nodes_define

theorem elements_defineAll : (d.defineAll ds).grammar.elements = d.grammar.elements := by
  induction ds generalizing d with
  | nil => rfl
  | cons x ds ih => exact ih.trans elements_define

theorem expanded_defineAll : (d.defineAll ds).expanded = d.expanded := by
  induction ds generalizing d with
  | nil => rfl
  | cons x ds ih => exact ih.trans expanded_define

theorem tree_defineAll : (d.defineAll ds).grammar.tree = d.grammar.tree :=
  Grammar.tree_eq_of_nodes_eq (nodes_defineAll ds)

/-! ## Expanding with more marks -/

variable {c c₁ : Draft}

section

variable (hd : d.Sound) (hp : d.grammar.Has p) (hw : d.Walked (d.grammar.tree p) d₁)

include hd hp hw

/-- More marks do not make an expansion fail. -/
theorem exists_expand_of_copy (h : ∃ q c, d.expand p = (.ok q, c)) : ∃ q c, d₁.expand p = (.ok q, c) := by
  obtain ⟨hx, hc⟩ := (expand_ok_iff hd hp).1 h
  refine (expand_ok_iff hw.sound (hw.grows.has hp)).2 ?_
  rw [hw.bodies_eq hd, hw.grows.tree_eq hp]
  refine ⟨hx, fun e he => ?_⟩
  rw [hw.contents_eq (.inr he.not_mem)]
  exact hc e (he.of_advance hd hw.toAdvance)

/-- An expansion that succeeds with more marks succeeds without them exactly if the contents of the elements with these
marks are expanded, too. -/
theorem exists_copy_iff (h₁ : ∃ q c, d₁.expand p = (.ok q, c)) :
    (∃ q c, d.expand p = (.ok q, c)) ↔
      ∀ e ∈ d₁.expanded, e ∉ d.expanded → ∃ q c, d.expand (d.grammar.element e).content = (.ok q, c) := by
  constructor
  · intro h e he hn
    obtain ⟨-, hc⟩ := (expand_ok_iff hd hp).1 h
    have hent := hw.entered e he hn
    exact (expand_ok_iff hd (hd.has_content e)).2 ⟨hc e hent, fun e' he' => hc e' (hent.trans he')⟩
  · intro h
    obtain ⟨hx, hc⟩ := (expand_ok_iff hw.sound (hw.grows.has hp)).1 h₁
    rw [hw.bodies_eq hd, hw.grows.tree_eq hp] at hx
    refine (expand_ok_iff hd hp).2 ⟨hx, fun e he => ?_⟩
    rcases enters_or_exists hd hw.toAdvance he with he₁ | ⟨m, hm, hmn, hme⟩
    · have hce := hc e (by rwa [hw.grows.tree_eq hp])
      rwa [hw.bodies_eq hd, hw.contents_eq (.inr he₁.not_mem)] at hce
    · obtain ⟨hxm, hcm⟩ := (expand_ok_iff hd (hd.has_content m)).1 (h m hm hmn)
      rcases hme with rfl | hme
      · exact hxm
      · exact hcm e hme

end

/-- Patterns of two drafts have the same structure: they have the same tree, and so have the contents of the elements
that they hold. -/
def SameStructure (d : Draft) (p : PatternId) (d' : Draft) (p' : PatternId) : Prop :=
  d.grammar.tree p = d'.grammar.tree p' ∧ ∀ e, d.Holds (d.grammar.tree p) e → d.contents e = d'.contents e

theorem holds_congr (h : t = u) (hc : ∀ e, d.Holds t e → d.contents e = d₁.contents e) (he : d₁.Holds u e) :
    d.Holds t e := by
  subst h
  induction he with
  | here h => exact .here h
  | inner _ h ih => exact .inner ih (hc _ ih ▸ h)

/-- Expansions with more marks and without them have outcomes of the same structure exactly if no reference is left in
the contents that are held and that are expanded without the marks. -/
theorem sameStructure_iff (hd : d.Sound) (hp : d.grammar.Has p) (hw : d.Walked (d.grammar.tree p) d₁)
    (h : d.expand p = (.ok q, c)) (h₁ : d₁.expand p = (.ok q₁, c₁)) :
    c.SameStructure q c₁ q₁ ↔
      ∀ e, c₁.Holds (c₁.grammar.tree q₁) e → d.Enters (d.grammar.tree p) e → (c₁.contents e).RefFree := by
  obtain ⟨-, hr⟩ := resolved_of_expand hd hp h
  obtain ⟨-, hr₁⟩ := resolved_of_expand hw.sound (hw.grows.has hp) h₁
  have hwalk : d.Walked (d.grammar.tree p) c₁ := by
    have hw₁ := hr₁.toWalked
    rw [hw.grows.tree_eq hp] at hw₁
    exact hw.trans hd hw₁
  have htree : c.grammar.tree q = c₁.grammar.tree q₁ := by
    have hx₁ := hr₁.expands
    rw [hw.bodies_eq hd, hw.grows.tree_eq hp] at hx₁
    exact hr.expands.unique hx₁
  constructor
  · rintro ⟨ht, hc⟩ e he hent
    rw [← hc e (holds_congr ht hc he)]
    exact (hr.completed e (hr.mem_of_enters hent) hent.not_mem).1.refFree
  · intro hfree
    have hsame (e) (he : c₁.Holds (c₁.grammar.tree q₁) e) : c₁.contents e = c.contents e := by
      by_cases hent : d.Enters (d.grammar.tree p) e
      · have hx := (hr.completed e (hr.mem_of_enters hent) hent.not_mem).1
        -- Kept and free of references, a content is what it would be expanded to.
        rcases hwalk.kept e with hk | ⟨-, -, hx₁⟩
        · have hself : Expands d.bodies _ _ := (hfree e he hent).expands
          rw [hk] at hself ⊢
          exact hself.unique hx
        · exact hx₁.unique hx
      · have hold : c.contents e = d.contents e :=
          (hr.kept e).resolve_right fun ⟨hn, he, _⟩ => hent (hr.entered e he hn)
        have hold₁ : c₁.contents e = d.contents e :=
          (hwalk.kept e).resolve_right fun ⟨hn, he, _⟩ => hent (hwalk.entered e he hn)
        rw [hold, hold₁]
    exact ⟨htree, fun e he => (hsame e (holds_congr htree.symm hsame he)).symm⟩

/-- Two drafts agree on a pattern: one expands it exactly if the other does, and then the outcomes have the same
structure. -/
def AgreeOn (d d₁ : Draft) (p : PatternId) : Prop :=
  ((∃ q c, d₁.expand p = (.ok q, c)) ↔ ∃ q c, d.expand p = (.ok q, c)) ∧
    ∀ q c q₁ c₁, d.expand p = (.ok q, c) → d₁.expand p = (.ok q₁, c₁) → c.SameStructure q c₁ q₁

theorem agreeOn_iff (hd : d.Sound) (hp : d.grammar.Has p) (hw : d.Walked (d.grammar.tree p) d₁) :
    d.AgreeOn d₁ p ↔ ∀ q₁ c₁, d₁.expand p = (.ok q₁, c₁) →
      (∀ e ∈ d₁.expanded, e ∉ d.expanded → ∃ q c, d.expand (d.grammar.element e).content = (.ok q, c)) ∧
      ∀ e, c₁.Holds (c₁.grammar.tree q₁) e → d.Enters (d.grammar.tree p) e → (c₁.contents e).RefFree := by
  constructor
  · rintro ⟨hiff, hsame⟩ q₁ c₁ h₁
    obtain ⟨q, c, h⟩ := hiff.1 ⟨q₁, c₁, h₁⟩
    exact ⟨(exists_copy_iff hd hp hw ⟨q₁, c₁, h₁⟩).1 ⟨q, c, h⟩,
      (sameStructure_iff hd hp hw h h₁).1 (hsame q c q₁ c₁ h h₁)⟩
  · intro hcond
    refine ⟨⟨fun ⟨q₁, c₁, h₁⟩ => ?_, exists_expand_of_copy hd hp hw⟩, fun q c q₁ c₁ h h₁ => ?_⟩
    · exact (exists_copy_iff hd hp hw ⟨q₁, c₁, h₁⟩).2 (hcond q₁ c₁ h₁).1
    · exact (sameStructure_iff hd hp hw h h₁).2 (hcond q₁ c₁ h₁).2

theorem mem_of_enters_completed (hc : d.Completed d₁) {m : ElementId} (hm : m ∈ d₁.expanded) (hn : m ∉ d.expanded)
    (he : d.Enters (d.contents m) e) : e ∈ d₁.expanded := by
  induction he with
  | here hs _ => exact (hc m hm hn).2 _ hs
  | inner he hs _ ih => exact (hc _ ih he.not_mem).2 _ hs

/-- Marks of elements that are completed make no difference. -/
theorem agreeOn_of_completed (hd : d.Sound) (hp : d.grammar.Has p) (hw : d.Walked (d.grammar.tree p) d₁)
    (hc : d.Completed d₁) : d.AgreeOn d₁ p := by
  refine (agreeOn_iff hd hp hw).2 fun q₁ c₁ h₁ => ⟨fun m hm hn => ?_, fun e _ hent => ?_⟩
  · refine (expand_ok_iff hd (hd.has_content m)).2 ⟨⟨_, (hc m hm hn).1⟩, fun e he => ?_⟩
    exact ⟨_, (hc e (mem_of_enters_completed hc hm hn he) he.not_mem).1⟩
  · obtain ⟨-, hr₁⟩ := resolved_of_expand hw.sound (hw.grows.has hp) h₁
    by_cases he : e ∈ d₁.expanded
    · rw [hr₁.contents_eq (.inl he)]
      exact (hc e he hent.not_mem).1.refFree
    · rcases enters_or_exists hd hw.toAdvance hent with he₁ | ⟨m, hm, hn, rfl | hme⟩
      · rw [← hw.grows.tree_eq hp] at he₁
        exact (hr₁.completed e (hr₁.mem_of_enters he₁) he).1.refFree
      · exact absurd hm he
      · exact absurd (mem_of_enters_completed hc hm hn hme) he

/-- An expansion that fails without leaving a reference in the content of an element that it marked, has completed all
of these elements. -/
theorem completed_of_refused {error : Error} (hr : d.Refused t d₁ error)
    (hfree : ∀ e ∈ d₁.expanded, e ∉ d.expanded → (d₁.contents e).RefFree) : d.Completed d₁ := by
  rcases hr.blamed with ⟨-, hc⟩ | ⟨e, he, hn, hb⟩
  · exact hc
  · refine absurd ?_ hb.not_expandable
    rcases hr.kept e with hk | ⟨-, -, hx⟩
    · exact ⟨_, hk ▸ (hfree e he hn).expands⟩
    · exact ⟨_, hx⟩

/-! ## References that are left -/

/-- Whatever is expanded, no reference is reached from the outcome, exactly if none is in what a marked element
holds. -/
theorem refFree_of_expand_iff (hd : d.Built) :
    (∀ p q c, d.grammar.Has p → d.expand p = (.ok q, c) → c.grammar.RefFree q) ↔
      ∀ m ∈ d.expanded, ∀ e, d.Holds (.element m) e → (d.contents e).RefFree := by
  have hs := hd.sound
  constructor
  · intro h m hm e he
    obtain ⟨p, hp, ht⟩ := hd.exists_has_of_mem hm
    have hno (e) : ¬ d.Enters (d.grammar.tree p) e := by
      rw [ht]
      refine not_enters_of_spans fun e hspans => ?_
      cases hspans.eq_element
      exact hm
    have hleaf : Expands d.bodies (d.grammar.tree p) (.element m) := by
      rw [ht]
      exact .of_leaf (by simp) rfl
    obtain ⟨q, c, hx⟩ := (expand_ok_iff hs hp).2 ⟨⟨_, hleaf⟩, fun e hent => absurd hent (hno e)⟩
    obtain ⟨-, hr⟩ := resolved_of_expand hs hp hx
    have hcont (e) : c.contents e = d.contents e := by
      rcases hr.kept e with hk | ⟨hn, he, -⟩
      · exact hk
      · exact absurd (hr.entered e he hn) (hno e)
    have hfree := ((refFree_iff hr.sound).1 (h p q c hp hx)).2 e
    rw [hr.expands.unique hleaf, hcont e] at hfree
    exact hfree (holds_congr rfl (fun e _ => hcont e) he)
  · intro h p q c hp hx
    exact refFree_of_resolved (resolved_of_expand hs hp hx).2 h

/-! ## What a failed expansion leaves -/

/-- An expansion that failed makes no difference for a pattern, after some definitions were given bodies, exactly if a
later one that succeeds meets two conditions: on a copy without the failed one the contents of the elements that it
marked are expanded, too, and no reference is left in what the outcome holds and the copy expands. It makes no
difference whatever is defined if no reference is left in the contents of the elements that it marked. And all outcomes
of expansions of a draft are free of references exactly if what its marked elements hold is. -/
theorem expand_after_failure_iff (hd : d.Built) :
    (∀ p d₁ error, d.grammar.Has p → d.expand p = (.error error, d₁) →
      (∀ ds : List (String × PatternId), (∀ x ∈ ds, d.grammar.Has x.2) →
        ((d.defineAll ds).AgreeOn (d₁.defineAll ds) p ↔
          ∀ q₁ c₁, (d₁.defineAll ds).expand p = (.ok q₁, c₁) →
            (∀ e ∈ d₁.expanded, e ∉ d.expanded →
              ∃ q c, (d.defineAll ds).expand (d.grammar.element e).content = (.ok q, c)) ∧
            ∀ e, c₁.Holds (c₁.grammar.tree q₁) e → (d.defineAll ds).Enters (d.grammar.tree p) e →
              (c₁.contents e).RefFree)) ∧
      ((∀ e ∈ d₁.expanded, e ∉ d.expanded → (d₁.contents e).RefFree) →
        ∀ ds : List (String × PatternId), (∀ x ∈ ds, d.grammar.Has x.2) →
          (d.defineAll ds).AgreeOn (d₁.defineAll ds) p)) ∧
    ((∀ p q c, d.grammar.Has p → d.expand p = (.ok q, c) → c.grammar.RefFree q) ↔
      ∀ m ∈ d.expanded, ∀ e, d.Holds (.element m) e → (d.contents e).RefFree) := by
  refine ⟨fun p d₁ error hp h => ?_, refFree_of_expand_iff hd⟩
  have hr := refused_of_expand hd.sound hp h
  have sides {ds : List (String × PatternId)} (hds : ∀ x ∈ ds, d.grammar.Has x.2) :
      (d.defineAll ds).grammar.Has p ∧ (d.defineAll ds).Sound ∧
        (d.defineAll ds).Walked ((d.defineAll ds).grammar.tree p) (d₁.defineAll ds) ∧
        (d.Completed d₁ → (d.defineAll ds).Completed (d₁.defineAll ds)) := by
    rw [tree_defineAll, Grammar.Has, nodes_defineAll]
    exact ⟨hp, defineAll_spec hd.sound hr.toWalked hds⟩
  refine ⟨fun ds hds => ?_, fun hfree ds hds => ?_⟩
  · obtain ⟨hp', hs, hw, -⟩ := sides hds
    rw [agreeOn_iff hs hp' hw, expanded_defineAll, expanded_defineAll, tree_defineAll]
    have hel (e) : (d.defineAll ds).grammar.element e = d.grammar.element e := by
      rw [Grammar.element, elements_defineAll, Grammar.element]
    simp only [hel]
  · obtain ⟨hp', hs, hw, hc⟩ := sides hds
    exact agreeOn_of_completed hs hp' hw (hc (completed_of_refused hr hfree))

/-- The statement where the expansion of a reference fails without entering an element. -/
theorem expand_after_failure_iff_referring :
    referring.Built ∧ ∃ error d₁, referring.expand ⟨3⟩ = (.error error, d₁) ∧
      ∀ ds : List (String × PatternId), (∀ x ∈ ds, referring.grammar.Has x.2) →
        (referring.defineAll ds).AgreeOn (d₁.defineAll ds) ⟨3⟩ := by
  have hbuilt := referring_fresh.built
  have hhas : referring.grammar.Has ⟨3⟩ := by
    rw [referring_grammar]
    decide
  have hno (e) : ¬ referring.Enters (.ref ⟨0⟩) e :=
    not_enters_of_spans fun e hspans => by cases hspans.eq_undefined referring_bodies
  rcases expand_cases hbuilt.sound hhas with ⟨q, c, -, -, hr⟩ | ⟨error, d₁, h, hr⟩ <;> rw [referring_tree_ref] at hr
  · exact absurd ⟨_, hr.expands⟩ (not_expandable_of_undefined referring_bodies)
  · exact ⟨hbuilt, error, d₁, h, ((expand_after_failure_iff hbuilt).1 ⟨3⟩ d₁ error hhas h).2 fun e he hn =>
      absurd (hr.entered e he hn) (hno e)⟩

/-- A failed expansion leaves an element marked, so that a later one passes over the reference in it. -/
theorem expand_after_failure_leaves_reference :
    referring.Built ∧ referring.grammar.Has ⟨4⟩ ∧ ∃ error d₁ q₁ c₁, referring.expand ⟨4⟩ = (.error error, d₁) ∧
      (d₁.defineAll [("a", text)]).expand ⟨4⟩ = (.ok q₁, c₁) ∧ ¬ c₁.grammar.RefFree q₁ ∧
      ¬ (referring.defineAll [("a", text)]).AgreeOn (d₁.defineAll [("a", text)]) ⟨4⟩ := by
  have hs := referring_fresh.sound
  obtain ⟨error, d₁, h, hw, hm, hc⟩ := referring_expand
  have hds : ∀ x ∈ [("a", text)], referring.grammar.Has x.2 := by simpa using hs.has_text
  obtain ⟨hsD, hwD, -⟩ := defineAll_spec hs hw hds
  have hasD : (referring.defineAll [("a", text)]).grammar.Has ⟨4⟩ := has_define.2 referring_has
  have htree : (referring.defineAll [("a", text)]).grammar.tree ⟨4⟩ = .element ⟨0⟩ := by
    rw [tree_defineAll, referring_tree]
  have htree₁ : (d₁.defineAll [("a", text)]).grammar.tree ⟨4⟩ = .element ⟨0⟩ := by
    rw [hwD.grows.tree_eq hasD, htree]
  have hm₁ : ⟨0⟩ ∈ (d₁.defineAll [("a", text)]).expanded := expanded_defineAll (d := d₁) [("a", text)] ▸ hm
  have hleaf {bodies : DefinitionId → Option Tree} : Expands bodies (.element ⟨0⟩) (.element ⟨0⟩) :=
    .of_leaf (by simp) rfl
  have hno (e) : ¬ (d₁.defineAll [("a", text)]).Enters (.element ⟨0⟩) e := by
    refine not_enters_of_spans fun e hspans => ?_
    cases hspans.eq_element
    exact hm₁
  obtain ⟨q₁, c₁, h₁⟩ := (expand_ok_iff hwD.sound (hwD.grows.has hasD)).2
    ⟨⟨_, htree₁ ▸ hleaf⟩, fun e he => absurd (htree₁ ▸ he) (hno e)⟩
  obtain ⟨-, hr₁⟩ := resolved_of_expand hwD.sound (hwD.grows.has hasD) h₁
  have hx₁ := hr₁.expands
  rw [htree₁] at hx₁
  have hq₁ : c₁.grammar.tree q₁ = .element ⟨0⟩ := hx₁.unique hleaf
  have hc₁ : c₁.contents ⟨0⟩ = .ref ⟨0⟩ := by
    rw [hr₁.contents_eq (.inl hm₁), ← hc]
    exact congrFun contents_define ⟨0⟩
  have hholds : c₁.Holds (c₁.grammar.tree q₁) ⟨0⟩ := by
    rw [hq₁]
    exact .here (.refl _)
  have hleft : ¬ (c₁.contents ⟨0⟩).RefFree := by
    rw [hc₁]
    exact fun hfree => hfree ⟨0⟩ (.refl _)
  refine ⟨referring_fresh.built, referring_has, error, d₁, q₁, c₁, h, h₁,
    fun hfree => hleft (((refFree_iff hr₁.sound).1 hfree).2 _ hholds), fun hagree => hleft ?_⟩
  rw [← htree] at hwD
  refine ((agreeOn_iff hsD hasD hwD).1 hagree q₁ c₁ h₁).2 _ hholds ?_
  rw [htree]
  exact .here .refl (expanded_defineAll (d := referring) [("a", text)] ▸ referring_fresh.not_mem_expanded _)

end RelaxNg.Draft
