import RelaxNg.Proofs.Alphabet
import RelaxNg.Proofs.Draft.Reach
import RelaxNg.Proofs.Restrictions.Passing
import RelaxNg.Schema

/-!
# Compiled schemas

A draft compiles exactly if every check passes, and the schema is made of what the checks leave
(`Draft.compile_eq_ok_iff`). A schema of a fresh draft is over a sound grammar, in which no reference is reached from
the start (`Grammar.Closed`, `Draft.Fresh.closed_of_compile`). Its content model knows every element that is reached,
and covers its content.
-/

namespace RelaxNg

/-- A grammar is sound, a start pattern is stored in it, and no reference is reached from there. -/
structure Grammar.Closed (g : Grammar) (start : PatternId) : Prop where
  sound : g.Sound
  has : g.Has start
  refFree : g.RefFree start

/-! ## Content models -/

namespace Grammar

variable {g : Grammar} {start : PatternId} {e e' : ElementId}

theorem element?_contentModel (he : e ∈ g.reachableElements start) :
    (g.contentModel start).element? e = some (g.elementModel e) := by
  unfold contentModel ContentModel.element?
  rw [List.find?_map]
  cases hf : (g.reachableElements start).find? ((fun entry => entry.1 == e) ∘ fun e => (e, g.elementModel e)) with
  | none => simpa using List.find?_eq_none.1 hf e he
  | some e' =>
    have heq : e' = e := by simpa using List.find?_some hf
    rw [heq]
    rfl

theorem Closed.mem_of_start (h : g.Closed start) (he : e ∈ g.topElements start) : e ∈ g.reachableElements start := by
  obtain ⟨q, hq, hqe⟩ := (h.sound.mem_topElements_iff h.has).1 he
  exact (h.sound.mem_reachableElements_iff h.has).2 ⟨q, hq.reaches, hqe⟩

theorem Closed.content (h : g.Closed start) (he : e ∈ g.reachableElements start) : g.Closed (g.element e).content := by
  obtain ⟨q, hq, hqe⟩ := (h.sound.mem_reachableElements_iff h.has).1 he
  exact ⟨h.sound, h.sound.content_has e ((h.sound.settled q).element_lt e hqe),
    (h.refFree.of_reaches hq).of_successor (content_mem_successors hqe)⟩

theorem Closed.mem_of_child (h : g.Closed start) (he : e ∈ g.reachableElements start)
    (he' : e' ∈ (g.elementModel e).children) : e' ∈ g.reachableElements start := by
  obtain ⟨q, hq, hqe⟩ := (h.sound.mem_reachableElements_iff h.has).1 he
  obtain ⟨r, hr, hre⟩ := (h.sound.mem_topElements_iff (h.content he).has).1 he'
  exact (h.sound.mem_reachableElements_iff h.has).2
    ⟨r, hq.trans (.head (content_mem_successors hqe) hr.reaches), hre⟩

end Grammar

/-! ## Compiling -/

theorem bind_eq_ok_iff {ε α β : Type} {x : Except ε α} {f : α → Except ε β} {b : β} :
    x >>= f = .ok b ↔ ∃ a, x = .ok a ∧ f a = .ok b := by
  cases x <;> simp [bind, Except.bind]

namespace Draft

variable {d : Draft} {start : PatternId} {options : Options} {schema : Schema}

/-- What the checks leave that a draft passes when it is compiled. -/
structure Compiles (d : Draft) (start : PatternId) (options : Options) (schema : Schema) : Prop where
  patterns : options.limits.check .patterns d.patternCount = .ok ()
  recursion : d.grammar.checkRecursion start options.limits = .ok ()
  expand : (d.expand start).1 = .ok schema.start
  grammar : (d.expand start).2.grammar = schema.grammar
  restrictions : schema.grammar.checkRestrictions options.limits schema.start = .ok ()
  identities : (if options.checkIdentity then (schema.grammar.identityMap schema.start).mapError .restriction
    else .ok .empty) = Except.ok (ε := Error) schema.identities
  contentModel : schema.contentModel =
    if options.trackContent then some (schema.grammar.contentModel schema.start) else none
  options : schema.options = options

theorem compile_eq_ok_iff : d.compile start options = .ok schema ↔ d.Compiles start options schema := by
  unfold compile
  constructor
  · intro h
    obtain ⟨⟨⟩, hpatterns, h⟩ := bind_eq_ok_iff.1 h
    obtain ⟨⟨⟩, hrecursion, h⟩ := bind_eq_ok_iff.1 h
    obtain ⟨q, hexpand, h⟩ := bind_eq_ok_iff.1 h
    obtain ⟨⟨⟩, hrestrictions, h⟩ := bind_eq_ok_iff.1 h
    by_cases hi : options.checkIdentity = true
    · obtain ⟨identities, hidentities, h⟩ := bind_eq_ok_iff.1 ((if_pos hi).symm.trans h)
      cases h
      exact ⟨hpatterns, hrecursion, hexpand, rfl, hrestrictions, (if_pos hi).trans hidentities, rfl, rfl⟩
    · have h := (if_neg hi).symm.trans h
      cases h
      exact ⟨hpatterns, hrecursion, hexpand, rfl, hrestrictions, if_neg hi, rfl, rfl⟩
  · rintro ⟨hpatterns, hrecursion, hexpand, hgrammar, hrestrictions, hidentities, hmodel, hoptions⟩
    obtain ⟨grammar, start', identities, contentModel, options'⟩ := schema
    dsimp only at hgrammar hexpand hrestrictions hidentities hmodel hoptions
    subst hgrammar hmodel hoptions
    refine bind_eq_ok_iff.2 ⟨(), hpatterns, bind_eq_ok_iff.2 ⟨(), hrecursion, bind_eq_ok_iff.2 ⟨_, hexpand,
      bind_eq_ok_iff.2 ⟨(), hrestrictions, ?_⟩⟩⟩⟩
    by_cases hi : options'.checkIdentity = true
    · exact (if_pos hi).trans (bind_eq_ok_iff.2 ⟨_, (if_pos hi).symm.trans hidentities, rfl⟩)
    · cases (if_neg hi).symm.trans hidentities
      exact if_neg hi

/-- The grammar of a schema is closed if nothing was expanded before. -/
theorem Fresh.closed_of_compile (hd : d.Fresh) (hp : d.grammar.Has start) (h : d.compile start options = .ok schema) :
    schema.grammar.Closed schema.start := by
  have hc := compile_eq_ok_iff.1 h
  obtain ⟨hq, hr⟩ := resolved_of_expand hd.sound hp (Prod.ext hc.expand rfl)
  rw [← hc.grammar]
  exact ⟨hr.sound.grammar, hq, refFree_of_resolved hr fun m hm => absurd hm (hd.not_mem_expanded m)⟩

theorem contentModel_of_compile {model : ContentModel} (h : d.compile start options = .ok schema)
    (hm : schema.contentModel = some model) : model = schema.grammar.contentModel schema.start := by
  have hc := (compile_eq_ok_iff.1 h).contentModel
  rw [hm] at hc
  split at hc
  · exact Option.some.inj hc
  · cases hc

/-! ## An element that holds text -/

/-- What `resolvable` is compiled to: the content of its element, a reference, is any text. -/
def resolved : Schema where
  grammar := { resolvable.grammar with elements := #[⟨.plain "e", text, none, .none⟩] }
  start := ⟨4⟩
  identities := .empty
  contentModel := some
    (Grammar.contentModel { resolvable.grammar with elements := #[⟨.plain "e", text, none, .none⟩] } ⟨4⟩)
  options := { checkIdentity := false }

theorem resolved_grammar : resolved.grammar =
    ⟨#[⟨.empty, true, .empty, none⟩, ⟨.notAllowed, false, .empty, none⟩, ⟨.text, true, .mixed, none⟩,
      ⟨.ref ⟨0⟩, false, .empty, none⟩, ⟨.element ⟨0⟩, false, .complex, none⟩],
      #[⟨.plain "e", text, none, .none⟩], #[⟨"a", some text, none⟩]⟩ := by
  simp [resolved, resolvable_grammar, referring_grammar]

theorem resolvable_expand : ∃ d, resolvable.expand ⟨4⟩ = (.ok ⟨4⟩, d) ∧ d.grammar = resolved.grammar := by
  have hn : (⟨0⟩ : ElementId) ∉ resolvable.expanded := resolvable_fresh.not_mem_expanded _
  have hrun : ∃ d, Machine.run? Expansion.step 7 ⟨resolvable, {}, {}, [.visit ⟨4⟩], []⟩ = some (.ok ⟨4⟩, d) ∧
      d.grammar = resolved.grammar := by
    simp [Machine.run?, Expansion.step, Expansion.enter, hn, resolvable_grammar, referring_grammar, Grammar.pattern,
      Grammar.node, Grammar.element, Grammar.body?, Grammar.definition, text, Expansion.State.finish,
      Pattern.operands, setContent, resolved_grammar]
  obtain ⟨d, h, hg⟩ := hrun
  refine ⟨d, ?_, hg⟩
  rw [expand, Machine.run_of_run? h, Option.getD_some]

theorem resolvable_checkRecursion : resolvable.grammar.checkRecursion ⟨4⟩ .standard = .ok () := by
  have h : Machine.run? (RecursionCheck.step resolvable.grammar .standard) 5 { tasks := [.visit ⟨4⟩ 0 0] } =
      some (.ok ()) := by
    simp [Machine.run?, RecursionCheck.step, RecursionCheck.visit, Limits.checkRecursion, Limits.standard,
      resolvable_grammar, referring_grammar, Grammar.pattern, Grammar.node, Grammar.element, Grammar.body?,
      Grammar.definition, text, Pattern.operands]
  rw [Grammar.checkRecursion, Machine.run_of_run? h, Option.getD_some]

theorem resolved_checkRestrictions : resolved.grammar.checkRestrictions .standard ⟨4⟩ = .ok () := by
  have helement : resolved.grammar.pattern ⟨4⟩ = .element ⟨0⟩ := by
    rw [resolved_grammar]
    rfl
  have htext : resolved.grammar.pattern (resolved.grammar.element ⟨0⟩).content = .text := by
    rw [resolved_grammar]
    rfl
  have hcontent (s : RestrictionCheck.State) :
      (RestrictionCheck.check resolved.grammar 5000 5000 (resolved.grammar.element ⟨0⟩).content .element).runFrom s =
        (.ok (), s) := by
    refine (RestrictionCheck.check_leaf_ok ?_ ?_ ?_).2 ⟨?_, rfl⟩ <;> rw [htext]
    · rfl
    · simp
    · simp
    · rfl
  have hstart : ∃ u, (RestrictionCheck.check resolved.grammar 5000 5001 ⟨4⟩ .start).runFrom {} = (.ok (), u) :=
    ⟨_, (RestrictionCheck.check_element_ok helement).2 (.inr ⟨by simp, rfl, _, hcontent _, rfl⟩)⟩
  obtain ⟨u, hu⟩ := hstart
  exact congrArg Prod.fst (RestrictionCheck.isolated_ok.2 ⟨u, hu, rfl⟩)

theorem resolvable_compile : resolvable.compile ⟨4⟩ { checkIdentity := false } = .ok resolved := by
  obtain ⟨d, h, hg⟩ := resolvable_expand
  refine compile_eq_ok_iff.2 ⟨?_, resolvable_checkRecursion, by rw [h]; rfl, by rw [h]; exact hg,
    resolved_checkRestrictions, rfl, rfl, rfl⟩
  rw [patternCount, resolvable_grammar, referring_grammar]
  rfl

/-! ## An element with an attribute and a child -/

open RestrictionCheck

/-- The draft `resolvable` with an element around its own, which has an attribute as well. -/
def enclosing : Draft :=
  ((resolvable.after (.attr (.plain "a") text none .none)).after (.group ⟨5⟩ ⟨4⟩)).after
    (.element (.plain "doc") ⟨6⟩ none .none)

/-- What `enclosing` is compiled to: the content of the inner element is any text. -/
def enclosed : Schema :=
  let grammar : Grammar :=
    ⟨#[⟨.empty, true, .empty, none⟩, ⟨.notAllowed, false, .empty, none⟩, ⟨.text, true, .mixed, none⟩,
      ⟨.ref ⟨0⟩, false, .empty, none⟩, ⟨.element ⟨0⟩, false, .complex, none⟩,
      ⟨.attr (.plain "a") text .none, false, .empty, none⟩, ⟨.group ⟨5⟩ ⟨4⟩, false, .complex, none⟩,
      ⟨.element ⟨1⟩, false, .complex, none⟩],
      #[⟨.plain "e", text, none, .none⟩, ⟨.plain "doc", ⟨6⟩, none, .none⟩], #[⟨"a", some text, none⟩]⟩
  ⟨grammar, ⟨7⟩, .empty, some (grammar.contentModel ⟨7⟩), { checkIdentity := false }⟩

theorem enclosing_fresh_grammar : enclosing.Fresh ∧ enclosing.grammar = { enclosed.grammar with
    elements := #[⟨.plain "e", ⟨3⟩, none, .none⟩, ⟨.plain "doc", ⟨6⟩, none, .none⟩] } := by
  have hattr : (resolvable.after (.attr (.plain "a") text none .none)).Fresh :=
    .call resolvable_fresh (by simp) (List.forall_mem_singleton.2 resolvable_fresh.sound.has_text)
  have hfirst : (resolvable.after (.attr (.plain "a") text none .none)).grammar =
      resolvable.grammar.storing (.attr (.plain "a") text .none) none := by
    rw [← resolvable_fresh.sound.toStored.grammar_intern (by simp [resolvable_grammar, referring_grammar])]
    simp [after, attr, text, notAllowed]
  have hgroup : ((resolvable.after (.attr (.plain "a") text none .none)).after (.group ⟨5⟩ ⟨4⟩)).Fresh := by
    refine .call hattr (by simp) ?_
    rw [hfirst, resolvable_grammar, referring_grammar]
    decide
  have hsecond := hattr.sound.grammar_after_group (p := ⟨5⟩) (q := ⟨4⟩) (by decide) (by decide)
    (by simp [hfirst, resolvable_grammar, referring_grammar, Grammar.storing, Grammar.nodeOf])
  have hhas : ((resolvable.after (.attr (.plain "a") text none .none)).after (.group ⟨5⟩ ⟨4⟩)).grammar.Has ⟨6⟩ := by
    rw [hsecond, hfirst, resolvable_grammar, referring_grammar]
    decide
  refine ⟨.call hgroup (by simp) (List.forall_mem_singleton.2 hhas), ?_⟩
  rw [enclosing, hgroup.sound.grammar_after_element hhas, hsecond, hfirst, resolvable_grammar, referring_grammar]
  rfl

theorem enclosing_fresh : enclosing.Fresh := enclosing_fresh_grammar.1

theorem enclosing_has : enclosing.grammar.Has ⟨7⟩ := by
  rw [enclosing_fresh_grammar.2]
  decide

theorem enclosing_expand : ∃ d, enclosing.expand ⟨7⟩ = (.ok ⟨7⟩, d) ∧ d.grammar = enclosed.grammar := by
  have hn (e : ElementId) : e ∉ enclosing.expanded := enclosing_fresh.not_mem_expanded e
  have hrun : ∃ d, Machine.run? Expansion.step 13 ⟨enclosing, {}, {}, [.visit ⟨7⟩], []⟩ = some (.ok ⟨7⟩, d) ∧
      d.grammar = enclosed.grammar := by
    simp [Machine.run?, Expansion.step, Expansion.enter, hn, enclosing_fresh_grammar.2, enclosed, Grammar.pattern,
      Grammar.node, Grammar.element, Grammar.body?, Grammar.definition, text, Expansion.State.finish,
      Expansion.State.schedule, Expansion.withOperands, Pattern.operands, setContent, Std.HashMap.getElem_insert]
  obtain ⟨d, h, hg⟩ := hrun
  refine ⟨d, ?_, hg⟩
  rw [expand, Machine.run_of_run? h, Option.getD_some]

theorem enclosing_checkRecursion : enclosing.grammar.checkRecursion ⟨7⟩ .standard = .ok () := by
  have h : Machine.run? (RecursionCheck.step enclosing.grammar .standard) 12 { tasks := [.visit ⟨7⟩ 0 0] } =
      some (.ok ()) := by
    simp [Machine.run?, RecursionCheck.step, RecursionCheck.visit, Limits.checkRecursion, Limits.standard,
      enclosing_fresh_grammar.2, enclosed, Grammar.pattern, Grammar.node, Grammar.element, Grammar.body?,
      Grammar.definition, text, Pattern.operands]
  rw [Grammar.checkRecursion, Machine.run_of_run? h, Option.getD_some]

theorem enclosed_checkRestrictions : enclosed.grammar.checkRestrictions .standard ⟨7⟩ = .ok () := by
  have hleaf : enclosed.grammar.pattern text = .text := rfl
  have htext (levels : Nat) (place : Place) (hplace : place.prohibited? .text = none) (s : State) :
      (check enclosed.grammar 5000 (levels + 1) text place).runFrom s = (.ok (), s) :=
    (check_leaf_ok rfl (by simp [hleaf]) (by simp [hleaf])).2 ⟨hplace, rfl⟩
  have hinner (s : State) :
      ∃ u, (check enclosed.grammar 5000 4999 ⟨4⟩ .element).runFrom s = (.ok (), u) := by
    have hp : enclosed.grammar.pattern ⟨4⟩ = .element ⟨0⟩ := rfl
    cases hs : s.checked.contains ⟨0⟩ with
    | true => exact ⟨_, (check_element_ok hp).2 (.inl ⟨hs, rfl⟩)⟩
    | false => exact ⟨_, (check_element_ok hp).2 (.inr ⟨hs, rfl, _, htext 4997 .element rfl _, rfl⟩)⟩
  have hattr (s : State) (hs : s.attributes = some .empty) :
      ∃ u, (check enclosed.grammar 5000 4999 ⟨5⟩ .element).runFrom s = (.ok (), u) := by
    have hp : enclosed.grammar.pattern ⟨5⟩ = .attr (.plain "a") text .none := rfl
    exact ⟨_, (check_attr_ok hp).2 ⟨rfl, rfl, _, _,
      addAttribute_ok.2 (.inr ⟨_, _, hs, rfl, rfl⟩), htext 4997 .attributeValue rfl _, rfl⟩⟩
  have hcontent (s : State) (hs : s.attributes = some .empty) :
      ∃ u, (check enclosed.grammar 5000 5000 ⟨6⟩ .element).runFrom s = (.ok (), u) := by
    have hp : enclosed.grammar.pattern ⟨6⟩ = .group ⟨5⟩ ⟨4⟩ := rfl
    obtain ⟨t, ht⟩ := hattr s hs
    obtain ⟨u, hu⟩ := hinner t
    exact ⟨u, (check_group_ok hp).2 ⟨rfl, t, ht, hu, fun _ => rfl⟩⟩
  have hstart : ∃ u, (check enclosed.grammar 5000 5001 ⟨7⟩ .start).runFrom {} = (.ok (), u) := by
    have hp : enclosed.grammar.pattern ⟨7⟩ = .element ⟨1⟩ := rfl
    obtain ⟨u, hu⟩ := hcontent { checked := {⟨1⟩}, attributes := some .empty } rfl
    exact ⟨_, (check_element_ok hp).2 (.inr ⟨by simp, rfl, u, hu, rfl⟩)⟩
  obtain ⟨u, hu⟩ := hstart
  exact congrArg Prod.fst (isolated_ok.2 ⟨u, hu, rfl⟩)

theorem enclosing_compile : enclosing.compile ⟨7⟩ { checkIdentity := false } = .ok enclosed := by
  obtain ⟨d, h, hg⟩ := enclosing_expand
  refine compile_eq_ok_iff.2 ⟨?_, enclosing_checkRecursion, by rw [h]; rfl, by rw [h]; exact hg,
    enclosed_checkRestrictions, rfl, rfl, rfl⟩
  rw [patternCount, enclosing_fresh_grammar.2]
  rfl

/-- The trees of the start and of the contents of the two elements. -/
theorem enclosed_trees : enclosed.grammar.tree enclosed.start = .element ⟨1⟩ ∧
    enclosed.grammar.tree (enclosed.grammar.element ⟨1⟩).content =
      .group (.attr (.plain "a") .text .none) (.element ⟨0⟩) ∧
    enclosed.grammar.tree (enclosed.grammar.element ⟨0⟩).content = .text := by
  have hsame : enclosed.grammar.tree = enclosing.grammar.tree :=
    Grammar.tree_eq_of_nodes_eq (by rw [enclosing_fresh_grammar.2])
  have htree (p : PatternId) : enclosed.grammar.tree p = (enclosed.grammar.pattern p).tree enclosed.grammar.tree := by
    rw [hsame, enclosing_fresh.sound.grammar.tree_eq p, enclosing_fresh_grammar.2]
    rfl
  have hstart : enclosed.grammar.pattern enclosed.start = .element ⟨1⟩ := rfl
  have hgroup : enclosed.grammar.pattern (enclosed.grammar.element ⟨1⟩).content = .group ⟨5⟩ ⟨4⟩ := rfl
  have hattr : enclosed.grammar.pattern ⟨5⟩ = .attr (.plain "a") text .none := rfl
  have helement : enclosed.grammar.pattern ⟨4⟩ = .element ⟨0⟩ := rfl
  have htext : enclosed.grammar.pattern text = .text := rfl
  have hcontent : (enclosed.grammar.element ⟨0⟩).content = text := rfl
  refine ⟨?_, ?_, ?_⟩
  · rw [htree, hstart, Pattern.tree]
  · rw [htree, hgroup, Pattern.tree, htree ⟨5⟩, hattr, Pattern.tree, htree ⟨4⟩, helement, Pattern.tree, htree text,
      htext, Pattern.tree]
  · rw [hcontent, htree, htext, Pattern.tree]

/-- The content of the outer element is its attribute and then the inner element. -/
theorem enclosed_word {X : Type} (nothing : X) (sense : Tree → X) (refs : DefinitionId → Language (Letter X)) :
    [.attr (.plain "a") .none (sense .text), .element ⟨0⟩] ∈
      (enclosed.grammar.tree (enclosed.grammar.element ⟨1⟩).content).language nothing sense refs := by
  rw [enclosed_trees.2.1]
  refine Language.append_mem_mul (a := [_]) ⟨rfl, fun hnone => ?_⟩ rfl
  have hvalue : ([] : List (Letter X)) ∈ Tree.text.language nothing sense refs := Language.nil_mem_kstar _
  rw [hnone] at hvalue
  exact hvalue

end Draft

end RelaxNg
