import RelaxNg.Proofs.Draft.Calls
import RelaxNg.Proofs.Identity.Exact
import RelaxNg.Proofs.Identity.Words
import RelaxNg.Proofs.Validation.Document
import RelaxNg.Validation.SchemaValidator

/-!
# Elements of an identity type

An element is of an identity type if a datatype at the top of its content is. In a schema such a datatype is all that a
word of the content has beside attributes, if the word has one at all (`Draft.Fresh.identity_is_whole_value`). But the
content can have other words: beside the datatype, a choice can offer whatever it likes (`keyedOrText`). Whether it does
can be computed.
-/

namespace RelaxNg

/-! ## Contents that passed -/

namespace RestrictionCheck

variable {g : Grammar} {limit levels : Nat} {p : PatternId} {place : Place} {s u : State}

/-- Outside lists, contents stand side by side only if they go together. -/
theorem grouped_of_check (hg : g.Sound) (hr : g.RefFree p) (hplace : place ≠ .list)
    (h : (check g limit levels p place).runFrom s = (.ok (), u)) : (g.tree p).Grouped := by
  induction levels generalizing p place s u with
  | zero => exact absurd h check_zero_ok
  | succ levels ih =>
    have hunder : place.underGroup ≠ .list ∧ place.underInterleave ≠ .list ∧ place.underOneOrMore ≠ .list := by
      cases place <;> simp_all [Place.underGroup, Place.underInterleave, Place.underOneOrMore]
    rw [hg.tree_eq p]
    cases hp : g.pattern p with
    | choice left right =>
      obtain ⟨t, w, ht, hw, -⟩ := (check_choice_ok hp).1 h
      exact ⟨ih (hr.of_operand (by simp [hp, Pattern.operands])) hplace ht,
        ih (hr.of_operand (by simp [hp, Pattern.operands])) hplace hw⟩
    | group left right =>
      obtain ⟨-, t, ht, hw, hgroup⟩ := (check_group_ok hp).1 h
      refine ⟨ih (hr.of_operand (by simp [hp, Pattern.operands])) hunder.1 ht,
        ih (hr.of_operand (by simp [hp, Pattern.operands])) hunder.1 hw, ?_⟩
      rw [← hg.contentType_tree, ← hg.contentType_tree]
      exact hgroup hplace
    | interleave left right =>
      obtain ⟨-, a, b, t, w, ha, hb, -, hgroup, -⟩ := (check_interleave_ok hp).1 h
      obtain ⟨t', ht, -⟩ := side_ok.1 ha
      obtain ⟨w', hw, -⟩ := side_ok.1 hb
      refine ⟨ih (hr.of_operand (by simp [hp, Pattern.operands])) hunder.2.1 ht,
        ih (hr.of_operand (by simp [hp, Pattern.operands])) hunder.2.1 hw, ?_⟩
      rw [← hg.contentType_tree, ← hg.contentType_tree]
      exact hgroup
    | oneOrMore operand =>
      obtain ⟨-, ht, hgroup⟩ := (check_oneOrMore_ok hp).1 h
      refine ⟨ih (hr.of_operand (by simp [hp, Pattern.operands])) hunder.2.2 ht, ?_⟩
      rw [← hg.contentType_tree]
      exact hgroup hplace
    | _ => trivial

end RestrictionCheck

/-! ## Words of an element of an identity type -/

/-- Whether a tree has a word without a datatype of an identity type. -/
def Tree.omitsIdentity (t : Tree) : Bool := t.avoids fun type => type.identity?.isSome

namespace Grammar

variable {g : Grammar} {start p q content : PatternId} {i : Interpretation} {a : Letter (Language String)}
  {w : List (Letter (Language String))} {t : IdentityType} {e : ElementId} {limits : Limits} {m : IdentityMap} {n : QName}

/-- A letter of an identity type stands for a datatype at the top of the content. -/
theorem Closed.exists_top_of_identity (hg : g.Closed content) (hw : w ∈ g.contentLanguage i content) (ha : a ∈ w)
    (ht : a.identity? = some t) : ∃ q, g.ReachesTop content q ∧ IdentityCollection.identityOf? (g.pattern q) = some t := by
  obtain ⟨q, hq, hl⟩ := hg.sound.exists_top_of_mem_alphabet (hg.refFree.tree hg.sound) (mem_alphabet hw ha)
  refine ⟨q, hq, ?_⟩
  rw [← ht]
  cases hp : g.pattern q <;> rw [hp] at hl <;> cases hl <;> rfl

/-- What an element of an identity type has of that type in a word of its content is the whole word. -/
theorem Closed.identity_is_whole (hg : g.Closed start) (hok : g.checkRestrictions limits start = .ok ())
    (hm : g.identityMap start = .ok m) (hp : g.Reaches start p) (he : g.pattern p = .element e)
    (hn : (g.element e).names.contains n = true) (ht : m.element? n = some t)
    (hw : w ∈ g.contentLanguage i (g.element e).content) (ha : a ∈ w) (hid : a.identity? ≠ none) :
    beside w = [a] ∧ a.identity? = some t := by
  have hc := hg.content ((hg.sound.mem_reachableElements_iff hg.has).2 ⟨p, hp, he⟩)
  obtain ⟨t', hid⟩ := Option.ne_none_iff_exists'.1 hid
  constructor
  · obtain ⟨levels, s, u, -, -, hpass⟩ := passes_of_reaches hg.refFree hok hp he
    have hgrouped := RestrictionCheck.grouped_of_check hc.sound hc.refFree (by simp) hpass
    exact hgrouped.beside_eq (hc.refFree.tree hc.sound) hw ha (Letter.isValue_of_identity? hid)
  · obtain ⟨q, hq, htype⟩ := hc.exists_top_of_identity hw ha hid
    have hdeclared : g.DeclaresElement start n (some t') := ⟨p, e, hp, he, hn, q, hq, htype⟩
    rw [hid, ← ht, (hg.element?_spec hm).1 hdeclared]

end Grammar

namespace Draft

variable {d : Draft} {start p : PatternId} {options : Options} {schema : Schema} {n : QName} {t : IdentityType}
  {e : ElementId}

theorem identityMap_of_compile (h : d.compile start options = .ok schema) (ht : schema.identities.element? n = some t) :
    schema.grammar.identityMap schema.start = .ok schema.identities := by
  have hc := (compile_eq_ok_iff.1 h).identities
  split at hc
  · cases hm : schema.grammar.identityMap schema.start with
    | error v =>
      rw [hm] at hc
      cases hc
    | ok m =>
      rw [hm] at hc
      exact congrArg Except.ok (Except.ok.inj hc)
  · rw [← Except.ok.inj hc] at ht
    cases ht

/-- In the content of an element of an identity type, a datatype of an identity type is all that a word has beside
attributes, and is of that type. Every word has one exactly if the content cannot do without. -/
theorem Fresh.identity_is_whole_value (hd : d.Fresh) (hp : d.grammar.Has start)
    (h : d.compile start options = .ok schema) (hr : schema.grammar.Reaches schema.start p)
    (he : schema.grammar.pattern p = .element e) (hn : (schema.grammar.element e).names.contains n = true)
    (ht : schema.identities.element? n = some t) (i : Interpretation) :
    (∀ w ∈ schema.grammar.contentLanguage i (schema.grammar.element e).content, ∀ a ∈ w, a.identity? ≠ none →
      beside w = [a] ∧ a.identity? = some t) ∧
    ((∀ w ∈ schema.grammar.contentLanguage i (schema.grammar.element e).content,
        ∃ a, beside w = [a] ∧ a.identity? = some t) ↔
      (schema.grammar.tree (schema.grammar.element e).content).omitsIdentity = false) := by
  have hg := hd.closed_of_compile hp h
  have hc := hg.content ((hg.sound.mem_reachableElements_iff hg.has).2 ⟨p, hr, he⟩)
  have hwhole (w) (hw : w ∈ schema.grammar.contentLanguage i (schema.grammar.element e).content) (a) (ha : a ∈ w)
      (hid : a.identity? ≠ none) : beside w = [a] ∧ a.identity? = some t :=
    hg.identity_is_whole (compile_eq_ok_iff.1 h).restrictions (identityMap_of_compile h ht) hr he hn ht hw ha hid
  refine ⟨hwhole, ?_⟩
  rw [← Bool.not_eq_true, Tree.omitsIdentity, Tree.avoids_iff (hc.refFree.tree hc.sound)]
  constructor
  · rintro hall ⟨w, hw, hclean⟩
    obtain ⟨a, hbeside, hid⟩ := hall w hw
    have ha : a ∈ w := (List.mem_filter.1 (hbeside ▸ List.mem_singleton_self a : a ∈ beside w)).1
    obtain ⟨type, htype, hidentity⟩ := Option.bind_eq_some_iff.1 hid
    have hnone := hclean a ha type htype
    simp [hidentity] at hnone
  · intro hnone w hw
    by_contra hno
    refine hnone ⟨w, hw, fun a ha type htype => ?_⟩
    by_contra hbad
    have hid : a.identity? ≠ none := by
      rw [Letter.identity?, htype]
      simpa using hbad
    exact hno ⟨a, hwhole w hw a ha hid⟩

/-! ## An element that may hold an identity -/

/-- A draft with a choice between a datatype that declares an identity and text. -/
def keyOrText : Draft := (initial.after (.data (.xsd "ID") [])).after (.choice ⟨3⟩ text)

/-- The draft with one element, the content of which is the choice. -/
def keyedOrText : Draft := keyOrText.after (.element (.plain "e") ⟨4⟩ none .none)

theorem keyOrText_fresh_grammar : keyOrText.Fresh ∧ keyOrText.grammar =
    ⟨#[⟨.empty, true, .empty, none⟩, ⟨.notAllowed, false, .empty, none⟩, ⟨.text, true, .mixed, none⟩,
      ⟨.data (.xsd "ID") [], false, .simple, none⟩, ⟨.choice ⟨3⟩ text, true, .simple, none⟩], #[], #[]⟩ := by
  have hdata : (initial.after (.data (.xsd "ID") [])).Fresh := .call .initial (by simp) (by simp [Call.arguments])
  have hgrammar : (initial.after (.data (.xsd "ID") [])).grammar =
      initial.grammar.storing (.data (.xsd "ID") []) none :=
    initial_sound.toStored.grammar_intern (by simp [initial_grammar]) none
  refine ⟨.call hdata (by simp) ?_, ?_⟩
  · rw [hgrammar, initial_grammar]
    decide
  · have hchoice : keyOrText.grammar = (initial.after (.data (.xsd "ID") [])).grammar.storing (.choice ⟨3⟩ text) none :=
      hdata.sound.grammar_after_choice (by decide) (by decide) (by decide)
        (by simp [hgrammar, initial_grammar, Grammar.storing, Grammar.nodeOf, Grammar.pattern, Grammar.node])
        (by simp [hgrammar, initial_grammar, Grammar.storing, Grammar.pattern, Grammar.node, text])
        (by simp [hgrammar, initial_grammar, Grammar.storing, Grammar.nodeOf])
    rw [hchoice, hgrammar, initial_grammar]
    rfl

theorem keyOrText_has : keyOrText.grammar.Has ⟨4⟩ := by
  rw [keyOrText_fresh_grammar.2]
  decide

theorem keyedOrText_fresh : keyedOrText.Fresh :=
  .call keyOrText_fresh_grammar.1 (by simp) (List.forall_mem_singleton.2 keyOrText_has)

theorem keyedOrText_grammar : keyedOrText.grammar =
    ⟨#[⟨.empty, true, .empty, none⟩, ⟨.notAllowed, false, .empty, none⟩, ⟨.text, true, .mixed, none⟩,
      ⟨.data (.xsd "ID") [], false, .simple, none⟩, ⟨.choice ⟨3⟩ text, true, .simple, none⟩,
      ⟨.element ⟨0⟩, false, .complex, none⟩], #[⟨.plain "e", ⟨4⟩, none, .none⟩], #[]⟩ := by
  rw [keyedOrText, keyOrText_fresh_grammar.1.sound.grammar_after_element keyOrText_has, keyOrText_fresh_grammar.2]
  rfl

/-- What `keyedOrText` is compiled to. -/
def keyedOrTextSchema : Schema where
  grammar := keyedOrText.grammar
  start := ⟨5⟩
  identities := ⟨[], [(.plain "e", .id)]⟩
  contentModel := some (keyedOrText.grammar.contentModel ⟨5⟩)
  options := {}

theorem keyedOrText_checkRecursion : keyedOrText.grammar.checkRecursion ⟨5⟩ .standard = .ok () := by
  have h : Machine.run? (RecursionCheck.step keyedOrText.grammar .standard) 5 { tasks := [.visit ⟨5⟩ 0 0] } =
      some (.ok ()) := by
    simp [Machine.run?, RecursionCheck.step, RecursionCheck.visit, Limits.checkRecursion, Limits.standard,
      keyedOrText_grammar, Grammar.pattern, Grammar.node, Grammar.element, text, Pattern.operands]
  rw [Grammar.checkRecursion, Machine.run_of_run? h, Option.getD_some]

theorem keyedOrText_expand : ∃ d, keyedOrText.expand ⟨5⟩ = (.ok ⟨5⟩, d) ∧ d.grammar = keyedOrText.grammar := by
  have hn : (⟨0⟩ : ElementId) ∉ keyedOrText.expanded := keyedOrText_fresh.not_mem_expanded _
  have hrun : ∃ d, Machine.run? Expansion.step 7 ⟨keyedOrText, {}, {}, [.visit ⟨5⟩], []⟩ = some (.ok ⟨5⟩, d) ∧
      d.grammar = keyedOrText.grammar := by
    simp [Machine.run?, Expansion.step, Expansion.enter, hn, keyedOrText_grammar, Grammar.pattern, Grammar.node,
      Grammar.element, text, Expansion.State.finish, Expansion.State.schedule, Expansion.withOperands,
      Pattern.operands, setContent]
  obtain ⟨d, h, hg⟩ := hrun
  refine ⟨d, ?_, hg⟩
  rw [expand, Machine.run_of_run? h, Option.getD_some]

theorem keyedOrText_checkRestrictions : keyedOrText.grammar.checkRestrictions .standard ⟨5⟩ = .ok () := by
  have hleaf {q : PatternId} (pattern : Pattern) (levels : Nat) (s : RestrictionCheck.State)
      (hq : keyedOrText.grammar.pattern q = pattern) (ho : pattern.operands = []) (he : ∀ e, pattern ≠ .element e)
      (hd : ∀ d, pattern ≠ .ref d) (hplace : Place.prohibited? .element pattern = none) :
      (RestrictionCheck.check keyedOrText.grammar 5000 (levels + 1) q .element).runFrom s = (.ok (), s) := by
    subst hq
    exact (RestrictionCheck.check_leaf_ok ho he hd).2 ⟨hplace, rfl⟩
  have hcontent (s : RestrictionCheck.State) : ∃ u,
      (RestrictionCheck.check keyedOrText.grammar 5000 5000 ⟨4⟩ .element).runFrom s = (.ok (), u) := by
    have hchoice : keyedOrText.grammar.pattern ⟨4⟩ = .choice ⟨3⟩ text := by rw [keyedOrText_grammar]; rfl
    refine ⟨_, (RestrictionCheck.check_choice_ok hchoice).2 ⟨_, _, hleaf (.data (.xsd "ID") []) 4998 _ ?_ rfl
      (by simp) (by simp) rfl, hleaf .text 4998 _ ?_ rfl (by simp) (by simp) rfl, rfl⟩⟩ <;>
    · rw [keyedOrText_grammar]
      rfl
  have helement : keyedOrText.grammar.pattern ⟨5⟩ = .element ⟨0⟩ := by rw [keyedOrText_grammar]; rfl
  have hid : (keyedOrText.grammar.element ⟨0⟩).content = ⟨4⟩ := by rw [keyedOrText_grammar]; rfl
  have hstart : ∃ u, (RestrictionCheck.check keyedOrText.grammar 5000 5001 ⟨5⟩ .start).runFrom {} = (.ok (), u) := by
    obtain ⟨u, hu⟩ := hcontent _
    exact ⟨_, (RestrictionCheck.check_element_ok helement).2 (.inr ⟨by simp, rfl, u, hid ▸ hu, rfl⟩)⟩
  obtain ⟨u, hu⟩ := hstart
  exact congrArg Prod.fst (RestrictionCheck.isolated_ok.2 ⟨u, hu, rfl⟩)

theorem keyedOrText_identityMap : keyedOrText.grammar.identityMap ⟨5⟩ = .ok ⟨[], [(.plain "e", .id)]⟩ := by
  have hreachable : keyedOrText.grammar.reachableElements ⟨5⟩ = [⟨0⟩] := by
    simp [Grammar.reachableElements, firsts, Grammar.elementOf?, Grammar.reachable, Grammar.walkFrom, walk, Marks.upTo,
      Marks.has, Marks.mark, Grammar.successors, keyedOrText_grammar, Grammar.pattern, Grammar.node, Grammar.element,
      Pattern.operands, text]
  have hparts : IdentityCollection.parts keyedOrText.grammar ⟨4⟩ = [(⟨4⟩, true), (⟨3⟩, true), (text, true)] := by
    simp [IdentityCollection.parts, walk, Marks.upTo, Marks.has, Marks.mark, IdentityCollection.partSuccessors,
      Grammar.topSuccessors, keyedOrText_grammar, Grammar.pattern, Grammar.node, IdentityCollection.Part.number, text]
  rw [Grammar.identityMap, hreachable]
  have hcollect : IdentityCollection.collect keyedOrText.grammar {} ⟨0⟩ =
      .ok ⟨#[], #[⟨.plain "e", some .id, none⟩], #[], #[]⟩ := by
    have hid : keyedOrText.grammar.element ⟨0⟩ = ⟨.plain "e", ⟨4⟩, none, .none⟩ := by rw [keyedOrText_grammar]; rfl
    unfold IdentityCollection.collect
    dsimp only
    rw [hid, hparts, keyedOrText_grammar]
    rfl
  simp only [List.foldlM_cons, hcollect]
  rfl

theorem keyedOrText_compile : keyedOrText.compile ⟨5⟩ {} = .ok keyedOrTextSchema := by
  obtain ⟨d, h, hg⟩ := keyedOrText_expand
  refine compile_eq_ok_iff.2 ⟨?_, keyedOrText_checkRecursion, by rw [h]; rfl, by rw [h]; exact hg,
    keyedOrText_checkRestrictions, ?_, rfl, rfl⟩
  · rw [patternCount, keyedOrText_grammar]
    rfl
  · change (keyedOrText.grammar.identityMap ⟨5⟩).mapError Error.restriction = _
    rw [keyedOrText_identityMap]
    rfl

theorem keyedOrText_tree : keyedOrTextSchema.grammar.tree (keyedOrTextSchema.grammar.element ⟨0⟩).content =
    .choice (.data (.xsd "ID") []) .text := by
  have hid : (keyedOrText.grammar.element ⟨0⟩).content = ⟨4⟩ := by rw [keyedOrText_grammar]; rfl
  have hchoice : keyedOrText.grammar.pattern ⟨4⟩ = .choice ⟨3⟩ text := by rw [keyedOrText_grammar]; rfl
  have hdata : keyedOrText.grammar.pattern ⟨3⟩ = .data (.xsd "ID") [] := by rw [keyedOrText_grammar]; rfl
  have htree := keyedOrText_fresh.sound.grammar.tree_eq
  change keyedOrText.grammar.tree (keyedOrText.grammar.element ⟨0⟩).content = _
  rw [hid, htree, hchoice, Pattern.tree, htree ⟨3⟩, hdata, keyedOrText_fresh.sound.tree_text]
  rfl

theorem keyedOrText_element : keyedOrText.grammar.Has ⟨5⟩ ∧ keyedOrTextSchema.grammar.pattern ⟨5⟩ = .element ⟨0⟩ ∧
    (keyedOrTextSchema.grammar.element ⟨0⟩).names = .plain "e" := by
  change _ ∧ keyedOrText.grammar.pattern ⟨5⟩ = _ ∧ (keyedOrText.grammar.element ⟨0⟩).names = _
  rw [keyedOrText_grammar]
  exact ⟨by decide, rfl, rfl⟩

/-- The statement at `keyedOrText`, where the content can do without an identity. -/
theorem identity_is_whole_value_keyedOrText :
    keyedOrText.Fresh ∧ keyedOrText.grammar.Has ⟨5⟩ ∧ keyedOrText.compile ⟨5⟩ {} = .ok keyedOrTextSchema ∧
      keyedOrTextSchema.grammar.Reaches keyedOrTextSchema.start ⟨5⟩ ∧
      keyedOrTextSchema.grammar.pattern ⟨5⟩ = .element ⟨0⟩ ∧
      (keyedOrTextSchema.grammar.element ⟨0⟩).names.contains (.plain "e") = true ∧
      keyedOrTextSchema.identities.element? (.plain "e") = some .id ∧
      ∀ i, ¬ ∀ w ∈ keyedOrTextSchema.grammar.contentLanguage i (keyedOrTextSchema.grammar.element ⟨0⟩).content,
        ∃ a, beside w = [a] ∧ a.identity? = some .id := by
  obtain ⟨hhas, helement, hnames⟩ := keyedOrText_element
  have hn : (keyedOrTextSchema.grammar.element ⟨0⟩).names.contains (.plain "e") = true := by rw [hnames]; decide
  have hid : keyedOrTextSchema.identities.element? (.plain "e") = some .id := by decide
  refine ⟨keyedOrText_fresh, hhas, keyedOrText_compile, .refl, helement, hn, hid, fun i hall => ?_⟩
  have homits := (Fresh.identity_is_whole_value keyedOrText_fresh hhas keyedOrText_compile .refl helement hn hid i).2.1 hall
  rw [keyedOrText_tree] at homits
  revert homits
  decide

/-- The content of the element can be any text, and the text of a document that matches is refused as an identity. -/
theorem keyedOrText_refuses_text :
    let root := Item.element (.plain "e") "e" [] [.text "two words"]
    let events := [Event.startElement (.plain "e") "e" [], .text "two words", .endElement (.plain "e") "e"]
    keyedOrText.Fresh ∧ keyedOrText.grammar.Has ⟨5⟩ ∧ keyedOrText.compile ⟨5⟩ {} = .ok keyedOrTextSchema ∧
      keyedOrTextSchema.grammar.Reaches keyedOrTextSchema.start ⟨5⟩ ∧
      keyedOrTextSchema.grammar.pattern ⟨5⟩ = .element ⟨0⟩ ∧
      (keyedOrTextSchema.grammar.element ⟨0⟩).names.contains (.plain "e") = true ∧
      keyedOrTextSchema.identities.element? (.plain "e") = some .id ∧
      [Letter.text] ∈ keyedOrTextSchema.grammar.contentLanguage .literal (keyedOrTextSchema.grammar.element ⟨0⟩).content ∧
      (¬ ∃ a : Letter (Language String), beside [Letter.text] = [a] ∧ a.identity? = some .id) ∧
      keyedOrTextSchema.grammar.Matches .literal keyedOrTextSchema.start root ∧
      ((events.forM SchemaValidation.handle).runFrom
        (.newForIdentities keyedOrTextSchema .silent none)).2.context.hadError = true := by
  obtain ⟨hhas, helement, hnames⟩ := keyedOrText_element
  have hn : (keyedOrTextSchema.grammar.element ⟨0⟩).names.contains (.plain "e") = true := by rw [hnames]; decide
  have hword : [Letter.text] ∈
      keyedOrTextSchema.grammar.contentLanguage .literal (keyedOrTextSchema.grammar.element ⟨0⟩).content := by
    rw [Grammar.contentLanguage, keyedOrText_tree]
    exact .inr (Language.mem_kstar.2 ⟨[[.text]], rfl, fun _ hu => List.mem_singleton.1 hu⟩)
  have hmatches : keyedOrTextSchema.grammar.Matches .literal keyedOrTextSchema.start
      (.element (.plain "e") "e" [] [.text "two words"]) := by
    refine ⟨rfl, [.element ⟨0⟩], ?_, .element hn hword (.text (show Letter.text.Takes _ _ from trivial) .nil) .nil⟩
    have htree : keyedOrTextSchema.grammar.tree ⟨5⟩ = .element ⟨0⟩ :=
      keyedOrText_fresh.sound.grammar.pattern_eq_element_iff.1 helement
    rw [Grammar.contentLanguage, show keyedOrTextSchema.start = ⟨5⟩ from rfl, htree]
    rfl
  refine ⟨keyedOrText_fresh, hhas, keyedOrText_compile, .refl, helement, hn, by decide, hword, ?_, hmatches, by decide⟩
  rintro ⟨a, hbeside, hid⟩
  cases hbeside
  cases hid

end Draft

end RelaxNg
