import RelaxNg.Proofs.Schema
import RelaxNg.Proofs.Unguarded
import Mathlib.Data.Set.Card
import Mathlib.Order.Interval.Set.Nat
import Mathlib.Order.Interval.Finset.Nat

/-!
# How many patterns a schema has

The limit on patterns is checked for the draft, before references are resolved, and resolving them stores what is put
together anew: the parts of what the walk yields that are not stored (`Draft.additions`). So a schema has the patterns of
its draft and one for each of these (`Draft.Resolved.patternCount_eq`), and it is within the limit exactly if both
together are (`Draft.ReachedBy.compiled_within_limit_iff`).
-/

namespace RelaxNg

theorem Limits.check_eq_ok_iff {limits : Limits} {resource : Resource} {n : Nat} :
    limits.check resource n = .ok () ↔ n ≤ limits.maximum resource := by
  rw [← not_lt, Limits.check]
  split <;> simp [*]

namespace Draft

open Tree

variable {d d' : Draft} {start p : PatternId} {options : Options} {schema : Schema} {s t u : Tree}

/-- What an expansion of a tree adds to a draft: the parts of what its walk yields that are not stored. -/
def additions (d : Draft) (t : Tree) : Set Tree := {s | ¬ d.Stores s ∧ ∃ u, d.Yields t u ∧ Part s u}

/-- The new numbers after an expansion are those of what it had to add. -/
theorem Resolved.image_eq_additions (h : d.Resolved t d' u) :
    (fun i => d'.grammar.tree ⟨i⟩) '' Set.Ico d.patternCount d'.patternCount = d.additions t := by
  ext s
  constructor
  · rintro ⟨i, ⟨hle, hlt⟩, rfl⟩
    have hnew : ¬ d.grammar.Has ⟨i⟩ := not_lt.2 hle
    refine ⟨fun ⟨r, hr, ht⟩ => ?_, h.stored ⟨i⟩ hlt hnew⟩
    rw [← h.grows.tree_eq hr] at ht
    exact hnew (h.sound.tree_inj (h.grows.has hr) hlt ht ▸ hr)
  · rintro ⟨hn, u, hu, hs⟩
    obtain ⟨q, hq, rfl⟩ := (h.yielded u hu).of_part h.sound hs
    refine ⟨q.index, ⟨not_lt.1 fun hold => hn ⟨q, hold, ?_⟩, hq⟩, rfl⟩
    exact (h.grows.tree_eq hold).symm

theorem Resolved.finite_additions (h : d.Resolved t d' u) : (d.additions t).Finite := by
  rw [← h.image_eq_additions]
  exact (Set.finite_Ico _ _).image _

theorem Resolved.patternCount_eq (h : d.Resolved t d' u) :
    d'.patternCount = d.patternCount + (d.additions t).ncard := by
  have hinj : Set.InjOn (fun i => d'.grammar.tree ⟨i⟩) (Set.Ico d.patternCount d'.patternCount) := by
    intro i hi j hj hij
    cases h.sound.tree_inj (show d'.grammar.Has ⟨i⟩ from hi.2) hj.2 hij
    rfl
  have hle : d.patternCount ≤ d'.patternCount := h.grows.size_le
  rw [← h.image_eq_additions, hinj.ncard_image, ← Finset.coe_Ico, Set.ncard_coe_finset, Nat.card_Ico,
    Nat.add_sub_cancel' hle]

/-- Where no reference is reached, all that a walk yields is stored. -/
theorem additions_eq_empty (hd : d.Sound) (hp : d.grammar.Has p) (hf : d.grammar.RefFree p) :
    d.additions (d.grammar.tree p) = ∅ := by
  refine Set.eq_empty_of_forall_notMem fun s ⟨hn, u, hu, hs⟩ => hn (Stores.of_part hd ?_ hs)
  cases hu with
  | here hs hx => exact Stores.of_part hd ⟨p, hp, rfl⟩ ((hf.tree hd.grammar).part_of_expands hs hx)
  | @inner e _ _ he hs hx =>
    exact Stores.of_part hd ⟨_, hd.has_content e, rfl⟩ ((refFree_of_enters hd hf he).part_of_expands hs hx)

/-- A draft that compiles is within the limit on patterns. The schema has as many patterns as the draft and the additions
of its expansion together, so it is within the limit exactly if they are, and in any case if no reference is reached from
the start. -/
theorem ReachedBy.compiled_within_limit_iff (hd : d.Built) (hp : d.grammar.Has start)
    (h : d.compile start options = .ok schema) :
    let added := d.additions (d.grammar.tree start)
    d.patternCount ≤ options.limits.maxPatterns ∧ added.Finite ∧
      schema.grammar.nodes.size = d.patternCount + added.ncard ∧
      (schema.grammar.nodes.size ≤ options.limits.maxPatterns ↔
        d.patternCount + added.ncard ≤ options.limits.maxPatterns) ∧
      (d.grammar.RefFree start → schema.grammar.nodes.size ≤ options.limits.maxPatterns) := by
  intro added
  have hs := hd.sound
  have hc := compile_eq_ok_iff.1 h
  obtain ⟨-, hr⟩ := resolved_of_expand hs hp (Prod.ext hc.expand rfl)
  have hwithin : d.patternCount ≤ options.limits.maxPatterns := Limits.check_eq_ok_iff.1 hc.patterns
  have hsize : schema.grammar.nodes.size = d.patternCount + added.ncard := by
    rw [← hc.grammar]
    exact hr.patternCount_eq
  refine ⟨hwithin, hr.finite_additions, hsize, by rw [hsize], fun hfree => ?_⟩
  have hnone : added = ∅ := additions_eq_empty hs hp hfree
  rwa [hsize, hnone, Set.ncard_empty]

/-! ## A repeated reference -/

/-- A draft with one element, whose content repeats a reference to any text. -/
def repeatable : Draft := (repeating.after (.element (.plain "e") ⟨4⟩ none .none)).after (.define "a" text)

/-- What `repeatable` is compiled to if the limit is the number of its patterns. -/
def repeated : Schema :=
  let grammar : Grammar := ⟨repeatable.grammar.nodes.push ⟨.oneOrMore text, true, .mixed, none⟩,
    #[⟨.plain "e", ⟨6⟩, none, .none⟩], repeatable.grammar.definitions⟩
  ⟨grammar, ⟨5⟩, .empty, some (grammar.contentModel ⟨5⟩), { limits := { maxPatterns := 6 }, checkIdentity := false }⟩

theorem repeatable_grammar : repeatable.grammar =
    ⟨#[⟨.empty, true, .empty, none⟩, ⟨.notAllowed, false, .empty, none⟩, ⟨.text, true, .mixed, none⟩,
      ⟨.ref ⟨0⟩, false, .empty, none⟩, ⟨.oneOrMore ⟨3⟩, false, .empty, none⟩, ⟨.element ⟨0⟩, false, .complex, none⟩],
      #[⟨.plain "e", ⟨4⟩, none, .none⟩], #[⟨"a", some text, none⟩]⟩ := by
  have helement : (repeating.after (.element (.plain "e") ⟨4⟩ none .none)).grammar =
      ⟨#[⟨.empty, true, .empty, none⟩, ⟨.notAllowed, false, .empty, none⟩, ⟨.text, true, .mixed, none⟩,
        ⟨.ref ⟨0⟩, false, .empty, none⟩, ⟨.oneOrMore ⟨3⟩, false, .empty, none⟩, ⟨.element ⟨0⟩, false, .complex, none⟩],
        #[⟨.plain "e", ⟨4⟩, none, .none⟩], #[⟨"a", none, none⟩]⟩ := by
    rw [repeating_fresh.sound.grammar_after_element repeating_has, repeating_grammar]
    rfl
  rw [repeatable]
  generalize repeating.after (.element (.plain "e") ⟨4⟩ none .none) = d at helement
  simp [after, define, Grammar.definition?, Grammar.body?, Grammar.definition, helement]

theorem repeatable_fresh : repeatable.Fresh := by
  have helement : (repeating.after (.element (.plain "e") ⟨4⟩ none .none)).Fresh :=
    .call repeating_fresh (by simp) (by simp [Call.arguments, repeating_has])
  exact .call helement (by simp) (by simp [Call.arguments, helement.sound.has_text])

theorem repeatable_has : repeatable.grammar.Has ⟨5⟩ := by
  rw [repeatable_grammar]
  decide

theorem repeated_grammar : repeated.grammar =
    ⟨#[⟨.empty, true, .empty, none⟩, ⟨.notAllowed, false, .empty, none⟩, ⟨.text, true, .mixed, none⟩,
      ⟨.ref ⟨0⟩, false, .empty, none⟩, ⟨.oneOrMore ⟨3⟩, false, .empty, none⟩, ⟨.element ⟨0⟩, false, .complex, none⟩,
      ⟨.oneOrMore text, true, .mixed, none⟩],
      #[⟨.plain "e", ⟨6⟩, none, .none⟩], #[⟨"a", some text, none⟩]⟩ := by
  simp [repeated, repeatable_grammar]

theorem repeatable_expand : ∃ d, repeatable.expand ⟨5⟩ = (.ok ⟨5⟩, d) ∧ d.grammar = repeated.grammar := by
  have hn : (⟨0⟩ : ElementId) ∉ repeatable.expanded := repeatable_fresh.not_mem_expanded _
  -- Any text is not repeated in the draft.
  have hnew : repeatable.table.number? repeatable.grammar (.oneOrMore ⟨2⟩) = none :=
    repeatable_fresh.sound.toStored.number?_eq_none (by simp [repeatable_grammar])
  rw [repeatable_grammar, text] at hnew
  have hrun : ∃ d, Machine.run? Expansion.step 10 ⟨repeatable, {}, {}, [.visit ⟨5⟩], []⟩ = some (.ok ⟨5⟩, d) ∧
      d.grammar = repeated.grammar := by
    simp [Machine.run?, Expansion.step, Expansion.enter, hn, repeatable_grammar, Grammar.pattern, Grammar.node,
      Grammar.element, Grammar.body?, Grammar.definition, Expansion.State.finish, Pattern.operands, setContent,
      Expansion.State.schedule, Expansion.withOperands, Expansion.withOperands.made, oneOrMore, intern, store, hnew,
      repeated_grammar, text, empty, notAllowed, Grammar.nodeOf, Pattern.isNullable, Pattern.contentType,
      Grammar.nullable, Grammar.contentType]
  obtain ⟨d, h, hg⟩ := hrun
  refine ⟨d, ?_, hg⟩
  rw [expand, Machine.run_of_run? h, Option.getD_some]

theorem repeatable_checkRecursion :
    repeatable.grammar.checkRecursion ⟨5⟩ { maxPatterns := 6 } = .ok () := by
  have h : Machine.run? (RecursionCheck.step repeatable.grammar { maxPatterns := 6 }) 10 { tasks := [.visit ⟨5⟩ 0 0] } =
      some (.ok ()) := by
    simp [Machine.run?, RecursionCheck.step, RecursionCheck.visit, Limits.checkRecursion, repeatable_grammar,
      Grammar.pattern, Grammar.node, Grammar.element, Grammar.body?, Grammar.definition, text, Pattern.operands]
  rw [Grammar.checkRecursion, Machine.run_of_run? h, Option.getD_some]

theorem repeated_checkRestrictions : repeated.grammar.checkRestrictions { maxPatterns := 6 } ⟨5⟩ = .ok () := by
  have helement : repeated.grammar.pattern ⟨5⟩ = .element ⟨0⟩ := by
    rw [repeated_grammar]
    rfl
  have hcontent : (repeated.grammar.element ⟨0⟩).content = ⟨6⟩ := by
    rw [repeated_grammar]
    rfl
  have hrepeated : repeated.grammar.pattern ⟨6⟩ = .oneOrMore text := by
    rw [repeated_grammar]
    rfl
  have htext : repeated.grammar.pattern text = .text := by
    rw [repeated_grammar]
    rfl
  have hpasses (s : RestrictionCheck.State) :
      (RestrictionCheck.check repeated.grammar 5000 5000 (repeated.grammar.element ⟨0⟩).content .element).runFrom s =
        (.ok (), s) := by
    rw [hcontent]
    refine (RestrictionCheck.check_oneOrMore_ok hrepeated).2 ⟨rfl, ?_, fun _ => ?_⟩
    · refine (RestrictionCheck.check_leaf_ok ?_ ?_ ?_).2 ⟨?_, rfl⟩ <;> rw [htext]
      · rfl
      · simp
      · simp
      · rfl
    · rw [repeated_grammar]
      rfl
  have hstart : ∃ u, (RestrictionCheck.check repeated.grammar 5000 5001 ⟨5⟩ .start).runFrom {} = (.ok (), u) :=
    ⟨_, (RestrictionCheck.check_element_ok helement).2 (.inr ⟨by simp, rfl, _, hpasses _, rfl⟩)⟩
  obtain ⟨u, hu⟩ := hstart
  exact congrArg Prod.fst (RestrictionCheck.isolated_ok.2 ⟨u, hu, rfl⟩)

theorem repeatable_compile :
    repeatable.compile ⟨5⟩ { limits := { maxPatterns := 6 }, checkIdentity := false } = .ok repeated := by
  obtain ⟨d, h, hg⟩ := repeatable_expand
  refine compile_eq_ok_iff.2 ⟨?_, repeatable_checkRecursion, by rw [h]; rfl, by rw [h]; exact hg,
    repeated_checkRestrictions, rfl, rfl, rfl⟩
  rw [patternCount, repeatable_grammar]
  rfl

/-- The statement where the repetition of the text has to be added. -/
theorem compiled_within_limit_iff_repeatable :
    repeatable.Built ∧ repeatable.grammar.Has ⟨5⟩ ∧
      repeatable.compile ⟨5⟩ { limits := { maxPatterns := 6 }, checkIdentity := false } = .ok repeated ∧
      (repeatable.additions (repeatable.grammar.tree ⟨5⟩)).ncard = 1 ∧ ¬ repeatable.grammar.RefFree ⟨5⟩ := by
  have hbuilt := repeatable_fresh.built
  obtain ⟨-, -, hsize, -, hfree⟩ := hbuilt.compiled_within_limit_iff repeatable_has repeatable_compile
  have hrepeated : repeated.grammar.nodes.size = 7 := by rw [repeated_grammar]; rfl
  have hrepeatable : repeatable.patternCount = 6 := by rw [patternCount, repeatable_grammar]; rfl
  refine ⟨hbuilt, repeatable_has, repeatable_compile, by omega, fun h => absurd (hfree h) ?_⟩
  rw [hrepeated]
  decide

/-- A schema with seven patterns is compiled where six are allowed. -/
theorem repeatable_exceeds_limit :
    repeatable.Built ∧ repeatable.grammar.Has ⟨5⟩ ∧
      repeatable.compile ⟨5⟩ { limits := { maxPatterns := 6 }, checkIdentity := false } = .ok repeated ∧
      ¬ repeated.grammar.nodes.size ≤ repeated.options.limits.maxPatterns := by
  refine ⟨repeatable_fresh.built, repeatable_has, repeatable_compile, ?_⟩
  rw [repeated_grammar]
  decide

end Draft

end RelaxNg
