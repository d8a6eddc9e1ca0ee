import RelaxNg.Proofs.Schema
import RelaxNg.Proofs.Unguarded

/-!
# Expanding again

Where a walk comes to no reference (`Draft.Finished`), all that it does is to mark the elements that it enters
(`Draft.Marked`): every pattern becomes itself, so none is put together anew, and every element keeps its content
(`Expansion.returns`). So it is with a pattern from which no reference is reached. What an expansion answered with holds
no reference and leads to marked elements only, so to expand it again does nothing at all
(`Draft.ReachedBy.expand_again`).
-/

namespace RelaxNg

namespace Draft

open Tree

/-- Some of the elements that a walk from a tree enters were marked, and nothing else was done. -/
inductive Marked (d : Draft) (t : Tree) : Draft → Prop
  | refl : Marked d t d
  | mark {d' : Draft} {e : ElementId} (h : Marked d t d') (he : d.Enters t e) : Marked d t (d'.mark e)

/-- No reference is left in a tree, nor in the content of an element that a walk from it enters. -/
structure Finished (d : Draft) (t : Tree) : Prop where
  refFree : t.RefFree
  contents : ∀ e, d.Enters t e → (d.contents e).RefFree

variable {d d₁ d₂ : Draft} {p : PatternId} {e : ElementId} {s t : Tree}

theorem Marked.exists_eq (h : d.Marked t d₁) : ∃ marks, d₁ = { d with expanded := marks } := by
  induction h with
  | refl => exact ⟨d.expanded, rfl⟩
  | mark _ _ ih =>
    obtain ⟨marks, rfl⟩ := ih
    exact ⟨_, rfl⟩

theorem Marked.grammar_eq (h : d.Marked t d₁) : d₁.grammar = d.grammar := by
  obtain ⟨marks, rfl⟩ := h.exists_eq
  rfl

theorem Marked.advance (hd : d.Sound) (h : d.Marked t d₁) : d.Advance d₁ := by
  induction h with
  | refl => exact .refl hd
  | mark _ _ ih => exact ih.trans hd (advance_mark ih.sound _)

theorem Marked.eq_self (h : d.Marked t d₁) (hn : ∀ e, ¬ d.Enters t e) : d₁ = d := by
  cases h with
  | refl => rfl
  | mark _ he => exact absurd he (hn _)

theorem Marked.trans (h : d.Marked t d₁) (h' : d₁.Marked s d₂) (he : ∀ e, d₁.Enters s e → d.Enters t e) :
    d.Marked t d₂ := by
  induction h' with
  | refl => exact h
  | mark _ hm ih => exact .mark ih (he _ hm)

/-- What the walk from an element marks: the element, and what the walk from its content marks. -/
theorem Marked.of_content (hd : d.Sound) (hm : e ∉ d.expanded) (h : (d.mark e).Marked (d.contents e) d₁) :
    d.Marked (.element e) d₁ :=
  have hself : d.Enters (.element e) e := .here .refl hm
  (Marked.refl.mark hself).trans h fun _ he => hself.trans (he.of_advance hd (advance_mark hd e))

theorem Finished.of_spans (h : d.Finished t) (hs : t.Spans d.bodies s) : d.Finished s where
  refFree := h.refFree.of_part (h.refFree.part_of_spans hs)
  contents e he := h.contents e (he.of_spans hs)

theorem Finished.of_enters (h : d.Finished t) (he : d.Enters t e) : d.Finished (d.contents e) where
  refFree := h.contents e he
  contents e' he' := h.contents e' (he.trans he')

theorem Finished.of_marked (hd : d.Sound) (h : d.Finished t) (hm : d.Marked s d₁) : d₁.Finished t where
  refFree := h.refFree
  contents e he := by
    have hcontents : d₁.contents e = d.contents e := by rw [Draft.contents, Draft.contents, hm.grammar_eq]
    rw [hcontents]
    exact h.contents e (he.of_advance hd (hm.advance hd))

/-- Nothing is left to do where no reference is reached. -/
theorem finished_of_refFree (hd : d.Sound) (hf : d.grammar.RefFree p) : d.Finished (d.grammar.tree p) where
  refFree := hf.tree hd.grammar
  contents _ he := refFree_of_enters hd hf he

theorem Resolved.not_enters (h : d.Resolved t d₁ s) : ¬ d₁.Enters s e :=
  not_enters_of_spans fun _ hs =>
    h.met _ (h.expands.spans_of_part rfl (h.expands.refFree.part_of_spans hs))

/-- Nothing is left to do for what an expansion answers with. -/
theorem Resolved.finished (h : d.Resolved t d₁ s) : d₁.Finished s where
  refFree := h.expands.refFree
  contents _ he := absurd he h.not_enters

theorem setContent_self (d : Draft) (e : ElementId) : d.setContent e (d.grammar.element e).content = d := by
  have helements :
      (d.grammar.elements.modify e.index fun old => { old with content := (d.grammar.element e).content }) =
        d.grammar.elements := by
    refine Array.ext (by simp) fun i hi hi' => ?_
    rw [Array.getElem_modify]
    split
    · next heq =>
      subst heq
      simp [Grammar.element, Array.getD, hi']
    · rfl
  rw [setContent, helements]

end Draft

namespace Expansion

open Machine Tree

variable {d d₁ : Draft} {done : Std.HashMap PatternId PatternId} {active : Std.HashSet DefinitionId} {p : PatternId}
  {e : ElementId} {t : Tree} {rest : List Task} {results : List PatternId}

/-- The patterns that are done became themselves. -/
def Fixed (done : Std.HashMap PatternId PatternId) : Prop := ∀ p q : PatternId, done[p]? = some q → q = p

theorem Fixed.insert (h : Fixed done) (p : PatternId) : Fixed (done.insert p p) := by
  intro p' q hq
  rw [Std.HashMap.getElem?_insert] at hq
  split at hq
  · next heq =>
    cases hq
    exact eq_of_beq heq
  · exact h p' q hq

/-- The tasks on top of the others are done, with some outcomes, and the walk from a tree did nothing but mark. -/
def Passes (d : Draft) (t : Tree) (done : Std.HashMap PatternId PatternId) (active : Std.HashSet DefinitionId)
    (tasks : List Task) (outcomes : List PatternId) : Prop :=
  ∀ rest results, ∃ d' done', d.Marked t d' ∧ Fixed done' ∧
    Leads step ⟨d, done, active, tasks ++ rest, results⟩ ⟨d', done', active, rest, outcomes ++ results⟩

/-- A pattern becomes itself. -/
def Returns (d : Draft) (p : PatternId) : Prop :=
  ∀ done active, Fixed done → Passes d (d.grammar.tree p) done active [.visit p] [p]

theorem passes_self (hf : Fixed done) (hs : ∀ rest results, step ⟨d, done, active, .visit p :: rest, results⟩ =
    .inl (State.finish ⟨d, done, active, rest, results⟩ p p)) : Passes d t done active [.visit p] [p] :=
  fun rest results => ⟨d, done.insert p p, .refl, hf.insert p, .single (hs rest results)⟩

/-- Patterns become themselves one after the other if each does, with the marks of those before it. -/
theorem passes_all (hd : d.Sound) (hf : Fixed done) {ps : List PatternId}
    (ht : ∀ p ∈ ps, t.Spans d.bodies (d.grammar.tree p)) (hv : ∀ p ∈ ps, ∀ d₁, d.Marked t d₁ → Returns d₁ p) :
    Passes d t done active (ps.map .visit) ps.reverse := by
  induction ps generalizing d done with
  | nil => exact fun rest results => ⟨d, done, .refl, hf, .refl _⟩
  | cons p ps ih =>
    intro rest results
    simp only [List.forall_mem_cons] at ht hv
    obtain ⟨d₁, done₁, hm₁, hf₁, hl₁⟩ := hv.1 d .refl done active hf (ps.map .visit ++ rest) results
    have hm : d.Marked t d₁ := .trans .refl hm₁ fun _ he => he.of_spans ht.1
    have ha := hm.advance hd
    have hlater {d₂ : Draft} (hm₂ : d₁.Marked t d₂) : d.Marked t d₂ := hm.trans hm₂ fun _ he => he.of_advance hd ha
    have ht₁ (q) (hq : q ∈ ps) : t.Spans d₁.bodies (d₁.grammar.tree q) := by
      rw [ha.bodies_eq hd, hm.grammar_eq]
      exact ht.2 q hq
    obtain ⟨d₂, done₂, hm₂, hf₂, hl₂⟩ :=
      ih ha.sound hf₁ ht₁ (fun q hq d₂ hm₂ => hv.2 q hq d₂ (hlater hm₂)) rest (p :: results)
    refine ⟨d₂, done₂, hlater hm₂, hf₂, ?_⟩
    simpa using hl₁.trans hl₂

/-- The operands became themselves, so the pattern is not put together anew. -/
theorem passes_operands (hd : d.Sound) (hf : Fixed done) (hn : done[p]? = none)
    (ho : (d.grammar.pattern p).operands ≠ [])
    (hv : ∀ q ∈ (d.grammar.pattern p).operands, ∀ d₁, d.Marked (d.grammar.tree p) d₁ → Returns d₁ q) :
    Passes d (d.grammar.tree p) done active [.visit p] [p] := by
  intro rest results
  have hspans (q) (hq : q ∈ (d.grammar.pattern p).operands) : (d.grammar.tree p).Spans d.bodies (d.grammar.tree q) :=
    hd.spans_tree (.single (Grammar.mem_spanSuccessors_of_operand hq))
  obtain ⟨d', done', hm, hf', hl⟩ := passes_all hd hf hspans hv (.rebuild p :: rest) results
  have hoperands : (d'.grammar.pattern p).operands = (d.grammar.pattern p).operands := by rw [hm.grammar_eq]
  have hsame : withOperands d' p (d.grammar.pattern p).operands = (.ok p, d') := by simp [withOperands, hoperands, ho]
  have hrebuild : step ⟨d', done', active, .rebuild p :: rest, (d.grammar.pattern p).operands.reverse ++ results⟩ =
      .inl ⟨d', done'.insert p p, active, rest, p :: results⟩ := by
    exact step_rebuild (r := (p, d')) (by rw [hoperands]) hsame
  exact ⟨d', done'.insert p p, hm, hf'.insert p, .head (step_operands hn ho) (hl.trans (.single hrebuild))⟩

/-- The content became itself, so the element keeps it. -/
theorem passes_element (hd : d.Sound) (hf : Fixed done) (hn : done[p]? = none) (hp : d.grammar.pattern p = .element e)
    (hmark : e ∉ d.expanded) (hv : Returns (d.mark e) (d.grammar.element e).content) :
    Passes d (d.grammar.tree p) done active [.visit p] [p] := by
  intro rest results
  obtain ⟨d', done', hm, hf', hl⟩ := hv done {} hf (.leaveElement p e active :: rest) results
  have hself : d'.setContent e (d.grammar.element e).content = d' := by
    have hg : d'.grammar = d.grammar := hm.grammar_eq
    rw [← hg]
    exact d'.setContent_self e
  have hleave : step ⟨d', done', {}, .leaveElement p e active :: rest, (d.grammar.element e).content :: results⟩ =
      .inl ⟨d', done'.insert p p, active, rest, p :: results⟩ := by
    simp only [step, hself, State.finish]
  refine ⟨d', done'.insert p p, ?_, hf'.insert p, .head (step_element hn hp hmark) (hl.trans (.single hleave))⟩
  rw [hd.grammar.pattern_eq_element_iff.1 hp]
  exact .of_content hd hmark hm

/-- A pattern becomes itself if no reference is left in it. -/
theorem returns {d : Draft} {p : PatternId} (hd : d.Sound) (hp : d.grammar.Has p) (ht : d.Finished (d.grammar.tree p)) :
    Returns d p := by
  intro done active hf
  cases hn : done[p]? with
  | some q =>
    cases hf p q hn
    exact fun rest results => ⟨d, done, .refl, hf, .single (by simp [step, hn])⟩
  | none =>
    have hsettled := hd.grammar.settled p
    by_cases he : ∃ e, d.grammar.pattern p = .element e
    · obtain ⟨e, he⟩ := he
      by_cases hmark : e ∈ d.expanded
      · exact passes_self hf fun _ _ => step_marked hn he hmark
      · have hlt := unmarked_mark_lt (hsettled.element_lt e he) hmark
        rw [hd.grammar.pattern_eq_element_iff.1 he] at ht
        have hself : d.Marked (.element e) (d.mark e) := .mark .refl (.here .refl hmark)
        exact passes_element hd hf hn he hmark (returns (Draft.advance_mark hd e).sound (hd.has_content e)
          ((ht.of_enters (.here .refl hmark)).of_marked hd hself))
    have hr (f) (h : d.grammar.pattern p = .ref f) : False := by
      refine ht.refFree f ?_
      rw [hd.grammar.pattern_eq_ref_iff.1 h]
      exact .refl _
    simp only [not_exists] at he
    by_cases ho : (d.grammar.pattern p).operands = []
    · exact passes_self hf fun _ _ => step_leaf hn ho he hr
    · refine passes_operands hd hf hn ho fun q hq d₁ hm => ?_
      have hle := unmarked_le (hm.advance hd)
      have hlt := hsettled.operand_lt q hq
      refine returns (hm.advance hd).sound ?_ ?_
      · rw [hm.grammar_eq]
        exact hd.grammar.operand_has hp hq
      · rw [hm.grammar_eq]
        exact (ht.of_spans (hd.spans_tree (.single (Grammar.mem_spanSuccessors_of_operand hq)))).of_marked hd hm
-- Operands have smaller numbers, and a content costs an unmarked element.
termination_by (unmarked d, p.index)
decreasing_by
  · exact .left _ _ hlt
  · rcases Nat.lt_or_eq_of_le hle with h | h
    · exact .left _ _ h
    · rw [h]
      exact .right _ hlt

end Expansion

namespace Draft

variable {d : Draft} {p : PatternId}

/-- Where no reference is left, an expansion answers with the pattern and marks some elements. -/
theorem expand_of_finished (hd : d.Sound) (hp : d.grammar.Has p) (ht : d.Finished (d.grammar.tree p)) :
    ∃ d', d.expand p = (.ok p, d') ∧ d.Marked (d.grammar.tree p) d' := by
  obtain ⟨d', done', hm, -, hl⟩ := Expansion.returns hd hp ht {} {} (fun _ _ h => by simp at h) [] []
  have hend : Expansion.step ⟨d', done', {}, [], [p]⟩ = .inr (.ok p, d') := rfl
  refine ⟨d', ?_, hm⟩
  have hrun := hl.run_eq_some hend
  rw [List.singleton_append] at hrun
  rw [expand, hrun, Option.getD_some]

/-- To expand what an expansion answered with does nothing and answers with it again. To expand a pattern from which no
reference is reached answers with the pattern, and nothing but the marks of elements can be changed by it. -/
theorem ReachedBy.expand_again (hd : d.Built) (hp : d.grammar.Has p) :
    (∀ q d', d.expand p = (.ok q, d') → d'.expand q = (.ok q, d')) ∧
    (d.grammar.RefFree p → ∃ marks, d.expand p = (.ok p, { d with expanded := marks })) := by
  refine ⟨fun q d' h => ?_, fun hf => ?_⟩
  · obtain ⟨hq, hr⟩ := resolved_of_expand hd.sound hp h
    obtain ⟨d₁, h₁, hm⟩ := expand_of_finished hr.sound hq hr.finished
    rwa [hm.eq_self fun _ => hr.not_enters] at h₁
  · obtain ⟨d₁, h₁, hm⟩ := expand_of_finished hd.sound hp (finished_of_refFree hd.sound hf)
    obtain ⟨marks, rfl⟩ := hm.exists_eq
    exact ⟨marks, h₁⟩

/-- The statement for an element that refers to any text, and for any text itself. -/
theorem expand_again_resolvable : resolvable.Built ∧ resolvable.grammar.Has ⟨4⟩ ∧ resolvable.grammar.Has text ∧
    resolvable.grammar.RefFree text ∧
    (∃ d, resolvable.expand ⟨4⟩ = (.ok ⟨4⟩, d) ∧ d.grammar = resolved.grammar ∧ d.expand ⟨4⟩ = (.ok ⟨4⟩, d)) ∧
    ∃ marks, resolvable.expand text = (.ok text, { resolvable with expanded := marks }) := by
  have hbuilt := resolvable_fresh.built
  have hhas : resolvable.grammar.Has ⟨4⟩ := by
    rw [resolvable_grammar, referring_grammar]
    decide
  have htext := hbuilt.sound.has_text
  have hpattern := hbuilt.sound.pattern_text
  have hfree : resolvable.grammar.RefFree text := by
    intro q hq f hf
    rcases hq.cases_head with rfl | ⟨r, hr, -⟩
    · simp [hpattern] at hf
    · simp [Grammar.successors, hpattern, Pattern.operands] at hr
  obtain ⟨d, h, hg⟩ := resolvable_expand
  exact ⟨hbuilt, hhas, htext, hfree, ⟨d, h, hg, (hbuilt.expand_again hhas).1 _ _ h⟩,
    (hbuilt.expand_again htext).2 hfree⟩

end Draft

end RelaxNg
