import RelaxNg.Proofs.Draft.Reach
import RelaxNg.Proofs.Unguarded

/-!
# Where an expansion fails

On a draft that nothing was expanded on, an expansion fails for two reasons only: a reference is reached to which no
body belongs, or one to a definition that recurs. It fails wherever there is such a reference, however deep in
elements and however late the walk comes there, and the error names one of these definitions. What is answered
otherwise leads to no reference.
-/

namespace RelaxNg.Draft

open Relation Tree

variable {d d' : Draft} {p q : PatternId} {e : ElementId} {f : DefinitionId} {t : Tree} {error : Error}

/-- What a tree is to blame for is a fault of every pattern from which its references are reached. -/
theorem Blames.faults (hd : d.Sound) (h : d.Blames t error)
    (hp : ∀ f, t.Spans d.bodies (.ref f) → d.grammar.Refers p f) : d.grammar.Faults p error := by
  cases h with
  | undefined loc hs hf => exact .undefined loc (hp _ hs) (by simpa [bodies] using hf)
  | recursive loc hs hc => exact .recursive loc (hp _ hs) (hd.recurs_iff.2 hc)

variable (hm : ∀ e, e ∉ d.expanded)

include hm

theorem Refused.faults (hd : d.Sound) (h : d.Refused (d.grammar.tree p) d' error) : d.grammar.Faults p error := by
  rcases h.blamed with ⟨hb, -⟩ | ⟨e, he, hn, hb⟩
  · exact hb.faults hd fun f hs => (hd.refers_iff hm).2 (.inl hs)
  · exact hb.faults hd fun f hs => (hd.refers_iff hm).2 (.inr ⟨e, h.entered e he hn, hs⟩)

theorem not_expandable_of_refers (hd : d.Sound) (hf : d.grammar.Refers p f)
    (hn : ¬ Expandable d.bodies (.ref f)) : ¬ (Expandable d.bodies (d.grammar.tree p) ∧
      ∀ e, d.Enters (d.grammar.tree p) e → Expandable d.bodies (d.contents e)) := by
  rintro ⟨hx, hc⟩
  rcases (hd.refers_iff hm).1 hf with hs | ⟨e, he, hs⟩
  · exact hn (hx.spans hs)
  · exact hn ((hc e he).spans hs)

omit hm

/-- An expansion succeeds exactly if every reference that is reached has a body behind it and none of the definitions
recurs. What it answers leads to no reference, and an error names a definition that is at fault. -/
theorem Fresh.expand_exact (hd : d.Fresh) (hp : d.grammar.Has p) :
    ((∃ q d', d.expand p = (.ok q, d')) ↔
      ∀ f, d.grammar.Refers p f → d.grammar.body? f ≠ none ∧ ¬ d.grammar.Recurs f) ∧
    (∀ q d', d.expand p = (.ok q, d') → d'.grammar.RefFree q) ∧
    ∀ error d', d.expand p = (.error error, d') → d.grammar.Faults p error := by
  have hs := hd.sound
  have hm := hd.not_mem_expanded
  have herror (error d') (h : d.expand p = (.error error, d')) : d.grammar.Faults p error :=
    (refused_of_expand hs hp h).faults hm hs
  refine ⟨⟨fun hok f hf => ⟨fun hb => ?_, fun hr => ?_⟩, fun hall => ?_⟩, fun q d' h => ?_, herror⟩
  · have hn : ¬ Expandable d.bodies (.ref f) := not_expandable_of_undefined (by simp [bodies, hb])
    exact not_expandable_of_refers hm hs hf hn ((expand_ok_iff hs hp).1 hok)
  · have hn : ¬ Expandable d.bodies (.ref f) := not_expandable_of_cycle (hs.recurs_iff.1 hr)
    exact not_expandable_of_refers hm hs hf hn ((expand_ok_iff hs hp).1 hok)
  · rcases expand_cases hs hp with ⟨q, d', h, -⟩ | ⟨error, d', h, -⟩
    · exact ⟨q, d', h⟩
    · obtain ⟨f, hf, hbad⟩ := (herror error d' h).exists_refers
      exact absurd hbad (not_or.2 (hall f hf))
  -- No element was marked before, so all that are reached were completed on the way.
  · exact refFree_of_resolved (resolved_of_expand hs hp h).2 fun e he => absurd he (hm e)

/-- The body of a definition that recurs does not expand, and the error names the definition. -/
theorem expand_exact_looping : looping.Fresh ∧ looping.grammar.Has ⟨4⟩ ∧
    ∃ d' loc, looping.expand ⟨4⟩ = (.error (.recursion (.recursiveReference "a" loc)), d') := by
  obtain ⟨hok, -, herror⟩ := looping_fresh.expand_exact looping_has
  refine ⟨looping_fresh, looping_has, ?_⟩
  have hfail : ¬ ∃ q d', looping.expand ⟨4⟩ = (.ok q, d') := fun h => (hok.1 h ⟨0⟩ looping_refers).2 looping_recurs
  rcases expand_cases looping_fresh.sound looping_has with ⟨q, d', h, -⟩ | ⟨error, d', h, -⟩
  · exact absurd ⟨q, d', h⟩ hfail
  · have hfaults := herror error d' h
    have honly {f : DefinitionId} (hf : looping.grammar.Refers ⟨4⟩ f) : f = ⟨0⟩ := by
      obtain ⟨q, -, hq⟩ := hf
      exact looping_eq hq
    cases hfaults with
    | undefined loc hf hb =>
      rw [honly hf, looping_grammar] at hb
      cases hb
    | recursive loc hf hr =>
      rw [honly hf, looping_name] at h
      exact ⟨d', loc, h⟩

end RelaxNg.Draft
