import RelaxNg.Proofs.Draft.Calls
import RelaxNg.Proofs.Walk

/-!
# What is reached in a draft

A tree holds the elements that are its parts or parts of the content of an element that it holds (`Draft.Holds`). What
is held is reached in the grammar, and no reference is reached from a pattern exactly if none is part of its tree and
of the contents that it holds (`Draft.refFree_iff`).
-/

namespace RelaxNg.Draft

open Relation Tree

variable {d : Draft} {p q : PatternId} {e e' : ElementId} {s t : Tree}

/-- A tree holds an element, in itself or in the content of another element that it holds. -/
inductive Holds (d : Draft) (t : Tree) : ElementId → Prop
  | here {e : ElementId} (h : Part (.element e) t) : Holds d t e
  | inner {e e' : ElementId} (h : Holds d t e) (h' : Part (.element e') (d.contents e)) : Holds d t e'

theorem exists_reaches_of_holds (hd : d.Sound) (h : d.Holds (d.grammar.tree p) e) :
    ∃ q, d.grammar.Reaches p q ∧ d.grammar.pattern q = .element e := by
  induction h with
  | here h =>
    obtain ⟨q, hq, ht⟩ := hd.grammar.exists_reaches_of_part h
    exact ⟨q, hq, hd.grammar.pattern_eq_element_iff.2 ht⟩
  | @inner e e' _ h' ih =>
    obtain ⟨q, hq, hqe⟩ := ih
    obtain ⟨r, hr, ht⟩ := hd.grammar.exists_reaches_of_part h'
    exact ⟨r, hq.trans (.head (Grammar.content_mem_successors hqe) hr), hd.grammar.pattern_eq_element_iff.2 ht⟩

theorem refFree_of_holds (hd : d.Sound) (ht : (d.grammar.tree p).RefFree)
    (hc : ∀ e, d.Holds (d.grammar.tree p) e → (d.contents e).RefFree) : d.grammar.RefFree p := by
  have key (q) (hq : d.grammar.Reaches p q) : (d.grammar.tree q).RefFree ∧
      ∀ e, Part (.element e) (d.grammar.tree q) → d.Holds (d.grammar.tree p) e := by
    induction hq with
    | refl => exact ⟨ht, fun e he => .here he⟩
    | @tail q r _ hr ih =>
      obtain ⟨hfree, hparts⟩ := ih
      unfold Grammar.successors at hr
      split at hr
      · next e he =>
        have hh := hparts e (hd.grammar.pattern_eq_element_iff.1 he ▸ .refl _)
        rw [List.mem_singleton.1 hr]
        exact ⟨hc e hh, fun e' he' => .inner hh he'⟩
      · next f hf => exact absurd (hd.grammar.pattern_eq_ref_iff.1 hf ▸ .refl _) (hfree f)
      · have ho : d.grammar.tree r ∈ (d.grammar.tree q).operands := hd.grammar.operands_tree q ▸ List.mem_map_of_mem hr
        exact ⟨hfree.of_operand ho, fun e he => hparts e (.operand ho he)⟩
  intro q hq f hf
  exact (key q hq).1 f (hd.grammar.pattern_eq_ref_iff.1 hf ▸ .refl _)

/-- No reference is reached from a pattern exactly if none is part of its tree or of a content that it holds. -/
theorem refFree_iff (hd : d.Sound) : d.grammar.RefFree p ↔
    (d.grammar.tree p).RefFree ∧ ∀ e, d.Holds (d.grammar.tree p) e → (d.contents e).RefFree := by
  refine ⟨fun h => ⟨h.tree hd.grammar, fun e he => ?_⟩, fun h => refFree_of_holds hd h.1 h.2⟩
  obtain ⟨q, hq, hqe⟩ := exists_reaches_of_holds hd he
  exact ((h.of_reaches hq).of_successor (Grammar.content_mem_successors hqe)).tree hd.grammar

/-! ## After an expansion -/

/-- No reference is reached from what an expansion answers with, if none is reached from an element that was marked
before. -/
theorem refFree_of_resolved {d' : Draft} (h : d.Resolved t d' (d'.grammar.tree q))
    (hmarked : ∀ m ∈ d.expanded, ∀ e, d.Holds (.element m) e → (d.contents e).RefFree) : d'.grammar.RefFree q := by
  have hfree {e} (he : e ∈ d'.expanded) (hn : e ∉ d.expanded) : (d'.contents e).RefFree :=
    (h.completed e he hn).1.refFree
  have key (e) (he : d'.Holds (d'.grammar.tree q) e) :
      (e ∈ d'.expanded ∧ e ∉ d.expanded) ∨ ∃ m ∈ d.expanded, d.Holds (.element m) e := by
    have marked {e} (he : e ∈ d'.expanded) :
        (e ∈ d'.expanded ∧ e ∉ d.expanded) ∨ ∃ m ∈ d.expanded, d.Holds (.element m) e := by
      by_cases hm : e ∈ d.expanded
      · exact .inr ⟨e, hm, .here (.refl _)⟩
      · exact .inl ⟨he, hm⟩
    induction he with
    | here hp => exact marked (h.met _ (h.expands.spans_of_part rfl hp))
    | @inner e e' _ hp ih =>
      rcases ih with ⟨he, hn⟩ | ⟨m, hm, hh⟩
      · obtain ⟨hx, hc⟩ := h.completed e he hn
        exact marked (hc e' (hx.spans_of_part rfl hp))
      · rcases h.kept e with hk | ⟨hn, he, hx⟩
        · exact .inr ⟨m, hm, .inner hh (hk ▸ hp)⟩
        · exact marked ((h.completed e he hn).2 e' (hx.spans_of_part rfl hp))
  refine refFree_of_holds h.sound h.expands.refFree fun e he => ?_
  rcases key e he with ⟨he, hn⟩ | ⟨m, hm, hh⟩
  · exact hfree he hn
  · rcases h.kept e with hk | ⟨hn, he, hx⟩
    · exact hk ▸ hmarked m hm e hh
    · exact hx.refFree

end RelaxNg.Draft
