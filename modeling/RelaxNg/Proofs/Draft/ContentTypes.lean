import RelaxNg.Proofs.Draft.Canonical
import Mathlib.Order.Lattice

/-!
# What simplification says of content

The content type of a choice is the highest one among its alternatives, and the choice accepts no content if one of
them does (`Tree.rank_le_iff`, `Tree.nullable_iff_exists`). Simplification merges alternatives and drops what is empty
or dead, but it never loses the alternative that decides. So what is stored for the outcome of an operation is what
would be told from its operands without any simplification (`Draft.ReachedBy.keeps_contentType`). The one exception is
a dead pattern beside another one: nothing is left of the content type of the other one.
-/

namespace RelaxNg

namespace Tree

variable {s t u : Tree} {together : Tree → Tree → Tree} {n : Nat}

/-! ## Choices -/

theorem rank_le_iff : t.contentType.rank ≤ n ↔ ∀ a ∈ t.alternatives, a.contentType.rank ≤ n := by
  induction t with
  | choice left right ihl ihr =>
    rw [contentType, ContentType.rank_combine, max_le_iff, ihl, ihr, alternatives, List.forall_mem_append]
  | _ => simp [alternatives]

theorem nullable_iff_exists : t.nullable = true ↔ ∃ a ∈ t.alternatives, a.nullable = true := by
  induction t with
  | choice left right ihl ihr =>
    simp only [nullable, Bool.or_eq_true, ihl, ihr, alternatives, List.mem_append, or_and_right, exists_or]
  | _ => simp [alternatives]

theorem mem_alternatives_addAlternatives (hu : u.Canonical) : s ∈
    (t.addAlternatives t.alternatives u.alternatives).alternatives ↔ s ∈ t.alternatives ∨ s ∈ u.alternatives := by
  rw [alternatives_addAlternatives (fun a ha => alternatives_eq_self (ne_choice_of_mem_alternatives ha))
    hu.nodup_alternatives, List.mem_append, List.mem_filter, decide_eq_true_iff]
  tauto

theorem rank_either (hu : u.Canonical) :
    (t.either u).contentType.rank = max t.contentType.rank u.contentType.rank := by
  unfold either
  split_ifs with h₁ h₂ h₃ h₄
  · rcases h₁ with rfl | rfl
    · exact (max_self _).symm
    · exact (Nat.max_zero _).symm
  · rw [h₂]
    exact (Nat.zero_max _).symm
  · rw [h₃.1]
    exact (Nat.zero_max _).symm
  · rw [h₄.1]
    exact (Nat.max_zero _).symm
  · refine eq_of_forall_ge_iff fun n => ?_
    rw [max_le_iff, rank_le_iff, rank_le_iff, rank_le_iff]
    simp only [mem_alternatives_addAlternatives hu, or_imp, forall_and]

theorem nullable_either (hu : u.Canonical) : (t.either u).nullable = (t.nullable || u.nullable) := by
  unfold either
  split_ifs with h₁ h₂ h₃ h₄
  · rcases h₁ with rfl | rfl
    · exact (Bool.or_self _).symm
    · exact (Bool.or_false _).symm
  · rw [h₂]
    exact (Bool.false_or _).symm
  · rw [h₃.2, Bool.or_true]
  · rw [h₄.2, Bool.true_or]
  · rw [Bool.eq_iff_iff, Bool.or_eq_true, nullable_iff_exists, nullable_iff_exists, nullable_iff_exists]
    simp only [mem_alternatives_addAlternatives hu, or_and_right, exists_or]

/-! ## Order and repetition -/

theorem rank_both (ht : t ≠ notAllowed) (hu : u ≠ notAllowed)
    (hc : (together t u).contentType = t.contentType.combine u.contentType) :
    (both together t u).contentType.rank = max t.contentType.rank u.contentType.rank := by
  unfold both
  split_ifs with h₁ h₂ h₃
  · rw [h₁]
    exact (Nat.zero_max _).symm
  · rw [h₂]
    exact (Nat.max_zero _).symm
  · exact absurd h₃ (not_or.2 ⟨ht, hu⟩)
  · rw [hc, ContentType.rank_combine]

theorem nullable_both (hn : (together t u).nullable = (t.nullable && u.nullable)) :
    (both together t u).nullable = (t.nullable && u.nullable) := by
  unfold both
  split_ifs with h₁ h₂ h₃
  · rw [h₁]
    exact (Bool.true_and _).symm
  · rw [h₂]
    exact (Bool.and_true _).symm
  · rcases h₃ with rfl | rfl
    · exact (Bool.false_and _).symm
    · exact (Bool.and_false _).symm
  · exact hn

theorem contentType_repeated (t : Tree) : t.repeated.contentType = t.contentType := by
  unfold repeated
  split_ifs
  · rfl
  · split <;> rfl

theorem nullable_repeated (t : Tree) : t.repeated.nullable = t.nullable := by
  unfold repeated
  split_ifs
  · rfl
  · split <;> rfl

end Tree

namespace Draft

variable {d : Draft} {p q : PatternId} {t : Tree} {r : PatternId × Draft}

theorem Made.contentType_eq (h : d.Made t r) : r.2.grammar.contentType r.1 = t.contentType := by
  rw [h.sound.grammar.contentType_tree, h.tree_eq]

theorem Made.nullable_eq (h : d.Made t r) : r.2.grammar.nullable r.1 = t.nullable := by
  rw [h.sound.grammar.nullable_tree, h.tree_eq]

/-- In a draft that calls lead to, a choice has the higher content type of its operands, and it accepts no content if
one of them does. The same is the content type of two patterns in order or in any order, unless one of them is dead,
and they accept no content if both do. A repeated pattern has the content type of the pattern and accepts no content if
it does. -/
theorem ReachedBy.keeps_contentType (hd : d.Built) (hp : d.grammar.Has p) (hq : d.grammar.Has q) :
    let rank (r : PatternId × Draft) := (r.2.grammar.contentType r.1).rank
    let nullable (r : PatternId × Draft) := r.2.grammar.nullable r.1
    (rank (d.choice p q) = max (rank (p, d)) (rank (q, d)) ∧
      nullable (d.choice p q) = (nullable (p, d) || nullable (q, d))) ∧
    (p ≠ notAllowed → q ≠ notAllowed →
      rank (d.group p q) = max (rank (p, d)) (rank (q, d)) ∧
      rank (d.interleave p q) = max (rank (p, d)) (rank (q, d))) ∧
    (nullable (d.group p q) = (nullable (p, d) && nullable (q, d)) ∧
      nullable (d.interleave p q) = (nullable (p, d) && nullable (q, d))) ∧
    rank (d.oneOrMore p) = rank (p, d) ∧ nullable (d.oneOrMore p) = nullable (p, d) := by
  intro rank nullable
  have hs := hd.sound
  have hc := hd.canonical_trees q hq
  have hchoice := made_choice hs hp hq
  have hgroup := made_group hs hp hq
  have hinterleave := made_interleave hs hp hq
  have hrepeated := made_oneOrMore hs hp
  simp only [rank, nullable, hchoice.contentType_eq, hchoice.nullable_eq, hgroup.contentType_eq, hgroup.nullable_eq,
    hinterleave.contentType_eq, hinterleave.nullable_eq, hrepeated.contentType_eq, hrepeated.nullable_eq,
    hs.grammar.contentType_tree, hs.grammar.nullable_tree, ne_eq, hs.eq_notAllowed_iff hp, hs.eq_notAllowed_iff hq]
  refine ⟨⟨Tree.rank_either hc, Tree.nullable_either hc⟩, fun hnp hnq => ?_, ?_, ?_⟩
  · exact ⟨Tree.rank_both hnp hnq rfl, Tree.rank_both hnp hnq rfl⟩
  · exact ⟨Tree.nullable_both rfl, Tree.nullable_both rfl⟩
  · exact ⟨congrArg ContentType.rank (Tree.contentType_repeated _), Tree.nullable_repeated _⟩

/-- A value in a choice with text counts as a value that may be left out. -/
theorem keeps_contentType_sharing :
    sharing.Built ∧ sharing.grammar.Has text ∧ sharing.grammar.Has ⟨6⟩ ∧ text ≠ notAllowed ∧
      (⟨6⟩ : PatternId) ≠ notAllowed ∧
      ((sharing.choice text ⟨6⟩).2.grammar.contentType (sharing.choice text ⟨6⟩).1).rank = 3 ∧
      (sharing.choice text ⟨6⟩).2.grammar.nullable (sharing.choice text ⟨6⟩).1 = true ∧
      ((sharing.group text ⟨6⟩).2.grammar.contentType (sharing.group text ⟨6⟩).1).rank = 3 := by
  have hhas : sharing.grammar.Has text ∧ sharing.grammar.Has ⟨6⟩ := by
    rw [sharing_grammar]
    decide
  have hrank : max (sharing.grammar.contentType text).rank (sharing.grammar.contentType ⟨6⟩).rank = 3 := by
    rw [sharing_grammar]
    decide
  have hnullable : (sharing.grammar.nullable text || sharing.grammar.nullable ⟨6⟩) = true := by
    rw [sharing_grammar]
    decide
  obtain ⟨hchoice, hbeside, -, -⟩ := ReachedBy.keeps_contentType sharing_built hhas.1 hhas.2
  have hgroup := (hbeside (by decide) (by decide)).1
  exact ⟨sharing_built, hhas.1, hhas.2, by decide, by decide, hchoice.1.trans hrank, hchoice.2.trans hnullable,
    hgroup.trans hrank⟩

end Draft

end RelaxNg
