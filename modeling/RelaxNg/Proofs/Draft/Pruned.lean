import RelaxNg.Proofs.Draft.Canonical

/-!
# Nothing is put together of nothing

No part of a canonical tree is dead: the tree is `Tree.Pruned`, which is to say that it is `notAllowed` or that
`notAllowed` is not part of it. So in a draft that calls lead to no operand accepts nothing (`Draft.ReachedBy.pruned`),
and a walk that expands a tree leaves no content with a dead part (`Draft.Resolved.pruned`).
-/

namespace RelaxNg

namespace Tree

variable {t o : Tree}

/-- What accepts nothing is no part of a tree, except that it may be the whole of it. -/
def Pruned (t : Tree) : Prop := t = notAllowed ∨ t.Lacks notAllowed

theorem Canonical.operand_ne (h : t.Canonical) (ho : o ∈ t.operands) : o ≠ notAllowed := by
  have hreduced := h.reduced
  cases t with
  | choice left right =>
    -- What accepts nothing is no choice, so it is an alternative itself.
    rintro rfl
    refine hreduced.2.2 (List.mem_append.2 ?_)
    rcases List.mem_pair.1 ho with rfl | rfl
    · exact .inl (List.mem_singleton_self _)
    · exact .inr (List.mem_singleton_self _)
  | group left right | interleave left right =>
    rcases List.mem_pair.1 ho with rfl | rfl
    · exact hreduced.1.2
    · exact hreduced.2.2
  | oneOrMore operand =>
    cases List.mem_singleton.1 ho
    exact hreduced.2.1
  | list | dataExcept | attr =>
    cases List.mem_singleton.1 ho
    exact hreduced
  | empty | notAllowed | text | data | value | element | ref => cases ho

theorem Canonical.pruned (h : t.Canonical) : t.Pruned := by
  induction t using induction_on_operands with
  | h t ih =>
    by_cases ht : t = notAllowed
    · exact .inl ht
    · exact .inr (lacks_of_operands ht fun o ho => (ih o ho (h.of_operand ho)).resolve_left (h.operand_ne ho))

end Tree

namespace Draft

variable {d d' : Draft} {t u : Tree}

/-- No operand of a pattern is the pattern that accepts nothing. -/
def Pruned (d : Draft) : Prop := ∀ p, notAllowed ∉ (d.grammar.pattern p).operands

theorem ReachedBy.pruned {allowed : Call → Prop} (h : ReachedBy allowed d) : d.Pruned := by
  intro p hmem
  have hd := h.sound
  have hp : d.grammar.Has p := Grammar.has_of_pattern_ne fun heq => by simp [heq, Pattern.operands] at hmem
  refine (h.canonical_trees p hp).operand_ne ?_ rfl
  rw [hd.grammar.operands_tree, ← hd.tree_notAllowed]
  exact List.mem_map_of_mem hmem

/-- A walk through a canonical draft comes to a pruned tree and leaves pruned contents. -/
theorem Resolved.pruned (hr : d.Resolved t d' u) (h : d.Canonical) (hd : d.Sound) (ht : t.Canonical) :
    u.Pruned ∧ ∀ e, (d'.contents e).Pruned := by
  have hbodies f b (hb : d.bodies f = some b) := h.bodies hd hb
  exact ⟨(hr.expands.canonical hbodies ht).pruned, fun e =>
    ((hr.toWalked.canonical h hd ht).contents hr.sound e).pruned⟩

end Draft

end RelaxNg
