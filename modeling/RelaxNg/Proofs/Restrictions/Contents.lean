import RelaxNg.Proofs.Restrictions.Places
import RelaxNg.Proofs.Walk

/-!
# Contents that passed

A check that passes has checked the operands of a pattern one after the other (`Runs`), so that all that stands in a
pattern that passed has passed in some check (`Passed`). The content of every element that it entered it has checked in
a check of its own, with no attributes collected before (`Passes`). In a grammar that passed this holds of all elements
that are reached, however often they occur.
-/

namespace RelaxNg

open Relation

namespace Grammar

variable {g : Grammar} {p q : PatternId}

/-- A pattern stands in a content, but in no element of it. -/
def Within (g : Grammar) : PatternId → PatternId → Prop := ReflTransGen fun p q => q ∈ (g.pattern p).operands

theorem Within.reaches (h : g.Within p q) : g.Reaches p q :=
  ReflTransGen.mono (fun _ _ => mem_successors_of_operand) _ _ h

end Grammar

namespace RestrictionCheck

variable {g : Grammar} {limit levels : Nat} {p q : PatternId} {place : Place} {s u : State} {e : ElementId}

/-- Patterns passed one after the other, in some places; what is told are the elements entered before and after. -/
inductive Runs (g : Grammar) (limit levels : Nat) : Entered → List PatternId → Entered → Prop
  | nil (c : Entered) : Runs g limit levels c [] c
  | cons {q : PatternId} {qs : List PatternId} {place : Place} {s u : State} {c mid c' : Entered}
      (h : (check g limit levels q place).runFrom s = (.ok (), u)) (hs : s.checked = c) (hu : u.checked = mid)
      (rest : Runs g limit levels mid qs c') : Runs g limit levels c (q :: qs) c'

theorem check_ok_runs (he : ∀ e, g.pattern p ≠ .element e) (hr : ∀ d, g.pattern p ≠ .ref d)
    (h : (check g limit (levels + 1) p place).runFrom s = (.ok (), u)) :
    Runs g limit levels s.checked (g.pattern p).operands u.checked := by
  cases hp : g.pattern p with
  | element e => exact absurd hp (he e)
  | ref d => exact absurd hp (hr d)
  | choice left right =>
    obtain ⟨t, w, ht, hw, rfl⟩ := (check_choice_ok hp).1 h
    exact .cons ht rfl rfl (.cons hw rfl rfl (.nil _))
  | group left right =>
    obtain ⟨-, t, ht, hw, -⟩ := (check_group_ok hp).1 h
    exact .cons ht rfl rfl (.cons hw rfl rfl (.nil _))
  | interleave left right =>
    obtain ⟨-, a, b, t, w, hleft, hright, -, -, -, rfl⟩ := (check_interleave_ok hp).1 h
    obtain ⟨t, ht, -, rfl⟩ := side_ok.1 hleft
    obtain ⟨w, hw, -, rfl⟩ := side_ok.1 hright
    exact .cons ht rfl rfl (.cons hw rfl rfl (.nil _))
  | oneOrMore operand => exact .cons ((check_oneOrMore_ok hp).1 h).2.1 rfl rfl (.nil _)
  | list operand =>
    obtain ⟨-, t, ht, rfl⟩ := (check_list_ok hp).1 h
    exact .cons ht rfl rfl (.nil _)
  | dataExcept type params except =>
    obtain ⟨-, t, ht, rfl⟩ := (check_dataExcept_ok hp).1 h
    exact .cons ht rfl rfl (.nil _)
  | attr names value annotations =>
    obtain ⟨-, -, t, w, hn, hw, rfl⟩ := (check_attr_ok hp).1 h
    refine .cons hw ?_ rfl (.nil _)
    rcases addAttribute_ok.1 hn with ⟨-, rfl⟩ | ⟨_, _, -, -, rfl⟩ <;> rfl
  | empty | notAllowed | text | data | value =>
    rw [check_leaf_ok (by simp [hp, Pattern.operands]) he hr] at h
    rw [h.2]
    exact .nil _

/-- A pattern passed in some check. -/
def Passed (g : Grammar) (limit : Nat) (p : PatternId) : Prop :=
  ∃ levels place s u, (check g limit levels p place).runFrom s = (.ok (), u)

theorem Runs.passed {before after : Entered} {ps : List PatternId} (h : Runs g limit levels before ps after)
    (hq : q ∈ ps) : Passed g limit q := by
  induction h with
  | nil => cases hq
  | cons h _ _ _ ih =>
    rcases List.mem_cons.1 hq with rfl | hq
    · exact ⟨_, _, _, _, h⟩
    · exact ih hq

/-- What stands in a pattern that passed has passed, too. -/
theorem Passed.of_within (h : Passed g limit p) (hr : g.RefFree p) (hq : g.Within p q) : Passed g limit q := by
  induction hq using ReflTransGen.head_induction_on with
  | refl => exact h
  | @head p r hpr _ ih =>
    refine ih ?_ (hr.of_operand hpr)
    have he (e) : g.pattern p ≠ .element e := by
      intro he
      simp [he, Pattern.operands] at hpr
    obtain ⟨levels, place, s, u, h⟩ := h
    cases levels with
    | zero => exact absurd h check_zero_ok
    | succ levels => exact (check_ok_runs he (hr p .refl) h).passed hpr

/-- The content of an element passes, with no attributes collected before. -/
def Passes (g : Grammar) (limit : Nat) (e : ElementId) : Prop :=
  ∃ levels s u, s.attributes = some .empty ∧ s.alphabet = none ∧
    (check g limit levels (g.element e).content .element).runFrom s = (.ok (), u)

/-- Every element that a check entered passes. -/
theorem passes_of_check (hr : g.RefFree p) (h : (check g limit levels p place).runFrom s = (.ok (), u))
    (hu : u.checked.contains e = true) (hs : s.checked.contains e = false) : Passes g limit e := by
  induction levels generalizing p place s u with
  | zero => exact absurd h check_zero_ok
  | succ levels ih =>
    by_cases he : ∃ e, g.pattern p = .element e
    · obtain ⟨e', hp⟩ := he
      rcases (check_element_ok hp).1 h with ⟨-, rfl⟩ | ⟨-, -, t, ht, rfl⟩
      · rw [hu] at hs
        cases hs
      · by_cases hee : e' = e
        · subst hee
          exact ⟨levels, _, t, rfl, rfl, ht⟩
        · refine ih (hr.of_successor (Grammar.content_mem_successors hp)) ht hu ?_
          rw [Std.HashSet.contains_insert, hs, Bool.or_false]
          exact beq_false_of_ne hee
    · have hruns := check_ok_runs (not_exists.1 he) (hr p .refl) h
      have hqs (q) (hq : q ∈ (g.pattern p).operands) : g.RefFree q := hr.of_operand hq
      -- The element was entered in the check of one of the operands.
      have key {c c' : Entered} {qs : List PatternId} (hruns : Runs g limit levels c qs c')
          (hqs : ∀ q ∈ qs, g.RefFree q) (hc : c.contains e = false) (hc' : c'.contains e = true) :
          Passes g limit e := by
        induction hruns with
        | nil c =>
          rw [hc] at hc'
          cases hc'
        | @cons q qs place s u c mid c' h hs hu rest ihr =>
          rw [List.forall_mem_cons] at hqs
          cases hmid : mid.contains e with
          | true => exact ih hqs.1 h (hu ▸ hmid) (hs ▸ hc)
          | false => exact ihr hqs.2 hmid hc'
      exact key hruns hqs hs hu

end RestrictionCheck

namespace Grammar

open RestrictionCheck

variable {g : Grammar} {limits : Limits} {start p q : PatternId} {e : ElementId}

theorem exists_occurs_of_reaches (h : g.Reaches start p) : ∃ place, g.Occurs start p place := by
  induction h with
  | refl => exact ⟨.start, .refl⟩
  | @tail p q _ hq ih =>
    obtain ⟨place, ho⟩ := ih
    suffices hb : ∃ inner, g.Below (p, place) (q, inner) by
      obtain ⟨inner, hb⟩ := hb
      exact ⟨inner, ho.tail hb⟩
    unfold successors at hq
    unfold Below below
    cases hp : g.pattern p <;> simp_all [Pattern.operands] <;> grind

/-- In a grammar that passed, the content of every element that is reached passes. -/
theorem passes_of_reaches (hr : g.RefFree start) (hok : g.checkRestrictions limits start = .ok ())
    (hp : g.Reaches start p) (he : g.pattern p = .element e) : Passes g limits.maxRecursionDepth e := by
  obtain ⟨t, ht, -, hall⟩ := exists_cleared hr hok
  obtain ⟨place, ho⟩ := exists_occurs_of_reaches hp
  have hentered : t.checked.contains e = true := by simpa [Cleared, he] using hall p place ho
  exact passes_of_check hr ht hentered (by simp)

end Grammar

end RelaxNg
