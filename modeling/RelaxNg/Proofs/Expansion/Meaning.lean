import RelaxNg.Proofs.Draft.Calls
import RelaxNg.Proofs.Language

/-!
# Expansion keeps meanings

Putting bodies in the place of references changes no meaning (`Tree.Expands.meaning_eq`), because a reference means what
the body of its definition means and simplification keeps languages. So an expansion answers with a pattern of the same
language, and the contents of elements keep theirs (`Draft.expand_keeps_languages`).
-/

namespace RelaxNg

namespace Tree

variable {bodies : DefinitionId → Option Tree} {t u v : Tree} {outcomes : List Tree}

/-- A tree that is put together from operands of the same meanings has the same meaning. -/
theorem Rebuilt.meaning_eq (h : Rebuilt t outcomes v)
    (hm : ∀ i (_ : i < t.operands.length) (_ : i < outcomes.length) n,
      t.operands[i].meaning bodies n = outcomes[i].meaning bodies n)
    (n : Nat) : t.meaning bodies n = v.meaning bodies n := by
  cases n with
  | zero => rfl
  | succ n =>
    -- Operands of letters are looked into one level less deep than the others.
    rcases h with _ | ⟨left, right, l, r⟩ | ⟨left, right, l, r⟩ | ⟨left, right, l, r⟩ | ⟨operand, o⟩ | ⟨operand, o⟩ |
      ⟨type, params, operand, o⟩ | ⟨names, operand, annotations, o⟩
    · rfl
    · have hleft := hm 0 (by simp [operands]) (by simp) (n + 1)
      have hright := hm 1 (by simp [operands]) (by simp) (n + 1)
      simp only [operands, List.getElem_cons_zero, List.getElem_cons_succ, meaning] at hleft hright
      rw [meaning, meaning, language_either, ← hleft, ← hright, language]
    · have hleft := hm 0 (by simp [operands]) (by simp) (n + 1)
      have hright := hm 1 (by simp [operands]) (by simp) (n + 1)
      simp only [operands, List.getElem_cons_zero, List.getElem_cons_succ, meaning] at hleft hright
      rw [meaning, meaning, language_both_group, ← hleft, ← hright, language]
    · have hleft := hm 0 (by simp [operands]) (by simp) (n + 1)
      have hright := hm 1 (by simp [operands]) (by simp) (n + 1)
      simp only [operands, List.getElem_cons_zero, List.getElem_cons_succ, meaning] at hleft hright
      rw [meaning, meaning, language_both_interleave, ← hleft, ← hright, language]
    · have ho := hm 0 (by simp [operands]) (by simp) (n + 1)
      simp only [operands, List.getElem_cons_zero, meaning] at ho
      rw [meaning, meaning, language_repeated, ← ho, language]
    · have ho := hm 0 (by simp [operands]) (by simp) (n + 1)
      have hs := hm 0 (by simp [operands]) (by simp) n
      simp only [operands, List.getElem_cons_zero, meaning] at ho hs
      rw [meaning, meaning, language_listed, ← ho, ← hs, language]
    · have hs := hm 0 (by simp [operands]) (by simp) n
      simp only [operands, List.getElem_cons_zero] at hs
      rw [meaning, meaning, language_excepted _ _ _ (meaning_notAllowed n), ← hs, language]
    · have ho := hm 0 (by simp [operands]) (by simp) (n + 1)
      have hs := hm 0 (by simp [operands]) (by simp) n
      simp only [operands, List.getElem_cons_zero, meaning] at ho hs
      rw [meaning, meaning, language_attributed, ← ho, ← hs, language]

/-- Putting bodies in the place of references changes no meaning. -/
theorem Expands.meaning_eq (h : Expands bodies t u) (n : Nat) : t.meaning bodies n = u.meaning bodies n := by
  induction h generalizing n with
  | ref hb _ ih => exact (meaning_ref hb n).trans (ih n)
  | rebuild _ hl _ ih => exact (rebuilt hl).meaning_eq ih n

end Tree

namespace Draft

variable {d d' : Draft} {p q : PatternId}

/-- What a pattern means, so many levels deep. -/
def meaning (d : Draft) (n : Nat) (p : PatternId) : Meaning n := (d.grammar.tree p).meaning d.bodies n

/-- A pattern of a draft has the language of a pattern of another draft, however deep one looks into the operands of
letters. -/
def SameLanguage (d : Draft) (p : PatternId) (d' : Draft) (p' : PatternId) : Prop :=
  ∀ n, d.meaning n p = d'.meaning n p'

theorem sameLanguage_of_expands (hb : d'.bodies = d.bodies)
    (h : Tree.Expands d.bodies (d.grammar.tree p) (d'.grammar.tree q)) : d.SameLanguage p d' q := by
  intro n
  rw [meaning, meaning, hb]
  exact h.meaning_eq n

/-- A pattern that an expansion answers with has the language of the pattern that was asked for, and the content of
every element has the language that it had before. -/
theorem expand_keeps_languages (hd : d.Built) (hp : d.grammar.Has p) (h : d.expand p = (.ok q, d')) :
    d.SameLanguage p d' q ∧
      ∀ e, d.SameLanguage (d.grammar.element e).content d' (d'.grammar.element e).content := by
  obtain ⟨-, hr⟩ := resolved_of_expand hd.sound hp h
  have hb := hr.bodies_eq hd.sound
  refine ⟨sameLanguage_of_expands hb hr.expands, fun e => ?_⟩
  rcases hr.kept e with hk | ⟨-, -, hx⟩
  · intro n
    rw [meaning, meaning, hb]
    exact congrArg (Tree.meaning d.bodies n) hk.symm
  · exact sameLanguage_of_expands hb hx

/-- The statement where the content of an element, a reference, becomes the body of the definition. -/
theorem expand_keeps_languages_resolvable :
    resolvable.Built ∧ resolvable.grammar.Has ⟨4⟩ ∧ ∃ q d', resolvable.expand ⟨4⟩ = (.ok q, d') ∧
      d'.contents ⟨0⟩ = .text ∧ resolvable.SameLanguage ⟨4⟩ d' q ∧
      resolvable.SameLanguage (resolvable.grammar.element ⟨0⟩).content d' (d'.grammar.element ⟨0⟩).content := by
  have hs := resolvable_fresh.sound
  have hp : resolvable.grammar.Has ⟨4⟩ := by
    rw [resolvable_grammar, referring_grammar]
    decide
  have hcontents : resolvable.contents ⟨0⟩ = .ref ⟨0⟩ := by rw [resolvable_contents, referring_contents]
  have htext : Tree.Expands resolvable.bodies (.ref ⟨0⟩) .text :=
    .ref resolvable_bodies (.of_leaf (by simp) rfl)
  have hent : resolvable.Enters (resolvable.grammar.tree ⟨4⟩) ⟨0⟩ := by
    rw [resolvable_tree, referring_tree]
    exact .here .refl (resolvable_fresh.not_mem_expanded _)
  have hx (e) : Tree.Expandable resolvable.bodies (resolvable.contents e) := by
    by_cases he : e = ⟨0⟩
    · rw [he, hcontents]
      exact ⟨_, htext⟩
    · have hmissing : (resolvable.grammar.element e).content = notAllowed := by
        obtain ⟨i⟩ := e
        have hi : ¬ i < 1 := fun h => he (congrArg ElementId.mk (Nat.lt_one_iff.1 h))
        simp [resolvable_grammar, referring_grammar, Grammar.element, Array.getD, hi, Grammar.missingElement, notAllowed]
      rw [contents, hmissing, hs.tree_notAllowed]
      exact ⟨_, .of_leaf (by simp) rfl⟩
  have hleaf : Tree.Expandable resolvable.bodies (resolvable.grammar.tree ⟨4⟩) := by
    rw [resolvable_tree, referring_tree]
    exact ⟨_, .of_leaf (by simp) rfl⟩
  obtain ⟨q, d', h⟩ := (expand_ok_iff hs hp).2 ⟨hleaf, fun e _ => hx e⟩
  obtain ⟨-, hr⟩ := resolved_of_expand hs hp h
  have hc := (hr.completed _ (hr.mem_of_enters hent) hent.not_mem).1
  rw [hcontents] at hc
  have hkeep := expand_keeps_languages resolvable_fresh.built hp h
  exact ⟨resolvable_fresh.built, hp, q, d', h, hc.unique htext, hkeep.1, hkeep.2 ⟨0⟩⟩

end Draft

end RelaxNg
