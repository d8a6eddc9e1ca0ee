import RelaxNg.Proofs.Alphabet
import RelaxNg.Proofs.Draft.Asking

/-!
# The languages of what is asked for

Under an assignment of languages to references (`Assignment`), a pattern denotes a language of letters whose operands
mean their own languages, so many levels deep (`Tree.denoted`). Whatever a call drops, reorders or merges, the pattern
that it answers with denotes the operation that was asked for, applied to the languages of the operands
(`Draft.language_of_ask`). A pattern that counts as accepting no content has the empty word, and has it only then if no
reference stands at its top (`Tree.nullable_iff`).
-/

namespace RelaxNg

open Computability

/-! ## Denotations -/

/-- Languages for references, at every level of the meanings of operands. -/
abbrev Assignment : Type := (n : Nat) → DefinitionId → Language (Letter (Meaning n))

section nil

variable {α : Type} {l m : Language α}

theorem nil_mem_mul_iff : [] ∈ l * m ↔ [] ∈ l ∧ [] ∈ m := by
  rw [Language.mem_mul]
  constructor
  · rintro ⟨u, hu, v, hv, h⟩
    obtain ⟨rfl, rfl⟩ := List.append_eq_nil_iff.1 h
    exact ⟨hu, hv⟩
  · exact fun h => ⟨[], h.1, [], h.2, rfl⟩

theorem nil_mem_shuffles_iff : [] ∈ shuffles l m ↔ [] ∈ l ∧ [] ∈ m := by
  rw [mem_shuffles]
  constructor
  · rintro ⟨u, hu, v, hv, h⟩
    cases h
    exact ⟨hu, hv⟩
  · exact fun h => ⟨[], h.1, [], h.2, .nil⟩

end nil

namespace Tree

variable {X : Type} {nothing : X} {sense : Tree → X} {refs : DefinitionId → Language (Letter X)} {t : Tree}

/-- What a tree denotes, so many levels deep. -/
def denoted (refs : Assignment) : (n : Nat) → Tree → Meaning n
  | 0, _ => ()
  | n + 1, t => t.language (.nothing n) (denoted refs n) (refs n)

theorem denoted_notAllowed (refs : Assignment) (n : Nat) : notAllowed.denoted refs n = .nothing n := by
  cases n <;> rfl

/-- Without references at its top, a tree has the empty word exactly if it counts as accepting no content. -/
theorem nullable_iff (h : ∀ f, .ref f ∉ t.leaves) :
    t.nullable = true ↔ [] ∈ t.language nothing sense refs := by
  refine ⟨nil_mem_language, fun hw => ?_⟩
  induction t with
  | empty | text => rfl
  | choice left right ihl ihr =>
    simp only [leaves, List.mem_append, not_or] at h
    rw [nullable, Bool.or_eq_true]
    exact hw.imp (ihl fun f => (h f).1) (ihr fun f => (h f).2)
  | group left right ihl ihr =>
    simp only [leaves, List.mem_append, not_or] at h
    obtain ⟨hl, hr⟩ := nil_mem_mul_iff.1 hw
    rw [nullable, Bool.and_eq_true]
    exact ⟨ihl (fun f => (h f).1) hl, ihr (fun f => (h f).2) hr⟩
  | interleave left right ihl ihr =>
    simp only [leaves, List.mem_append, not_or] at h
    obtain ⟨hl, hr⟩ := nil_mem_shuffles_iff.1 hw
    rw [nullable, Bool.and_eq_true]
    exact ⟨ihl (fun f => (h f).1) hl, ihr (fun f => (h f).2) hr⟩
  | oneOrMore operand ih => exact ih h (nil_mem_mul_iff.1 hw).1
  | notAllowed => exact hw.elim
  | list | attr => exact absurd hw.1 (List.cons_ne_nil _ _).symm
  | ref f =>
    -- The one kind of leaf that may have the empty word without counting as empty.
    exact absurd (List.mem_singleton_self _) (h f)
  | data | dataExcept | value | element => exact absurd hw (List.cons_ne_nil _ _).symm

end Tree

/-! ## What calls ask for -/

/-- The language that a call asks for, told from the words of its operands and from what they mean in letters. A new
element, a reference, a definition and an expansion are not put together of languages. -/
def Call.language {X : Type} (nothing : X) (words : PatternId → Language (Letter X)) (sense : PatternId → X) :
    Call → Option (Language (Letter X))
  | data type params => some {[.data type params nothing]}
  | value type content => some {[.value type content]}
  | choice left right => some (words left + words right)
  | group left right => some (words left * words right)
  | interleave left right => some (shuffles (words left) (words right))
  | oneOrMore p => some (words p * (words p)∗)
  | optional p => some (words p + 1)
  | zeroOrMore p => some (words p)∗
  | mixed p => some (shuffles (words p) {[.text]}∗)
  | list p _ => some (wordIf (words p) (.list (sense p)))
  | dataExcept type params p _ => some {[.data type params (sense p)]}
  | attr names p _ annotations => some (wordIf (words p) (.attr names annotations (sense p)))
  | element _ _ _ _ | ref _ _ | define _ _ | expand _ => none

namespace Draft

variable {d : Draft} {p : PatternId} {c : Call} {t : Tree} {r : PatternId × Draft}

/-- The words of a pattern, in whose letters operands mean their languages so many levels deep. -/
def language (d : Draft) (refs : Assignment) (n : Nat) (p : PatternId) : Language (Letter (Meaning n)) :=
  (d.grammar.tree p).denoted refs (n + 1)

/-- The language that a call asks a draft for. -/
def wanted (d : Draft) (refs : Assignment) (n : Nat) (c : Call) : Option (Language (Letter (Meaning n))) :=
  c.language (.nothing n) (d.language refs n) fun p => (d.grammar.tree p).denoted refs n

theorem Made.language_eq (h : d.Made t r) (refs : Assignment) (n : Nat) :
    r.2.language refs n r.1 = t.denoted refs (n + 1) := by
  rw [language, h.tree_eq]

theorem language_of_ask (hd : d.Sound) (ha : ∀ p ∈ c.arguments, d.grammar.Has p) (refs : Assignment) (n : Nat)
    {l : Language (Letter (Meaning n))} (hl : d.wanted refs n c = some l) :
    ∃ q, d.ask c = some (q, d.after c) ∧ (d.after c).language refs n q = l := by
  have answered {t : Tree} {r : PatternId × Draft} (h : d.Made t r) (ht : t.denoted refs (n + 1) = l) :
      ∃ q, some r = some (q, r.2) ∧ r.2.language refs n q = l :=
    ⟨_, rfl, (h.language_eq refs n).trans ht⟩
  cases c <;> simp only [Call.arguments, List.forall_mem_cons, List.not_mem_nil, IsEmpty.forall_iff, implies_true,
    and_true] at ha <;> cases hl
  case data type params => exact answered (made_data hd type params) rfl
  case value type content => exact answered (made_value hd type content) rfl
  case choice left right => exact answered (made_choice hd ha.1 ha.2) (Tree.language_either ..)
  case group left right => exact answered (made_group hd ha.1 ha.2) (Tree.language_both_group ..)
  case interleave left right => exact answered (made_interleave hd ha.1 ha.2) (Tree.language_both_interleave ..)
  case oneOrMore p => exact answered (made_oneOrMore hd ha) (Tree.language_repeated _)
  case optional p => exact answered (made_optional hd ha) (Tree.language_either ..)
  case zeroOrMore p =>
    -- What is built is one or more, or else nothing.
    refine answered (made_zeroOrMore hd ha) ((Tree.language_either ..).trans ?_)
    rw [Tree.language_repeated, Tree.language, add_comm, Language.one_add_self_mul_kstar_eq_kstar]
    rfl
  case mixed p => exact answered (made_mixed hd ha) (Tree.language_both_interleave ..)
  case list p location => exact answered (made_list hd ha location) (Tree.language_listed _)
  case dataExcept type params p location =>
    exact answered (made_dataExcept hd type params ha location)
      (Tree.language_excepted _ _ _ (Tree.denoted_notAllowed refs n))
  case attr names p location annotations =>
    exact answered (made_attr hd names ha location annotations) (Tree.language_attributed ..)

/-- Operands keep their languages when a call is made. -/
theorem language_after (hd : d.Sound) (ha : ∀ p ∈ c.arguments, d.grammar.Has p) (hp : d.grammar.Has p)
    (refs : Assignment) (n : Nat) : (d.after c).language refs n p = d.language refs n p := by
  rw [language, language, (grows_after hd ha).2.tree_eq hp]

/-- In a draft that calls lead to, every call that puts patterns together answers with a pattern that denotes what was
asked for, under any assignment to references, and the operands denote what they denoted. A pattern that counts as
accepting no content has the empty word; it has it only then if none of its leaves is a reference, whatever stands in
its attributes, lists, exceptions and elements. -/
theorem ReachedBy.calls_denote (hd : d.Built) (refs : Assignment) (n : Nat) :
    (∀ (c : Call) (l : Language (Letter (Meaning n))), (∀ p ∈ c.arguments, d.grammar.Has p) →
      d.wanted refs n c = some l →
      (∃ q, d.ask c = some (q, d.after c) ∧ (d.after c).language refs n q = l) ∧
        ∀ p ∈ c.arguments, (d.after c).language refs n p = d.language refs n p) ∧
    (∀ p, d.grammar.nullable p = true → [] ∈ d.language refs n p) ∧
    ∀ p, (∀ f, .ref f ∉ (d.grammar.tree p).leaves) →
      (d.grammar.nullable p = true ↔ [] ∈ d.language refs n p) := by
  have hs := hd.sound
  refine ⟨fun c l ha hl => ⟨language_of_ask hs ha refs n hl, fun p hp => language_after hs ha (ha p hp) refs n⟩,
    fun p hp => ?_, fun p hp => ?_⟩
  · rw [hs.grammar.nullable_tree] at hp
    exact Tree.nil_mem_language hp
  · rw [hs.grammar.nullable_tree]
    exact Tree.nullable_iff hp

/-- The statement for an element and a reference in any order, where references stand for one text, and for any text. -/
theorem calls_denote_referring :
    let refs : Assignment := fun _ _ => {[.text]}
    let call : Call := .interleave ⟨4⟩ ⟨3⟩
    referring.Built ∧ (∀ p ∈ call.arguments, referring.grammar.Has p) ∧
      referring.wanted refs 1 call = some (shuffles {[.element ⟨0⟩]} {[.text]}) ∧
      (∃ q, referring.ask call = some (q, referring.after call) ∧
        (referring.after call).language refs 1 q = shuffles {[.element ⟨0⟩]} {[.text]}) ∧
      referring.grammar.nullable text = true ∧ (∀ f, .ref f ∉ (referring.grammar.tree text).leaves) ∧
      [] ∈ referring.language refs 1 text := by
  have hhas : ∀ p ∈ Call.arguments (.interleave ⟨4⟩ ⟨3⟩), referring.grammar.Has p := by
    rw [referring_grammar]
    decide
  have hwanted : referring.wanted (fun _ _ => {[.text]}) 1 (.interleave ⟨4⟩ ⟨3⟩) =
      some (shuffles {[.element ⟨0⟩]} {[.text]}) := by
    rw [wanted, Call.language, language, language, referring_tree, referring_tree_ref]
    rfl
  have htext : ∀ f, .ref f ∉ (referring.grammar.tree text).leaves := by
    simp [referring_fresh.sound.tree_text, Tree.leaves]
  have hnullable : referring.grammar.nullable text = true := by
    rw [referring_grammar]
    rfl
  obtain ⟨hcalls, -, hempty⟩ := ReachedBy.calls_denote referring_fresh.built (fun _ _ => {[.text]}) 1
  exact ⟨referring_fresh.built, hhas, hwanted, (hcalls _ _ hhas hwanted).1, hnullable, htext,
    (hempty text htext).1 hnullable⟩

end Draft

end RelaxNg
