import RelaxNg.Grammar.Draft
import RelaxNg.Proofs.Table

/-!
# Sound drafts

In a `Draft.Sound` the grammar is sound and the table finds its patterns, so each pattern is stored once, and patterns
of one tree are the same (`Draft.Sound.tree_inj`).
-/

namespace RelaxNg

namespace Draft

/-! ## Numbers -/

/-- The patterns of a draft are sound, and its table finds each of them. -/
structure Stored (d : Draft) : Prop where
  grammar : d.grammar.Sound
  table : d.table.Keeps d.grammar

/-- The patterns of a draft are stored, among them the three leaves. -/
structure Sound (d : Draft) : Prop extends d.Stored where
  three_le : 3 ≤ d.grammar.nodes.size
  pattern_empty : d.grammar.pattern empty = .empty
  pattern_notAllowed : d.grammar.pattern notAllowed = .notAllowed
  pattern_text : d.grammar.pattern text = .text

variable {d d' : Draft} {p q : PatternId} {pattern : Pattern} {location : Option Location}

theorem Stored.pattern_inj (hd : d.Stored) (hp : d.grammar.Has p) (hq : d.grammar.Has q)
    (h : d.grammar.pattern p = d.grammar.pattern q) : p = q := hd.table.pattern_inj p q hp hq h

theorem Stored.tree_inj (hd : d.Stored) (hp : d.grammar.Has p) (hq : d.grammar.Has q)
    (h : d.grammar.tree p = d.grammar.tree q) : p = q := by
  induction hi : p.index using Nat.strong_induction_on generalizing p q with
  | _ n ih =>
    subst hi
    rw [hd.grammar.tree_eq p, hd.grammar.tree_eq q] at h
    refine hd.pattern_inj hp hq (Pattern.tree_inj (fun r hr s hs hrs => ?_) h)
    exact ih _ ((hd.grammar.settled p).operand_lt r hr) (hd.grammar.operand_has hp hr) (hd.grammar.operand_has hq hs) hrs rfl

theorem Sound.has_empty (hd : d.Sound) : d.grammar.Has empty := lt_of_lt_of_le (by decide) hd.three_le

theorem Sound.has_notAllowed (hd : d.Sound) : d.grammar.Has notAllowed := lt_of_lt_of_le (by decide) hd.three_le

theorem Sound.has_text (hd : d.Sound) : d.grammar.Has text := lt_of_lt_of_le (by decide) hd.three_le

theorem Sound.tree_empty (hd : d.Sound) : d.grammar.tree empty = .empty := by
  rw [hd.grammar.tree_eq, hd.pattern_empty, Pattern.tree]

theorem Sound.tree_notAllowed (hd : d.Sound) : d.grammar.tree notAllowed = .notAllowed := by
  rw [hd.grammar.tree_eq, hd.pattern_notAllowed, Pattern.tree]

theorem Sound.tree_text (hd : d.Sound) : d.grammar.tree text = .text := by
  rw [hd.grammar.tree_eq, hd.pattern_text, Pattern.tree]

theorem Sound.eq_empty_iff (hd : d.Sound) (hp : d.grammar.Has p) : p = empty ↔ d.grammar.tree p = .empty := by
  refine ⟨fun h => h ▸ hd.tree_empty, fun h => hd.tree_inj hp hd.has_empty ?_⟩
  rw [h, hd.tree_empty]

theorem Sound.eq_notAllowed_iff (hd : d.Sound) (hp : d.grammar.Has p) :
    p = notAllowed ↔ d.grammar.tree p = .notAllowed := by
  refine ⟨fun h => h ▸ hd.tree_notAllowed, fun h => hd.tree_inj hp hd.has_notAllowed ?_⟩
  rw [h, hd.tree_notAllowed]

theorem Sound.of_grows (hd : d.Sound) (hd' : d'.Stored) (hgh : d.grammar.Grows d'.grammar) : d'.Sound where
  toStored := hd'
  three_le := le_trans hd.three_le hgh.size_le
  pattern_empty := by rw [hgh.pattern_eq hd.has_empty, hd.pattern_empty]
  pattern_notAllowed := by rw [hgh.pattern_eq hd.has_notAllowed, hd.pattern_notAllowed]
  pattern_text := by rw [hgh.pattern_eq hd.has_text, hd.pattern_text]

theorem Sound.has_content (hd : d.Sound) (e : ElementId) : d.grammar.Has (d.grammar.element e).content := by
  by_cases he : e.index < d.grammar.elements.size
  · exact hd.grammar.content_has e he
  · have hm : d.grammar.element e = Grammar.missingElement := by
      simp [Grammar.element, Array.getD, he]
    rw [hm]
    exact hd.has_notAllowed

/-- Elements and definitions can be exchanged for as many others or more, if what they hold is stored. -/
theorem Sound.withParts (hd : d.Sound) {elements : Array Element} {definitions : Array Definition}
    (he : d.grammar.elements.size ≤ elements.size) (hf : d.grammar.definitions.size ≤ definitions.size)
    (hc : ∀ e ∈ elements, d.grammar.Has e.content)
    (hb : ∀ f ∈ definitions, ∀ b, f.body = some b → d.grammar.Has b) :
    Sound { d with grammar := { d.grammar with elements, definitions } } := by
  have hsettled (p) (_ : d.grammar.Has p) : Grammar.Settled { d.grammar with elements, definitions } p :=
    (hd.grammar.settled p).of_nodes_eq rfl he hf
  exact ⟨⟨Grammar.sound_of_parts hsettled hc hb, hd.table.congr rfl rfl⟩, hd.three_le, hd.pattern_empty,
    hd.pattern_notAllowed, hd.pattern_text⟩

theorem Sound.content_of_mem (hd : d.Sound) {e : Element} (he : e ∈ d.grammar.elements) :
    d.grammar.Has e.content := by
  obtain ⟨i, hi, rfl⟩ := Array.mem_iff_getElem.1 he
  have hel : d.grammar.element ⟨i⟩ = d.grammar.elements[i] := (Array.getElem_eq_getD _).symm
  exact hel ▸ hd.grammar.content_has ⟨i⟩ hi

theorem Sound.body_of_mem (hd : d.Sound) {f : Definition} (hf : f ∈ d.grammar.definitions) {b : PatternId}
    (hb : f.body = some b) : d.grammar.Has b := by
  obtain ⟨i, hi, rfl⟩ := Array.mem_iff_getElem.1 hf
  have hdef : d.grammar.definition ⟨i⟩ = d.grammar.definitions[i] := (Array.getElem_eq_getD _).symm
  exact hd.grammar.body_has ⟨i⟩ b (by rw [Grammar.body?, hdef, hb])

end Draft

end RelaxNg
