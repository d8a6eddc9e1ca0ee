import RelaxNg.Proofs.Tree
import Mathlib.Data.Nat.Basic

/-!
# Sound grammars

`Grammar.Sound` says that patterns are stored behind their operands together with what their operands tell of them, and
that no number points outside the grammar. `Grammar.Grows` is what happens to the stored patterns of a grammar: nothing
but that more are stored and that missing locations are completed. `Grammar.storing` is the grammar with one more
pattern, which is sound if the parts of the pattern are there (`Grammar.Sound.settled_storing`).
-/

namespace RelaxNg

theorem PatternId.index_injective : Function.Injective PatternId.index := by
  rintro ⟨i⟩ ⟨j⟩ h
  exact congrArg PatternId.mk h

namespace Pattern

theorem isNullable_congr {f f' : PatternId → Bool} {pattern : Pattern} (h : ∀ q ∈ pattern.operands, f q = f' q) :
    pattern.isNullable f = pattern.isNullable f' := by
  cases pattern <;> simp_all [isNullable, operands]

theorem contentType_congr {f f' : PatternId → ContentType} {pattern : Pattern}
    (h : ∀ q ∈ pattern.operands, f q = f' q) : pattern.contentType f = pattern.contentType f' := by
  cases pattern <;> simp_all [contentType, operands]

end Pattern

namespace Grammar

/-! ## Stored patterns -/

/-- A pattern is stored under a number. -/
def Has (g : Grammar) (p : PatternId) : Prop := p.index < g.nodes.size

instance (g : Grammar) (p : PatternId) : Decidable (g.Has p) := inferInstanceAs (Decidable (_ < _))

/-- A pattern stands behind its operands, what is stored with it is told from them, and the numbers of elements and
definitions point into the grammar. -/
structure Settled (g : Grammar) (p : PatternId) : Prop where
  operand_lt : ∀ q ∈ (g.pattern p).operands, q.index < p.index
  nullable_eq : g.nullable p = (g.pattern p).isNullable g.nullable
  contentType_eq : g.contentType p = (g.pattern p).contentType g.contentType
  element_lt : ∀ e, g.pattern p = .element e → e.index < g.elements.size
  ref_lt : ∀ d, g.pattern p = .ref d → d.index < g.definitions.size

/-- All patterns are settled, and the contents of elements and the bodies of definitions are stored. -/
structure Sound (g : Grammar) : Prop where
  settled : ∀ p, g.Settled p
  content_has : ∀ e : ElementId, e.index < g.elements.size → g.Has (g.element e).content
  body_has : ∀ d b, g.body? d = some b → g.Has b

/-- A pattern can be stored: its parts are there. -/
structure Fits (g : Grammar) (pattern : Pattern) : Prop where
  operand_has : ∀ q ∈ pattern.operands, g.Has q
  element_lt : ∀ e, pattern = .element e → e.index < g.elements.size
  ref_lt : ∀ d, pattern = .ref d → d.index < g.definitions.size

variable {g h k : Grammar} {p q : PatternId}

theorem node_of_not_has (hp : ¬ g.Has p) : g.node p = missingNode := by
  simp [node, Array.getD, show ¬ p.index < g.nodes.size from hp]

theorem has_of_pattern_ne (h : g.pattern p ≠ .notAllowed) : g.Has p := by
  by_contra hn
  exact h (by rw [pattern, node_of_not_has hn, missingNode])

theorem exists_has_of_mem {n : Node} (hn : n ∈ g.nodes) : ∃ p, g.Has p ∧ g.node p = n := by
  obtain ⟨i, hi, rfl⟩ := Array.mem_iff_getElem.1 hn
  exact ⟨⟨i⟩, hi, (Array.getElem_eq_getD _).symm⟩

theorem settled_of_missing (h : g.node p = missingNode) : g.Settled p := by
  constructor <;> simp [pattern, nullable, contentType, h, missingNode, Pattern.operands, Pattern.isNullable,
    Pattern.contentType]

/-- It suffices to look at the patterns, the contents and the bodies that there are. -/
theorem sound_of_parts (hn : ∀ p, g.Has p → g.Settled p) (he : ∀ e ∈ g.elements, g.Has e.content)
    (hd : ∀ f ∈ g.definitions, ∀ b ∈ f.body, g.Has b) : g.Sound := by
  refine ⟨fun p => ?_, fun e hlt => ?_, fun d b hb => ?_⟩
  · by_cases hp : g.Has p
    · exact hn p hp
    · exact settled_of_missing (node_of_not_has hp)
  · rw [element, ← Array.getElem_eq_getD (h := hlt)]
    exact he _ (Array.getElem_mem hlt)
  · unfold body? definition Array.getD at hb
    split at hb
    · exact hd _ (Array.getElem_mem _) b hb
    · cases hb

theorem Sound.operand_has (hg : g.Sound) (hp : g.Has p) (hq : q ∈ (g.pattern p).operands) : g.Has q :=
  lt_trans ((hg.settled p).operand_lt q hq) hp

theorem Sound.tree_eq (hg : g.Sound) (p : PatternId) : g.tree p = (g.pattern p).tree g.tree := by
  rw [tree]
  refine Pattern.tree_congr fun q hq => ?_
  rw [dif_pos ((hg.settled p).operand_lt q hq)]

theorem Sound.operands_tree (hg : g.Sound) (p : PatternId) :
    (g.tree p).operands = (g.pattern p).operands.map g.tree := by
  rw [hg.tree_eq, Tree.operands_pattern_tree]

theorem Sound.pattern_eq_element_iff {e : ElementId} (hg : g.Sound) :
    g.pattern p = .element e ↔ g.tree p = .element e := by
  rw [hg.tree_eq p]
  cases g.pattern p <;> simp [Pattern.tree]

theorem Sound.pattern_eq_ref_iff {d : DefinitionId} (hg : g.Sound) : g.pattern p = .ref d ↔ g.tree p = .ref d := by
  rw [hg.tree_eq p]
  cases g.pattern p <;> simp [Pattern.tree]

theorem Sound.nullable_tree (hg : g.Sound) (p : PatternId) : g.nullable p = (g.tree p).nullable := by
  induction hp : p.index using Nat.strong_induction_on generalizing p with
  | _ n ih =>
    subst hp
    have ih (q) (hq : q ∈ (g.pattern p).operands) := ih _ ((hg.settled p).operand_lt q hq) q rfl
    rw [(hg.settled p).nullable_eq, hg.tree_eq]
    cases hp : g.pattern p <;> simp_all [Pattern.isNullable, Pattern.tree, Pattern.operands, Tree.nullable]

theorem Sound.contentType_tree (hg : g.Sound) (p : PatternId) : g.contentType p = (g.tree p).contentType := by
  induction hp : p.index using Nat.strong_induction_on generalizing p with
  | _ n ih =>
    subst hp
    have ih (q) (hq : q ∈ (g.pattern p).operands) := ih _ ((hg.settled p).operand_lt q hq) q rfl
    rw [(hg.settled p).contentType_eq, hg.tree_eq]
    cases hp : g.pattern p <;> simp_all [Pattern.contentType, Pattern.tree, Pattern.operands, Tree.contentType]

theorem alternatives_eq_self (h : ∀ left right, g.pattern p ≠ .choice left right) : g.alternatives p = [p] := by
  rw [alternatives, alternativesBefore]
  split
  · next left right hp => exact absurd hp (h left right)
  · rfl

/-! ## Growth -/

/-- More patterns may be stored and missing locations may be completed; nothing else happens to stored patterns. -/
structure Grows (g h : Grammar) : Prop where
  size_le : g.nodes.size ≤ h.nodes.size
  pattern_eq : ∀ {p}, g.Has p → h.pattern p = g.pattern p
  nullable_eq : ∀ {p}, g.Has p → h.nullable p = g.nullable p
  contentType_eq : ∀ {p}, g.Has p → h.contentType p = g.contentType p
  location_eq : ∀ {p loc}, g.location? p = some loc → h.location? p = some loc

theorem Grows.refl (g : Grammar) : g.Grows g := ⟨le_rfl, fun _ => rfl, fun _ => rfl, fun _ => rfl, id⟩

theorem Grows.has (hgh : g.Grows h) (hp : g.Has p) : h.Has p := lt_of_lt_of_le hp hgh.size_le

theorem Grows.trans (hgh : g.Grows h) (hhk : h.Grows k) : g.Grows k :=
  ⟨le_trans hgh.size_le hhk.size_le, fun hp => (hhk.pattern_eq (hgh.has hp)).trans (hgh.pattern_eq hp),
    fun hp => (hhk.nullable_eq (hgh.has hp)).trans (hgh.nullable_eq hp),
    fun hp => (hhk.contentType_eq (hgh.has hp)).trans (hgh.contentType_eq hp),
    fun hl => hhk.location_eq (hgh.location_eq hl)⟩

theorem Grows.of_nodes_eq (hgh : g.nodes = h.nodes) : g.Grows h := by
  have hn (p) : h.node p = g.node p := by simp [node, hgh]
  exact ⟨by rw [hgh], fun _ => by simp [pattern, hn], fun _ => by simp [nullable, hn],
    fun _ => by simp [contentType, hn], by simp [location?, hn]⟩

theorem Grows.tree_eq (hgh : g.Grows h) (hp : g.Has p) : h.tree p = g.tree p := by
  induction hi : p.index using Nat.strong_induction_on generalizing p with
  | _ n ih =>
    subst hi
    rw [tree, tree, hgh.pattern_eq hp]
    refine Pattern.tree_congr fun q _ => ?_
    split
    · next hq => exact ih _ hq (lt_trans hq hp) rfl
    · rfl

theorem tree_eq_of_nodes_eq (hgh : g.nodes = h.nodes) : g.tree = h.tree := by
  have hpat : g.pattern = h.pattern := by
    funext p
    simp [pattern, node, hgh]
  funext p
  induction hi : p.index using Nat.strong_induction_on generalizing p with
  | _ n ih =>
    subst hi
    rw [tree, tree, hpat]
    refine Pattern.tree_congr fun q _ => ?_
    split
    · next hq => exact ih _ hq q rfl
    · rfl

theorem Settled.of_grows (hp : g.Settled p) (hgh : g.Grows h) (hh : g.Has p)
    (he : g.elements.size ≤ h.elements.size) (hd : g.definitions.size ≤ h.definitions.size) : h.Settled p := by
  have hq (q) (hq : q ∈ (g.pattern p).operands) : g.Has q := lt_trans (hp.operand_lt q hq) hh
  constructor <;> rw [hgh.pattern_eq hh]
  · exact hp.operand_lt
  · rw [hgh.nullable_eq hh, hp.nullable_eq]
    exact Pattern.isNullable_congr fun q hmem => (hgh.nullable_eq (hq q hmem)).symm
  · rw [hgh.contentType_eq hh, hp.contentType_eq]
    exact Pattern.contentType_congr fun q hmem => (hgh.contentType_eq (hq q hmem)).symm
  · exact fun e hpe => lt_of_lt_of_le (hp.element_lt e hpe) he
  · exact fun d hpd => lt_of_lt_of_le (hp.ref_lt d hpd) hd

theorem Settled.congr (hp : g.Settled p) (hpat : h.pattern = g.pattern) (hnul : h.nullable = g.nullable)
    (htype : h.contentType = g.contentType) (he : g.elements.size ≤ h.elements.size)
    (hd : g.definitions.size ≤ h.definitions.size) : h.Settled p := by
  constructor <;> rw [hpat]
  · exact hp.operand_lt
  · rw [hnul]
    exact hp.nullable_eq
  · rw [htype]
    exact hp.contentType_eq
  · exact fun e hpe => lt_of_lt_of_le (hp.element_lt e hpe) he
  · exact fun f hpf => lt_of_lt_of_le (hp.ref_lt f hpf) hd

theorem Settled.of_nodes_eq (hp : g.Settled p) (hn : h.nodes = g.nodes) (he : g.elements.size ≤ h.elements.size)
    (hd : g.definitions.size ≤ h.definitions.size) : h.Settled p := by
  have hnode (q) : h.node q = g.node q := by simp [node, hn]
  refine hp.congr ?_ ?_ ?_ he hd <;> funext q
  · exact congrArg Node.pattern (hnode q)
  · exact congrArg Node.nullable (hnode q)
  · exact congrArg Node.contentType (hnode q)

/-! ## One more pattern -/

def storing (g : Grammar) (pattern : Pattern) (location : Option Location) : Grammar :=
  { g with nodes := g.nodes.push (g.nodeOf pattern location) }

theorem node_storing (g : Grammar) (pattern : Pattern) (location : Option Location) (p : PatternId) :
    (g.storing pattern location).node p =
      if p.index = g.nodes.size then g.nodeOf pattern location else g.node p := by
  simp only [storing, node, Array.getD_eq_getD_getElem?, Array.getElem?_push]
  split <;> rfl

theorem grows_storing (g : Grammar) (pattern : Pattern) (location : Option Location) :
    g.Grows (g.storing pattern location) := by
  have hn {p} (hp : g.Has p) : (g.storing pattern location).node p = g.node p := by
    rw [node_storing, if_neg (ne_of_lt hp)]
  refine ⟨by simp [storing], fun hp => by simp [Grammar.pattern, hn hp], fun hp => by simp [nullable, hn hp],
    fun hp => by simp [contentType, hn hp], fun {p l} hl => ?_⟩
  by_cases hp : g.Has p
  · rwa [location?, hn hp]
  · simp [location?, node_of_not_has hp, missingNode] at hl

theorem has_storing_iff {pattern : Pattern} {location : Option Location} :
    (g.storing pattern location).Has p ↔ g.Has p ∨ p.index = g.nodes.size := by
  simp only [Has, storing, Array.size_push]
  omega

theorem pattern_storing_last (g : Grammar) (pattern : Pattern) (location : Option Location) :
    (g.storing pattern location).pattern ⟨g.nodes.size⟩ = pattern := by
  rw [Grammar.pattern, node_storing, if_pos rfl, nodeOf]

/-- A pattern whose parts are there is settled where it is stored, and the others stay settled. -/
theorem Sound.settled_storing (hg : g.Sound) {pattern : Pattern} (hf : g.Fits pattern) (location : Option Location)
    (p : PatternId) : (g.storing pattern location).Settled p := by
  have hgrows := g.grows_storing pattern location
  by_cases hp : g.Has p
  · exact (hg.settled p).of_grows hgrows hp le_rfl le_rfl
  by_cases hl : p.index = g.nodes.size
  · have hn : (g.storing pattern location).node p = g.nodeOf pattern location := by
      rw [node_storing, if_pos hl]
    have hpat : (g.storing pattern location).pattern p = pattern := congrArg Node.pattern hn
    constructor <;> rw [hpat]
    · intro q hq
      rw [hl]
      exact hf.operand_has q hq
    · rw [nullable, hn]
      exact Pattern.isNullable_congr fun q hq => (hgrows.nullable_eq (hf.operand_has q hq)).symm
    · rw [contentType, hn]
      exact Pattern.contentType_congr fun q hq => (hgrows.contentType_eq (hf.operand_has q hq)).symm
    · exact hf.element_lt
    · exact hf.ref_lt
  · have hn : (g.storing pattern location).node p = missingNode := by
      rw [node_storing, if_neg hl, node_of_not_has hp]
    exact settled_of_missing hn

theorem Sound.storing (hg : g.Sound) {pattern : Pattern} (hf : g.Fits pattern) (location : Option Location) :
    (g.storing pattern location).Sound :=
  have hgrows := g.grows_storing pattern location
  ⟨hg.settled_storing hf location, fun e h => hgrows.has (hg.content_has e h),
    fun f b h => hgrows.has (hg.body_has f b h)⟩

end Grammar

end RelaxNg
