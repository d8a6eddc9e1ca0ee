import RelaxNg.Grammar.Expansion
import RelaxNg.Proofs.Expansion.Progress
import Mathlib.Data.Finset.Card
import Mathlib.Data.Finset.Range

/-!
# The run of an expansion

Expanding a pattern comes to an end, from every state in which what is remembered is so and every open definition leads
to the pattern (`Expansion.visits`): either the outcome stands on top of the results and the walk is `Resolved`, or the
machine answers with an error and the walk is `Refused`. The number of elements that are not marked goes down at each
element that is entered, the number of definitions that are not open at each reference, and otherwise the number of the
pattern. `Draft.expand_cases` says what that means for an expansion from the beginning.
-/

namespace RelaxNg

section absent

/-- How many of the numbers below a bound are not known. -/
def absent (bound : Nat) (known : Nat → Prop) [DecidablePred known] : Nat :=
  ((Finset.range bound).filter fun i => ¬ known i).card

variable {bound i : Nat} {known known' : Nat → Prop} [DecidablePred known] [DecidablePred known']

theorem absent_le (h : ∀ i, known i → known' i) : absent bound known' ≤ absent bound known :=
  Finset.card_le_card (Finset.monotone_filter_right _ fun i _ hn hi => hn (h i hi))

theorem absent_lt (h : ∀ i, known i → known' i) (hi : i < bound) (hn : ¬ known i) (hk : known' i) :
    absent bound known' < absent bound known := by
  refine Finset.card_lt_card ⟨Finset.monotone_filter_right _ fun i _ hn hi => hn (h i hi), fun hsub => ?_⟩
  have hmem := hsub (Finset.mem_filter.2 ⟨Finset.mem_range.2 hi, hn⟩)
  exact (Finset.mem_filter.1 hmem).2 hk

end absent

namespace Draft

open Tree

variable {d : Draft} {p : PatternId}

theorem map_tree_inj (hd : d.Sound) {ps qs : List PatternId} (hp : ∀ p ∈ ps, d.grammar.Has p)
    (hq : ∀ q ∈ qs, d.grammar.Has q) : ps = qs ↔ ps.map d.grammar.tree = qs.map d.grammar.tree := by
  refine ⟨fun h => h ▸ rfl, fun h => ?_⟩
  induction ps generalizing qs with
  | nil => exact (List.map_eq_nil_iff.1 h.symm).symm
  | cons p ps ih =>
    cases qs with
    | nil => simp at h
    | cons q qs =>
      simp only [List.map_cons, List.cons.injEq, List.forall_mem_cons] at h hp hq
      rw [hd.tree_inj hp.1 hq.1 h.1, ih hp.2 hq.2 h.2]

/-- A pattern with operands is put together from as many others like its tree. -/
theorem exists_made_withOperands (hd : d.Sound) (hp : d.grammar.Has p) (ho : (d.grammar.pattern p).operands ≠ [])
    {qs : List PatternId} (hq : ∀ q ∈ qs, d.grammar.Has q) (hl : qs.length = (d.grammar.pattern p).operands.length) :
    ∃ r : PatternId × Draft, Expansion.withOperands d p qs = (.ok r.1, r.2) ∧
      d.Made ((d.grammar.tree p).rebuild (qs.map d.grammar.tree)) r := by
  have hiff := map_tree_inj hd (fun _ => hd.grammar.operand_has hp) hq
  rw [← hd.grammar.operands_tree] at hiff
  unfold Expansion.withOperands Tree.rebuild
  by_cases h : (d.grammar.pattern p).operands = qs
  · rw [if_pos (hiff.1 h)]
    simp only [if_neg ho, if_pos h]
    exact ⟨(p, d), rfl, hd.made_self hp⟩
  · rw [if_neg (mt hiff.2 h)]
    simp only [if_neg ho, if_neg h]
    have ht := hd.grammar.tree_eq p
    cases hpat : d.grammar.pattern p <;> rw [hpat] at h hl <;> rw [hpat, Pattern.tree] at ht <;> rw [ht]
    case choice left right =>
      obtain ⟨l, r, rfl⟩ := List.length_eq_two.1 hl
      exact ⟨_, rfl, made_choice hd (hq l (by simp)) (hq r (by simp))⟩
    case group left right =>
      obtain ⟨l, r, rfl⟩ := List.length_eq_two.1 hl
      exact ⟨_, rfl, made_group hd (hq l (by simp)) (hq r (by simp))⟩
    case interleave left right =>
      obtain ⟨l, r, rfl⟩ := List.length_eq_two.1 hl
      exact ⟨_, rfl, made_interleave hd (hq l (by simp)) (hq r (by simp))⟩
    case oneOrMore operand =>
      obtain ⟨o, rfl⟩ := List.length_eq_one_iff.1 hl
      exact ⟨_, rfl, made_oneOrMore hd (hq o (by simp))⟩
    case list operand =>
      obtain ⟨o, rfl⟩ := List.length_eq_one_iff.1 hl
      exact ⟨_, rfl, made_list hd (hq o (by simp)) _⟩
    case dataExcept type params operand =>
      obtain ⟨o, rfl⟩ := List.length_eq_one_iff.1 hl
      exact ⟨_, rfl, made_dataExcept hd type params (hq o (by simp)) _⟩
    case attr names operand annotations =>
      obtain ⟨o, rfl⟩ := List.length_eq_one_iff.1 hl
      exact ⟨_, rfl, made_attr hd names (hq o (by simp)) _ annotations⟩
    all_goals exact absurd (List.length_eq_zero_iff.1 hl).symm h

end Draft

namespace Expansion

open Machine Tree Relation

variable {d d' d₁ : Draft} {done : Std.HashMap PatternId PatternId} {active active₁ : Std.HashSet DefinitionId}
  {p q : PatternId} {e : ElementId} {f : DefinitionId} {t : Tree}

/-! ## What a state remembers -/

/-- The patterns that are done became what is remembered, lead to marked elements only, and what they lead to is stored
as it expands. -/
def Memo (d : Draft) (done : Std.HashMap PatternId PatternId) : Prop :=
  ∀ p q, done[p]? = some q → d.grammar.Has p ∧ d.grammar.Has q ∧
    Expands d.bodies (d.grammar.tree p) (d.grammar.tree q) ∧
    (∀ e, (d.grammar.tree p).Spans d.bodies (.element e) → e ∈ d.expanded) ∧
    ∀ s u, (d.grammar.tree p).Spans d.bodies s → Expands d.bodies s u → d.Stores u

/-- Every open definition leads to a tree. -/
def Leading (d : Draft) (active : Std.HashSet DefinitionId) (t : Tree) : Prop :=
  ∀ f ∈ active, TransGen (Down d.bodies) (.ref f) t

theorem Memo.advance (hd : d.Sound) (h : Memo d done) (ha : d.Advance d') : Memo d' done := by
  intro p q hpq
  obtain ⟨hp, hq, hx, hm, hy⟩ := h p q hpq
  rw [ha.bodies_eq hd, ha.grows.tree_eq hp, ha.grows.tree_eq hq]
  exact ⟨ha.grows.has hp, ha.grows.has hq, hx, fun e hs => ha.marks e (hm e hs),
    fun s u hs hu => (hy s u hs hu).of_grows ha.grows⟩

theorem Memo.setContent (h : Memo d done) (e : ElementId) (c : PatternId) : Memo (d.setContent e c) done := by
  intro p q hpq
  obtain ⟨hp, hq, hx, hm, hy⟩ := h p q hpq
  rw [Draft.bodies_setContent, Draft.tree_setContent]
  exact ⟨hp, hq, hx, hm, fun s u hs hu => (hy s u hs hu).of_grows (.of_nodes_eq rfl)⟩

/-- What a walk from a pattern came to is remembered. -/
theorem Memo.insert (h : Memo d' done) (hd : d.Sound) (hp : d.grammar.Has p) (hq : d'.grammar.Has q)
    (hr : d.Resolved (d.grammar.tree p) d' (d'.grammar.tree q)) : Memo d' (done.insert p q) := by
  intro p' q' h'
  rw [Std.HashMap.getElem?_insert] at h'
  split at h'
  · next heq =>
    cases eq_of_beq heq
    cases h'
    rw [hr.bodies_eq hd, hr.grows.tree_eq hp]
    exact ⟨hr.grows.has hp, hq, hr.expands, hr.met, fun s u hs hu => hr.yielded u (.here hs hu)⟩
  · exact h p' q' h'

/-! ## Visits -/

/-- Visiting a pattern comes to an end: the outcome is put on the results, or the expansion fails. -/
def Visits (d : Draft) (done : Std.HashMap PatternId PatternId) (active : Std.HashSet DefinitionId)
    (p : PatternId) : Prop :=
  ∀ rest results,
    (∃ q d' done' active', Leads step ⟨d, done, active, .visit p :: rest, results⟩
        ⟨d', done', active', rest, q :: results⟩ ∧ d'.grammar.Has q ∧
      d.Resolved (d.grammar.tree p) d' (d'.grammar.tree q) ∧ Memo d' done' ∧ ∀ f, f ∈ active' ↔ f ∈ active) ∨
    ∃ s error, Leads step ⟨d, done, active, .visit p :: rest, results⟩ s ∧ step s = .inr (.error error, s.draft) ∧
      d.Refused (d.grammar.tree p) s.draft error

/-- The walks from some patterns, one after the other, came to their ends. -/
structure AllResolved (d : Draft) (t : Tree) (ps : List PatternId) (d' : Draft) (qs : List PatternId) : Prop
    extends d.Walked t d' where
  length_eq : qs.length = ps.length
  has : ∀ q ∈ qs, d'.grammar.Has q
  expands : ∀ i (_ : i < ps.length) (_ : i < qs.length),
    Expands d.bodies (d.grammar.tree ps[i]) (d'.grammar.tree qs[i])
  met : ∀ p ∈ ps, ∀ e, (d.grammar.tree p).Spans d.bodies (.element e) → e ∈ d'.expanded
  completed : d.Completed d'
  yielded : ∀ p ∈ ps, ∀ u, d.Yields (d.grammar.tree p) u → d'.Stores u

theorem AllResolved.cons (hd : d.Sound) {ps qs : List PatternId} (hp : t.Spans d.bodies (d.grammar.tree p))
    (hps : ∀ p ∈ ps, d.grammar.Has p) (hq : d₁.grammar.Has q)
    (h : d.Resolved (d.grammar.tree p) d₁ (d₁.grammar.tree q)) (h' : AllResolved d₁ t ps d' qs) :
    AllResolved d t (p :: ps) d' (q :: qs) where
  toWalked := (h.toWalked.of_spans hp).trans hd h'.toWalked
  length_eq := by simp [h'.length_eq]
  has := by simpa [h'.grows.has hq] using h'.has
  expands i hi hi' := by
    cases i with
    | zero =>
      simp only [List.getElem_cons_zero, h'.grows.tree_eq hq]
      exact h.expands
    | succ i =>
      simp only [List.length_cons, Nat.add_lt_add_iff_right] at hi hi'
      have := h'.expands i hi hi'
      rwa [h.bodies_eq hd, h.grows.tree_eq (hps _ (List.getElem_mem hi))] at this
  met p' hp' e hs := by
    rcases List.mem_cons.1 hp' with rfl | hp'
    · exact h'.marks e (h.met e hs)
    · refine h'.met p' hp' e ?_
      rwa [h.bodies_eq hd, h.grows.tree_eq (hps p' hp')]
  completed := h.completed.trans hd h.toAdvance h'.toAdvance h'.completed
  yielded p' hp' u hu := by
    have earlier {v} (hv : d.Yields (d.grammar.tree p) v) : d'.Stores v := (h.yielded v hv).of_grows h'.grows
    rcases List.mem_cons.1 hp' with rfl | hp'
    · exact earlier hu
    · rcases Draft.yields_or_exists hd h.toAdvance hu with hu | ⟨m, hm, hn, hu⟩
      · refine h'.yielded p' hp' u ?_
        rwa [h.grows.tree_eq (hps p' hp')]
      · exact earlier (hu.of_enters (h.entered m hm hn))

/-- Visits one after the other come to an end if each does, from where the ones before it lead. -/
theorem visits_all (hd : d.Sound) (hm : Memo d done) {ps : List PatternId} (hp : ∀ p ∈ ps, d.grammar.Has p)
    (ht : ∀ p ∈ ps, t.Spans d.bodies (d.grammar.tree p))
    (hv : ∀ p ∈ ps, ∀ d₁ done₁ active₁, d.Walked t d₁ → Memo d₁ done₁ → (∀ f, f ∈ active₁ ↔ f ∈ active) →
      Visits d₁ done₁ active₁ p) (rest : List Task) (results : List PatternId) :
    (∃ qs d' done' active', Leads step ⟨d, done, active, ps.map .visit ++ rest, results⟩
        ⟨d', done', active', rest, qs.reverse ++ results⟩ ∧ AllResolved d t ps d' qs ∧ Memo d' done' ∧
        ∀ f, f ∈ active' ↔ f ∈ active) ∨
    ∃ s error, Leads step ⟨d, done, active, ps.map .visit ++ rest, results⟩ s ∧
      step s = .inr (.error error, s.draft) ∧ d.Refused t s.draft error := by
  induction ps generalizing d done active results with
  | nil =>
    exact .inl ⟨[], d, done, active, .refl _,
      ⟨.refl hd t, rfl, by simp, by simp, by simp, Draft.completed_of_marks_eq rfl, by simp⟩, hm, fun _ => .rfl⟩
  | cons p ps ih =>
    simp only [List.forall_mem_cons] at hp ht hv
    rcases hv.1 d done active (.refl hd t) hm (fun _ => .rfl) (ps.map .visit ++ rest) results with
      ⟨q, d₁, done₁, active₁, hl, hq, hr, hm₁, ha₁⟩ | ⟨s, error, hl, hs, hr⟩
    · have hw := hr.toWalked.of_spans ht.1
      have hb := hr.bodies_eq hd
      have ht₁ (p') (hp' : p' ∈ ps) : t.Spans d₁.bodies (d₁.grammar.tree p') := by
        rw [hb, hr.grows.tree_eq (hp.2 p' hp')]
        exact ht.2 p' hp'
      rcases ih hr.sound hm₁ (fun p' hp' => hr.grows.has (hp.2 p' hp')) ht₁
        (fun p' hp' d₂ done₂ active₂ hw₂ hm₂ ha₂ =>
          hv.2 p' hp' d₂ done₂ active₂ (hw.trans hd hw₂) hm₂ fun f => (ha₂ f).trans (ha₁ f)) (q :: results) with
        ⟨qs, d', done', active', hl', hr', hm', ha'⟩ | ⟨s, error, hl', hs, hr'⟩
      · refine .inl ⟨q :: qs, d', done', active', ?_, .cons hd ht.1 hp.2 hq hr hr', hm', fun f => (ha' f).trans (ha₁ f)⟩
        simpa using hl.trans hl'
      · exact .inr ⟨s, error, hl.trans hl', hs, hr'.after hd hw hr.completed⟩
    · exact .inr ⟨s, error, hl, hs, hr.of_spans ht.1⟩

/-! ## Leaves -/

variable {rest : List Task} {results : List PatternId}

theorem step_visit (h : done[p]? = none) :
    step ⟨d, done, active, .visit p :: rest, results⟩ = enter ⟨d, done, active, rest, results⟩ p := by
  simp [step, h]

theorem step_marked (hn : done[p]? = none) (hp : d.grammar.pattern p = .element e) (hm : e ∈ d.expanded) :
    step ⟨d, done, active, .visit p :: rest, results⟩ = .inl (State.finish ⟨d, done, active, rest, results⟩ p p) := by
  rw [step_visit hn]
  simp [enter, hp, hm]

theorem step_leaf (hn : done[p]? = none) (ho : (d.grammar.pattern p).operands = [])
    (he : ∀ e, d.grammar.pattern p ≠ .element e) (hr : ∀ f, d.grammar.pattern p ≠ .ref f) :
    step ⟨d, done, active, .visit p :: rest, results⟩ = .inl (State.finish ⟨d, done, active, rest, results⟩ p p) := by
  rw [step_visit hn]
  cases h : d.grammar.pattern p <;> simp_all [enter, Pattern.operands]

theorem visits_done (hd : d.Sound) (hm : Memo d done) (h : done[p]? = some q) : Visits d done active p := by
  intro rest results
  obtain ⟨-, hq, hx, hmet, hy⟩ := hm p q h
  exact .inl ⟨q, d, done, active, .single (by simp [step, h]), hq, .of_met hd hx hmet hy, hm, fun _ => .rfl⟩

theorem visits_self (hd : d.Sound) (hp : d.grammar.Has p) (hm : Memo d done)
    (hstep : ∀ rest results, step ⟨d, done, active, .visit p :: rest, results⟩ =
      .inl (State.finish ⟨d, done, active, rest, results⟩ p p))
    (ht : ∀ t, ¬ Down d.bodies (d.grammar.tree p) t) (hr : ∀ f, d.grammar.tree p ≠ .ref f)
    (he : ∀ e, d.grammar.tree p = .element e → e ∈ d.expanded) : Visits d done active p := by
  intro rest results
  have hx : Expands d.bodies (d.grammar.tree p) (d.grammar.tree p) :=
    RefFree.expands (refFree_of_operands hr fun o ho => absurd (.operand ho) (ht o))
  have hresolved : d.Resolved (d.grammar.tree p) d (d.grammar.tree p) := by
    refine .of_met hd hx (fun e hs => he e (hs.eq_of_not_down ht).symm) fun s u hs hu => ?_
    rw [hs.eq_of_not_down ht] at hu
    exact ⟨p, hp, hx.unique hu⟩
  exact .inl ⟨p, d, done.insert p p, active, .single (hstep rest results), hp, hresolved, hm.insert hd hp hp hresolved,
    fun _ => .rfl⟩

theorem visits_marked (hd : d.Sound) (hp : d.grammar.Has p) (hm : Memo d done) (hn : done[p]? = none)
    (he : d.grammar.pattern p = .element e) (hmark : e ∈ d.expanded) : Visits d done active p := by
  have ht := hd.grammar.pattern_eq_element_iff.1 he
  refine visits_self hd hp hm (fun _ _ => step_marked hn he hmark) (fun t h => ?_) (by simp [ht]) fun e' h => ?_
  · rw [ht] at h
    cases h with
    | operand ho => simp [operands] at ho
  · rw [ht] at h
    cases h
    exact hmark

theorem visits_leaf (hd : d.Sound) (hp : d.grammar.Has p) (hm : Memo d done) (hn : done[p]? = none)
    (ho : (d.grammar.pattern p).operands = []) (he : ∀ e, d.grammar.pattern p ≠ .element e)
    (hr : ∀ f, d.grammar.pattern p ≠ .ref f) : Visits d done active p := by
  have ht := hd.grammar.tree_eq p
  have hto : (d.grammar.tree p).operands = [] := by rw [ht, operands_pattern_tree, ho, List.map_nil]
  have hte (e) : d.grammar.tree p ≠ .element e := by
    rw [ht]
    cases h : d.grammar.pattern p <;> simp_all [Pattern.tree]
  have htr (f) : d.grammar.tree p ≠ .ref f := by
    rw [ht]
    cases h : d.grammar.pattern p <;> simp_all [Pattern.tree]
  refine visits_self hd hp hm (fun _ _ => step_leaf hn ho he hr) (fun t h => ?_) htr fun e h => absurd h (hte e)
  generalize d.grammar.tree p = s at hto htr h
  cases h with
  | operand ho => simp [hto] at ho
  | body => exact htr _ rfl

/-! ## Operands -/

theorem step_operands (hn : done[p]? = none) (ho : (d.grammar.pattern p).operands ≠ []) :
    step ⟨d, done, active, .visit p :: rest, results⟩ =
      .inl ⟨d, done, active, (d.grammar.pattern p).operands.map .visit ++ (.rebuild p :: rest), results⟩ := by
  rw [step_visit hn]
  cases h : d.grammar.pattern p <;> simp_all [enter, Pattern.operands, State.schedule]

theorem step_rebuild {qs : List PatternId} {r : PatternId × Draft}
    (hl : qs.length = (d.grammar.pattern p).operands.length) (hr : withOperands d p qs = (.ok r.1, r.2)) :
    step ⟨d, done, active, .rebuild p :: rest, qs.reverse ++ results⟩ =
      .inl (State.finish ⟨r.2, done, active, rest, results⟩ p r.1) := by
  have htake : (qs.reverse ++ results).take qs.length = qs.reverse := List.take_left' (by simp)
  have hdrop : (qs.reverse ++ results).drop qs.length = results := List.drop_left' (by simp)
  simp [step, ← hl, htake, hdrop, hr]

/-- A pattern with operands is put together from what they become. -/
theorem visits_operands (hd : d.Sound) (hp : d.grammar.Has p) (hm : Memo d done) (hn : done[p]? = none)
    (ho : (d.grammar.pattern p).operands ≠ [])
    (hv : ∀ q ∈ (d.grammar.pattern p).operands, ∀ d₁ done₁ active₁, d.Walked (d.grammar.tree p) d₁ → Memo d₁ done₁ →
      (∀ f, f ∈ active₁ ↔ f ∈ active) → Visits d₁ done₁ active₁ q) : Visits d done active p := by
  intro rest results
  have hto := hd.grammar.operands_tree p
  have htr (f) : d.grammar.tree p ≠ .ref f := fun h => by simp_all [operands]
  have hte (e) : d.grammar.tree p ≠ .element e := fun h => by simp_all [operands]
  have hhas (q) (hq : q ∈ (d.grammar.pattern p).operands) : d.grammar.Has q := hd.grammar.operand_has hp hq
  have hspans (q) (hq : q ∈ (d.grammar.pattern p).operands) :
      (d.grammar.tree p).Spans d.bodies (d.grammar.tree q) :=
    .single (.operand (hto ▸ List.mem_map_of_mem hq))
  have hdown (s) (hs : Down d.bodies (d.grammar.tree p) s) :
      ∃ q ∈ (d.grammar.pattern p).operands, d.grammar.tree q = s := by
    rw [← List.mem_map, ← hto]
    generalize d.grammar.tree p = t at hs htr
    cases hs with
    | operand ho => exact ho
    | body => exact absurd rfl (htr _)
  -- The operands are visited in the order in which their outcomes are taken from the results.
  rcases visits_all hd hm hhas hspans hv (.rebuild p :: rest) results with
    ⟨qs, d', done', active', hl, hr, hm', ha'⟩ | ⟨s, error, hl, hs, hr⟩
  · have hlength : qs.length = (d'.grammar.pattern p).operands.length := by
      rw [hr.grows.pattern_eq hp, hr.length_eq]
    have ho' : (d'.grammar.pattern p).operands ≠ [] := by rwa [hr.grows.pattern_eq hp]
    obtain ⟨r, hwith, hmade⟩ := Draft.exists_made_withOperands hr.sound (hr.grows.has hp) ho' hr.has hlength
    have hx : Expands d.bodies (d.grammar.tree p) ((d.grammar.tree p).rebuild (qs.map d'.grammar.tree)) := by
      refine .rebuild htr (by simp [hto, hr.length_eq]) fun i hi hi' => ?_
      simp only [hto, List.getElem_map]
      exact hr.expands i (by simpa [hto] using hi) (by simpa using hi')
    rw [hr.grows.tree_eq hp] at hmade
    rw [← hmade.tree_eq] at hx
    have hmet (e) (hs : (d.grammar.tree p).Spans d.bodies (.element e)) : e ∈ d'.expanded := by
      rcases hs.cases_head with h | ⟨t, h, hs⟩
      · exact absurd h (hte e)
      · obtain ⟨q, hq, rfl⟩ := hdown t h
        exact hr.met q hq e hs
    have hlast : d'.Walked (d.grammar.tree p) r.2 := by
      refine hmade.walked hr.sound ?_
      rwa [hr.bodies_eq hd, ← hmade.tree_eq]
    have hadv := hlast.toAdvance
    have hyielded (u) (hu : d.Yields (d.grammar.tree p) u) : r.2.Stores u := by
      rcases hu.cases_head hte with hu | ⟨s, hs, hu⟩
      · exact ⟨_, hmade.has, hx.unique hu⟩
      · obtain ⟨q, hq, rfl⟩ := hdown s hs
        exact (hr.yielded q hq u hu).of_grows hadv.grows
    have hresolved : d.Resolved (d.grammar.tree p) r.2 (r.2.grammar.tree r.1) :=
      ⟨hr.toWalked.trans hd hlast, hx, fun e hs => hadv.marks e (hmet e hs),
        hr.completed.trans hd hr.toAdvance hadv (Draft.completed_of_marks_eq hmade.expanded_eq), hyielded⟩
    exact .inl ⟨_, _, _, active', .head (step_operands hn ho) (hl.trans (.single (step_rebuild hlength hwith))), hmade.has,
      hresolved, (hm'.advance hr.sound hadv).insert hd hp hmade.has hresolved, ha'⟩
  · exact .inr ⟨s, error, .head (step_operands hn ho) hl, hs, hr⟩

/-! ## References -/

theorem visits_blamed (hd : d.Sound) {error : Error} (hb : d.Blames (d.grammar.tree p) error)
    (hs : ∀ rest results, step ⟨d, done, active, .visit p :: rest, results⟩ = .inr (.error error, d)) :
    Visits d done active p :=
  fun rest results => .inr ⟨_, error, .refl _, hs rest results, .refl hd _,
    .inl ⟨hb, Draft.completed_of_marks_eq rfl⟩⟩

theorem step_undefined (hn : done[p]? = none) (hp : d.grammar.pattern p = .ref f) (hf : d.grammar.body? f = none) :
    step ⟨d, done, active, .visit p :: rest, results⟩ =
      .inr (.error (.undefinedReference (d.grammar.definition f).name (d.grammar.location? p)), d) := by
  rw [step_visit hn]
  simp [enter, hp, hf, State.fail]

theorem step_open (hn : done[p]? = none) (hp : d.grammar.pattern p = .ref f) {b : PatternId}
    (hf : d.grammar.body? f = some b) (ha : f ∈ active) :
    step ⟨d, done, active, .visit p :: rest, results⟩ =
      .inr (.error (.recursion (.recursiveReference (d.grammar.definition f).name (d.grammar.location? p))), d) := by
  rw [step_visit hn]
  simp [enter, hp, hf, ha, State.fail]

theorem step_ref (hn : done[p]? = none) (hp : d.grammar.pattern p = .ref f) {b : PatternId}
    (hf : d.grammar.body? f = some b) (ha : f ∉ active) :
    step ⟨d, done, active, .visit p :: rest, results⟩ =
      .inl ⟨d, done, active.insert f, .visit b :: .leaveRef p f :: rest, results⟩ := by
  rw [step_visit hn]
  simp [enter, hp, hf, ha]

theorem visits_undefined (hd : d.Sound) (hn : done[p]? = none) (hp : d.grammar.pattern p = .ref f)
    (hf : d.grammar.body? f = none) : Visits d done active p := by
  have ht := hd.grammar.pattern_eq_ref_iff.1 hp
  have hb : d.Blames (.ref f) _ := .undefined (d.grammar.location? p) .refl (by simp [Draft.bodies, hf])
  exact visits_blamed hd (ht ▸ hb) fun _ _ => step_undefined hn hp hf

theorem visits_open (hd : d.Sound) (hn : done[p]? = none) (hp : d.grammar.pattern p = .ref f)
    {b : PatternId} (hf : d.grammar.body? f = some b) (hact : f ∈ active)
    (ha : Leading d active (d.grammar.tree p)) : Visits d done active p := by
  have ht := hd.grammar.pattern_eq_ref_iff.1 hp
  have hc := ha f hact
  rw [ht] at hc
  have hb : d.Blames (.ref f) _ := .recursive (d.grammar.location? p) .refl hc
  exact visits_blamed hd (ht ▸ hb) fun _ _ => step_open hn hp hf hact

/-- A reference becomes what the body of its definition becomes. -/
theorem visits_ref (hd : d.Sound) (hp : d.grammar.Has p) (hn : done[p]? = none)
    (hpat : d.grammar.pattern p = .ref f) {b : PatternId} (hf : d.grammar.body? f = some b) (hact : f ∉ active)
    (hv : Visits d done (active.insert f) b) : Visits d done active p := by
  intro rest results
  have ht := hd.grammar.pattern_eq_ref_iff.1 hpat
  have hb : d.bodies f = some (d.grammar.tree b) := by simp [Draft.bodies, hf]
  have hspans : (d.grammar.tree p).Spans d.bodies (d.grammar.tree b) := by
    rw [ht]
    exact .single (.body hb)
  rcases hv (.leaveRef p f :: rest) results with ⟨q, d', done', active', hl, hq, hr, hm', ha'⟩ | ⟨s, error, hl, hs, hr⟩
  · have hx : Expands d.bodies (d.grammar.tree p) (d'.grammar.tree q) := ht ▸ .ref hb hr.expands
    have hdown {s : Tree} (hs : Down d.bodies (.ref f) s) : s = d.grammar.tree b := by
      cases hs with
      | operand hmem => simp [operands] at hmem
      | body hb' => exact Option.some.inj (hb'.symm.trans hb)
    have hmet (e) (hs : (d.grammar.tree p).Spans d.bodies (.element e)) : e ∈ d'.expanded := by
      rw [ht] at hs
      rcases hs.cases_head with h | ⟨t, h, hs⟩
      · cases h
      · exact hr.met e (hdown h ▸ hs)
    have hyielded (u) (hu : d.Yields (d.grammar.tree p) u) : d'.Stores u := by
      refine hr.yielded u ?_
      rw [ht] at hu
      rcases hu.cases_head (by simp) with hu | ⟨s, hs, hu⟩
      · exact .here .refl (hu.of_ref hb)
      · exact hdown hs ▸ hu
    have hresolved : d.Resolved (d.grammar.tree p) d' (d'.grammar.tree q) :=
      ⟨hr.toWalked.of_spans hspans, hx, hmet, hr.completed, hyielded⟩
    refine .inl ⟨q, d', done'.insert p q, active'.erase f, .head (step_ref hn hpat hf hact) (hl.trans (.single rfl)),
      hq, hresolved, hm'.insert hd hp hq hresolved, fun g => ?_⟩
    rw [Std.HashSet.mem_erase, ha', Std.HashSet.mem_insert]
    by_cases hfg : f = g
    · subst hfg
      simp [hact]
    · simp [hfg]
  · exact .inr ⟨s, error, .head (step_ref hn hpat hf hact) hl, hs, hr.of_spans hspans⟩

/-! ## Elements -/

theorem step_element (hn : done[p]? = none) (hp : d.grammar.pattern p = .element e) (hm : e ∉ d.expanded) :
    step ⟨d, done, active, .visit p :: rest, results⟩ = .inl ⟨d.mark e, done, {},
      .visit (d.grammar.element e).content :: .leaveElement p e active :: rest, results⟩ := by
  rw [step_visit hn]
  simp [enter, hp, hm, Draft.mark]

/-- The content of an element is expanded in its place, with no definition open. -/
theorem visits_element (hd : d.Sound) (hp : d.grammar.Has p) (hm : Memo d done) (hn : done[p]? = none)
    (hpat : d.grammar.pattern p = .element e) (hmark : e ∉ d.expanded)
    (hv : ∀ done₁, Memo (d.mark e) done₁ → Visits (d.mark e) done₁ {} (d.grammar.element e).content) :
    Visits d done active p := by
  intro rest results
  have ht := hd.grammar.pattern_eq_element_iff.1 hpat
  have hadv := Draft.advance_mark hd e
  rcases hv done (hm.advance hd hadv) (.leaveElement p e active :: rest) results with
    ⟨q, d', done', active', hl, hq, hr, hm', -⟩ | ⟨s, error, hl, hs, hr⟩
  · have hset := hr.setContent hd ((hd.grammar.settled p).element_lt e hpat) ⟨p, hp, ht⟩ hmark hq
    have hresolved : d.Resolved (d.grammar.tree p) (d'.setContent e q) ((d'.setContent e q).grammar.tree p) := by
      rw [hset.grows.tree_eq hp, ht]
      exact hset
    have hhas := hset.grows.has hp
    exact .inl ⟨p, _, _, active, .head (step_element hn hpat hmark) (hl.trans (.single rfl)), hhas, hresolved,
      (hm'.setContent e q).insert hd hp hhas hresolved, fun _ => .rfl⟩
  · exact .inr ⟨s, error, .head (step_element hn hpat hmark) hl, hs, ht ▸ hr.of_mark hd hmark⟩

/-! ## Termination -/

def unmarked (d : Draft) : Nat :=
  ((Finset.range d.grammar.elements.size).filter fun i => (⟨i⟩ : ElementId) ∉ d.expanded).card

def closed (d : Draft) (active : Std.HashSet DefinitionId) : Nat :=
  ((Finset.range d.grammar.definitions.size).filter fun i => (⟨i⟩ : DefinitionId) ∉ active).card

theorem unmarked_le (h : d.Advance d') : unmarked d' ≤ unmarked d := by
  unfold unmarked
  rw [h.size_eq]
  exact absent_le fun i hi => h.marks ⟨i⟩ hi

theorem unmarked_mark_lt (he : e.index < d.grammar.elements.size) (hm : e ∉ d.expanded) :
    unmarked (d.mark e) < unmarked d :=
  absent_lt (fun _ hi => Std.HashSet.mem_insert.2 (.inr hi)) he hm Std.HashSet.mem_insert_self

theorem closed_eq (h : d'.grammar.definitions = d.grammar.definitions) (ha : ∀ f, f ∈ active₁ ↔ f ∈ active) :
    closed d' active₁ = closed d active := by
  simp [closed, h, ha]

theorem closed_insert_lt (hf : f.index < d.grammar.definitions.size) (ha : f ∉ active) :
    closed d (active.insert f) < closed d active :=
  absent_lt (fun _ hi => Std.HashSet.mem_insert.2 (.inr hi)) hf ha Std.HashSet.mem_insert_self

/-- Visiting a pattern comes to an end, if what is remembered is so and every open definition leads to the pattern. -/
theorem visits {d : Draft} {done : Std.HashMap PatternId PatternId} {active : Std.HashSet DefinitionId} {p : PatternId}
    (hd : d.Sound) (hp : d.grammar.Has p) (hm : Memo d done) (ha : Leading d active (d.grammar.tree p)) :
    Visits d done active p := by
  cases hn : done[p]? with
  | some q => exact visits_done hd hm hn
  | none =>
    have hsettled := hd.grammar.settled p
    by_cases he : ∃ e, d.grammar.pattern p = .element e
    · obtain ⟨e, he⟩ := he
      by_cases hmark : e ∈ d.expanded
      · exact visits_marked hd hp hm hn he hmark
      · have hlt := unmarked_mark_lt (hsettled.element_lt e he) hmark
        exact visits_element hd hp hm hn he hmark fun done₁ hm₁ =>
          visits (Draft.advance_mark hd e).sound (hd.has_content e) hm₁ (by simp [Leading])
    by_cases hr : ∃ f, d.grammar.pattern p = .ref f
    · obtain ⟨f, hr⟩ := hr
      cases hf : d.grammar.body? f with
      | none => exact visits_undefined hd hn hr hf
      | some b =>
        by_cases hact : f ∈ active
        · exact visits_open hd hn hr hf hact ha
        · have hlt := closed_insert_lt (hsettled.ref_lt f hr) hact
          refine visits_ref hd hp hn hr hf hact (visits hd (hd.grammar.body_has f b hf) hm fun g hg => ?_)
          have hfb : Down d.bodies (.ref f) (d.grammar.tree b) := .body (by simp [Draft.bodies, hf])
          rcases Std.HashSet.mem_insert.1 hg with hg | hg
          · cases eq_of_beq hg
            exact .single hfb
          · have hgf := ha g hg
            rw [hd.grammar.pattern_eq_ref_iff.1 hr] at hgf
            exact hgf.tail hfb
    simp only [not_exists] at he hr
    by_cases ho : (d.grammar.pattern p).operands = []
    · exact visits_leaf hd hp hm hn ho he hr
    · refine visits_operands hd hp hm hn ho fun q hq d₁ done₁ active₁ hw hm₁ ha₁ => ?_
      have hle := unmarked_le hw.toAdvance
      have heq := closed_eq hw.definitions_eq ha₁
      have hlt := hsettled.operand_lt q hq
      have hq' := hd.grammar.operand_has hp hq
      refine visits hw.sound (hw.grows.has hq') hm₁ fun g hg => ?_
      rw [hw.bodies_eq hd, hw.grows.tree_eq hq']
      refine (ha g ((ha₁ g).1 hg)).tail (.operand ?_)
      rw [hd.grammar.operands_tree]
      exact List.mem_map_of_mem hq
-- Operands have smaller numbers; a content costs an unmarked element, a body a definition not open.
termination_by (unmarked d, closed d active, p.index)
decreasing_by
  · exact .left _ _ hlt
  · exact .right _ (.left _ _ hlt)
  · rw [heq]
    rcases Nat.lt_or_eq_of_le hle with h | h
    · exact .left _ _ h
    · rw [h]
      exact .right _ (.right _ hlt)

end Expansion

/-! ## Expansions from the beginning -/

namespace Draft

variable {d d' : Draft} {p q : PatternId} {error : Error}

theorem visits_start (hd : d.Sound) (hp : d.grammar.Has p) : Expansion.Visits d {} {} p :=
  Expansion.visits hd hp (fun _ _ h => by simp at h) (by simp [Expansion.Leading])

/-- An expansion ends: it answers with a pattern and is resolved, or it answers with an error and is refused. -/
theorem expand_cases (hd : d.Sound) (hp : d.grammar.Has p) :
    (∃ q d', d.expand p = (.ok q, d') ∧ d'.grammar.Has q ∧
      d.Resolved (d.grammar.tree p) d' (d'.grammar.tree q)) ∨
    ∃ error d', d.expand p = (.error error, d') ∧ d.Refused (d.grammar.tree p) d' error := by
  unfold expand
  rcases visits_start hd hp [] [] with ⟨q, d', done', active', hl, hq, hr, -, -⟩ | ⟨s, error, hl, hs, hr⟩
  · have hend : Expansion.step ⟨d', done', active', [], [q]⟩ = .inr (.ok q, d') := rfl
    rw [hl.run_eq_some hend]
    exact .inl ⟨q, d', rfl, hq, hr⟩
  · rw [hl.run_eq_some hs]
    exact .inr ⟨error, s.draft, rfl, hr⟩

theorem resolved_of_expand (hd : d.Sound) (hp : d.grammar.Has p) (h : d.expand p = (.ok q, d')) :
    d'.grammar.Has q ∧ d.Resolved (d.grammar.tree p) d' (d'.grammar.tree q) := by
  rcases expand_cases hd hp with ⟨q₁, d₁, h₁, hq, hr⟩ | ⟨error, d₁, h₁, -⟩
  · rw [h] at h₁
    cases h₁
    exact ⟨hq, hr⟩
  · rw [h] at h₁
    cases h₁

/-- An expansion succeeds exactly if the tree expands, and the content of every element that it enters does. -/
theorem expand_ok_iff (hd : d.Sound) (hp : d.grammar.Has p) :
    (∃ q d', d.expand p = (.ok q, d')) ↔ Tree.Expandable d.bodies (d.grammar.tree p) ∧
      ∀ e, d.Enters (d.grammar.tree p) e → Tree.Expandable d.bodies (d.contents e) := by
  constructor
  · rintro ⟨q, d', h⟩
    obtain ⟨-, hr⟩ := resolved_of_expand hd hp h
    exact ⟨⟨_, hr.expands⟩, fun e he => ⟨_, (hr.completed e (hr.mem_of_enters he) he.not_mem).1⟩⟩
  · rintro ⟨hx, hc⟩
    rcases expand_cases hd hp with ⟨q, d', h, -⟩ | ⟨error, d', -, hr⟩
    · exact ⟨q, d', h⟩
    · rcases hr.blamed with ⟨hb, -⟩ | ⟨e, he, hn, hb⟩
      · exact absurd hx hb.not_expandable
      · exact absurd (hc e (hr.entered e he hn)) hb.not_expandable

theorem refused_of_expand (hd : d.Sound) (hp : d.grammar.Has p) (h : d.expand p = (.error error, d')) :
    d.Refused (d.grammar.tree p) d' error := by
  rcases expand_cases hd hp with ⟨q₁, d₁, h₁, -⟩ | ⟨error, d₁, h₁, hr⟩
  · rw [h] at h₁
    cases h₁
  · rw [h] at h₁
    cases h₁
    exact hr

end Draft

end RelaxNg
