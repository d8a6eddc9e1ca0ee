import RelaxNg.Proofs.Recursion.Run

/-!
# What the recursion check finds

An error of `Grammar.checkRecursion` is always right: a definition that is refused recurs. The converse fails, because
a walk passes over what it met before. A definition that recurs can stay `Grammar.Hidden` in two ways: the walk comes
from outside onto a pattern between the definition and itself that is no reference, and meets that pattern again
instead of the reference; or the definition reaches itself behind an element, too, and was left there already when the
way without an element comes to it. In all other grammars the check is exact (`Draft.ReachedBy.checkRecursion_exact`).
`Draft.looping` passes when the check starts from the body of its definition.
-/

namespace RelaxNg

open Relation

namespace Grammar

/-- A pattern lies on a way on which a definition reaches itself without entering an element. -/
def OnCycle (g : Grammar) (f : DefinitionId) (p : PatternId) : Prop :=
  ∃ b r, g.body? f = some b ∧ g.Spans b p ∧ g.Spans p r ∧ g.pattern r = .ref f

/-- A definition that recurs can be passed over: from outside a pattern on the way back to it is met that is no
reference, or it reaches itself behind an element, too. -/
inductive Hidden (g : Grammar) (start : PatternId) (f : DefinitionId) : Prop
  | start (hc : g.OnCycle f start) (hn : ∀ f', g.pattern start ≠ .ref f')
  | content {p : PatternId} {e : ElementId} (hp : g.Reaches start p) (he : g.pattern p = .element e)
      (hc : g.OnCycle f (g.element e).content) (hn : ∀ f', g.pattern (g.element e).content ≠ .ref f')
  | outside {p q : PatternId} (hp : g.Reaches start p) (ho : ¬ g.OnCycle f p) (hq : q ∈ g.spanSuccessors p)
      (hc : g.OnCycle f q) (hn : ∀ f', g.pattern q ≠ .ref f')
  | behind {b p : PatternId} {e : ElementId} (hb : g.body? f = some b) (hp : g.Reaches b p)
      (he : g.pattern p = .element e) (hf : g.Refers (g.element e).content f)

variable {g : Grammar} {start p q r : PatternId} {f f' : DefinitionId}

theorem OnCycle.of_spans (h : g.OnCycle f p) (hq : g.Spans p q) (hp : g.Spans q p) : g.OnCycle f q := by
  obtain ⟨b, r, hb, hbp, hpr, hr⟩ := h
  exact ⟨b, r, hb, hbp.trans hq, hp.trans hpr, hr⟩

theorem OnCycle.body_spans {b : PatternId} (h : g.OnCycle f p) (hp : g.pattern p = .ref f')
    (hb : g.body? f' = some b) : g.Spans b p := by
  obtain ⟨b₀, r, hb₀, hbp, hpr, hr⟩ := h
  rcases hpr.cases_head with rfl | ⟨q, hq, hqr⟩
  · rw [hp] at hr
    cases hr
    rw [hb] at hb₀
    cases hb₀
    exact hbp
  · have hqb : q = b := by simpa [spanSuccessors, hp, hb] using hq
    have hrb₀ : g.Spans r b₀ := .single (body_mem_spanSuccessors hr hb₀)
    exact hqb ▸ (hqr.trans hrb₀).trans hbp

end Grammar

namespace RecursionCheck

variable {g : Grammar} {limits : Limits} {m m' m₁ m₂ : Memory} {start p q : PatternId} {ps qs : List PatternId}
  {e : ElementId} {f f' : DefinitionId} {k j : Nat} {left : Option DefinitionId}

/-- Everything that is reached is met on a walk that knew nothing before. -/
theorem Complete.met_of_reaches (h : Complete g {} m ps k) (hp : p ∈ ps) (hq : g.Reaches p q) : ∃ j, m.Met g q j := by
  induction hq with
  | refl => exact ⟨k, h.met p hp⟩
  | @tail q r _ hr ih =>
    obtain ⟨j, hj⟩ := ih
    by_cases href : ∃ f, g.pattern q = .ref f
    · obtain ⟨f, hf⟩ := href
      obtain ⟨progress, hknown, -⟩ := (Memory.met_ref hf).1 hj
      obtain ⟨b, i, hb, hi, -⟩ := (h.definitions f (by simp) (Memory.mem_of_known hknown)).body
      have hrb : r = b := by simpa [Grammar.successors, hf, hb] using hr
      exact ⟨i, hrb ▸ hi⟩
    · simp only [not_exists] at href
      have hclosed := h.visited q j (by simp) ((Memory.met_of_not_ref href).1 hj)
      rcases Grammar.mem_successors_iff.1 hr with hr | ⟨e, he, rfl⟩
      · exact ⟨j, hclosed.1 r (Grammar.mem_operands_of_mem_spanSuccessors href hr)⟩
      · exact h.elements e (by simp) (hclosed.2 e he)

/-- A walk met nothing on the way from a definition back to itself. -/
structure Untouched (g : Grammar) (f : DefinitionId) (m : Memory) : Prop where
  visited : ∀ q j, (q, j) ∈ m.visited → ¬ g.OnCycle f q
  definitions : ∀ q f', g.pattern q = .ref f' → g.OnCycle f q → f' ∉ m.definitions

variable (hinj : ∀ p q f, g.pattern p = .ref f → g.pattern q = .ref f → p = q)

include hinj

/-- Between the body of a definition on the way and the reference to it, what follows a pattern that is met at some depth
is met at that depth. -/
theorem Untouched.met_next (hu : Untouched g f m) (hn : ¬ g.Hidden start f) (hc : g.OnCycle f p)
    (hp : g.pattern p = .ref f') {b r : PatternId} (hb : g.body? f' = some b)
    (hw : Walks g (m.record f' (.openAt k)) [b] k m₂) (hbq : g.Spans b q) (hr : r ∈ g.spanSuccessors q)
    (hrp : g.Spans r p) (hq : m₂.Met g q k) : m₂.Met g r k := by
  have hqc : g.OnCycle f q :=
    hc.of_spans (.head (Grammar.body_mem_spanSuccessors hp hb) hbq) (.head hr hrp)
  by_cases href : ∃ f'', g.pattern q = .ref f''
  · obtain ⟨f'', hf''⟩ := href
    obtain ⟨progress, hknown, hne⟩ := (Memory.met_ref hf'').1 hq
    have hff : f' ≠ f'' := by
      rintro rfl
      have hopen : m₂.definitions[f']? = some (.openAt k) := hw.later.known f' _ (by simp [Memory.record])
      rw [hopen] at hknown
      cases hknown
      exact hne rfl
    have hnew : f'' ∉ (m.record f' (.openAt k)).definitions := by
      simpa [Memory.record, hff] using hu.definitions q f'' hf'' hqc
    obtain ⟨b', i, hb', hi, hor⟩ := (hw.complete.definitions f'' hnew (Memory.mem_of_known hknown)).body
    have hrb : r = b' := by simpa [Grammar.spanSuccessors, hf'', hb'] using hr
    rcases hor with rfl | ⟨b₁, hb₁, s, e, hs, he, t, ht, htf⟩
    · exact hrb ▸ hi
    · -- The definition was entered behind an element, from where the way leads back: it would be hidden.
      obtain ⟨b₀, u, hb₀, hb₀p, hpu, hu⟩ := hc
      rw [List.mem_singleton.1 hb₁] at hs
      rw [hinj t q f'' htf hf''] at ht
      refine absurd (.behind hb₀ ?_ he ⟨u, ?_, hu⟩) hn
      · exact hb₀p.reaches.trans (.head (Grammar.body_mem_successors hp hb) hs)
      · exact ht.trans ((Grammar.Spans.reaches (.head hr hrp)).trans hpu.reaches)
  · simp only [not_exists] at href
    have hv := (Memory.met_of_not_ref href).1 hq
    have hnew : (q, k) ∉ (m.record f' (.openAt k)).visited := fun hv => hu.visited q k hv hqc
    exact (hw.complete.visited q k hnew hv).1 r (Grammar.mem_operands_of_mem_spanSuccessors href hr)

/-- The first definition that is entered on the way cannot be left: its body leads to the reference again, at the same
depth. -/
theorem Untouched.not_walks (hu : Untouched g f m) (hn : ¬ g.Hidden start f) (hc : g.OnCycle f p)
    (hp : g.pattern p = .ref f') {b : PatternId} (hb : g.body? f' = some b) :
    ¬ Walks g (m.record f' (.openAt k)) [b] k m₂ := by
  intro hw
  have hmet (q) (hq : g.Spans b q) (hqp : g.Spans q p) : m₂.Met g q k := by
    induction hq with
    | refl => exact hw.complete.met b (List.mem_singleton_self b)
    | tail hbq hr ih => exact hu.met_next hinj hn hc hp hb hw hbq hr hqp (ih (.head hr hqp))
  obtain ⟨progress, hknown, hne⟩ := (Memory.met_ref hp).1 (hmet p (hc.body_spans hp hb) .refl)
  have hopen : m₂.definitions[f']? = some (.openAt k) := hw.later.known f' _ (by simp [Memory.record])
  rw [hopen] at hknown
  cases hknown
  exact hne rfl

/-- What a pattern leads to lies off the way, if the pattern does unless it is a reference. -/
theorem Untouched.meets (hu : Untouched g f m) (hn : ¬ g.Hidden start f) (h : Meets g m p k m₁ qs j left)
    (inner : Walks g m₁ qs j m₂) (hp : g.Reaches start p) (hpc : g.OnCycle f p → ∃ f', g.pattern p = .ref f') :
    Untouched g f m₁ ∧ (∀ q ∈ qs, g.OnCycle f q → ∃ f', g.pattern q = .ref f') ∧
      ∀ f', left = some f' → ∀ q, g.pattern q = .ref f' → ¬ g.OnCycle f q := by
  have hoff (hp : ∀ f', g.pattern p ≠ .ref f') : ¬ g.OnCycle f p := fun hc => (hpc hc).elim hp
  have hsee (hp : ∀ f', g.pattern p ≠ .ref f') : Untouched g f (m.see p k) := by
    refine ⟨fun q i hq => ?_, hu.definitions⟩
    rcases Std.HashSet.mem_insert.1 hq with heq | hq
    · cases eq_of_beq heq
      exact hoff hp
    · exact hu.visited q i hq
  cases h with
  | seen => exact ⟨hu, by simp, by simp⟩
  | operands hr =>
    refine ⟨hsee hr, fun q hq hqc => ?_, by simp⟩
    by_contra hne
    exact hn (.outside hp (hoff hr) (Grammar.mem_spanSuccessors_of_operand hq) hqc (not_exists.1 hne))
  | element he =>
    have hsee := hsee (by simp [he])
    refine ⟨⟨hsee.visited, hsee.definitions⟩, fun q hq hqc => ?_, by simp⟩
    rw [List.mem_singleton.1 hq] at hqc ⊢
    by_contra hne
    exact hn (.content hp he hqc (not_exists.1 hne))
  | known => exact ⟨hu, by simp, by simp⟩
  | @ref f' b hr hf hb =>
    have hpo : ¬ g.OnCycle f p := fun hc => hu.not_walks hinj hn hc hr hb inner
    refine ⟨⟨hu.visited, fun q f'' hq hqc hmem => ?_⟩, fun q hq hqc => ?_, fun f'' heq q hq => ?_⟩
    · rcases Std.HashMap.mem_insert.1 hmem with heq | hmem
      · rw [← eq_of_beq heq] at hq
        exact hpo (hinj q p f' hq hr ▸ hqc)
      · exact hu.definitions q f'' hq hqc hmem
    · by_contra hne
      rw [List.mem_singleton.1 hq] at hqc hne
      exact hn (.outside hp hpo (Grammar.body_mem_spanSuccessors hr hb) hqc (not_exists.1 hne))
    · cases heq
      rwa [hinj q p f' hq hr]

theorem Untouched.walks (hn : ¬ g.Hidden start f) (h : Walks g m ps k m') (hu : Untouched g f m)
    (hps : ∀ p ∈ ps, g.Reaches start p) (hpc : ∀ p ∈ ps, g.OnCycle f p → ∃ f', g.pattern p = .ref f') :
    Untouched g f m' := by
  induction h with
  | nil => exact hu
  | @cons m m₁ m₂ m₃ p ps qs k j left h inner rest ih ih' =>
    simp only [List.forall_mem_cons] at hps hpc
    obtain ⟨hu₁, hqc, hleft⟩ := hu.meets hinj hn h inner hps.1 hpc.1
    have hu₂ := ih hu₁ (fun q hq => hps.1.tail (h.mem_successors hq)) hqc
    refine ih' ?_ hps.2 hpc.2
    cases left with
    | none => exact hu₂
    | some f' =>
      refine ⟨hu₂.visited, fun q f'' hq hc hmem => ?_⟩
      rcases Std.HashMap.mem_insert.1 hmem with heq | hmem
      · rw [← eq_of_beq heq] at hq
        exact hleft f' rfl q hq hc
      · exact hu₂.definitions q f'' hq hc hmem

/-- A definition that recurs and is passed over is hidden. -/
theorem hidden_of_walks (h : Walks g {} [start] 0 m) (hf : g.Refers start f) (hr : g.Recurs f) : g.Hidden start f := by
  by_contra hn
  have hstart (p) (hp : p ∈ [start]) : g.OnCycle f p → ∃ f', g.pattern p = .ref f' := by
    rw [List.mem_singleton.1 hp]
    intro hc
    by_contra hne
    exact hn (.start hc (not_exists.1 hne))
  have hreach (p) (hp : p ∈ [start]) : g.Reaches start p := List.mem_singleton.1 hp ▸ .refl
  have hu := Untouched.walks hinj hn h ⟨by simp, by simp⟩ hreach hstart
  obtain ⟨q, hq, hqf⟩ := hf
  obtain ⟨j, hj⟩ := h.complete.met_of_reaches (List.mem_singleton_self start) hq
  obtain ⟨progress, hknown, -⟩ := (Memory.met_ref hqf).1 hj
  obtain ⟨b, r, hb, hs, hrf⟩ := hr
  exact hu.definitions r f hrf ⟨b, r, hb, hs, .refl, hrf⟩ (Memory.mem_of_known hknown)

end RecursionCheck

namespace Draft

variable {d : Draft} {start p q : PatternId} {limits : Limits} {f : DefinitionId}

/-- There is one reference to each definition. -/
theorem Sound.ref_inj (hd : d.Sound) (p q : PatternId) (f : DefinitionId) (hp : d.grammar.pattern p = .ref f)
    (hq : d.grammar.pattern q = .ref f) : p = q := by
  have has {r} (hr : d.grammar.pattern r = .ref f) : d.grammar.Has r := Grammar.has_of_pattern_ne (by simp [hr])
  exact hd.toStored.pattern_inj (has hp) (has hq) (hp.trans hq.symm)

/-- Where references have bodies behind them and nothing nests too deep, the check passes or names a definition that
recurs; and where it passes, the definitions that recur are hidden. -/
theorem ReachedBy.checkRecursion_exact (hd : d.Built)
    (hbody : ∀ f, d.grammar.Refers start f → d.grammar.body? f ≠ none)
    (hlimits : ∀ depth limit,
      d.grammar.checkRecursion start limits ≠ .error (.recursion (.depthExceeded depth limit))) :
    (d.grammar.checkRecursion start limits = .ok () ∨
      ∃ f loc, d.grammar.Refers start f ∧ d.grammar.Recurs f ∧ d.grammar.checkRecursion start limits =
        .error (.recursion (.recursiveReference (d.grammar.definition f).name loc))) ∧
    (d.grammar.checkRecursion start limits = .ok () →
      ∀ f, d.grammar.Refers start f → d.grammar.Recurs f → d.grammar.Hidden start f) := by
  have hs := hd.sound
  rcases Grammar.checkRecursion_cases hs.grammar start limits with ⟨hok, m, hw⟩ | ⟨error, herror, hfails⟩
  · exact ⟨.inl hok, fun _ f hf hr => RecursionCheck.hidden_of_walks hs.ref_inj hw hf hr⟩
  · refine ⟨.inr ?_, fun hok => by cases herror.symm.trans hok⟩
    rcases hfails with hfaults | ⟨depth, limit, rfl⟩
    · cases hfaults with
      | undefined loc hf hb => exact absurd hb (hbody _ hf)
      | recursive loc hf hr => exact ⟨_, loc, hf, hr, herror⟩
    · exact absurd herror (hlimits depth limit)

/-- The repetition is met before the definition is entered, and is not walked again as its body. -/
theorem looping_passes : looping.grammar.checkRecursion ⟨4⟩ .standard = .ok () := by
  have hrun : Machine.run? (RecursionCheck.step looping.grammar .standard) 5 { tasks := [.visit ⟨4⟩ 0 0] } =
      some (.ok ()) := by
    rw [looping_grammar, repeating_grammar]
    simp [Machine.run?, RecursionCheck.step, RecursionCheck.visit, Limits.checkRecursion, Limits.standard,
      Grammar.pattern, Grammar.node, Grammar.body?, Grammar.definition, Pattern.operands]
  rw [Grammar.checkRecursion, Machine.run_of_run? hrun, Option.getD_some]

theorem looping_body (h : looping.grammar.Refers p f) : looping.grammar.body? f ≠ none := by
  obtain ⟨q, -, hq⟩ := h
  rw [looping_eq hq, looping_grammar]
  exact Option.some_ne_none _

/-- The definition of `looping` is passed over from its body. -/
theorem checkRecursion_exact_looping : looping.Built ∧
    (∀ f, looping.grammar.Refers ⟨4⟩ f → looping.grammar.body? f ≠ none) ∧
    looping.grammar.checkRecursion ⟨4⟩ .standard = .ok () ∧ looping.grammar.Hidden ⟨4⟩ ⟨0⟩ := by
  have hlimits (depth limit) : looping.grammar.checkRecursion ⟨4⟩ .standard ≠
      .error (.recursion (.depthExceeded depth limit)) := by
    rw [looping_passes]
    exact nofun
  obtain ⟨-, hhidden⟩ := ReachedBy.checkRecursion_exact looping_fresh.built (fun _ => looping_body) hlimits
  exact ⟨looping_fresh.built, fun _ => looping_body, looping_passes,
    hhidden looping_passes ⟨0⟩ looping_refers looping_recurs⟩

/-- A definition that recurs is reached, and the check passes. -/
theorem recursion_passes : looping.Built ∧
    (∀ f, looping.grammar.Refers ⟨4⟩ f → looping.grammar.body? f ≠ none) ∧
    looping.grammar.Refers ⟨4⟩ ⟨0⟩ ∧ looping.grammar.Recurs ⟨0⟩ ∧
    looping.grammar.checkRecursion ⟨4⟩ .standard = .ok () :=
  ⟨looping_fresh.built, fun _ => looping_body, looping_refers, looping_recurs, looping_passes⟩

end Draft

end RelaxNg
