import RelaxNg.Proofs.Draft.Calls
import RelaxNg.Proofs.Recursion.Run

/-!
# Walks that come to an end

The machines of `Draft.expand` and of `Grammar.checkRecursion` come to an answer from every pattern, whatever refers to
what (`Draft.ReachedBy.walks_end`). An expansion also never misses a result. Each of its tasks takes some results and
leaves one, and what the tasks that wait are going to take is there (`Expansion.Enough`). Every step keeps this
(`Expansion.Balanced.step`), so no state on the way is `Stuck`. From other states no fault of the expansion is answered
(`Expansion.State.stuck_iff`).
-/

namespace RelaxNg

namespace Expansion

open Machine

/-- How many results a task takes. In the end it has left one. -/
def Task.takes (g : Grammar) : Task → Nat
  | .visit _ => 0
  | .rebuild p => (g.pattern p).operands.length
  | .leaveRef _ _ | .leaveElement _ _ _ => 1

/-- A result that is to be taken is missing, or a pattern without operands is to be put together from them. -/
def State.Stuck (s : State) : Prop :=
  match s.tasks with
  | [] => s.results = []
  | task :: _ => s.results.length < task.takes s.draft.grammar ∨
      ∃ p, task = .rebuild p ∧ (s.draft.grammar.pattern p).operands = []

/-- The patterns of a task are stored, and one that is put together has operands. -/
def Task.Fits (g : Grammar) : Task → Prop
  | .visit p | .leaveElement p _ _ => g.Has p
  | .rebuild p => g.Has p ∧ (g.pattern p).operands ≠ []
  | .leaveRef _ _ => True

/-- With so many results, every task finds those that it takes, and one is left behind the last task. -/
def Enough (g : Grammar) : List Task → Nat → Prop
  | [], count => count = 1
  | task :: rest, count => task.takes g ≤ count ∧ Enough g rest (count - task.takes g + 1)

/-- What a state holds is stored, and its tasks find what they take. -/
structure Balanced (s : State) : Prop where
  sound : s.draft.Sound
  fits : ∀ task ∈ s.tasks, task.Fits s.draft.grammar
  done : ∀ p q : PatternId, s.done[p]? = some q → s.draft.grammar.Has q
  results : ∀ q ∈ s.results, s.draft.grammar.Has q
  enough : Enough s.draft.grammar s.tasks s.results.length

variable {g g' : Grammar} {d d' : Draft} {done done' : Std.HashMap PatternId PatternId}
  {active active' : Std.HashSet DefinitionId} {task : Task} {tasks rest : List Task} {results : List PatternId}
  {p q : PatternId} {s next : State} {count : Nat}

/-! ## What a task takes -/

theorem Task.Fits.of_grows (hg : g.Grows g') (h : task.Fits g) : task.Fits g' := by
  cases task with
  | visit p => exact hg.has h
  | rebuild p => exact ⟨hg.has h.1, by rw [hg.pattern_eq h.1]; exact h.2⟩
  | leaveRef p f => trivial
  | leaveElement p e outer => exact hg.has h

theorem Task.Fits.takes_eq (hg : g.Grows g') (h : task.Fits g) : task.takes g' = task.takes g := by
  cases task with
  | rebuild p => rw [takes, takes, hg.pattern_eq h.1]
  | visit | leaveRef | leaveElement => rfl

theorem Enough.of_grows (hg : g.Grows g') (hf : ∀ task ∈ tasks, task.Fits g) (h : Enough g tasks count) :
    Enough g' tasks count := by
  induction tasks generalizing count with
  | nil => exact h
  | cons task rest ih =>
    simp only [List.forall_mem_cons] at hf
    rw [Enough, hf.1.takes_eq hg]
    exact ⟨h.1, ih hf.2 h.2⟩

/-- Visits take nothing, so each of them leaves one more. -/
theorem enough_visits {ps : List PatternId} :
    Enough g (ps.map .visit ++ tasks) count ↔ Enough g tasks (count + ps.length) := by
  induction ps generalizing count with
  | nil => rfl
  | cons p ps ih =>
    rw [List.map_cons, List.cons_append, Enough, Task.takes, ih, List.length_cons, Nat.add_assoc, Nat.add_comm 1]
    simp

/-! ## Steps -/

theorem Balanced.push (h : Balanced ⟨d, done, active, task :: rest, results⟩) (hd : d'.Sound)
    (hg : d.grammar.Grows d'.grammar) (hq : d'.grammar.Has q)
    (hdone : ∀ p q : PatternId, done'[p]? = some q → d'.grammar.Has q) :
    Balanced ⟨d', done', active', rest, q :: results.drop (task.takes d.grammar)⟩ where
  sound := hd
  fits := fun t ht => (h.fits t (List.mem_cons_of_mem task ht)).of_grows hg
  done := hdone
  results := by
    intro r hr
    rcases List.mem_cons.1 hr with rfl | hr
    · exact hq
    · exact hg.has (h.results r (List.mem_of_mem_drop hr))
  enough := by
    rw [List.length_cons, List.length_drop]
    exact h.enough.2.of_grows hg fun t ht => h.fits t (List.mem_cons_of_mem task ht)

/-- A task takes its results and leaves one. -/
theorem Balanced.finish (h : Balanced ⟨d, done, active, task :: rest, results⟩) (hd : d'.Sound)
    (hg : d.grammar.Grows d'.grammar) (hq : d'.grammar.Has q) :
    Balanced (State.finish ⟨d', done, active', rest, results.drop (task.takes d.grammar)⟩ p q) := by
  refine h.push hd hg hq fun p' q' hp' => ?_
  rw [Std.HashMap.getElem?_insert] at hp'
  split at hp'
  · cases hp'
    exact hq
  · exact hg.has (h.done p' q' hp')

/-- In the place of a visit come others, and behind them a task that takes what they leave. -/
theorem Balanced.descend (h : Balanced ⟨d, done, active, .visit p :: rest, results⟩) (hd : d'.Sound)
    (hg : d.grammar.Grows d'.grammar) (qs : List PatternId) (hq : ∀ q ∈ qs, d'.grammar.Has q)
    (hf : task.Fits d'.grammar) (ht : task.takes d'.grammar = qs.length) :
    Balanced ⟨d', done, active', qs.map .visit ++ (task :: rest), results⟩ where
  sound := hd
  fits := by
    intro t ht
    rcases List.mem_append.1 ht with ht | ht
    · obtain ⟨q, hmem, rfl⟩ := List.mem_map.1 ht
      exact hq q hmem
    · rcases List.mem_cons.1 ht with rfl | ht
      · exact hf
      · exact (h.fits t (List.mem_cons_of_mem _ ht)).of_grows hg
  done := fun p q hp => hg.has (h.done p q hp)
  results := fun r hr => hg.has (h.results r hr)
  enough := by
    have hrest := h.enough.2.of_grows hg fun t ht => h.fits t (List.mem_cons_of_mem _ ht)
    refine enough_visits.2 ⟨?_, ?_⟩
    · rw [ht]
      exact Nat.le_add_left _ _
    · rw [ht, Nat.add_sub_cancel]
      exact hrest

/-- What a visit does to a pattern that is not done. -/
theorem visit_cases (hn : done[p]? = none) :
    step ⟨d, done, active, .visit p :: rest, results⟩ = .inl (State.finish ⟨d, done, active, rest, results⟩ p p) ∨
    (∃ e, d.grammar.pattern p = .element e ∧ step ⟨d, done, active, .visit p :: rest, results⟩ =
      .inl ⟨d.mark e, done, {}, .visit (d.grammar.element e).content :: .leaveElement p e active :: rest, results⟩) ∨
    (∃ f b, d.grammar.body? f = some b ∧ step ⟨d, done, active, .visit p :: rest, results⟩ =
      .inl ⟨d, done, active.insert f, .visit b :: .leaveRef p f :: rest, results⟩) ∨
    ((d.grammar.pattern p).operands ≠ [] ∧ step ⟨d, done, active, .visit p :: rest, results⟩ =
      .inl ⟨d, done, active, (d.grammar.pattern p).operands.map .visit ++ (.rebuild p :: rest), results⟩) ∨
    ∃ error, (∀ fault, error ≠ .grammar fault) ∧
      step ⟨d, done, active, .visit p :: rest, results⟩ = .inr (.error error, d) := by
  by_cases he : ∃ e, d.grammar.pattern p = .element e
  · obtain ⟨e, he⟩ := he
    by_cases hm : e ∈ d.expanded
    · exact .inl (step_marked hn he hm)
    · exact .inr (.inl ⟨e, he, step_element hn he hm⟩)
  by_cases hr : ∃ f, d.grammar.pattern p = .ref f
  · obtain ⟨f, hr⟩ := hr
    cases hf : d.grammar.body? f with
    | none => exact .inr (.inr (.inr (.inr ⟨_, by simp, step_undefined hn hr hf⟩)))
    | some b =>
      by_cases ha : f ∈ active
      · exact .inr (.inr (.inr (.inr ⟨_, by simp, step_open hn hr hf ha⟩)))
      · exact .inr (.inr (.inl ⟨f, b, hf, step_ref hn hr hf ha⟩))
  simp only [not_exists] at he hr
  by_cases ho : (d.grammar.pattern p).operands = []
  · exact .inl (step_leaf hn ho he hr)
  · exact .inr (.inr (.inr (.inl ⟨ho, step_operands hn ho⟩)))

theorem Balanced.visit (h : Balanced ⟨d, done, active, .visit p :: rest, results⟩)
    (hs : step ⟨d, done, active, .visit p :: rest, results⟩ = .inl next) : Balanced next := by
  have hp : d.grammar.Has p := h.fits _ List.mem_cons_self
  cases hn : done[p]? with
  | some q =>
    have hstep : step ⟨d, done, active, .visit p :: rest, results⟩ = .inl ⟨d, done, active, rest, q :: results⟩ := by
      simp [step, hn]
    cases hs.symm.trans hstep
    exact h.push h.sound (.refl _) (h.done p q hn) h.done
  | none =>
    rcases visit_cases (d := d) hn with hstep | ⟨e, he, hstep⟩ | ⟨f, b, hf, hstep⟩ | ⟨ho, hstep⟩ | ⟨_, -, hstep⟩ <;>
      cases hs.symm.trans hstep
    · exact h.finish h.sound (.refl _) hp
    · have ha := Draft.advance_mark h.sound e
      exact h.descend ha.sound ha.grows [_] (List.forall_mem_singleton.2 (ha.sound.has_content e)) hp rfl
    · exact h.descend h.sound (.refl _) [b] (List.forall_mem_singleton.2 (h.sound.grammar.body_has f b hf)) trivial rfl
    · exact h.descend h.sound (.refl _) _ (fun q hq => h.sound.grammar.operand_has hp hq) ⟨hp, ho⟩ rfl

/-- Every step keeps the balance. -/
theorem Balanced.step (h : Balanced s) (hs : step s = .inl next) : Balanced next := by
  obtain ⟨d, done, active, tasks, results⟩ := s
  cases tasks with
  | nil => cases results <;> cases hs
  | cons task rest =>
    have hfits := h.fits task List.mem_cons_self
    have htakes := h.enough.1
    cases task with
    | visit p => exact h.visit hs
    | rebuild p =>
      have hlength : (results.take (d.grammar.pattern p).operands.length).reverse.length =
          (d.grammar.pattern p).operands.length := by
        simpa [Task.takes] using htakes
      obtain ⟨r, hwith, hmade⟩ := Draft.exists_made_withOperands h.sound hfits.1 hfits.2
        (fun q hq => h.results q (List.mem_of_mem_take (List.mem_reverse.1 hq))) hlength
      simp only [Expansion.step, hwith] at hs
      cases hs
      exact h.finish hmade.sound hmade.grows hmade.has
    | leaveRef p f =>
      cases results with
      | nil => cases hs
      | cons q results =>
        cases hs
        exact h.finish h.sound (.refl _) (h.results q List.mem_cons_self)
    | leaveElement p e outer =>
      cases results with
      | nil => cases hs
      | cons q results =>
        cases hs
        exact h.finish (h.sound.setContent (h.results q List.mem_cons_self)) (.of_nodes_eq rfl) hfits

/-! ## Missing results -/

theorem withOperands_eq_error_iff {qs : List PatternId} (hl : qs.length ≤ (d.grammar.pattern p).operands.length) :
    (∃ fault d', withOperands d p qs = (.error fault, d')) ↔
      qs.length < (d.grammar.pattern p).operands.length ∨ (d.grammar.pattern p).operands = [] := by
  unfold withOperands
  cases hpat : d.grammar.pattern p <;> rw [hpat] at hl <;> rcases qs with _ | ⟨q, _ | ⟨r, _ | ⟨t, qs⟩⟩⟩ <;>
    simp [Pattern.operands, withOperands.made] at hl ⊢ <;> split <;> simp

/-- A step answers with a fault of the expansion exactly if the state is stuck. -/
theorem State.stuck_iff : s.Stuck ↔ ∃ fault d, step s = .inr (.error (.grammar fault), d) := by
  obtain ⟨d, done, active, tasks, results⟩ := s
  cases tasks with
  | nil => cases results <;> simp [Stuck, step]
  | cons task rest =>
    cases task with
    | visit p =>
      have hstep (fault d') :
          step ⟨d, done, active, .visit p :: rest, results⟩ ≠ .inr (.error (.grammar fault), d') := by
        intro hs
        cases hn : done[p]? with
        | some q => simp [step, hn] at hs
        | none =>
          rcases visit_cases (d := d) hn with h | ⟨e, -, h⟩ | ⟨f, b, -, h⟩ | ⟨-, h⟩ | ⟨error, hne, h⟩ <;>
            cases hs.symm.trans h
          exact hne fault rfl
      simp [Stuck, Task.takes, hstep]
    | rebuild p =>
      have hl : (results.take (d.grammar.pattern p).operands.length).reverse.length ≤
          (d.grammar.pattern p).operands.length := by simp
      have hiff := withOperands_eq_error_iff hl
      rw [List.length_reverse, List.length_take, min_lt_iff, or_iff_right (lt_irrefl _)] at hiff
      simp only [Stuck, Task.takes, Task.rebuild.injEq, exists_eq_left', ← hiff, step]
      rcases withOperands d p (results.take (d.grammar.pattern p).operands.length).reverse with ⟨_ | _, _⟩ <;> simp
    | leaveRef p f => cases results <;> simp [Stuck, step, Task.takes]
    | leaveElement p e outer => cases results <;> simp [Stuck, step, Task.takes]

theorem Balanced.leads (h : Balanced s) (hl : Leads Expansion.step s next) : Balanced next := by
  induction hl with
  | refl => exact h
  | head hs _ ih => exact ih (h.step hs)

theorem Balanced.not_stuck (h : Balanced s) : ¬ s.Stuck := by
  obtain ⟨d, done, active, tasks, results⟩ := s
  have henough := h.enough
  cases tasks with
  | nil =>
    rintro rfl
    cases henough
  | cons task rest =>
    rintro (hlt | ⟨p, rfl, ho⟩)
    · exact absurd henough.1 (not_le.2 hlt)
    · exact (h.fits _ List.mem_cons_self).2 ho

theorem balanced_start (hd : d.Sound) (hp : d.grammar.Has p) : Balanced ⟨d, {}, {}, [.visit p], []⟩ where
  sound := hd
  fits := List.forall_mem_singleton.2 hp
  done := by simp
  results := by simp
  enough := ⟨Nat.zero_le _, rfl⟩

end Expansion

/-! ## Answers -/

/-- The check of a grammar comes to its answer. -/
theorem Grammar.run_checkRecursion {g : Grammar} (hg : g.Sound) (start : PatternId) (limits : Limits) :
    Machine.run (RecursionCheck.step g limits) { tasks := [.visit start 0 0] } =
      some (g.checkRecursion start limits) := by
  have hends : ∃ answer, Machine.run (RecursionCheck.step g limits) { tasks := [.visit start 0 0] } = some answer := by
    rcases RecursionCheck.ends_start hg start limits 0 [] with ⟨m, -, hl⟩ | ⟨error, s, -, hl, hs⟩
    · exact ⟨.ok (), hl.run_eq_some rfl⟩
    · exact ⟨.error error, hl.run_eq_some hs⟩
  obtain ⟨answer, h⟩ := hends
  rw [checkRecursion, h, Option.getD_some]

namespace Draft

variable {d d' : Draft} {p : PatternId} {t : Tree} {error : Error}

/-- An expansion comes to its answer. -/
theorem run_expand (hd : d.Sound) (hp : d.grammar.Has p) :
    Machine.run Expansion.step ⟨d, {}, {}, [.visit p], []⟩ = some (d.expand p) := by
  have hends : ∃ answer, Machine.run Expansion.step ⟨d, {}, {}, [.visit p], []⟩ = some answer := by
    rcases visits_start hd hp [] [] with ⟨q, d', done', active', hl, -⟩ | ⟨s, error, hl, hs, -⟩
    · exact ⟨(.ok q, d'), hl.run_eq_some rfl⟩
    · exact ⟨(.error error, s.draft), hl.run_eq_some hs⟩
  obtain ⟨answer, h⟩ := hends
  rw [expand, h, Option.getD_some]

theorem Blames.ne_grammar (h : d.Blames t error) (fault : GrammarFault) : error ≠ .grammar fault := by
  cases h <;> simp

theorem Refused.ne_grammar (h : d.Refused t d' error) (fault : GrammarFault) : error ≠ .grammar fault := by
  rcases h.blamed with ⟨hb, -⟩ | ⟨e, -, -, hb⟩
  · exact hb.ne_grammar fault
  · exact hb.ne_grammar fault

/-- An expansion does finitely many tasks and is never stuck, so what it answers with is no fault of its own. The check
for recursion does finitely many tasks, too, with any limits. -/
theorem ReachedBy.walks_end (hd : d.Built) (hp : d.grammar.Has p) :
    (∃ steps, Machine.run? Expansion.step steps ⟨d, {}, {}, [.visit p], []⟩ = some (d.expand p)) ∧
    (∀ s, Machine.Leads Expansion.step ⟨d, {}, {}, [.visit p], []⟩ s → ¬ s.Stuck) ∧
    (∀ fault, (d.expand p).1 ≠ .error (.grammar fault)) ∧
    ∀ limits, ∃ steps, Machine.run? (RecursionCheck.step d.grammar limits) steps { tasks := [.visit p 0 0] } =
      some (d.grammar.checkRecursion p limits) := by
  have hs := hd.sound
  refine ⟨Machine.run_eq_some_iff.1 (run_expand hs hp), fun s hl => ?_, fun fault h => ?_, fun limits => ?_⟩
  · exact ((Expansion.balanced_start hs hp).leads hl).not_stuck
  · exact (refused_of_expand hs hp (Prod.ext h rfl)).ne_grammar fault rfl
  · exact Machine.run_eq_some_iff.1 (Grammar.run_checkRecursion hs.grammar p limits)

/-- The statement for a definition that recurs. -/
theorem walks_end_looping : looping.Built ∧ looping.grammar.Has ⟨4⟩ ∧
    (∃ steps, Machine.run? Expansion.step steps ⟨looping, {}, {}, [.visit ⟨4⟩], []⟩ = some (looping.expand ⟨4⟩)) ∧
    (looping.expand ⟨4⟩).1 ≠ .error (.grammar .unfinished) ∧
    ∃ steps, Machine.run? (RecursionCheck.step looping.grammar .standard) steps { tasks := [.visit ⟨4⟩ 0 0] } =
      some (looping.grammar.checkRecursion ⟨4⟩ .standard) := by
  obtain ⟨hexpand, -, hfault, hcheck⟩ := looping_fresh.built.walks_end looping_has
  exact ⟨looping_fresh.built, looping_has, hexpand, hfault .unfinished, hcheck .standard⟩

end Draft

end RelaxNg
