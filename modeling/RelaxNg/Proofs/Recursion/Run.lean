import RelaxNg.Proofs.Recursion.Walks

/-!
# Runs of the recursion check

The machine of `Grammar.checkRecursion` comes to an end from every memory in which the definitions that are open at the
depth of a pattern lead to it (`Memory.Leading`). Either it has walked the pattern, as `Walks` tells, or it stops with
an error: patterns nest too deep, or the pattern leads to a definition that is at fault. Elements and definitions that
were entered are not entered again, which is why it ends.
-/

namespace RelaxNg.RecursionCheck

open Relation Machine

variable {g : Grammar} {limits : Limits} {m m' m₁ m₂ m₃ : Memory} {p q : PatternId} {ps qs : List PatternId}
  {e : ElementId} {f : DefinitionId} {k j : Nat} {left : Option DefinitionId} {error : Error}

def Memory.state (m : Memory) (tasks : List Task) : State := ⟨m.definitions, m.elements, m.visited, tasks⟩

/-- Every definition that is open at the depth of a pattern leads to it, and none is open deeper. -/
def Memory.Leading (g : Grammar) (m : Memory) (p : PatternId) (k : Nat) : Prop :=
  ∀ (f : DefinitionId) (j : Nat), m.definitions[f]? = some (.openAt j) →
    j ≤ k ∧ (j = k → ∃ b, g.body? f = some b ∧ g.Spans b p)

theorem Memory.Leading.later (h : m.Leading g p k) (hm : m.Later m') : m'.Leading g p k := by
  intro f j hf
  cases hold : m.definitions[f]? with
  | none => cases hm.new f _ hold hf
  | some progress =>
    have hsame := hm.known f progress hold
    rw [hf] at hsame
    cases hsame
    exact h f j hold

/-- An error of a walk: patterns nest too deep, or a definition to which a pattern leads is at fault. -/
def Fails (g : Grammar) (p : PatternId) (error : Error) : Prop :=
  g.Faults p error ∨ ∃ depth limit, error = .recursion (.depthExceeded depth limit)

theorem Fails.of_reaches (h : Fails g q error) (hp : g.Reaches p q) : Fails g p error := h.imp_left (·.of_reaches hp)

/-! ## One step -/

theorem visit_cases (hl : m.Leading g p k) (level : Nat) (tasks : List Task) :
    (∃ m₁ qs j left, Meets g m p k m₁ qs j left ∧ visit g (m.state tasks) p k level =
      .ok (m₁.state (qs.map (.visit · j (level + 1)) ++ (left.toList.map .leave ++ tasks)))) ∨
    ∃ error, g.Faults p error ∧ visit g (m.state tasks) p k level = .error error := by
  -- A reference is judged by what is known of its definition, all else by whether it was walked.
  by_cases hr : ∃ f, g.pattern p = .ref f
  · obtain ⟨f, hp⟩ := hr
    have hrefers : g.Refers p f := ⟨p, .refl, hp⟩
    cases hf : m.definitions[f]? with
    | none =>
      cases hb : g.body? f with
      | none =>
        refine .inr ⟨_, .undefined (placeOfRef g p f) hrefers hb, ?_⟩
        simp [visit, Memory.state, hp, hf, hb]
      | some b => exact .inl ⟨_, _, _, _, .ref hp hf hb, by simp [visit, Memory.state, Memory.record, hp, hf, hb]⟩
    | some progress =>
      by_cases hk : progress = .openAt k
      · subst hk
        obtain ⟨b, hb, hs⟩ := (hl f k hf).2 rfl
        refine .inr ⟨_, .recursive (placeOfRef g p f) hrefers ⟨b, p, hb, hs, hp⟩, ?_⟩
        simp [visit, Memory.state, hp, hf]
      · exact .inl ⟨_, _, _, _, .known hp hf hk, by simp [visit, Memory.state, hp, hf, hk]⟩
  · simp only [not_exists] at hr
    refine .inl ?_
    by_cases hv : (p, k) ∈ m.visited
    · refine ⟨_, _, _, _, .seen hr hv, ?_⟩
      cases hp : g.pattern p <;> simp_all [visit, Memory.state]
    by_cases he : ∃ e, g.pattern p = .element e ∧ e ∉ m.elements
    · obtain ⟨e, hp, he⟩ := he
      exact ⟨_, _, _, _, .element hp hv he, by simp [visit, Memory.state, Memory.see, Memory.enter, hp, hv, he]⟩
    · have hknown (e) (hp : g.pattern p = .element e) : e ∈ m.elements := by
        by_contra hn
        exact he ⟨e, hp, hn⟩
      refine ⟨_, _, _, _, .operands hr hv hknown, ?_⟩
      cases hp : g.pattern p <;> simp_all [visit, Memory.state, Memory.see, Pattern.operands]

theorem step_visit (hl : m.Leading g p k) (level : Nat) (tasks : List Task) :
    (∃ m₁ qs j left, Meets g m p k m₁ qs j left ∧ step g limits (m.state (.visit p k level :: tasks)) =
      .inl (m₁.state (qs.map (.visit · j (level + 1)) ++ (left.toList.map .leave ++ tasks)))) ∨
    ∃ error, Fails g p error ∧ step g limits (m.state (.visit p k level :: tasks)) = .inr (.error error) := by
  cases hlevel : limits.checkRecursion level with
  | error error =>
    refine .inr ⟨error, .inr ?_, by simp [step, Memory.state, hlevel]⟩
    unfold Limits.checkRecursion at hlevel
    split at hlevel
    · cases hlevel
      exact ⟨_, _, rfl⟩
    · cases hlevel
  | ok =>
    unfold Memory.state
    rcases visit_cases hl level tasks with ⟨m₁, qs, j, left, hmeets, hvisit⟩ | ⟨error, hfaults, hvisit⟩ <;>
      unfold Memory.state at hvisit
    · exact .inl ⟨m₁, qs, j, left, hmeets, by simp only [step, hlevel, hvisit]⟩
    · exact .inr ⟨error, .inl hfaults, by simp only [step, hlevel, hvisit]⟩

theorem leads_leave (m : Memory) (left : Option DefinitionId) (tasks : List Task) :
    Leads (step g limits) (m.state (left.toList.map .leave ++ tasks)) ((m.leave left).state tasks) := by
  cases left with
  | none => exact .refl _
  | some f => exact .single rfl

/-- The patterns that are walked next are where the definitions that are open lead. -/
theorem Meets.leading (h : Meets g m p k m₁ qs j left) (hl : m.Leading g p k) (hq : q ∈ qs) : m₁.Leading g q j := by
  cases h with
  | seen => cases hq
  | operands hp =>
    intro f i hf
    obtain ⟨hle, hlead⟩ := hl f i hf
    refine ⟨hle, fun hi => ?_⟩
    obtain ⟨b, hb, hs⟩ := hlead hi
    exact ⟨b, hb, hs.tail (Grammar.mem_spanSuccessors_of_operand hq)⟩
  | element =>
    intro f i hf
    have hle := (hl f i hf).1
    exact ⟨by omega, fun hi => by omega⟩
  | known => cases hq
  | @ref f' b' hp hnew hb' =>
    intro f i hf
    rw [List.mem_singleton.1 hq]
    by_cases hff : f' = f
    · subst hff
      have hi : k = i := by simpa [Memory.record] using hf
      exact ⟨by omega, fun _ => ⟨b', hb', .refl⟩⟩
    · obtain ⟨hle, hlead⟩ := hl f i (by simpa [Memory.record, Std.HashMap.getElem?_insert, hff] using hf)
      refine ⟨hle, fun hi => ?_⟩
      obtain ⟨b, hb, hs⟩ := hlead hi
      exact ⟨b, hb, hs.tail (Grammar.body_mem_spanSuccessors hp hb')⟩

/-! ## Termination -/

def unentered (g : Grammar) (m : Memory) : Nat := absent g.elements.size fun i => (⟨i⟩ : ElementId) ∈ m.elements

def unknown (g : Grammar) (m : Memory) : Nat := absent g.definitions.size fun i => (⟨i⟩ : DefinitionId) ∈ m.definitions

theorem Memory.Later.definitions (h : m.Later m') (f : DefinitionId) (hf : f ∈ m.definitions) :
    f ∈ m'.definitions := by
  rw [Std.HashMap.mem_iff_isSome_getElem?, Option.isSome_iff_exists] at hf
  obtain ⟨progress, hknown⟩ := hf
  exact Memory.mem_of_known (h.known f progress hknown)

/-- What is walked next comes nearer to the end: an element or a definition was entered, or the pattern is smaller. -/
theorem Meets.decreases (hg : g.Sound) (h : Meets g m p k m₁ qs j left) (hm : m₁.Later m₂) (hq : q ∈ qs) :
    Prod.Lex (· < ·) (Prod.Lex (· < ·) (· < ·)) (unentered g m₂, unknown g m₂, q.index)
      (unentered g m, unknown g m, p.index) := by
  have hsettled := hg.settled p
  simp only [Prod.lex_def]
  cases h with
  | seen => cases hq
  | operands hp =>
    have hle : unentered g m₂ ≤ unentered g m := absent_le fun i hi => hm.elements ⟨i⟩ hi
    have hle' : unknown g m₂ ≤ unknown g m := absent_le fun i hi => hm.definitions ⟨i⟩ hi
    have hlt := hsettled.operand_lt q hq
    omega
  | @element e he hv hn =>
    refine .inl (absent_lt (i := e.index) (fun i hi => ?_) (hsettled.element_lt e he) hn ?_)
    · exact hm.elements ⟨i⟩ (Std.HashSet.mem_insert.2 (.inr hi))
    · exact hm.elements e Std.HashSet.mem_insert_self
  | known => cases hq
  | @ref f b hp hnew hb =>
    have hle : unentered g m₂ ≤ unentered g m := absent_le fun i hi => hm.elements ⟨i⟩ hi
    have hlt : unknown g m₂ < unknown g m := by
      have hn : f ∉ m.definitions := by
        rw [Std.HashMap.mem_iff_isSome_getElem?, hnew]
        simp
      refine absent_lt (i := f.index) (fun i hi => ?_) (hsettled.ref_lt f hp) hn ?_
      · exact hm.definitions ⟨i⟩ (Std.HashMap.mem_insert.2 (.inr hi))
      · exact hm.definitions f Std.HashMap.mem_insert_self
    omega

/-! ## Walks come to an end -/

theorem Walks.append (h : Walks g m ps k m₁) (h' : Walks g m₁ qs k m₂) : Walks g m (ps ++ qs) k m₂ := by
  induction h with
  | nil => exact h'
  | cons hmeets inner _ _ ih => exact .cons hmeets inner (ih h')

/-- The machine walks some patterns and goes on with what is to be done besides, or it stops with an error. -/
def Ends (g : Grammar) (limits : Limits) (m : Memory) (ps : List PatternId) (k : Nat) : Prop :=
  ∀ level tasks,
    (∃ m', Walks g m ps k m' ∧
      Leads (step g limits) (m.state (ps.map (.visit · k level) ++ tasks)) (m'.state tasks)) ∨
    ∃ error s, (∃ p ∈ ps, Fails g p error) ∧
      Leads (step g limits) (m.state (ps.map (.visit · k level) ++ tasks)) s ∧ step g limits s = .inr (.error error)

theorem ends_nil : Ends g limits m [] k := fun _ _ => .inl ⟨m, .nil m k, .refl _⟩

theorem ends_cons (h : Ends g limits m [p] k) (hps : ∀ m', m.Later m' → Ends g limits m' ps k) :
    Ends g limits m (p :: ps) k := by
  intro level tasks
  rcases h level (ps.map (.visit · k level) ++ tasks) with ⟨m₁, hw, hl⟩ | ⟨error, s, ⟨q, hq, hf⟩, hl, hs⟩
  · rcases hps m₁ hw.later level tasks with ⟨m₂, hw', hl'⟩ | ⟨error, s, ⟨q, hq, hf⟩, hl', hs⟩
    · exact .inl ⟨m₂, hw.append hw', hl.trans hl'⟩
    · exact .inr ⟨error, s, ⟨q, List.mem_cons_of_mem p hq, hf⟩, hl.trans hl', hs⟩
  · exact .inr ⟨error, s, ⟨q, List.mem_singleton.1 hq ▸ List.mem_cons_self, hf⟩, hl, hs⟩

theorem ends_all (hl : ∀ q ∈ qs, m.Leading g q k)
    (h : ∀ q ∈ qs, ∀ m', m.Later m' → m'.Leading g q k → Ends g limits m' [q] k) : Ends g limits m qs k := by
  induction qs generalizing m with
  | nil => exact ends_nil
  | cons q qs ih =>
    simp only [List.forall_mem_cons] at hl h
    refine ends_cons (h.1 m (.refl m) hl.1) fun m' hm => ?_
    exact ih (fun r hr => (hl.2 r hr).later hm) fun r hr m₂ hm₂ => h.2 r hr m₂ (hm.trans hm₂)

/-- The walk of a pattern comes to an end. -/
theorem ends (hg : g.Sound) (limits : Limits) {m : Memory} {p : PatternId} {k : Nat} (hl : m.Leading g p k) :
    Ends g limits m [p] k := by
  intro level tasks
  rcases step_visit hl level tasks with ⟨m₁, qs, j, left, hmeets, hstep⟩ | ⟨error, hfails, hstep⟩
  · have hqs : Ends g limits m₁ qs j := ends_all (fun q hq => hmeets.leading hl hq) fun q hq m₂ hm hl₂ =>
      have hless := hmeets.decreases hg hm hq
      ends hg limits hl₂
    rcases hqs (level + 1) (left.toList.map .leave ++ tasks) with ⟨m₂, hw, hleads⟩ | ⟨error, s, ⟨q, hq, hf⟩, hleads, hs⟩
    · exact .inl ⟨_, .cons hmeets hw (.nil _ _), .head hstep (hleads.trans (leads_leave m₂ left tasks))⟩
    · refine .inr ⟨error, s, ⟨p, List.mem_singleton_self p, ?_⟩, .head hstep hleads, hs⟩
      exact hf.of_reaches (.single (hmeets.mem_successors hq))
  · exact .inr ⟨error, _, ⟨p, List.mem_singleton_self p, hfails⟩, .refl _, hstep⟩
-- Operands have smaller numbers; a content costs an element, and a body a definition.
termination_by (unentered g m, unknown g m, p.index)
decreasing_by exact hless

theorem ends_start (hg : g.Sound) (start : PatternId) (limits : Limits) : Ends g limits {} [start] 0 :=
  ends hg limits fun f j hf => by simp at hf

end RelaxNg.RecursionCheck

namespace RelaxNg.Grammar

open RecursionCheck

/-- The check of a grammar walks it, or it answers with an error. -/
theorem checkRecursion_cases {g : Grammar} (hg : g.Sound) (start : PatternId) (limits : Limits) :
    (g.checkRecursion start limits = .ok () ∧ ∃ m, Walks g {} [start] 0 m) ∨
      ∃ error, g.checkRecursion start limits = .error error ∧ Fails g start error := by
  have hstate : ({ tasks := [.visit start 0 0] } : State) = Memory.state {} ([start].map (.visit · 0 0) ++ []) := rfl
  rw [checkRecursion, hstate]
  rcases ends_start hg start limits 0 [] with ⟨m, hw, hleads⟩ | ⟨error, s, ⟨p, hp, hf⟩, hleads, hs⟩
  · have hend : step g limits (m.state []) = .inr (.ok ()) := rfl
    rw [hleads.run_eq_some hend]
    exact .inl ⟨rfl, m, hw⟩
  · rw [hleads.run_eq_some hs]
    exact .inr ⟨error, rfl, List.mem_singleton.1 hp ▸ hf⟩

end RelaxNg.Grammar
