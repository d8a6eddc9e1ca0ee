import Mathlib.Tactic.IntervalCases
import RelaxNg.Proofs.Recursion.Routes
import RelaxNg.Proofs.Recursion.Run

/-!
# How deep the recursion check goes

The machine of `Grammar.checkRecursion` comes to the routes through a pattern in their order. While it is on one of
them, its memory holds what the earlier ones lead to (`Knows`), a step keeps it so (`Knows.meets`), and a run has in the
end followed the routes that a walk takes, or stopped at the first that is too long (`surveys`). So the limit is compared
with the longest of these and not with the longest route (`Grammar.checkRecursion_depth`): in `repeatedLater` the
operands of a choice decide by their order whether it passes.
-/

namespace RelaxNg.RecursionCheck

open Machine Grammar

variable {g : Grammar} {limits : Limits} {start p q : PatternId} {m m₁ m' : Memory} {t u : Route}
  {known known' : Route → Prop} {qs : List PatternId} {e : ElementId} {k j : Nat} {left : Option DefinitionId}

/-! ## What a walk knows of the routes -/

/-- A memory knows some routes: the patterns with depths and the elements to which they lead. None of them that a walk
takes is longer than the limit. -/
structure Knows (g : Grammar) (limits : Limits) (start : PatternId) (m : Memory) (known : Route → Prop) : Prop where
  visited : ∀ y, y ∈ m.visited ↔ ∃ u, known u ∧ g.Opens start u ∧ g.follow start u = some y
  elements : ∀ e, e ∈ m.elements ↔ ∃ u, known u ∧ g.LeadsTo start u e
  definitions : ∀ f : DefinitionId, m.definitions[f]? = none
  short : ∀ u, known u → g.Walked start u → u.length ≤ limits.maxRecursionDepth

theorem Knows.congr (h : Knows g limits start m known)
    (hk : ∀ u y, g.follow start u = some y → (known u ↔ known' u)) : Knows g limits start m known' where
  visited y := by
    rw [h.visited]
    exact exists_congr fun u => and_congr_left fun ⟨_, hy⟩ => hk u y hy
  elements e := by
    rw [h.elements]
    exact exists_congr fun u => and_congr_left fun ⟨y, hy, _⟩ => hk u y hy
  definitions := h.definitions
  short u hu hw := by
    obtain ⟨y, hy⟩ := hw.follows
    exact h.short u ((hk u y hy).2 hu) hw

theorem Knows.add {new : Route → Prop} (h : Knows g limits start m known)
    (hv : ∀ y, y ∈ m'.visited ↔ y ∈ m.visited ∨ ∃ u, new u ∧ g.Opens start u ∧ g.follow start u = some y)
    (he : ∀ e, e ∈ m'.elements ↔ e ∈ m.elements ∨ ∃ u, new u ∧ g.LeadsTo start u e)
    (hd : m'.definitions = m.definitions)
    (hs : ∀ u, new u → g.Walked start u → u.length ≤ limits.maxRecursionDepth) :
    Knows g limits start m' fun u => known u ∨ new u where
  visited y := by simp only [hv, h.visited, or_and_right, exists_or]
  elements e := by simp only [he, h.elements, or_and_right, exists_or]
  definitions f := by rw [hd, h.definitions]
  short u hu := hu.elim (h.short u) (hs u)

/-- On the routes through a pattern that was met before at the same depth, nothing is new. -/
theorem Knows.seen (h : Knows g limits start m (· < t)) (hu : u < t) (hpre : ¬ u <+: t) (ho : g.Opens start u)
    (heq : g.follow start u = g.follow start t) (hlevel : t.length ≤ limits.maxRecursionDepth) :
    Knows g limits start m fun v => v < t ∨ t <+: v := by
  apply h.add
  · refine fun y => (or_iff_left_of_imp ?_).symm
    rintro ⟨_, ⟨w, rfl⟩, hwo, hy⟩
    rw [h.visited]
    exact ⟨u ++ w, Route.append_lt hu hpre w, hwo.earlier ho hu hpre heq, (follow_append_congr heq w).trans hy⟩
  · refine fun e => (or_iff_left_of_imp ?_).symm
    rintro ⟨_, ⟨w, rfl⟩, hwe⟩
    rw [h.elements]
    exact ⟨u ++ w, Route.append_lt hu hpre w, by rwa [LeadsTo, follow_append_congr heq]⟩
  · rfl
  · rintro _ ⟨w, rfl⟩ hw
    rw [hw.eq_nil ho hu hpre heq, List.append_nil]
    exact hlevel

theorem mem_see_iff (hf : g.follow start t = some (p, k)) (ho : g.Opens start t) (y : PatternId × Nat) :
    y ∈ (m.see p k).visited ↔ y ∈ m.visited ∨ ∃ u, u = t ∧ g.Opens start u ∧ g.follow start u = some y := by
  simp only [Memory.see, Std.HashSet.mem_insert, beq_iff_eq, exists_eq_left, ho, hf, Option.some.injEq, true_and]
  exact or_comm

/-- On the routes through an element that was entered before, only the element itself can be new. -/
theorem Knows.entered (h : Knows g limits start m (· < t)) (hf : g.follow start t = some (p, k))
    (hp : g.pattern p = .element e) (hu : u < t) (hpre : ¬ u <+: t) (hue : g.LeadsTo start u e)
    (ho : g.Opens start t) (hlevel : t.length ≤ limits.maxRecursionDepth) :
    Knows g limits start (m.see p k) fun v => v < t ∨ t <+: v := by
  have ht : g.LeadsTo start t e := ⟨_, hf, hp⟩
  have hend {i : Nat} {r : Route} : ¬ g.Opens start (t ++ i :: r) := fun h => h t i r e rfl ht u hu hue
  apply h.add
  · intro y
    rw [mem_see_iff hf ho]
    apply or_congr_right
    constructor
    · rintro ⟨_, rfl, hwo, hy⟩
      exact ⟨_, List.prefix_refl _, hwo, hy⟩
    · rintro ⟨_, ⟨_ | ⟨i, r⟩, rfl⟩, hwo, hy⟩
      · exact ⟨_, List.append_nil t, hwo, hy⟩
      · exact absurd hwo hend
  · refine fun f => (or_iff_left_of_imp ?_).symm
    rintro ⟨_, ⟨_ | ⟨i, r⟩, rfl⟩, hwf⟩
    · obtain ⟨y, hy, hyf⟩ := hwf
      rw [List.append_nil, hf] at hy
      cases hy
      cases hp.symm.trans hyf
      exact (h.elements e).2 ⟨u, hu, hue⟩
    · exact (h.elements f).2 ⟨u ++ i :: r, Route.append_lt hu hpre _, ht.behind hue i r hwf⟩
  · rfl
  · rintro _ ⟨_ | ⟨i, r⟩, rfl⟩ hw
    · simpa using hlevel
    · exact absurd hw.opens hend

/-- After a visit to a pattern that is no element, its operands are next. -/
theorem Knows.see (h : Knows g limits start m (· < t)) (hf : g.follow start t = some (p, k)) (ho : g.Opens start t)
    (hp : ∀ e, g.pattern p ≠ .element e) (hlevel : t.length ≤ limits.maxRecursionDepth) :
    Knows g limits start (m.see p k) (· < t ++ [0]) := by
  simp only [Route.lt_append_zero_iff]
  apply h.add
  · exact mem_see_iff hf ho
  · refine fun e => (or_iff_left_of_imp ?_).symm
    rintro ⟨_, rfl, y, hy, hye⟩
    cases hf.symm.trans hy
    exact absurd hye (hp e)
  · rfl
  · rintro _ rfl -
    exact hlevel

/-- After a visit to an element that is entered, its content is next. -/
theorem Knows.enter (h : Knows g limits start m (· < t)) (hf : g.follow start t = some (p, k)) (ho : g.Opens start t)
    (hp : g.pattern p = .element e) (hlevel : t.length ≤ limits.maxRecursionDepth) :
    Knows g limits start ((m.see p k).enter e) (· < t ++ [0]) := by
  simp only [Route.lt_append_zero_iff]
  apply h.add
  · exact mem_see_iff hf ho
  · intro f
    simp only [Memory.enter, Memory.see, Std.HashSet.mem_insert, beq_iff_eq, exists_eq_left, LeadsTo, hf,
      Option.some.injEq, exists_eq_left', hp, Pattern.element.injEq]
    exact or_comm
  · rfl
  · rintro _ rfl -
    exact hlevel

theorem Knows.first (h : Knows g limits start m (· < t)) (hf : g.follow start t = some (p, k))
    (hv : (p, k) ∉ m.visited) : g.First start t :=
  fun u hu ho heq => hv ((h.visited _).2 ⟨u, hu, ho, heq.trans hf⟩)

/-- Where a walk meets a pattern, either nothing on the routes through it is left to do, or no earlier route leads there
and the walk goes on to all that follows it. -/
theorem Knows.meets (hg : g.Sound) (hr : g.RefFree start) (hn : g.Nested start) (hw : g.Walked start t)
    (hf : g.follow start t = some (p, k)) (hlevel : t.length ≤ limits.maxRecursionDepth)
    (hk : Knows g limits start m (· < t)) (h : Meets g m p k m₁ qs j left) : left = none ∧
      (qs = [] ∧ Knows g limits start m₁ (fun u => u < t ∨ t <+: u) ∨
        Knows g limits start m₁ (· < t ++ [0]) ∧ g.onward (p, k) = qs.map (·, j) ∧ g.First start t ∧
          ∀ e, g.pattern p = .element e → ∀ u < t, ¬ g.LeadsTo start u e) := by
  have hreach : g.Reaches start p := reaches_of_followFrom hf
  cases h with
  | seen _ hv =>
    obtain ⟨u, hu, ho, hy⟩ := (hk.visited _).1 hv
    have heq := hy.trans hf.symm
    exact ⟨rfl, .inl ⟨rfl, hk.seen hu (hg.not_prefix hu heq hf) ho heq hlevel⟩⟩
  | operands hp hv he =>
    refine ⟨rfl, ?_⟩
    by_cases helement : ∃ e, g.pattern p = .element e
    · obtain ⟨e, hpe⟩ := helement
      obtain ⟨u, hu, hue⟩ := (hk.elements e).1 (he e hpe)
      have hpre := hn.not_prefix hu hue ⟨_, hf, hpe⟩
      exact .inl ⟨by simp [hpe, Pattern.operands], hk.entered hf hpe hu hpre hue hw.opens hlevel⟩
    · have hpe := not_exists.1 helement
      refine .inr ⟨hk.see hf hw.opens hpe hlevel, onward_of_not_element hpe, hk.first hf hv, fun e he => ?_⟩
      exact absurd he (hpe e)
  | @element e he hv hm =>
    refine ⟨rfl, .inr ⟨hk.enter hf hw.opens he hlevel, onward_element he, hk.first hf hv, ?_⟩⟩
    intro f hpf u hu huf
    cases he.symm.trans hpf
    exact hm ((hk.elements e).2 ⟨u, hu, huf⟩)
  | known hp => exact absurd hp (hr p hreach _)
  | ref hp => exact absurd hp (hr p hreach _)

/-! ## Runs -/

/-- The machine stops because it has followed a route that is longer than the limit. -/
def TooDeep (g : Grammar) (limits : Limits) (start : PatternId) (s : State) : Prop :=
  step g limits s =
      .inr (.error (.recursion (.depthExceeded (limits.maxRecursionDepth + 1) limits.maxRecursionDepth))) ∧
    ∃ t, g.Walked start t ∧ limits.maxRecursionDepth < t.length

/-- The machine does some tasks and then knows some routes, or it stops at a route that is too long. -/
def Surveys (g : Grammar) (limits : Limits) (start : PatternId) (m : Memory) (now : List Task) (known : Route → Prop) :
    Prop :=
  ∀ tasks,
    (∃ m', m.Later m' ∧ Knows g limits start m' known ∧
      Leads (step g limits) (m.state (now ++ tasks)) (m'.state tasks)) ∨
    ∃ s, Leads (step g limits) (m.state (now ++ tasks)) s ∧ TooDeep g limits start s

/-- Operands are surveyed one after the other. -/
theorem surveys_all {rest : List PatternId} {i level : Nat} (hk : Knows g limits start m (· < t ++ [i]))
    (h : ∀ n q, rest[n]? = some q → ∀ m', m.Later m' → Knows g limits start m' (· < t ++ [i + n]) →
      Surveys g limits start m' [.visit q k level] fun u => u < t ++ [i + n] ∨ t ++ [i + n] <+: u) :
    Surveys g limits start m (rest.map (.visit · k level)) (· < t ++ [i + rest.length]) := by
  induction rest generalizing m i with
  | nil => exact fun tasks => .inl ⟨m, .refl m, hk, .refl _⟩
  | cons q rest ih =>
    intro tasks
    rcases h 0 q rfl m (.refl m) hk (rest.map (.visit · k level) ++ tasks) with ⟨m₁, hm, hk₁, hl⟩ | ⟨s, hl, hs⟩
    · have hk₁ : Knows g limits start m₁ (· < t ++ [i + 1]) := by
        simpa only [Route.lt_append_succ_iff, Nat.add_zero] using hk₁
      have hrest := ih hk₁ fun n q hq m' hm' => by
        rw [Nat.add_assoc, Nat.add_comm 1]
        exact h (n + 1) q hq m' (hm.trans hm')
      rw [List.length_cons, Nat.add_comm rest.length, ← Nat.add_assoc]
      rcases hrest tasks with ⟨m₂, hm₂, hk₂, hl₂⟩ | ⟨s, hl₂, hs⟩
      · exact .inl ⟨m₂, hm.trans hm₂, hk₂, hl.trans hl₂⟩
      · exact .inr ⟨s, hl.trans hl₂, hs⟩
    · exact .inr ⟨s, hl, hs⟩

theorem surveys_onward {qs : List PatternId} (hf : g.follow start t = some (p, k))
    (hq : g.onward (p, k) = qs.map (·, j)) (hk : Knows g limits start m (· < t ++ [0]))
    (h : ∀ n q, qs[n]? = some q → ∀ m', m.Later m' → Knows g limits start m' (· < t ++ [n]) →
      Surveys g limits start m' [.visit q j (t.length + 1)] fun u => u < t ++ [n] ∨ t ++ [n] <+: u) :
    Surveys g limits start m (qs.map (.visit · j (t.length + 1))) fun u => u < t ∨ t <+: u := by
  intro tasks
  have hall : Surveys g limits start m (qs.map (.visit · j (t.length + 1))) (· < t ++ [0 + qs.length]) := by
    apply surveys_all hk
    intro n q hn m' hm hk'
    rw [Nat.zero_add] at hk' ⊢
    exact h n q hn m' hm hk'
  rcases hall tasks with ⟨m', hm, hk', hl⟩ | hstop
  · refine .inl ⟨m', hm, hk'.congr fun u y hu => ?_, hl⟩
    rw [← lt_append_onward_iff hf hu, hq, List.length_map, Nat.zero_add]
  · exact .inr hstop

/-- The machine surveys the routes through a pattern. It has compared the level of every pattern before with the limit,
so that a route is too long by one at most. -/
theorem surveys (hg : g.Sound) (hr : g.RefFree start) (hn : g.Nested start) {m : Memory} {t : Route} {p : PatternId}
    {k : Nat} (hw : g.Walked start t) (hf : g.follow start t = some (p, k))
    (hlen : t.length ≤ limits.maxRecursionDepth + 1) (hk : Knows g limits start m (· < t)) :
    Surveys g limits start m [.visit p k t.length] fun u => u < t ∨ t <+: u := by
  intro tasks
  by_cases hlevel : limits.maxRecursionDepth < t.length
  · refine .inr ⟨_, .refl _, ?_, t, hw, hlevel⟩
    have heq : t.length = limits.maxRecursionDepth + 1 := by omega
    simp [step, Memory.state, Limits.checkRecursion, heq]
  · have hshort : t.length ≤ limits.maxRecursionDepth := Nat.le_of_not_lt hlevel
    have hleading : m.Leading g p k := fun f j hj => by simp [hk.definitions] at hj
    rcases visit_cases hleading t.length tasks with ⟨m₁, qs, j, left, hmeets, hvisit⟩ | ⟨error, hfaults, -⟩
    · obtain ⟨rfl, hnext⟩ := hk.meets hg hr hn hw hf hshort hmeets
      have hm : m.Later m₁ := hmeets.later (.refl m₁)
      have hstep : step g limits (m.state (.visit p k t.length :: tasks)) =
          .inl (m₁.state (qs.map (.visit · j (t.length + 1)) ++ tasks)) := by
        unfold Memory.state at hvisit ⊢
        simp only [step, Limits.checkRecursion, hlevel, if_false, hvisit]
        rfl
      have hrest : Surveys g limits start m₁ (qs.map (.visit · j (t.length + 1))) fun u => u < t ∨ t <+: u := by
        rcases hnext with ⟨rfl, hk₁⟩ | ⟨hk₁, hq, hfirst, hnew⟩
        · exact fun tasks => .inl ⟨m₁, .refl m₁, hk₁, .refl _⟩
        · refine surveys_onward hf hq hk₁ fun n q hn₁ m₂ hm₂ hk₂ => ?_
          have hy : (g.onward (p, k))[n]? = some (q, j) := by simp [hq, hn₁]
          have hless := hmeets.decreases hg hm₂ (List.mem_of_getElem? hn₁)
          have hone := surveys hg hr hn (hw.snoc hf hfirst hnew hy) ((follow_snoc hf n).trans hy)
            (by simpa using hshort) hk₂
          simpa using hone
      rcases hrest tasks with ⟨m₂, hm₂, hk₂, hl⟩ | ⟨s, hl, hs⟩
      · exact .inl ⟨m₂, hm.trans hm₂, hk₂, .head hstep hl⟩
      · exact .inr ⟨s, .head hstep hl, hs⟩
    · -- Only a reference can be at fault.
      have hreach : g.Reaches start p := reaches_of_followFrom hf
      obtain ⟨f, q, hq, href⟩ : ∃ f, g.Refers p f := by
        cases hfaults with
        | undefined _ h => exact ⟨_, h⟩
        | recursive _ h => exact ⟨_, h⟩
      exact absurd href (hr q (hreach.trans hq) f)
-- Operands have smaller numbers, and a content costs an element.
termination_by (unentered g m, unknown g m, p.index)
decreasing_by exact hless

end RelaxNg.RecursionCheck

namespace RelaxNg.Grammar

open RecursionCheck

variable {g : Grammar} {start : PatternId}

theorem walked_nil : g.Walked start [] :=
  ⟨⟨_, follow_nil⟩, opens_nil, fun s i h => by simp at h⟩

/-- The check refuses a pattern exactly if a route that a walk takes is longer than the limit. -/
theorem checkRecursion_walked (hg : g.Sound) (hr : g.RefFree start) (hn : g.Nested start) (limits : Limits) :
    g.checkRecursion start limits = .ok () ∧ (∀ t, g.Walked start t → t.length ≤ limits.maxRecursionDepth) ∨
    g.checkRecursion start limits =
        .error (.recursion (.depthExceeded (limits.maxRecursionDepth + 1) limits.maxRecursionDepth)) ∧
      ∃ t, g.Walked start t ∧ limits.maxRecursionDepth < t.length := by
  have hk : Knows g limits start {} (· < ([] : Route)) :=
    ⟨by simp, by simp, by simp, by simp⟩
  have hstate : ({ tasks := [.visit start 0 0] } : State) =
      Memory.state {} ([.visit start 0 ([] : Route).length] ++ []) := rfl
  rw [checkRecursion, hstate]
  rcases surveys hg hr hn walked_nil follow_nil (Nat.zero_le _) hk [] with ⟨m, -, hm, hl⟩ | ⟨s, hl, hs, ht⟩
  · have hend : step g limits (m.state []) = .inr (.ok ()) := rfl
    rw [hl.run_eq_some hend]
    exact .inl ⟨rfl, fun t ht => hm.short t (.inr List.nil_prefix) ht⟩
  · rw [hl.run_eq_some hs]
    exact .inr ⟨rfl, ht⟩

/-- For a pattern without references in which the contents of elements are nested, the check answers that patterns nest
too deep or that all is well, and the former exactly if a route that a walk takes is longer than the limit. So what the
limits allow is told by the longest route, whatever is shared and in whatever order, exactly if a walk takes a route
that is as long. -/
theorem checkRecursion_depth (hg : g.Sound) (hr : g.RefFree start) (hn : g.Nested start) :
    (∀ limits : Limits,
      g.checkRecursion start limits = .ok () ∧ (∀ t, g.Walked start t → t.length ≤ limits.maxRecursionDepth) ∨
      g.checkRecursion start limits =
          .error (.recursion (.depthExceeded (limits.maxRecursionDepth + 1) limits.maxRecursionDepth)) ∧
        ∃ t, g.Walked start t ∧ limits.maxRecursionDepth < t.length) ∧
    ((∀ limits : Limits, g.checkRecursion start limits ≠ .ok () ↔
        ∃ t y, g.follow start t = some y ∧ limits.maxRecursionDepth < t.length) ↔
      ∀ t y, g.follow start t = some y → ∃ u, g.Walked start u ∧ t.length ≤ u.length) := by
  refine ⟨checkRecursion_walked hg hr hn, fun h t y ht => ?_, fun h limits => ?_⟩
  · by_cases hempty : t.length = 0
    · exact ⟨[], walked_nil, Nat.le_of_eq hempty⟩
    · -- The limit that the route just exceeds.
      have hrefused := (h { Limits.standard with maxRecursionDepth := t.length - 1 }).2 ⟨t, y, ht, by simp; omega⟩
      rcases checkRecursion_walked hg hr hn { Limits.standard with maxRecursionDepth := t.length - 1 } with
        ⟨hok, -⟩ | ⟨-, u, hu, hlt⟩
      · exact absurd hok hrefused
      · exact ⟨u, hu, by simp at hlt; omega⟩
  · rcases checkRecursion_walked hg hr hn limits with ⟨hok, hshort⟩ | ⟨herror, t, ht, hlt⟩
    · refine iff_of_false (not_not_intro hok) ?_
      rintro ⟨t, y, hy, hlt⟩
      obtain ⟨u, hu, hle⟩ := h t y hy
      exact absurd (hshort u hu) (by omega)
    · obtain ⟨y, hy⟩ := ht.follows
      exact iff_of_true (by simp [herror]) ⟨t, y, hy, hlt⟩

/-- An attribute stands on its own and, behind it, repeated; and the other way round. -/
def repeatedLater : Grammar where
  nodes := #[⟨.empty, true, .empty, none⟩, ⟨.notAllowed, false, .empty, none⟩, ⟨.text, true, .mixed, none⟩,
    ⟨.attr (.plain "a") ⟨2⟩ .none, false, .empty, none⟩, ⟨.oneOrMore ⟨3⟩, false, .empty, none⟩,
    ⟨.choice ⟨3⟩ ⟨4⟩, false, .empty, none⟩, ⟨.choice ⟨4⟩ ⟨3⟩, false, .empty, none⟩]

theorem repeatedLater_sound : repeatedLater.Sound := by
  refine sound_of_parts (fun p hp => ?_) (by decide) (by decide)
  have hlt : p.index < 7 := hp
  obtain ⟨i⟩ := p
  interval_cases i <;> exact ⟨by decide, rfl, rfl, by rintro _ ⟨⟩, by rintro _ ⟨⟩⟩

theorem repeatedLater_refFree (p : PatternId) : repeatedLater.RefFree p :=
  refFree_of_nodes (by simp [repeatedLater]) p

theorem repeatedLater_nested (p : PatternId) : repeatedLater.Nested p := by
  intro q r e _ hq
  exact absurd hq (pattern_of_nodes (P := fun pattern => pattern ≠ .element e) (by simp [repeatedLater]) nofun q)

theorem repeatedLater_answers :
    repeatedLater.checkRecursion ⟨5⟩ { Limits.standard with maxRecursionDepth := 2 } = .ok () ∧
      repeatedLater.checkRecursion ⟨6⟩ { Limits.standard with maxRecursionDepth := 2 } =
        .error (.recursion (.depthExceeded 3 2)) := by
  have hok : Machine.run? (step repeatedLater { Limits.standard with maxRecursionDepth := 2 }) 8
      { tasks := [.visit ⟨5⟩ 0 0] } = some (.ok ()) := by
    simp [Machine.run?, step, visit, Limits.checkRecursion, repeatedLater, Grammar.pattern, Grammar.node,
      Pattern.operands]
  have herror : Machine.run? (step repeatedLater { Limits.standard with maxRecursionDepth := 2 }) 8
      { tasks := [.visit ⟨6⟩ 0 0] } = some (.error (.recursion (.depthExceeded 3 2))) := by
    simp [Machine.run?, step, visit, Limits.checkRecursion, repeatedLater, Grammar.pattern, Grammar.node,
      Pattern.operands]
  constructor
  · rw [checkRecursion, Machine.run_of_run? hok, Option.getD_some]
  · rw [checkRecursion, Machine.run_of_run? herror, Option.getD_some]

/-- The statement at `repeatedLater`: the route through the repetition is cut short. -/
theorem checkRecursion_depth_repeatedLater :
    repeatedLater.Sound ∧ repeatedLater.RefFree ⟨5⟩ ∧ repeatedLater.Nested ⟨5⟩ ∧
      ∀ t, repeatedLater.Walked ⟨5⟩ t → t.length ≤ 2 := by
  refine ⟨repeatedLater_sound, repeatedLater_refFree _, repeatedLater_nested _, ?_⟩
  obtain ⟨hanswers, -⟩ :=
    checkRecursion_depth repeatedLater_sound (repeatedLater_refFree ⟨5⟩) (repeatedLater_nested ⟨5⟩)
  rcases hanswers { Limits.standard with maxRecursionDepth := 2 } with ⟨-, hshort⟩ | ⟨herror, -⟩
  · exact hshort
  · rw [repeatedLater_answers.1] at herror
    cases herror

/-- A route is longer than the limit and the check passes; with the operands the other way round it does not. -/
theorem depth_depends_on_order :
    repeatedLater.Sound ∧ repeatedLater.RefFree ⟨5⟩ ∧ repeatedLater.Nested ⟨5⟩ ∧
      repeatedLater.follow ⟨5⟩ [1, 0, 0] = some (⟨2⟩, 0) ∧
      repeatedLater.checkRecursion ⟨5⟩ { Limits.standard with maxRecursionDepth := 2 } = .ok () ∧
      repeatedLater.checkRecursion ⟨6⟩ { Limits.standard with maxRecursionDepth := 2 } =
        .error (.recursion (.depthExceeded 3 2)) :=
  ⟨repeatedLater_sound, repeatedLater_refFree _, repeatedLater_nested _, rfl, repeatedLater_answers⟩

end RelaxNg.Grammar
