import RelaxNg.Proofs.Draft.Sound
import RelaxNg.Proofs.Route
import RelaxNg.Proofs.Walk

/-!
# Routes through a grammar

A route from a pattern names an operand at each step, and leads to a pattern behind so many elements (`Grammar.follow`).
Which routes a walk takes that remembers what it met can be told from their order alone: it enters an element on the
first route to it, whatever the depth (`Opens`), and goes on from a pattern on the first such route that leads there at
that depth (`First`). All other routes are cut short, and `Walked` are those that are not. What is cut short is reached
on an earlier route, too (`Opens.earlier`, `LeadsTo.behind`); that one branches off before, since no route comes back to
the same pattern at the same depth, nor to the same element.
-/

namespace RelaxNg

namespace Grammar

variable {g : Grammar} {start p q : PatternId} {x y z : PatternId × Nat} {t u v : Route} {e : ElementId} {i : Nat}

/-! ## Following a route -/

/-- What a walk goes on to from a pattern at a depth: its operands at the same depth, or the content of its element one
deeper. -/
def onward (g : Grammar) (x : PatternId × Nat) : List (PatternId × Nat) :=
  match g.pattern x.1 with
  | .element e => [((g.element e).content, x.2 + 1)]
  | pattern => pattern.operands.map (·, x.2)

theorem onward_element (hp : g.pattern x.1 = .element e) : g.onward x = [((g.element e).content, x.2 + 1)] := by
  rw [onward, hp]

theorem onward_of_not_element (hp : ∀ e, g.pattern x.1 ≠ .element e) :
    g.onward x = (g.pattern x.1).operands.map (·, x.2) := by
  unfold onward
  split
  · next e he => exact absurd he (hp e)
  · rfl

/-- Where a route leads, with the number of elements that are entered on it. -/
def followFrom (g : Grammar) (x : PatternId × Nat) : Route → Option (PatternId × Nat)
  | [] => some x
  | i :: t => (g.onward x)[i]?.bind fun y => g.followFrom y t

theorem followFrom_append (x : PatternId × Nat) (t u : Route) :
    g.followFrom x (t ++ u) = (g.followFrom x t).bind fun y => g.followFrom y u := by
  induction t generalizing x with
  | nil => rfl
  | cons i t ih => simp [followFrom, ih, Option.bind_assoc]

def follow (g : Grammar) (start : PatternId) (t : Route) : Option (PatternId × Nat) := g.followFrom (start, 0) t

@[simp] theorem follow_nil : g.follow start [] = some (start, 0) := rfl

theorem follow_append (h : g.follow start t = some y) (u : Route) : g.follow start (t ++ u) = g.followFrom y u := by
  rw [follow] at h ⊢
  rw [followFrom_append, h, Option.bind_some]

theorem follow_snoc (h : g.follow start t = some y) (i : Nat) : g.follow start (t ++ [i]) = (g.onward y)[i]? := by
  rw [follow_append h]
  simp [followFrom]

/-- On the way to a pattern, the depth grows or the patterns become smaller. -/
theorem Sound.followFrom_descends (hg : g.Sound) (h : g.followFrom x t = some y) :
    x.2 < y.2 ∨ x.2 = y.2 ∧ (t = [] ∧ x = y ∨ y.1.index < x.1.index) := by
  induction t generalizing x with
  | nil => exact .inr (by simp_all [followFrom])
  | cons i t ih =>
    obtain ⟨z, hz, hy⟩ := Option.bind_eq_some_iff.1 h
    have hstep : x.2 < z.2 ∨ x.2 = z.2 ∧ z.1.index < x.1.index := by
      have hmem := List.mem_of_getElem? hz
      by_cases he : ∃ e, g.pattern x.1 = .element e
      · obtain ⟨e, he⟩ := he
        rw [onward_element he, List.mem_singleton] at hmem
        simp [hmem]
      · rw [onward_of_not_element (not_exists.1 he)] at hmem
        obtain ⟨q, hq, rfl⟩ := List.mem_map.1 hmem
        exact .inr ⟨rfl, (hg.settled x.1).operand_lt q hq⟩
    rcases ih hy with hlt | ⟨heq, ⟨rfl, rfl⟩ | hlt⟩ <;> omega

theorem mem_successors_of_onward (h : y ∈ g.onward x) : y.1 ∈ g.successors x.1 := by
  by_cases he : ∃ e, g.pattern x.1 = .element e
  · obtain ⟨e, he⟩ := he
    rw [onward_element he, List.mem_singleton] at h
    rw [h]
    exact content_mem_successors he
  · rw [onward_of_not_element (not_exists.1 he)] at h
    obtain ⟨q, hq, rfl⟩ := List.mem_map.1 h
    exact mem_successors_of_operand hq

theorem reaches_of_followFrom (h : g.followFrom x t = some y) : g.Reaches x.1 y.1 := by
  induction t generalizing x with
  | nil =>
    cases h
    exact .refl
  | cons i t ih =>
    obtain ⟨z, hz, hy⟩ := Option.bind_eq_some_iff.1 h
    exact .head (mem_successors_of_onward (List.mem_of_getElem? hz)) (ih hy)

/-! ## Routes that a walk takes -/

/-- A route leads to an element. -/
def LeadsTo (g : Grammar) (start : PatternId) (t : Route) (e : ElementId) : Prop :=
  ∃ y, g.follow start t = some y ∧ g.pattern y.1 = .element e

/-- The contents of elements are nested: no element is reached from its own content. -/
def Nested (g : Grammar) (start : PatternId) : Prop :=
  ∀ p q e, g.Reaches start p → g.pattern p = .element e → g.Reaches (g.element e).content q → g.pattern q ≠ .element e

/-- A route enters elements only where no earlier route leads to them. -/
def Opens (g : Grammar) (start : PatternId) (t : Route) : Prop :=
  ∀ s i r e, t = s ++ i :: r → g.LeadsTo start s e → ∀ u < s, ¬ g.LeadsTo start u e

/-- No earlier route that enters elements where a walk does leads to the same pattern at the same depth. -/
def First (g : Grammar) (start : PatternId) (t : Route) : Prop :=
  ∀ u < t, g.Opens start u → g.follow start u ≠ g.follow start t

/-- A walk that takes up each pattern once at each depth, and enters each element once, follows a route to its end. -/
structure Walked (g : Grammar) (start : PatternId) (t : Route) : Prop where
  follows : ∃ y, g.follow start t = some y
  opens : g.Opens start t
  /-- The walk goes on from the pattern before the last one, and so from all before it. -/
  first : ∀ s i, t = s ++ [i] → g.First start s

/-- No route comes back to the same pattern at the same depth. -/
theorem Sound.not_prefix (hg : g.Sound) (hlt : u < t) (heq : g.follow start u = g.follow start t)
    (ht : g.follow start t = some y) : ¬ u <+: t := by
  rintro ⟨v, rfl⟩
  rw [follow_append (heq.trans ht)] at ht
  rcases hg.followFrom_descends ht with hless | ⟨-, ⟨rfl, -⟩ | hless⟩
  · omega
  · rw [List.append_nil] at hlt
    exact List.lt_irrefl u hlt
  · omega

/-- No route comes back to an element that it has entered. -/
theorem Nested.not_prefix (hn : g.Nested start) (hlt : u < t) (hu : g.LeadsTo start u e) (ht : g.LeadsTo start t e) :
    ¬ u <+: t := by
  rintro ⟨v, rfl⟩
  obtain ⟨y, hy, hye⟩ := hu
  obtain ⟨z, hz, hze⟩ := ht
  cases v with
  | nil =>
    rw [List.append_nil] at hlt
    exact List.lt_irrefl u hlt
  | cons i v =>
    rw [follow_append hy] at hz
    obtain ⟨x, hx, hxz⟩ := Option.bind_eq_some_iff.1 hz
    have hmem := List.mem_of_getElem? hx
    rw [onward_element hye, List.mem_singleton] at hmem
    have hcontent := reaches_of_followFrom hxz
    rw [hmem] at hcontent
    exact hn _ _ e (reaches_of_followFrom hy) hye hcontent hze

theorem opens_nil : g.Opens start [] := by
  intro s i r e h
  simp at h

theorem opens_snoc_iff : g.Opens start (t ++ [i]) ↔
    g.Opens start t ∧ ∀ e, g.LeadsTo start t e → ∀ u < t, ¬ g.LeadsTo start u e := by
  constructor
  · intro h
    exact ⟨fun s j r e ht => h s j (r ++ [i]) e (by simp [ht]), fun e => h t i [] e rfl⟩
  · rintro ⟨h, hlast⟩ s j r e ht
    rcases List.eq_nil_or_concat r with rfl | ⟨r, k, rfl⟩
    · obtain ⟨rfl, -⟩ := List.append_inj' ht rfl
      exact hlast e
    · have hsplit : t ++ [i] = (s ++ j :: r) ++ [k] := by simpa using ht
      obtain ⟨hs, -⟩ := List.append_inj' hsplit rfl
      exact h s j r e hs

theorem Walked.snoc (hw : g.Walked start t) (ht : g.follow start t = some x) (hfirst : g.First start t)
    (hnew : ∀ e, g.pattern x.1 = .element e → ∀ u < t, ¬ g.LeadsTo start u e) (hy : (g.onward x)[i]? = some y) :
    g.Walked start (t ++ [i]) where
  follows := ⟨y, (follow_snoc ht i).trans hy⟩
  opens := by
    refine opens_snoc_iff.2 ⟨hw.opens, ?_⟩
    rintro e ⟨z, hz, he⟩
    cases ht.symm.trans hz
    exact hnew e he
  first s j h := by
    obtain ⟨rfl, -⟩ := List.append_inj' h rfl
    exact hfirst

theorem Opens.of_append (h : g.Opens start (t ++ u)) : g.Opens start t := by
  intro s i r e ht
  exact h s i (r ++ u) e (by simp [ht])

theorem follow_append_congr (h : g.follow start t = g.follow start u) (v : Route) :
    g.follow start (t ++ v) = g.follow start (u ++ v) := by
  unfold follow at h ⊢
  rw [followFrom_append, followFrom_append, h]

/-- What a walk enters behind a pattern it enters behind that pattern on an earlier route, too: an element between would
be met there before. -/
theorem Opens.earlier (h : g.Opens start (t ++ v)) (hu : g.Opens start u) (hlt : u < t) (hpre : ¬ u <+: t)
    (heq : g.follow start u = g.follow start t) : g.Opens start (u ++ v) := by
  intro s i r e hs
  have hlater {w : Route} (hw : v = w ++ i :: r) : ¬ g.LeadsTo start (u ++ w) e := by
    intro hlead
    have hlead' : g.LeadsTo start (t ++ w) e := by
      rwa [LeadsTo, ← follow_append_congr heq]
    exact h (t ++ w) i r e (by simp [hw]) hlead' (u ++ w) (Route.append_lt_append hlt hpre w w) hlead
  rcases List.append_eq_append_iff.1 hs with ⟨w, rfl, hw⟩ | ⟨w, rfl, hw⟩
  · intro hlead
    exact absurd hlead (hlater hw)
  · cases w with
    | nil =>
      intro hlead
      have hv : v = [] ++ i :: r := hw.symm
      exact absurd (by simpa using hlead) (hlater hv)
    | cons j w =>
      obtain ⟨rfl, -⟩ := List.cons.inj hw
      exact hu s i w e rfl

/-- A walk that comes to a pattern again at the same depth goes no further. -/
theorem Walked.eq_nil (hw : g.Walked start (t ++ v)) (hu : g.Opens start u) (hlt : u < t) (hpre : ¬ u <+: t)
    (heq : g.follow start u = g.follow start t) : v = [] := by
  rcases List.eq_nil_or_concat v with rfl | ⟨r, i, rfl⟩
  · rfl
  · have ho : g.Opens start (t ++ r) := Opens.of_append (u := [i]) (by simpa using hw.opens)
    have hfirst : g.First start (t ++ r) := hw.first _ i (by simp)
    exact absurd (follow_append_congr heq r)
      (hfirst (u ++ r) (Route.append_lt_append hlt hpre r r) (ho.earlier hu hlt hpre heq))

/-- What follows on a pattern does not depend on the depth. -/
theorem exists_followFrom (h : g.followFrom x t = some y) (hz : z.1 = x.1) :
    ∃ y', g.followFrom z t = some y' ∧ y'.1 = y.1 := by
  induction t generalizing x z with
  | nil =>
    cases h
    exact ⟨z, rfl, hz⟩
  | cons i t ih =>
    obtain ⟨x', hx, hy⟩ := Option.bind_eq_some_iff.1 h
    have hsame : (g.onward z).map Prod.fst = (g.onward x).map Prod.fst := by
      unfold onward
      rw [hz]
      split <;> simp
    have hi := congrArg (·[i]?) hsame
    simp only [List.getElem?_map, hx, Option.map_some, Option.map_eq_some_iff] at hi
    obtain ⟨z', hz', hfst⟩ := hi
    obtain ⟨y', hy', hfst'⟩ := ih hy hfst
    exact ⟨y', by simp [followFrom, hz', hy'], hfst'⟩

/-- What is reached behind an element is reached wherever a route leads to that element. -/
theorem LeadsTo.behind {f : ElementId} (ht : g.LeadsTo start t e) (hu : g.LeadsTo start u e) (i : Nat) (r : Route)
    (h : g.LeadsTo start (t ++ i :: r) f) : g.LeadsTo start (u ++ i :: r) f := by
  obtain ⟨x, hx, hxe⟩ := ht
  obtain ⟨z, hz, hze⟩ := hu
  obtain ⟨y, hy, hyf⟩ := h
  rw [follow_append hx, followFrom, onward_element hxe] at hy
  obtain ⟨w, hw, hwy⟩ := Option.bind_eq_some_iff.1 hy
  rw [List.getElem?_singleton] at hw
  split at hw <;> cases hw
  next hi =>
    obtain ⟨y', hy', hfst⟩ := exists_followFrom (z := ((g.element e).content, z.2 + 1)) hwy rfl
    refine ⟨y', ?_, hfst ▸ hyf⟩
    simp [follow_append hz, followFrom, onward_element hze, hi, hy']

/-- The routes before the end of the operands are those before the pattern and those through it. -/
theorem lt_append_onward_iff (ht : g.follow start t = some x) (hu : g.follow start u = some y) :
    u < t ++ [(g.onward x).length] ↔ u < t ∨ t <+: u := by
  rw [Route.lt_append_iff]
  constructor
  · rintro (h | rfl | ⟨i, -, h⟩)
    · exact .inl h
    · exact .inr (List.prefix_refl u)
    · exact .inr ((List.prefix_append t [i]).trans h)
  · rintro (h | ⟨v, rfl⟩)
    · exact .inl h
    · cases v with
      | nil => exact .inr (.inl (by simp))
      | cons i r =>
        rw [follow_append ht] at hu
        obtain ⟨z, hz, -⟩ := Option.bind_eq_some_iff.1 hu
        obtain ⟨hi, -⟩ := List.getElem?_eq_some_iff.1 hz
        exact .inr (.inr ⟨i, hi, r, by simp⟩)

end Grammar

end RelaxNg
