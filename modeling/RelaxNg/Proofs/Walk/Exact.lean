import RelaxNg.Machine
import RelaxNg.Proofs.Draft.Calls
import RelaxNg.Proofs.Walk.Order

/-!
# Walks are exact

What stands in a pattern at the top of a content, and in which order, is told by `Grammar.TopPart`, and what a pattern
leads to at all by `Grammar.StepsTo`. A grammar can be cyclic through definitions and through the contents of elements.
A walk still comes to its end after two turns for each stored pattern (`run?_turn`), and then it has every element that
is reached, once, and the elements and attributes at the top of a content in the order in which they first stand there
(`Draft.ReachedBy.walks_exact`). In `Draft.circling` a definition leads back to itself in front of its two elements.
-/

namespace RelaxNg

open Relation Route

/-! ## Turns -/

section turns

variable {α : Type} {number : α → Nat} {next : α → List α} {marks : Marks} {found : Array α} {stack : List α}
  {turns : Nat}

/-- A turn of a walk: the next place on the stack is passed over, or it is met and what follows comes in its stead. -/
def turn (number : α → Nat) (next : α → List α) : Machine (Marks × Array α × List α) (Array α)
  | (_, found, []) => .inr found
  | (marks, found, x :: stack) =>
    if marks.has (number x) then .inl (marks, found, stack)
    else .inl (marks.mark (number x), found.push x, next x ++ stack)

/-- A walk with at most two ways on takes two turns for each place to be met and one for each that waits. -/
theorem run?_turn (hnext : ∀ x, (next x).length ≤ 2) (h : 2 * marks.free + stack.length < turns) :
    Machine.run? (turn number next) turns (marks, found, stack) = some (walk number next marks found stack) := by
  fun_induction walk number next marks found stack generalizing turns with
  | case1 marks found =>
    obtain ⟨turns, rfl⟩ := Nat.exists_eq_succ_of_ne_zero (Nat.ne_zero_of_lt h)
    rfl
  | case2 marks found x stack hx ih =>
    obtain ⟨turns, rfl⟩ := Nat.exists_eq_succ_of_ne_zero (Nat.ne_zero_of_lt h)
    rw [List.length_cons] at h
    have hturn : turn number next (marks, found, x :: stack) = .inl (marks, found, stack) := by simp [turn, hx]
    rw [Machine.run?, hturn]
    exact ih (by omega)
  | case3 marks found x stack hx hfree ih =>
    obtain ⟨turns, rfl⟩ := Nat.exists_eq_succ_of_ne_zero (Nat.ne_zero_of_lt h)
    rw [List.length_cons] at h
    have hturn : turn number next (marks, found, x :: stack) =
        .inl (marks.mark (number x), found.push x, next x ++ stack) := by simp [turn, hx]
    rw [Machine.run?, hturn]
    refine ih ?_
    have hmore := hnext x
    rw [List.length_append]
    omega

end turns

/-! ## What patterns lead to -/

/-- A pattern decides between two patterns, or sets them together. -/
def Pattern.Joins (pattern : Pattern) (left right : PatternId) : Prop :=
  pattern = .choice left right ∨ pattern = .group left right ∨ pattern = .interleave left right

namespace Grammar

variable {g : Grammar} {start p q : PatternId} {i : Nat} {t : Route}

/-- A pattern stands in another at the top of a content, in some place from the left. Attributes, lists, values and
elements are not looked into, and references are followed if they are defined. -/
inductive TopPart (g : Grammar) (p : PatternId) : Nat → PatternId → Prop
  | left {left right : PatternId} (h : (g.pattern p).Joins left right) : TopPart g p 0 left
  | right {left right : PatternId} (h : (g.pattern p).Joins left right) : TopPart g p 1 right
  | repeated {operand : PatternId} (h : g.pattern p = .oneOrMore operand) : TopPart g p 0 operand
  | body {d : DefinitionId} {body : PatternId} (h : g.pattern p = .ref d) (hb : g.body? d = some body) :
      TopPart g p 0 body

/-- A pattern leads to another: it stands at the top, or it is what a list, an exception, an attribute or an element
holds. -/
inductive StepsTo (g : Grammar) (p : PatternId) : PatternId → Prop
  | top {i : Nat} {q : PatternId} (h : g.TopPart p i q) : StepsTo g p q
  | listed {operand : PatternId} (h : g.pattern p = .list operand) : StepsTo g p operand
  | excepted {type : Datatype} {params : List Param} {except : PatternId}
      (h : g.pattern p = .dataExcept type params except) : StepsTo g p except
  | value {names : NameClass} {value : PatternId} {annotations : Annotations}
      (h : g.pattern p = .attr names value annotations) : StepsTo g p value
  | content {e : ElementId} (h : g.pattern p = .element e) : StepsTo g p (g.element e).content

theorem topPart_iff (g : Grammar) (p : PatternId) (i : Nat) (q : PatternId) :
    g.TopPart p i q ↔ (g.topSuccessors p)[i]? = some q := by
  constructor
  · rintro (h | h | h | ⟨h, hb⟩)
    · rcases h with h | h | h <;> simp [topSuccessors, h]
    · rcases h with h | h | h <;> simp [topSuccessors, h]
    · simp [topSuccessors, h]
    · simp [topSuccessors, h, hb]
  · intro hi
    have joined {left right : PatternId} (h : (g.pattern p).Joins left right) (hi : [left, right][i]? = some q) :
        g.TopPart p i q := by
      match i, hi with
      | 0, rfl => exact .left h
      | 1, rfl => exact .right h
    unfold topSuccessors at hi
    split at hi
    · next h => exact joined (.inl h) hi
    · next h => exact joined (.inr (.inl h)) hi
    · next h => exact joined (.inr (.inr h)) hi
    · next h =>
      match i, hi with
      | 0, rfl => exact .repeated h
    · next d h =>
      cases hb : g.body? d with
      | none => simp [hb] at hi
      | some body =>
        rw [hb] at hi
        match i, hi with
        | 0, rfl => exact .body h hb
    · simp at hi

theorem stepsTo_iff : g.StepsTo p q ↔ q ∈ g.successors p := by
  constructor
  · rintro (h | h | h | h | h)
    · exact mem_successors_of_top (List.mem_of_getElem? ((topPart_iff g p _ q).1 h))
    · simp [successors, h, Pattern.operands]
    · simp [successors, h, Pattern.operands]
    · simp [successors, h, Pattern.operands]
    · exact content_mem_successors h
  · intro hq
    have joined {left right : PatternId} (h : (g.pattern p).Joins left right) (hq : q ∈ [left, right]) :
        g.StepsTo p q := by
      rcases List.mem_cons.1 hq with rfl | hq
      · exact .top (.left h)
      · cases List.mem_singleton.1 hq
        exact .top (.right h)
    unfold successors at hq
    split at hq
    · next e h =>
      cases List.mem_singleton.1 hq
      exact .content h
    · next d h => exact .top (.body h (Option.mem_toList.1 hq))
    · cases h : g.pattern p <;> rw [h] at hq
      case choice left right => exact joined (.inl h) hq
      case group left right => exact joined (.inr (.inl h)) hq
      case interleave left right => exact joined (.inr (.inr h)) hq
      case oneOrMore operand =>
        cases List.mem_singleton.1 hq
        exact .top (.repeated h)
      case list operand =>
        cases List.mem_singleton.1 hq
        exact .listed h
      case dataExcept type params except =>
        cases List.mem_singleton.1 hq
        exact .excepted h
      case attr names value annotations =>
        cases List.mem_singleton.1 hq
        exact .value h
      all_goals cases hq

theorem length_successors_le (g : Grammar) (p : PatternId) : (g.successors p).length ≤ 2 := by
  unfold successors
  split
  · simp
  · exact le_trans Option.length_toList_le (by decide)
  · cases g.pattern p <;> simp [Pattern.operands]

theorem length_topSuccessors_le (g : Grammar) (p : PatternId) : (g.topSuccessors p).length ≤ 2 := by
  unfold topSuccessors
  split
  case h_5 => exact le_trans Option.length_toList_le (by decide)
  all_goals simp

/-- A walk comes to its end within some turns. -/
def EndsWithin (g : Grammar) (next : PatternId → List PatternId) (start : PatternId) (turns : Nat) : Prop :=
  Machine.run? (turn PatternId.index next) turns (.upTo g.nodes.size, #[], [start]) =
    some (g.walkFrom next start).toArray

theorem endsWithin {next : PatternId → List PatternId} (hnext : ∀ p, (next p).length ≤ 2) (g : Grammar)
    (start : PatternId) : g.EndsWithin next start (2 * g.nodes.size + 2) := by
  rw [EndsWithin, walkFrom, Array.toArray_toList]
  refine run?_turn hnext ?_
  simp [Marks.upTo, Marks.free]

theorem reaches_iff : g.Reaches p q ↔ ReflTransGen g.StepsTo p q := by
  have hsteps : g.StepsTo = fun p q => q ∈ g.successors p := by
    funext p q
    exact propext stepsTo_iff
  rw [hsteps, Reaches]

theorem reaches_of_leads (h : Leads g.TopPart p t q) : g.Reaches p q := by
  induction h with
  | nil => exact .refl
  | cons h _ ih => exact .head (stepsTo_iff.1 (.top h)) ih

/-- Where the successors of stored patterns are stored, a walk meets patterns in the order of the routes to them. -/
theorem lists_walkFrom {part : PatternId → Nat → PatternId → Prop} {next : PatternId → List PatternId}
    (hpart : ∀ p i q, part p i q ↔ (next p)[i]? = some q) (hnext : ∀ p, g.Has p → ∀ q ∈ next p, g.Has q)
    (hp : g.Has start) : Lists part start (fun p q => p = q) (g.walkFrom next start) := by
  refine lists_walk hpart PatternId.index_injective fun t q h => ?_
  induction h with
  | nil => exact hp
  | cons h _ ih => exact ih (hnext _ hp _ (List.mem_of_getElem? ((hpart _ _ _).1 h)))

theorem Sound.lists_top (hg : g.Sound) (hp : g.Has start) : Lists g.TopPart start (fun p q => p = q) (g.top start) :=
  lists_walkFrom g.topPart_iff (fun _ hp _ hq => hg.successors_has hp (mem_successors_of_top hq)) hp

theorem Sound.lists_topElements (hg : g.Sound) (hp : g.Has start) :
    Lists g.TopPart start (fun p e => g.pattern p = .element e) (g.topElements start) := by
  simpa only [topElements, elementOf?_eq_some_iff] using (hg.lists_top hp).firsts g.elementOf?

theorem Sound.lists_topAttributes (hg : g.Sound) (hp : g.Has start) :
    Lists g.TopPart start (fun p names => ∃ value annotations, g.pattern p = .attr names value annotations)
      (g.topAttributes start) := by
  simpa only [topAttributes, attributeOf?_eq_some_iff] using (hg.lists_top hp).firsts g.attributeOf?

/-- Without references, what stands in a pattern has a smaller number. -/
theorem Sound.index_lt_of_leads (hg : g.Sound) (hf : g.RefFree p) (h : Leads g.TopPart p t q) :
    t = [] ∧ p = q ∨ q.index < p.index := by
  induction h with
  | nil => exact .inl ⟨rfl, rfl⟩
  | @cons p y q i t h _ ih =>
    have hlt : y.index < p.index := by
      refine (hg.settled p).operand_lt y ?_
      cases h with
      | left h | right h => rcases h with h | h | h <;> simp [h, Pattern.operands]
      | repeated h => simp [h, Pattern.operands]
      | body h => exact absurd h (hf p .refl _)
    rcases ih (hf.of_successor (stepsTo_iff.1 (.top h))) with ⟨-, rfl⟩ | hless
    · exact .inr hlt
    · exact .inr (lt_trans hless hlt)

/-- Where no reference is reached, all routes are direct. -/
theorem Sound.direct_of_refFree (hg : g.Sound) (hf : g.RefFree start) (t : Route) : Direct g.TopPart start t := by
  refine direct_of_acyclic (numbered_of_iff g.topPart_iff) fun u p v hu hv => ?_
  rcases hg.index_lt_of_leads (hf.of_reaches (reaches_of_leads hu)) hv with ⟨rfl, -⟩ | hlt
  · rfl
  · exact absurd hlt (lt_irrefl _)

end Grammar

namespace Draft

variable {d : Draft} {start : PatternId}

/-- A walk through a draft comes to its end after two turns for each pattern and two more at most. The elements that are
reached are those that steps lead to, once each. The elements and the name classes of attributes at the top of a content
are those that stand there, once each, from left to right in the order in which direct routes first lead to them; all
routes are direct if no reference is reached. -/
theorem ReachedBy.walks_exact (hd : d.Built) (hp : d.grammar.Has start) :
    let g := d.grammar
    (g.EndsWithin g.successors start (2 * d.patternCount + 2) ∧
      g.EndsWithin g.topSuccessors start (2 * d.patternCount + 2)) ∧
    ((g.reachableElements start).Nodup ∧
      ∀ e, e ∈ g.reachableElements start ↔ ∃ p, ReflTransGen g.StepsTo start p ∧ g.pattern p = .element e) ∧
    Lists g.TopPart start (fun p e => g.pattern p = .element e) (g.topElements start) ∧
    Lists g.TopPart start (fun p names => ∃ value annotations, g.pattern p = .attr names value annotations)
      (g.topAttributes start) ∧
    (g.RefFree start → ∀ t, Direct g.TopPart start t) := by
  have hg := hd.sound.grammar
  have hends := d.grammar.endsWithin d.grammar.length_successors_le start
  have hendsTop := d.grammar.endsWithin d.grammar.length_topSuccessors_le start
  refine ⟨⟨hends, hendsTop⟩, ⟨nodup_firsts _, fun e => ?_⟩, hg.lists_topElements hp,
    hg.lists_topAttributes hp, hg.direct_of_refFree⟩
  simp only [hg.mem_reachableElements_iff hp, Grammar.reaches_iff]

/-! ## A definition that circles -/

/-- A draft with a reference, an element that holds it and another element, one after the other. -/
def following : Draft :=
  ((referring.after (.group ⟨3⟩ ⟨4⟩)).after (.element (.plain "f") text none .none)).after (.group ⟨5⟩ ⟨6⟩)

/-- The draft in which they are what the reference stands for. -/
def circling : Draft := following.after (.define "a" ⟨7⟩)

theorem following_built_grammar : following.Built ∧ following.grammar =
    ⟨#[⟨.empty, true, .empty, none⟩, ⟨.notAllowed, false, .empty, none⟩, ⟨.text, true, .mixed, none⟩,
      ⟨.ref ⟨0⟩, false, .empty, none⟩, ⟨.element ⟨0⟩, false, .complex, none⟩, ⟨.group ⟨3⟩ ⟨4⟩, false, .complex, none⟩,
      ⟨.element ⟨1⟩, false, .complex, none⟩, ⟨.group ⟨5⟩ ⟨6⟩, false, .complex, none⟩],
      #[⟨.plain "e", ⟨3⟩, none, .none⟩, ⟨.plain "f", text, none, .none⟩], #[⟨"a", none, none⟩]⟩ := by
  have hhas : referring.grammar.Has ⟨3⟩ ∧ referring.grammar.Has ⟨4⟩ := by
    rw [referring_grammar]
    decide
  have hgroup : (referring.after (.group ⟨3⟩ ⟨4⟩)).Built :=
    .call referring_fresh.built trivial (by simpa [Call.arguments] using hhas)
  have hfirst := referring_fresh.sound.grammar_after_group (p := ⟨3⟩) (q := ⟨4⟩) (by decide) (by decide)
    (by simp [referring_grammar])
  have helement := hgroup.sound.grammar_after_element hgroup.sound.has_text (.plain "f") none .none
  have hbuilt : ((referring.after (.group ⟨3⟩ ⟨4⟩)).after (.element (.plain "f") text none .none)).Built :=
    .call hgroup trivial (List.forall_mem_singleton.2 hgroup.sound.has_text)
  have hsecond := hbuilt.sound.grammar_after_group (p := ⟨5⟩) (q := ⟨6⟩) (by decide) (by decide)
    (by simp [helement, hfirst, referring_grammar, Grammar.storing, Grammar.nodeOf])
  refine ⟨.call hbuilt trivial ?_, ?_⟩
  · rw [helement, hfirst, referring_grammar]
    decide
  · rw [following, hsecond, helement, hfirst, referring_grammar]
    rfl

theorem circling_grammar :
    circling.grammar = { following.grammar with definitions := #[⟨"a", some ⟨7⟩, none⟩] } := by
  simp [circling, after, define, Grammar.definition?, Grammar.body?, Grammar.definition, following_built_grammar.2]

theorem circling_built : circling.Built := by
  refine .call following_built_grammar.1 trivial (List.forall_mem_singleton.2 ?_)
  rw [following_built_grammar.2]
  decide

/-- The statement from the body of a definition that leads back to itself: its two elements are listed from left to
right, and each is reached once, though the first one holds the definition. -/
theorem walks_exact_circling : circling.Built ∧ circling.grammar.Has ⟨7⟩ ∧
    circling.grammar.topElements ⟨7⟩ = [⟨0⟩, ⟨1⟩] ∧
    Precedes circling.grammar.TopPart ⟨7⟩ (circling.grammar.pattern · = .element ⟨0⟩)
      (circling.grammar.pattern · = .element ⟨1⟩) ∧
    (circling.grammar.reachableElements ⟨7⟩).Nodup ∧
    ∃ p, ReflTransGen circling.grammar.StepsTo ⟨7⟩ p ∧ circling.grammar.pattern p = .element ⟨0⟩ := by
  have hhas : circling.grammar.Has ⟨7⟩ := by
    rw [circling_grammar, following_built_grammar.2]
    decide
  have htop : circling.grammar.topElements ⟨7⟩ = [⟨0⟩, ⟨1⟩] := by
    rw [circling_grammar, following_built_grammar.2]
    cbv
  have hreachable : circling.grammar.reachableElements ⟨7⟩ = [⟨0⟩, ⟨1⟩] := by
    rw [circling_grammar, following_built_grammar.2]
    cbv
  obtain ⟨-, ⟨hnodup, hmem⟩, helements, -, -⟩ := circling_built.walks_exact hhas
  have hordered := helements.ordered
  rw [htop] at hordered
  exact ⟨circling_built, hhas, htop, (List.pairwise_cons.1 hordered).1 _ (List.mem_singleton_self _), hnodup,
    (hmem ⟨0⟩).1 (by simp [hreachable])⟩

end Draft

end RelaxNg
