import RelaxNg.Grammar.Recursion
import RelaxNg.Proofs.Unguarded

/-!
# Walks of the recursion check

A walk goes from one `Memory` to another: the definitions, elements and patterns that were met. `Meets` tells what
becomes of one pattern, and `Walks` of a list of patterns at one depth, each with all that follows it. What was known
before stays so (`Memory.Later`), and what is new is complete (`Complete`): the operands of a pattern are met at its
depth, the content of an element at some depth, and the body of a definition at the depth of the walk, unless the
definition was met behind an element. A reference counts as met only if its definition is not open at this depth.
-/

namespace RelaxNg.RecursionCheck

open Relation

/-- What a walk knows. -/
structure Memory where
  definitions : Std.HashMap DefinitionId Progress := {}
  elements : Std.HashSet ElementId := {}
  visited : Std.HashSet (PatternId × Nat) := {}

namespace Memory

def see (m : Memory) (p : PatternId) (k : Nat) : Memory := { m with visited := m.visited.insert (p, k) }

def enter (m : Memory) (e : ElementId) : Memory := { m with elements := m.elements.insert e }

def record (m : Memory) (f : DefinitionId) (progress : Progress) : Memory :=
  { m with definitions := m.definitions.insert f progress }

def leave (m : Memory) : Option DefinitionId → Memory
  | none => m
  | some f => m.record f .done

end Memory

variable {g : Grammar} {m m' m₁ m₂ m₃ : Memory} {p q : PatternId} {ps qs : List PatternId} {e : ElementId}
  {f : DefinitionId} {k j : Nat} {left : Option DefinitionId}

/-- A pattern is met at depth `k`. There follow the memory and the patterns that are walked next, at depth `j`, and the
definition that is left when they are done. -/
inductive Meets (g : Grammar) (m : Memory) (p : PatternId) (k : Nat) :
    Memory → List PatternId → Nat → Option DefinitionId → Prop
  | seen (hp : ∀ f, g.pattern p ≠ .ref f) (hv : (p, k) ∈ m.visited) : Meets g m p k m [] k none
  | operands (hp : ∀ f, g.pattern p ≠ .ref f) (hv : (p, k) ∉ m.visited)
      (he : ∀ e, g.pattern p = .element e → e ∈ m.elements) :
      Meets g m p k (m.see p k) (g.pattern p).operands k none
  | element {e : ElementId} (he : g.pattern p = .element e) (hv : (p, k) ∉ m.visited) (hm : e ∉ m.elements) :
      Meets g m p k ((m.see p k).enter e) [(g.element e).content] (k + 1) none
  | known {f : DefinitionId} {progress : Progress} (hp : g.pattern p = .ref f)
      (hf : m.definitions[f]? = some progress) (hk : progress ≠ .openAt k) : Meets g m p k m [] k none
  | ref {f : DefinitionId} {b : PatternId} (hp : g.pattern p = .ref f) (hf : m.definitions[f]? = none)
      (hb : g.body? f = some b) : Meets g m p k (m.record f (.openAt k)) [b] k (some f)

/-- Patterns are walked at depth `k`, one after the other. -/
inductive Walks (g : Grammar) : Memory → List PatternId → Nat → Memory → Prop
  | nil (m : Memory) (k : Nat) : Walks g m [] k m
  | cons {m m₁ m₂ m₃ : Memory} {p : PatternId} {ps qs : List PatternId} {k j : Nat} {left : Option DefinitionId}
      (h : Meets g m p k m₁ qs j left) (inner : Walks g m₁ qs j m₂) (rest : Walks g (m₂.leave left) ps k m₃) :
      Walks g m (p :: ps) k m₃

/-! ## What stays known -/

/-- A later memory knows all that an earlier one knows, and the definitions that it knows besides are done. -/
structure Memory.Later (m m' : Memory) : Prop where
  visited : ∀ x ∈ m.visited, x ∈ m'.visited
  elements : ∀ e ∈ m.elements, e ∈ m'.elements
  known : ∀ (f : DefinitionId) (progress : Progress),
    m.definitions[f]? = some progress → m'.definitions[f]? = some progress
  new : ∀ (f : DefinitionId) (progress : Progress),
    m.definitions[f]? = none → m'.definitions[f]? = some progress → progress = .done

namespace Memory

theorem mem_of_known {progress : Progress} (h : m.definitions[f]? = some progress) : f ∈ m.definitions := by
  simp [Std.HashMap.mem_iff_isSome_getElem?, h]

theorem Later.refl (m : Memory) : m.Later m :=
  ⟨fun _ => id, fun _ => id, fun _ _ => id, fun _ _ h h' => by simp [h] at h'⟩

theorem Later.trans (h : m.Later m₁) (h' : m₁.Later m₂) : m.Later m₂ where
  visited x hx := h'.visited x (h.visited x hx)
  elements e he := h'.elements e (h.elements e he)
  known f progress hf := h'.known f progress (h.known f progress hf)
  new f progress hf hf' := by
    cases hmid : m₁.definitions[f]? with
    | none => exact h'.new f progress hmid hf'
    | some progress' =>
      have hsame := h'.known f progress' hmid
      rw [hf'] at hsame
      cases hsame
      exact h.new f progress hf hmid

theorem later_see (m : Memory) (p : PatternId) (k : Nat) : m.Later (m.see p k) :=
  ⟨fun _ hx => Std.HashSet.mem_insert.2 (.inr hx), fun _ => id, fun _ _ => id, fun _ _ h h' => by simp_all [see]⟩

theorem later_enter (m : Memory) (e : ElementId) : m.Later (m.enter e) :=
  ⟨fun _ => id, fun _ he => Std.HashSet.mem_insert.2 (.inr he), fun _ _ => id, fun _ _ h h' => by simp_all [enter]⟩

end Memory

/-- What a pattern leads to changes nothing that was known when it was met. -/
theorem Meets.later (h : Meets g m p k m₁ qs j left) (h' : m₁.Later m₂) : m.Later (m₂.leave left) := by
  cases h with
  | seen => exact h'
  | operands => exact (m.later_see p k).trans h'
  | element => exact ((m.later_see p k).trans (Memory.later_enter _ _)).trans h'
  | known => exact h'
  | @ref f b _ hf _ =>
    -- The definition was not known before, was open while its body was walked, and is done now.
    have hrecord (f' : DefinitionId) (m : Memory) (progress : Progress) :
        (m.record f progress).definitions[f']? = if f = f' then some progress else m.definitions[f']? := by
      simp [Memory.record, Std.HashMap.getElem?_insert]
    refine ⟨h'.visited, h'.elements, fun f' progress hknown => ?_, fun f' progress hnew hdone => ?_⟩
    · have hne : f ≠ f' := fun heq => by simp [← heq, hf] at hknown
      rw [Memory.leave, hrecord, if_neg hne]
      exact h'.known f' progress (by rw [hrecord, if_neg hne, hknown])
    · rw [Memory.leave, hrecord] at hdone
      split at hdone
      · cases hdone
        rfl
      · next hne => exact h'.new f' progress (by rw [hrecord, if_neg hne, hnew]) hdone

theorem Walks.later (h : Walks g m ps k m') : m.Later m' := by
  induction h with
  | nil m k => exact .refl m
  | cons h _ _ ih ih' => exact (h.later ih).trans ih'

/-! ## What is complete -/

/-- A pattern is met at a depth. A reference is if its definition is known and not open there. -/
def Memory.Met (g : Grammar) (m : Memory) (p : PatternId) (k : Nat) : Prop :=
  match g.pattern p with
  | .ref f => ∃ progress, m.definitions[f]? = some progress ∧ progress ≠ .openAt k
  | _ => (p, k) ∈ m.visited

namespace Memory

theorem met_ref (hp : g.pattern p = .ref f) :
    m.Met g p k ↔ ∃ progress, m.definitions[f]? = some progress ∧ progress ≠ .openAt k := by
  simp [Met, hp]

theorem met_of_not_ref (hp : ∀ f, g.pattern p ≠ .ref f) : m.Met g p k ↔ (p, k) ∈ m.visited := by
  unfold Met
  split
  · next f hf => exact absurd hf (hp f)
  · rfl

theorem Met.later (h : m.Met g p k) (hm : m.Later m') : m'.Met g p k := by
  unfold Met at h ⊢
  split at h
  · next f hf =>
    obtain ⟨progress, hknown, hne⟩ := h
    exact ⟨progress, hm.known f progress hknown, hne⟩
  · exact hm.visited _ h

theorem Met.leave (h : m.Met g p k) (left : Option DefinitionId) : (m.leave left).Met g p k := by
  cases left with
  | none => exact h
  | some f =>
    unfold Met at h ⊢
    split at h
    · next f' hf' =>
      obtain ⟨progress, hknown, hne⟩ := h
      simp only [Memory.leave, record, Std.HashMap.getElem?_insert, beq_iff_eq]
      split
      · exact ⟨.done, rfl, by simp⟩
      · exact ⟨progress, hknown, hne⟩
    · exact h

end Memory

/-- What follows a visited pattern at its depth: its operands are met there, and its element is known. -/
def Memory.Closed (g : Grammar) (m : Memory) (p : PatternId) (k : Nat) : Prop :=
  (∀ o ∈ (g.pattern p).operands, m.Met g o k) ∧ ∀ e, g.pattern p = .element e → e ∈ m.elements

theorem Memory.Closed.later (h : m.Closed g p k) (hm : m.Later m') : m'.Closed g p k :=
  ⟨fun o ho => (h.1 o ho).later hm, fun e he => hm.elements e (h.2 e he)⟩

theorem Memory.Closed.leave (h : m.Closed g p k) (left : Option DefinitionId) : (m.leave left).Closed g p k := by
  refine ⟨fun o ho => (h.1 o ho).leave left, fun e he => ?_⟩
  cases left <;> exact h.2 e he

/-- A definition is referred to behind an element that is reached from some patterns. -/
def Behind (g : Grammar) (ps : List PatternId) (f : DefinitionId) : Prop :=
  ∃ p ∈ ps, ∃ q e, g.Reaches p q ∧ g.pattern q = .element e ∧ g.Refers (g.element e).content f

/-- A definition was entered on a walk of patterns at depth `k`: its body is met there or it is behind an element. -/
structure Entered (g : Grammar) (m : Memory) (ps : List PatternId) (k : Nat) (f : DefinitionId) : Prop where
  refers : ∃ p ∈ ps, g.Refers p f
  body : ∃ b j, g.body? f = some b ∧ m.Met g b j ∧ (j = k ∨ Behind g ps f)

theorem Entered.later (h : Entered g m ps k f) (hm : m.Later m') : Entered g m' ps k f := by
  obtain ⟨b, j, hb, hj, hor⟩ := h.body
  exact ⟨h.refers, b, j, hb, hj.later hm, hor⟩

theorem Entered.leave (h : Entered g m ps k f) (left : Option DefinitionId) : Entered g (m.leave left) ps k f := by
  obtain ⟨b, j, hb, hj, hor⟩ := h.body
  exact ⟨h.refers, b, j, hb, hj.leave left, hor⟩

/-- What is entered from some patterns is entered from others from which these are reached. -/
theorem Entered.of_reaches (h : Entered g m qs k f) (hq : ∀ q ∈ qs, ∃ p ∈ ps, g.Reaches p q) :
    Entered g m ps k f := by
  obtain ⟨q, hmem, hr⟩ := h.refers
  obtain ⟨p, hp, hpq⟩ := hq q hmem
  obtain ⟨b, j, hb, hj, hor⟩ := h.body
  refine ⟨⟨p, hp, hr.of_reaches hpq⟩, b, j, hb, hj, hor.imp_right ?_⟩
  rintro ⟨q, hmem, r, e, hqr, he, hf⟩
  obtain ⟨p, hp, hpq⟩ := hq q hmem
  exact ⟨p, hp, r, e, hpq.trans hqr, he, hf⟩

/-- What came to be known on a walk of patterns at depth `k` is complete. -/
structure Complete (g : Grammar) (m m' : Memory) (ps : List PatternId) (k : Nat) : Prop where
  met : ∀ p ∈ ps, m'.Met g p k
  visited : ∀ q j, (q, j) ∉ m.visited → (q, j) ∈ m'.visited → m'.Closed g q j
  elements : ∀ e ∉ m.elements, e ∈ m'.elements → ∃ j, m'.Met g (g.element e).content j
  definitions : ∀ f ∉ m.definitions, f ∈ m'.definitions → Entered g m' ps k f

theorem Complete.nil (m : Memory) (k : Nat) : Complete g m m [] k :=
  ⟨by simp, fun _ _ h h' => absurd h' h, fun _ h h' => absurd h' h, fun _ h h' => absurd h' h⟩

theorem Complete.append (h : Complete g m m₁ ps k) (hm : m₁.Later m₂) (h' : Complete g m₁ m₂ qs k) :
    Complete g m m₂ (ps ++ qs) k where
  met p hp := (List.mem_append.1 hp).elim (fun hp => (h.met p hp).later hm) (h'.met p)
  visited q j hn hv := by
    by_cases hmid : (q, j) ∈ m₁.visited
    · exact (h.visited q j hn hmid).later hm
    · exact h'.visited q j hmid hv
  elements e hn he := by
    by_cases hmid : e ∈ m₁.elements
    · obtain ⟨j, hj⟩ := h.elements e hn hmid
      exact ⟨j, hj.later hm⟩
    · exact h'.elements e hmid he
  definitions f hn hf := by
    by_cases hmid : f ∈ m₁.definitions
    · exact ((h.definitions f hn hmid).later hm).of_reaches fun p hp => ⟨p, List.mem_append_left _ hp, .refl⟩
    · exact (h'.definitions f hmid hf).of_reaches fun p hp => ⟨p, List.mem_append_right _ hp, .refl⟩

theorem Meets.mem_successors (h : Meets g m p k m₁ qs j left) (hq : q ∈ qs) : q ∈ g.successors p := by
  cases h with
  | seen => cases hq
  | operands => exact Grammar.mem_successors_of_operand hq
  | element he => exact List.mem_singleton.1 hq ▸ Grammar.content_mem_successors he
  | known => cases hq
  | ref hp _ hb =>
    rw [List.mem_singleton.1 hq]
    exact Grammar.body_mem_successors hp hb

theorem Meets.complete_operands (hp : ∀ f, g.pattern p ≠ .ref f)
    (he : ∀ e, g.pattern p = .element e → e ∈ m.elements) (hm : (m.see p k).Later m₂)
    (hc : Complete g (m.see p k) m₂ (g.pattern p).operands k) : Complete g m m₂ [p] k := by
  have hmet : m₂.Met g p k := (Memory.met_of_not_ref hp).2 (hm.visited _ Std.HashSet.mem_insert_self)
  refine ⟨fun q hq => List.mem_singleton.1 hq ▸ hmet, fun q j hn hv => ?_, hc.elements, fun f hn hf => ?_⟩
  · by_cases hq : (q, j) ∈ (m.see p k).visited
    · cases eq_of_beq ((Std.HashSet.mem_insert.1 hq).resolve_right hn)
      exact ⟨hc.met, fun e hpe => hm.elements e (he e hpe)⟩
    · exact hc.visited q j hq hv
  · exact (hc.definitions f hn hf).of_reaches fun q hq =>
      ⟨p, List.mem_singleton_self p, .single (Grammar.mem_successors_of_operand hq)⟩

/-- All definitions that are entered in the content of an element are behind the element. -/
theorem Meets.complete_element (he : g.pattern p = .element e) (hm : ((m.see p k).enter e).Later m₂)
    (hc : Complete g ((m.see p k).enter e) m₂ [(g.element e).content] (k + 1)) : Complete g m m₂ [p] k := by
  have hp (f) : g.pattern p ≠ .ref f := by simp [he]
  have hmet : m₂.Met g p k := (Memory.met_of_not_ref hp).2 (hm.visited _ Std.HashSet.mem_insert_self)
  refine ⟨fun q hq => List.mem_singleton.1 hq ▸ hmet, fun q j hn hv => ?_, fun e' hn he' => ?_, fun f hn hf => ?_⟩
  · by_cases hq : (q, j) ∈ ((m.see p k).enter e).visited
    · cases eq_of_beq ((Std.HashSet.mem_insert.1 hq).resolve_right hn)
      refine ⟨by simp [he, Pattern.operands], fun e' he' => ?_⟩
      cases he.symm.trans he'
      exact hm.elements e Std.HashSet.mem_insert_self
    · exact hc.visited q j hq hv
  · by_cases hmem : e' ∈ ((m.see p k).enter e).elements
    · cases eq_of_beq ((Std.HashSet.mem_insert.1 hmem).resolve_right hn)
      exact ⟨k + 1, hc.met _ (List.mem_singleton_self _)⟩
    · exact hc.elements e' hmem he'
  · have hentered := hc.definitions f hn hf
    obtain ⟨q, hq, hr⟩ := hentered.refers
    obtain ⟨b, j, hb, hj, -⟩ := hentered.body
    rw [List.mem_singleton.1 hq] at hr
    have hmem := List.mem_singleton_self p
    exact ⟨⟨p, hmem, hr.of_reaches (.single (Grammar.content_mem_successors he))⟩, b, j, hb, hj,
      .inr ⟨p, hmem, p, e, .refl, he, hr⟩⟩

theorem Meets.complete_ref {b : PatternId} (hp : g.pattern p = .ref f) (hb : g.body? f = some b)
    (hc : Complete g (m.record f (.openAt k)) m₂ [b] k) : Complete g m (m₂.leave (some f)) [p] k := by
  have hmem := List.mem_singleton_self p
  have hmet : (m₂.leave (some f)).Met g p k :=
    (Memory.met_ref hp).2 ⟨.done, by simp [Memory.leave, Memory.record], by simp⟩
  have hbody : b ∈ g.successors p := Grammar.body_mem_successors hp hb
  refine ⟨fun q hq => List.mem_singleton.1 hq ▸ hmet, fun q j hn hv => (hc.visited q j hn hv).leave _,
    fun e hn he => ?_, fun f' hn hf => ?_⟩
  · obtain ⟨j, hj⟩ := hc.elements e hn he
    exact ⟨j, hj.leave _⟩
  · by_cases hff : f = f'
    · subst hff
      exact ⟨⟨p, hmem, p, .refl, hp⟩, b, k, hb, (hc.met b (List.mem_singleton_self b)).leave _, .inl rfl⟩
    · have hmem₂ : f' ∈ m₂.definitions := by simpa [Memory.leave, Memory.record, hff] using hf
      have hnew : f' ∉ (m.record f (.openAt k)).definitions := by simpa [Memory.record, hff] using hn
      exact ((hc.definitions f' hnew hmem₂).leave _).of_reaches fun q hq =>
        ⟨p, hmem, .single (List.mem_singleton.1 hq ▸ hbody)⟩

theorem Meets.complete (h : Meets g m p k m₁ qs j left) (hm : m₁.Later m₂) (hc : Complete g m₁ m₂ qs j) :
    Complete g m (m₂.leave left) [p] k := by
  have already (hmet : m₂.Met g p j) (hc : Complete g m m₂ [] j) : Complete g m m₂ [p] j :=
    ⟨fun q hq => List.mem_singleton.1 hq ▸ hmet, hc.visited, hc.elements,
      fun f hn hf => (hc.definitions f hn hf).of_reaches (by simp)⟩
  cases h with
  | seen hp hv => exact already ((Memory.met_of_not_ref hp).2 (hm.visited _ hv)) hc
  | operands hp _ he => exact complete_operands hp he hm hc
  | element he => exact complete_element he hm hc
  | known hp hf hne => exact already ((Memory.met_ref hp).2 ⟨_, hm.known _ _ hf, hne⟩) hc
  | ref hp _ hb => exact complete_ref hp hb hc

theorem Walks.complete (h : Walks g m ps k m') : Complete g m m' ps k := by
  induction h with
  | nil m k => exact .nil m k
  | cons h inner rest ih ih' => exact (h.complete inner.later ih).append rest.later ih'

end RelaxNg.RecursionCheck
