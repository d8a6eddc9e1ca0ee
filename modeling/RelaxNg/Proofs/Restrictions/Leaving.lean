import RelaxNg.Proofs.Attempt
import RelaxNg.Proofs.Restrictions.Passing

/-!
# What a check leaves

A check leaves entered what was entered, closes the definitions that it opens, and collects only where something is
collected; and that whether it passes or fails (`check_leaves`). Of the open definitions it asks no more than which they
are, so it does the same from two states that differ in how they are stored (`check_alike`).
-/

namespace RelaxNg.RestrictionCheck

open Attempt

variable {g : Grammar} {limit levels : Nat} {p : PatternId} {place : Place} {s₀ s t u : State}
  {step step' : Check}

/-! ## Any state and the one left -/

/-- A state that a check may leave. -/
structure Leaves (s t : State) : Prop where
  checked : ∀ e, s.checked.contains e = true → t.checked.contains e = true
  active : t.active.Equiv s.active
  attributes : t.attributes.isSome = s.attributes.isSome
  alphabet : t.alphabet.isSome = s.alphabet.isSome

theorem Leaves.refl (s : State) : Leaves s s := ⟨fun _ h => h, .rfl, rfl, rfl⟩

theorem Leaves.trans (h : Leaves s t) (h' : Leaves t u) : Leaves s u where
  checked e he := h'.checked e (h.checked e he)
  active := h'.active.trans h.active
  attributes := h'.attributes.trans h.attributes
  alphabet := h'.alphabet.trans h.alphabet

theorem keeps_of_leaves {α : Type} {step : Attempt State α} (h : ∀ s, Leaves s (step.runFrom s).2) :
    Keeps (Leaves s₀) step := fun s hs => hs.trans (h s)

theorem Leaves.inside {d : DefinitionId} (hd : s.active.contains d = false)
    (h : ∀ s, Leaves s (step.runFrom s).2) : Leaves s ((inside d step).runFrom s).2 where
  checked := (h { s with active := s.active.insert d }).checked
  active := by
    -- The definition was closed before, so that closing it takes out no other opening of it.
    refine ((h { s with active := s.active.insert d }).active.erase d).trans (.of_forall_contains_eq fun d' => ?_)
    rw [Std.HashSet.contains_erase, Std.HashSet.contains_insert]
    cases hd' : d == d'
    · simp
    · simp [← eq_of_beq hd', hd]
  attributes := (h { s with active := s.active.insert d }).attributes
  alphabet := (h { s with active := s.active.insert d }).alphabet

theorem Leaves.isolated {attributes : Option AttributeNames} {alphabet : Option Alphabet}
    (h : ∀ s, Leaves s (step.runFrom s).2) : Leaves s ((isolated attributes alphabet step).runFrom s).2 :=
  ⟨(h { s with attributes, alphabet }).checked, (h { s with attributes, alphabet }).active, rfl, rfl⟩

theorem Leaves.side (h : ∀ s, Leaves s (step.runFrom s).2) : Leaves s ((side step).runFrom s).2 :=
  ⟨(h { s with alphabet := some .empty }).checked, (h { s with alphabet := some .empty }).active,
    (h { s with alphabet := some .empty }).attributes, rfl⟩

theorem keeps_refuse {P : State → Prop} (broken : Option Restriction) : Keeps P (refuse broken) := by
  cases broken <;> exact fun _ hs => hs

theorem keeps_located {P : State → Prop} {loc : Option Location} (h : Keeps P step) : Keeps P (located loc step) := h

theorem keeps_onAttributes {change : AttributeNames → AttributeNames} : Keeps (Leaves s₀) (onAttributes change) :=
  keeps_of_leaves fun _ => ⟨fun _ h => h, .rfl, Option.isSome_map, rfl⟩

theorem keeps_onAlphabet {change : Alphabet → Alphabet} : Keeps (Leaves s₀) (onAlphabet change) :=
  keeps_of_leaves fun _ => ⟨fun _ h => h, .rfl, rfl, Option.isSome_map⟩

theorem keeps_addAttribute {names : NameClass} : Keeps (Leaves s₀) (addAttribute names) := by
  refine keeps_of_leaves fun s => ?_
  unfold addAttribute
  rw [runFrom_get_then]
  cases ha : s.attributes with
  | none => exact .refl s
  | some attributes =>
    dsimp only
    cases attributes.add names with
    | ok after => exact ⟨fun _ h => h, .rfl, by simp [ha], rfl⟩
    | error v => exact .refl s

theorem keeps_enter {e : ElementId} :
    Keeps (Leaves s₀) (modify fun s => { s with checked := s.checked.insert e } : Check) :=
  keeps_of_leaves fun _ => ⟨fun _ h => by simp [h], .rfl, rfl, rfl⟩

theorem check_leaves (g : Grammar) (limit levels : Nat) (p : PatternId) (place : Place) (s : State) :
    Leaves s ((check g limit levels p place).runFrom s).2 := by
  suffices h : ∀ s₀, Keeps (Leaves s₀) (check g limit levels p place) from h s s (.refl s)
  induction levels generalizing p place with
  | zero =>
    rw [check_zero]
    exact fun _ _ hs => hs
  | succ levels ih =>
    intro s₀
    have leaves (p : PatternId) (place : Place) (s : State) :
        Leaves s ((check g limit levels p place).runFrom s).2 := ih p place s s (.refl s)
    have keeps (p : PatternId) (place : Place) : Keeps (Leaves s₀) (check g limit levels p place) := ih p place s₀
    rw [check]
    cases hp : g.pattern p with
    | element e =>
      refine keeps_onAlphabet.bind fun _ => keeps_get_then fun s => ?_
      split
      · exact keeps_pure _
      · exact keeps_located ((keeps_refuse _).bind fun _ => keeps_enter.bind fun _ =>
          keeps_of_leaves fun _ => .isolated (leaves _ _))
    | attr names value annotations =>
      exact keeps_located ((keeps_refuse _).bind fun _ => (keeps_refuse _).bind fun _ =>
        keeps_addAttribute.bind fun _ => keeps_of_leaves fun _ => .isolated (leaves _ _))
    | dataExcept type params except =>
      exact (keeps_refuse _).bind fun _ => keeps_located (keeps_of_leaves fun _ => .isolated (leaves _ _))
    | list operand =>
      exact (keeps_refuse _).bind fun _ => keeps_located (keeps_of_leaves fun _ => .isolated (leaves _ _))
    | choice left right =>
      exact keeps_onAttributes.bind fun _ => (keeps _ _).bind fun _ => keeps_onAttributes.bind fun _ =>
        (keeps _ _).bind fun _ => keeps_onAttributes
    | group left right =>
      exact (keeps_refuse _).bind fun _ => (keeps _ _).bind fun _ => (keeps _ _).bind fun _ => keeps_refuse _
    | interleave left right =>
      exact (keeps_refuse _).bind fun _ => (keeps_of_leaves fun _ => .side (leaves _ _)).bind fun _ =>
        (keeps_of_leaves fun _ => .side (leaves _ _)).bind fun _ => (keeps_refuse _).bind fun _ =>
        keeps_onAlphabet.bind fun _ => (keeps_refuse _).bind fun _ => keeps_refuse _
    | oneOrMore operand => exact (keeps_refuse _).bind fun _ => (keeps _ _).bind fun _ => keeps_refuse _
    | ref d =>
      dsimp only
      cases g.body? d with
      | none => exact keeps_pure _
      | some body =>
        refine keeps_of_leaves fun s => ?_
        rw [runFrom_get_then]
        split
        · exact .refl s
        · next hd => exact .inside (by simpa using hd) (leaves _ _)
    | empty | text | data | value => exact keeps_refuse _
    | notAllowed => exact keeps_refuse _

/-! ## States that differ in how they are stored -/

/-- Two states in which the same definitions are open, and which have all else in common. -/
structure Alike (s u : State) : Prop where
  checked : s.checked = u.checked
  active : s.active.Equiv u.active
  attributes : s.attributes = u.attributes
  alphabet : s.alphabet = u.alphabet

theorem relates_refuse {R : State → State → Prop} (broken : Option Restriction) :
    Relates R (refuse broken) (refuse broken) := by
  cases broken
  · exact relates_pure _
  · exact relates_throw _

theorem relates_located {R : State → State → Prop} {loc : Option Location} (h : Relates R step step') :
    Relates R (located loc step) (located loc step') := by
  intro s u hr
  refine ⟨?_, (h s u hr).2⟩
  change (step.runFrom s).1.mapError _ = (step'.runFrom u).1.mapError _
  rw [(h s u hr).1]

theorem relates_isolated {attributes : Option AttributeNames} {alphabet : Option Alphabet}
    (h : Relates Alike step step') : Relates Alike (isolated attributes alphabet step)
      (isolated attributes alphabet step') := by
  intro s u hr
  obtain ⟨ha, ht⟩ := h { s with attributes, alphabet } { u with attributes, alphabet } ⟨hr.checked, hr.active, rfl, rfl⟩
  exact ⟨ha, ht.checked, ht.active, hr.attributes, hr.alphabet⟩

theorem relates_side (h : Relates Alike step step') : Relates Alike (side step) (side step') := by
  intro s u hr
  obtain ⟨ha, ht⟩ := h { s with alphabet := some .empty } { u with alphabet := some .empty }
    ⟨hr.checked, hr.active, hr.attributes, rfl⟩
  have answer (step : Check) (s : State) : ((side step).runFrom s).1 =
      (step.runFrom { s with alphabet := some .empty }).1.map
        fun _ => (step.runFrom { s with alphabet := some .empty }).2.alphabet.getD .empty := rfl
  refine ⟨?_, ht.checked, ht.active, ht.attributes, hr.alphabet⟩
  rw [answer, answer, ha, ht.alphabet]

theorem relates_inside {d : DefinitionId} (h : Relates Alike step step') :
    Relates Alike (inside d step) (inside d step') := by
  intro s u hr
  obtain ⟨ha, ht⟩ := h { s with active := s.active.insert d } { u with active := u.active.insert d }
    ⟨hr.checked, hr.active.insert d, hr.attributes, hr.alphabet⟩
  exact ⟨ha, ht.checked, ht.active.erase d, ht.attributes, ht.alphabet⟩

theorem relates_onAttributes {change : AttributeNames → AttributeNames} :
    Relates Alike (onAttributes change) (onAttributes change) :=
  relates_modify fun _ _ hr => ⟨hr.checked, hr.active, congrArg (Option.map change) hr.attributes, hr.alphabet⟩

theorem relates_onAlphabet {change : Alphabet → Alphabet} : Relates Alike (onAlphabet change) (onAlphabet change) :=
  relates_modify fun _ _ hr => ⟨hr.checked, hr.active, hr.attributes, congrArg (Option.map change) hr.alphabet⟩

theorem relates_addAttribute {names : NameClass} : Relates Alike (addAttribute names) (addAttribute names) := by
  refine relates_get_then fun s u hr => ?_
  rw [hr.attributes]
  cases u.attributes with
  | none => exact relates_pure _
  | some attributes =>
    dsimp only
    cases attributes.add names with
    | ok after => exact relates_modify fun _ _ hr => ⟨hr.checked, hr.active, rfl, hr.alphabet⟩
    | error v => exact relates_throw _

theorem relates_enter {e : ElementId} : Relates Alike
    (modify fun s => { s with checked := s.checked.insert e } : Check)
    (modify fun s => { s with checked := s.checked.insert e }) :=
  relates_modify fun _ _ hr => ⟨congrArg (·.insert e) hr.checked, hr.active, hr.attributes, hr.alphabet⟩

theorem check_alike (g : Grammar) (limit levels : Nat) (p : PatternId) (place : Place) :
    Relates Alike (check g limit levels p place) (check g limit levels p place) := by
  induction levels generalizing p place with
  | zero =>
    rw [check_zero]
    exact relates_throw _
  | succ levels ih =>
    rw [check]
    cases hp : g.pattern p with
    | element e =>
      refine relates_onAlphabet.bind fun _ => relates_get_then fun s u hr => ?_
      rw [hr.checked]
      split
      · exact relates_pure _
      · exact relates_located ((relates_refuse _).bind fun _ => relates_enter.bind fun _ => relates_isolated (ih _ _))
    | attr names value annotations =>
      exact relates_located ((relates_refuse _).bind fun _ => (relates_refuse _).bind fun _ =>
        relates_addAttribute.bind fun _ => relates_isolated (ih _ _))
    | dataExcept type params except =>
      exact (relates_refuse _).bind fun _ => relates_located (relates_isolated (ih _ _))
    | list operand => exact (relates_refuse _).bind fun _ => relates_located (relates_isolated (ih _ _))
    | choice left right =>
      exact relates_onAttributes.bind fun _ => (ih _ _).bind fun _ => relates_onAttributes.bind fun _ =>
        (ih _ _).bind fun _ => relates_onAttributes
    | group left right =>
      exact (relates_refuse _).bind fun _ => (ih _ _).bind fun _ => (ih _ _).bind fun _ => relates_refuse _
    | interleave left right =>
      exact (relates_refuse _).bind fun _ => (relates_side (ih _ _)).bind fun _ => (relates_side (ih _ _)).bind fun _ =>
        (relates_refuse _).bind fun _ => relates_onAlphabet.bind fun _ => (relates_refuse _).bind fun _ =>
        relates_refuse _
    | oneOrMore operand => exact (relates_refuse _).bind fun _ => (ih _ _).bind fun _ => relates_refuse _
    | ref d =>
      dsimp only
      cases g.body? d with
      | none => exact relates_pure _
      | some body =>
        refine relates_get_then fun s u hr => ?_
        rw [hr.active.contains_eq]
        split
        · exact relates_pure _
        · exact relates_inside (ih _ _)
    | empty | text | data | value => exact relates_refuse _
    | notAllowed => exact relates_refuse _

end RelaxNg.RestrictionCheck
