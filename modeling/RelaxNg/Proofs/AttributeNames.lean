import RelaxNg.NameClass.AttributeNames
import Mathlib.Data.List.Basic

/-!
# Attributes that can stand beside

A class that is added to `AttributeNames` is compared with the classes before it, except those in earlier branches of
open choices. `AttributeNames.visible` lists what it is compared with. Classes that are appended become visible; those
of a branch are hidden when the next branch begins, and all of them are visible again when the choice is left. The
numbers in the open choices have to be in order for this (`AttributeNames.WellFormed`).
-/

namespace RelaxNg.AttributeNames

/-- The classes before `last` that are in no earlier branch of some open choices. -/
def visibleBefore (classes : List NameClass) : List OpenChoice → Nat → List NameClass
  | [], last => classes.take last
  | c :: outer, last => visibleBefore classes outer c.beforeChoice ++ (classes.take last).drop c.beforeBranch

/-- The classes that are in no earlier branch of the open choices. -/
def visible (names : AttributeNames) : List NameClass := visibleBefore names.classes names.choices names.classes.length

/-- Open choices are told by numbers in order, none above `last`. -/
def Ordered : List OpenChoice → Nat → Prop
  | [], _ => True
  | c :: outer, last => c.beforeChoice ≤ c.beforeBranch ∧ c.beforeBranch ≤ last ∧ Ordered outer c.beforeChoice

def WellFormed (names : AttributeNames) : Prop := Ordered names.choices names.classes.length

def append (names : AttributeNames) (added : List NameClass) : AttributeNames :=
  { names with classes := names.classes ++ added }

variable {names names' : AttributeNames} {nc : NameClass} {choices : List OpenChoice} {last : Nat}
  {added added' : List NameClass} {v : Violation}

@[simp] theorem append_nil : names.append [] = names := by simp [append]

@[simp] theorem append_append : (names.append added).append added' = names.append (added ++ added') := by simp [append]

theorem conflicts_iff :
    names.conflicts nc choices last = true ↔
      ∃ seen ∈ visibleBefore names.classes choices last, seen.overlaps nc = true := by
  induction choices generalizing last with
  | nil => simp [conflicts, overlapsBetween, visibleBefore]
  | cons c outer ih =>
    simp only [conflicts, overlapsBetween, visibleBefore, Bool.or_eq_true, ih, List.any_eq_true, List.mem_append]
    constructor
    · rintro (⟨seen, hs, ho⟩ | ⟨seen, hs, ho⟩)
      · exact ⟨seen, .inr hs, ho⟩
      · exact ⟨seen, .inl hs, ho⟩
    · rintro ⟨seen, hs | hs, ho⟩
      · exact .inr ⟨seen, hs, ho⟩
      · exact .inl ⟨seen, hs, ho⟩

theorem add_ok_iff : names.add nc = .ok names' ↔
    (∀ seen ∈ names.visible, seen.overlaps nc = false) ∧ names' = names.append [nc] := by
  unfold add
  split
  · next h =>
    obtain ⟨seen, hs, ho⟩ := conflicts_iff.1 h
    refine iff_of_false (by simp) fun hno => ?_
    rw [hno.1 seen hs] at ho
    cases ho
  · next h =>
    rw [Bool.not_eq_true, ← Bool.not_eq_true] at h
    have hno (seen) (hs : seen ∈ names.visible) : seen.overlaps nc = false := by
      by_contra ho
      exact h (conflicts_iff.2 ⟨seen, hs, by simpa using ho⟩)
    constructor
    · rintro ⟨⟩
      exact ⟨hno, rfl⟩
    · rintro ⟨-, rfl⟩
      rfl

theorem overlaps_of_add_error (h : names.add nc = .error v) : ∃ seen ∈ names.visible, seen.overlaps nc = true := by
  unfold add at h
  split at h
  · next hc => exact conflicts_iff.1 hc
  · cases h

/-! ## Appending -/

theorem Ordered.mono (h : Ordered choices last) {later : Nat} (hl : last ≤ later) : Ordered choices later := by
  cases choices with
  | nil => trivial
  | cons c outer => exact ⟨h.1, Nat.le_trans h.2.1 hl, h.2.2⟩

theorem WellFormed.append (h : names.WellFormed) (added : List NameClass) : (names.append added).WellFormed :=
  Ordered.mono h (by simp [AttributeNames.append])

/-- What is appended is not before a number that is no greater than the number of classes. -/
theorem visibleBefore_append {classes : List NameClass} (h : Ordered choices last) (hl : last ≤ classes.length) :
    visibleBefore (classes ++ added) choices last = visibleBefore classes choices last := by
  induction choices generalizing last with
  | nil => simp [visibleBefore, List.take_append_of_le_length hl]
  | cons c outer ih =>
    obtain ⟨hchoice, hbranch, houter⟩ := h
    rw [visibleBefore, visibleBefore, ih houter (by omega), List.take_append_of_le_length hl]

theorem visible_append (h : names.WellFormed) : (names.append added).visible = names.visible ++ added := by
  unfold WellFormed at h
  simp only [visible, append]
  cases hc : names.choices with
  | nil => rw [visibleBefore, visibleBefore, List.take_length, List.take_length]
  | cons c outer =>
    rw [hc] at h
    obtain ⟨hchoice, hbranch, houter⟩ := h
    rw [visibleBefore, visibleBefore, visibleBefore_append houter (by omega), List.take_length, List.take_length,
      List.drop_append_of_le_length hbranch, List.append_assoc]

/-! ## Choices -/

theorem visible_openChoice : names.openChoice.visible = names.visible := by
  simp only [visible, openChoice, visibleBefore, List.drop_length, List.take_length, List.append_nil]

theorem WellFormed.openChoice (h : names.WellFormed) : names.openChoice.WellFormed := ⟨Nat.le_refl _, Nat.le_refl _, h⟩

/-- The next branch of a choice, behind the classes of the earlier ones. -/
def branch (names : AttributeNames) (added : List NameClass) : AttributeNames :=
  (names.openChoice.append added).nextBranch

theorem WellFormed.branch (h : names.WellFormed) (added : List NameClass) : (names.branch added).WellFormed := by
  refine ⟨?_, Nat.le_refl _, h⟩
  simp [AttributeNames.append, AttributeNames.openChoice]

theorem visible_branch (h : names.WellFormed) : (names.branch added).visible = names.visible := by
  have hbefore := @visibleBefore_append _ _ added _ h (Nat.le_refl names.classes.length)
  simp only [visible, branch, nextBranch, openChoice, append, visibleBefore, List.take_length, List.drop_length,
    List.append_nil]
  exact hbefore

theorem closeChoice_branch : ((names.branch added).append added').closeChoice = names.append (added ++ added') := by
  simp [branch, nextBranch, openChoice, append, closeChoice]

end RelaxNg.AttributeNames
