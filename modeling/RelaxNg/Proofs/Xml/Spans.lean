import Mathlib.Data.List.TakeDrop
import Mathlib.Data.List.TakeWhile
import RelaxNg.Xml.Name

/-!
# Reading up to a mark

Characters of one class are read up to the first that is not of the class (`span_append`). So what stands before a mark
is read up to the mark that it does not hold: a text in quotes up to its end, and a label up to the colon behind it
(`splitColon_labelled`).
-/

namespace RelaxNg.Xml

/-- What follows some characters of a class is of another class, if there is anything. -/
def EndsBefore (belongs : Char → Bool) (rest : List Char) : Prop := ∀ c ∈ rest.head?, belongs c = false

theorem endsBefore_nil (belongs : Char → Bool) : EndsBefore belongs [] := by
  simp [EndsBefore]

theorem endsBefore_cons {belongs : Char → Bool} {c : Char} {rest : List Char} :
    EndsBefore belongs (c :: rest) ↔ belongs c = false := by
  simp [EndsBefore]

section

variable {belongs : Char → Bool} {first rest : List Char} (hfirst : ∀ c ∈ first, belongs c = true)
  (hrest : EndsBefore belongs rest)
include hfirst hrest

theorem takeWhile_append_endsBefore : (first ++ rest).takeWhile belongs = first := by
  rw [List.takeWhile_append_of_pos hfirst]
  cases rest with
  | nil => simp
  | cons c rest => simp [endsBefore_cons.1 hrest]

theorem dropWhile_append_endsBefore : (first ++ rest).dropWhile belongs = rest := by
  rw [List.dropWhile_append_of_pos hfirst]
  cases rest with
  | nil => rfl
  | cons c rest => simp [endsBefore_cons.1 hrest]

theorem span_append : (first ++ rest).span belongs = (first, rest) := by
  rw [List.span_eq_takeWhile_dropWhile, takeWhile_append_endsBefore hfirst hrest,
    dropWhile_append_endsBefore hfirst hrest]

end

variable {mark : Char} {text : List Char}

theorem bne_of_not_mem (h : mark ∉ text) : ∀ c ∈ text, (c != mark) = true := by
  intro c hc
  rw [bne_iff_ne]
  rintro rfl
  exact h hc

theorem span_of_not_mem (h : mark ∉ text) : text.span (· != mark) = (text, []) := by
  have hspan := span_append (bne_of_not_mem h) (endsBefore_nil _)
  rwa [List.append_nil] at hspan

theorem span_mark (h : mark ∉ text) (rest : List Char) :
    (text ++ mark :: rest).span (· != mark) = (text, mark :: rest) :=
  span_append (bne_of_not_mem h) (endsBefore_cons.2 (by simp))

/-! ## Names with a label -/

theorem splitColon_of_not_mem {name : String} (h : ':' ∉ name.toList) : splitColon name = (none, name) := by
  unfold splitColon
  rw [span_of_not_mem h]

theorem splitColon_labelled {label : String} (localName : String) (h : ':' ∉ label.toList) :
    splitColon (label ++ ":" ++ localName) = (some label, localName) := by
  have hlist : (label ++ ":" ++ localName).toList = label.toList ++ ':' :: localName.toList := by simp
  unfold splitColon
  rw [hlist, span_mark h]
  simp

end RelaxNg.Xml
