import Mathlib.Data.List.Induction
import RelaxNg.Location

/-!
# Locations of positions

The positions of a text are the byte offsets between its characters. Each has a location of its own: the line tells the
line feeds before it, and from the beginning of that line it is reached over as many characters as the column tells
(`Location.ofOffset_exact`). Locations are in the order of the positions, because every character moves a location on
(`Location.before_advance`).
-/

namespace RelaxNg.Location

/-! ## The order of locations -/

/-- On an earlier line, or on the same line in an earlier column. -/
def Before (a b : Location) : Prop := a.line < b.line ∨ a.line = b.line ∧ a.column < b.column

variable {a b c : Location} {source : Option String}

theorem Before.trans (hab : a.Before b) (hbc : b.Before c) : a.Before c := by
  unfold Before at *
  omega

theorem not_before_self (a : Location) : ¬ a.Before a := by
  unfold Before
  omega

theorem before_advance (a : Location) (c : Char) : a.Before (a.advance c) := by
  unfold advance
  split
  · exact .inl (Nat.lt_succ_self _)
  · exact .inr ⟨rfl, Nat.lt_succ_self _⟩

theorem before_foldl_advance {chars : List Char} (hne : chars ≠ []) (a : Location) :
    a.Before (chars.foldl advance a) := by
  induction chars generalizing a with
  | nil => exact absurd rfl hne
  | cons c rest ih =>
    by_cases hrest : rest = []
    · subst hrest
      exact before_advance a c
    · exact (before_advance a c).trans (ih hrest _)

/-! ## Lines -/

/-- The number of characters in the first lines of a text, their line feeds included. -/
def charsInLines : (lines : Nat) → List Char → Nat
  | 0, _ => 0
  | _ + 1, [] => 0
  | lines + 1, c :: rest => charsInLines (if c = '\n' then lines else lines + 1) rest + 1

/-- Where a line begins. -/
def lineStart (text : String) (line : Nat) : text.Pos := text.startPos.nextn (charsInLines (line - 1) text.toList)

/-- The position of a location: from the beginning of its line on, over the characters before its column. -/
def positionIn (text : String) (location : Location) : text.Pos :=
  (lineStart text location.line).nextn (location.column - 1)

/-- Whole lines: there are none, or the last one ends, too. -/
def WholeLines (chars : List Char) : Prop := chars = [] ∨ ∃ before, chars = before ++ ['\n']

theorem WholeLines.of_cons {chars : List Char} {c : Char} (h : WholeLines (c :: chars)) : WholeLines chars := by
  rcases h with h | ⟨before, h⟩
  · cases h
  · cases before with
    | nil =>
      cases h
      exact .inl rfl
    | cons d before =>
      cases h
      exact .inr ⟨before, rfl⟩

theorem WholeLines.count_ne_zero {chars : List Char} (h : WholeLines chars) (hne : chars ≠ []) :
    chars.count '\n' ≠ 0 := by
  rcases h with rfl | ⟨before, rfl⟩
  · exact absurd rfl hne
  · simp

theorem charsInLines_append {head : List Char} (h : WholeLines head) (rest : List Char) :
    charsInLines (head.count '\n') (head ++ rest) = head.length := by
  induction head with
  | nil => simp [charsInLines]
  | cons c head ih =>
    by_cases hc : c = '\n'
    · subst hc
      simp [charsInLines, ih h.of_cons]
    · have hcount : (c :: head).count '\n' = head.count '\n' := List.count_cons_of_ne hc
      obtain ⟨lines, hlines⟩ := Nat.exists_eq_succ_of_ne_zero (h.count_ne_zero (by simp))
      rw [hlines, List.cons_append, charsInLines, if_neg hc, List.length_cons, ← ih h.of_cons, ← hcount, hlines]

/-! ## The location behind some characters -/

theorem afterChars_append (source : Option String) (chars more : List Char) :
    afterChars source (chars ++ more) = more.foldl advance (afterChars source chars) := List.foldl_append

/-- The location behind some characters tells the lines before it and the characters of its own line. -/
theorem exists_afterChars (source : Option String) (chars : List Char) : ∃ head last, chars = head ++ last ∧
    WholeLines head ∧ '\n' ∉ last ∧ afterChars source chars = ⟨source, 1 + head.count '\n', 1 + last.length⟩ := by
  induction chars using List.reverseRecOn with
  | nil => exact ⟨[], [], rfl, .inl rfl, by simp, rfl⟩
  | append_singleton chars c ih =>
    obtain ⟨head, last, rfl, hhead, hlast, hafter⟩ := ih
    rw [afterChars_append, hafter]
    by_cases hc : c = '\n'
    · subst hc
      refine ⟨head ++ last ++ ['\n'], [], by simp, .inr ⟨_, rfl⟩, by simp, ?_⟩
      simp [advance, List.count_eq_zero.2 hlast, Nat.add_assoc]
    · refine ⟨head, last ++ [c], by simp, hhead, by simp [hlast, Ne.symm hc], ?_⟩
      simp [advance, hc, Nat.add_assoc]

theorem utf8ByteSize_cons (c : Char) (rest : List Char) :
    (String.ofList (c :: rest)).utf8ByteSize = c.utf8Size + (String.ofList rest).utf8ByteSize := by
  rw [String.ofList_cons, String.utf8ByteSize_append, String.utf8ByteSize_singleton]

theorem before?_append (before after : List Char) :
    before? (before ++ after) (String.ofList before).utf8ByteSize = some before := by
  induction before with
  | nil => cases after <;> rfl
  | cons c before ih =>
    have hne : c.utf8Size + (String.ofList before).utf8ByteSize ≠ 0 := by
      have hpos := c.utf8Size_pos
      omega
    rw [utf8ByteSize_cons, List.cons_append, before?.eq_3 _ _ _ hne, if_pos (Nat.le_add_right _ _),
      Nat.add_sub_cancel_left, ih, Option.map_some]

variable {text : String} {p q : text.Pos} {before after : String}

theorem ofOffset_of_splits (h : p.Splits before after) :
    ofOffset source text p.offset.byteIdx = afterChars source before.toList := by
  have hoffset : p.offset.byteIdx = (String.ofList before.toList).utf8ByteSize := by
    rw [h.offset_eq_rawEndPos, String.ofList_toList, String.byteIdx_rawEndPos]
  have hlist : text.toList = before.toList ++ after.toList := by rw [h.eq_append, String.toList_append]
  rw [ofOffset, inChars, hlist, hoffset, before?_append, Option.getD_some]

theorem line_ofOffset (source : Option String) (p : text.Pos) :
    (ofOffset source text p.offset.byteIdx).line = 1 + (text.sliceTo p).copy.toList.count '\n' := by
  obtain ⟨head, last, hbefore, -, hlast, hafter⟩ := exists_afterChars source (text.sliceTo p).copy.toList
  rw [ofOffset_of_splits p.splits, hafter, hbefore, List.count_append, List.count_eq_zero.2 hlast, Nat.add_zero]

/-- Columns are counted from 1. -/
theorem column_ofOffset_pos (source : Option String) (p : text.Pos) :
    0 < (ofOffset source text p.offset.byteIdx).column := by
  obtain ⟨head, last, -, -, -, hafter⟩ := exists_afterChars source (text.sliceTo p).copy.toList
  rw [ofOffset_of_splits p.splits, hafter]
  exact Nat.add_pos_left Nat.one_pos _

theorem lineStart_splits {head rest : List Char} (htext : text.toList = head ++ rest) (h : WholeLines head) :
    (lineStart text (1 + head.count '\n')).Splits (String.ofList head) (String.ofList rest) := by
  have hsplits := text.splits_startPos.nextn (charsInLines (head.count '\n') text.toList)
  rw [htext, charsInLines_append h, List.take_left, List.drop_left] at hsplits
  rw [lineStart, Nat.add_sub_cancel_left, htext, charsInLines_append h]
  simpa using hsplits

/-- A position is found again from its location. -/
theorem positionIn_ofOffset (source : Option String) (p : text.Pos) :
    (ofOffset source text p.offset.byteIdx).positionIn text = p := by
  obtain ⟨before, after, hp⟩ : ∃ before after, p.Splits before after := ⟨_, _, p.splits⟩
  obtain ⟨head, last, hbefore, hhead, -, hafter⟩ := exists_afterChars source before.toList
  have htext : text.toList = head ++ (last ++ after.toList) := by
    rw [hp.eq_append, String.toList_append, hbefore, List.append_assoc]
  have hsplits := (lineStart_splits htext hhead).nextn last.length
  rw [String.toList_ofList, List.take_left, List.drop_left, ← String.ofList_append, ← hbefore, String.ofList_toList,
    String.ofList_toList] at hsplits
  rw [ofOffset_of_splits hp, hafter, positionIn, Nat.add_sub_cancel_left]
  exact hsplits.pos_eq hp

theorem before_of_lt (source : Option String) (h : p < q) :
    (ofOffset source text p.offset.byteIdx).Before (ofOffset source text q.offset.byteIdx) := by
  obtain ⟨between, hne, hbefore, -⟩ := (p.splits.lt_iff_exists_eq_append q.splits).1 h
  rw [ofOffset_of_splits p.splits, ofOffset_of_splits q.splits, hbefore, String.toList_append, afterChars_append]
  exact before_foldl_advance (by simpa using hne) _

theorem lt_iff_before (source : Option String) (p q : text.Pos) :
    p < q ↔ (ofOffset source text p.offset.byteIdx).Before (ofOffset source text q.offset.byteIdx) := by
  refine ⟨before_of_lt source, fun h => ?_⟩
  rcases Nat.lt_trichotomy p.offset.byteIdx q.offset.byteIdx with hlt | heq | hgt
  · exact hlt
  · rw [heq] at h
    exact absurd h (not_before_self _)
  · exact absurd ((before_of_lt source hgt).trans h) (not_before_self _)

/-- What the location of a position tells: the line, by the line feeds before it; the position itself, which is found
again behind as many characters of its line as the column tells, itself counted; and the order of the positions. -/
theorem ofOffset_exact (source : Option String) (text : String) (p : text.Pos) :
    (ofOffset source text p.offset.byteIdx).line = 1 + (text.sliceTo p).copy.toList.count '\n' ∧
    0 < (ofOffset source text p.offset.byteIdx).column ∧
    (ofOffset source text p.offset.byteIdx).positionIn text = p ∧
    ∀ q : text.Pos,
      p < q ↔ (ofOffset source text p.offset.byteIdx).Before (ofOffset source text q.offset.byteIdx) :=
  ⟨line_ofOffset source p, column_ofOffset_pos source p, positionIn_ofOffset source p, lt_iff_before source p⟩

/-- Before and behind a line feed and a character of two bytes. -/
example : [0, 1, 3, 4, 5].map (fun offset => ofOffset none "aé\nb" offset) =
    [⟨none, 1, 1⟩, ⟨none, 1, 2⟩, ⟨none, 1, 3⟩, ⟨none, 2, 1⟩, ⟨none, 2, 2⟩] := by
  decide

end RelaxNg.Location
