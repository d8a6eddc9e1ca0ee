import RelaxNg.Grammar
import Mathlib.Data.List.Basic

/-!
# Trees of patterns

A pattern whose operands have smaller numbers than itself is the top of a finite tree (`Grammar.tree`), in which
elements and references are leaves. The simplifications of a draft are functions of trees: `Tree.either`,
`Tree.both`, `Tree.repeated`, `Tree.listed`, `Tree.excepted`, `Tree.attributed`. `Tree.rebuild` puts a tree together from
other operands, and leaves it alone if they are the ones it has.
-/

namespace RelaxNg

/-- What a pattern is made of, down to elements and references. -/
inductive Tree where
  | empty
  | notAllowed
  | text
  | choice (left right : Tree)
  | group (left right : Tree)
  | interleave (left right : Tree)
  | oneOrMore (operand : Tree)
  | list (operand : Tree)
  | data (type : Datatype) (params : List Param)
  | dataExcept (type : Datatype) (params : List Param) (except : Tree)
  | value (type : Datatype) (value : String)
  | attr (names : NameClass) (value : Tree) (annotations : Annotations)
  | element (element : ElementId)
  | ref (definition : DefinitionId)
deriving DecidableEq, Inhabited

/-- The tree of a pattern over the trees of its operands. -/
def Pattern.tree (f : PatternId → Tree) : Pattern → Tree
  | empty => .empty
  | notAllowed => .notAllowed
  | text => .text
  | choice left right => .choice (f left) (f right)
  | group left right => .group (f left) (f right)
  | interleave left right => .interleave (f left) (f right)
  | oneOrMore operand => .oneOrMore (f operand)
  | list operand => .list (f operand)
  | data type params => .data type params
  | dataExcept type params operand => .dataExcept type params (f operand)
  | value type v => .value type v
  | attr names operand annotations => .attr names (f operand) annotations
  | element e => .element e
  | ref d => .ref d

theorem Pattern.tree_congr {f f' : PatternId → Tree} {pattern : Pattern} (h : ∀ q ∈ pattern.operands, f q = f' q) :
    pattern.tree f = pattern.tree f' := by
  cases pattern <;> simp_all [tree, operands]

theorem Pattern.tree_inj {f : PatternId → Tree} {a b : Pattern}
    (h : ∀ p ∈ a.operands, ∀ q ∈ b.operands, f p = f q → p = q) (hab : a.tree f = b.tree f) : a = b := by
  cases a <;> cases b <;> simp only [tree, reduceCtorEq] at hab <;> simp_all [operands]

/-- The tree of a pattern of a grammar. An operand without a smaller number counts as accepting nothing. -/
def Grammar.tree (g : Grammar) (p : PatternId) : Tree :=
  (g.pattern p).tree fun q => if _ : q.index < p.index then g.tree q else .notAllowed
termination_by p.index

namespace Tree

/-! ## Parts -/

def operands : Tree → List Tree
  | choice left right | group left right | interleave left right => [left, right]
  | oneOrMore operand | list operand => [operand]
  | dataExcept _ _ operand => [operand]
  | attr _ operand _ => [operand]
  | empty | notAllowed | text | data _ _ | value _ _ | element _ | ref _ => []

theorem operands_pattern_tree (f : PatternId → Tree) (pattern : Pattern) :
    (pattern.tree f).operands = pattern.operands.map f := by
  cases pattern <;> simp [Pattern.tree, Pattern.operands, operands]

def nullable : Tree → Bool
  | empty | text => true
  | choice left right => left.nullable || right.nullable
  | group left right | interleave left right => left.nullable && right.nullable
  | oneOrMore operand => operand.nullable
  | notAllowed | list _ | data _ _ | dataExcept _ _ _ | value _ _ | attr _ _ _ | element _ | ref _ => false

def contentType : Tree → ContentType
  | text => .mixed
  | choice left right | group left right | interleave left right => left.contentType.combine right.contentType
  | oneOrMore operand => operand.contentType
  | list _ | data _ _ | dataExcept _ _ _ | value _ _ => .simple
  | element _ => .complex
  | empty | notAllowed | attr _ _ _ | ref _ => .empty

/-- A tree is part of another, or the whole of it. -/
inductive Part : Tree → Tree → Prop
  | refl (t : Tree) : Part t t
  | operand {s t o : Tree} (h : o ∈ t.operands) (hs : Part s o) : Part s t

theorem Part.trans {s t u : Tree} (h : Part s t) (h' : Part t u) : Part s u := by
  induction h' with
  | refl => exact h
  | operand ho _ ih => exact .operand ho ih

/-- Whether a tree stands for something outside of it, an element or a definition. -/
def isLink : Tree → Bool
  | element _ | ref _ => true
  | _ => false

def Lacks (t s : Tree) : Prop := ¬ Part s t

/-- No part is a reference. -/
def RefFree (t : Tree) : Prop := ∀ f, t.Lacks (.ref f)

theorem Lacks.of_operand {s t o : Tree} (h : t.Lacks s) (ho : o ∈ t.operands) : o.Lacks s :=
  fun hs => h (.operand ho hs)

theorem lacks_of_operands {s t : Tree} (ht : t ≠ s) (h : ∀ o ∈ t.operands, o.Lacks s) : t.Lacks s := by
  intro hs
  cases hs with
  | refl => exact ht rfl
  | operand ho hs => exact h _ ho hs

theorem RefFree.of_operand {t o : Tree} (h : t.RefFree) (ho : o ∈ t.operands) : o.RefFree :=
  fun f => (h f).of_operand ho

theorem RefFree.of_part {s t : Tree} (h : t.RefFree) (hs : Part s t) : s.RefFree := fun f hf => h f (hf.trans hs)

theorem refFree_of_operands {t : Tree} (ht : ∀ f, t ≠ .ref f) (h : ∀ o ∈ t.operands, o.RefFree) : t.RefFree :=
  fun f => lacks_of_operands (ht f) fun o ho => h o ho f

/-! ## Simplification -/

def alternatives : Tree → List Tree
  | choice left right => left.alternatives ++ right.alternatives
  | t => [t]

/-- Adds those of some alternatives that are not known. -/
def addAlternatives (result : Tree) (known : List Tree) : List Tree → Tree
  | [] => result
  | t :: rest =>
    if t ∈ known then addAlternatives result known rest
    else addAlternatives (.choice result t) (t :: known) rest

/-- One of two trees, simplified. -/
def either (left right : Tree) : Tree :=
  if left = right ∨ right = notAllowed then left
  else if left = notAllowed then right
  else if left = empty ∧ right.nullable then right
  else if right = empty ∧ left.nullable then left
  else addAlternatives left left.alternatives right.alternatives

def both (together : Tree → Tree → Tree) (left right : Tree) : Tree :=
  if left = empty then right
  else if right = empty then left
  else if left = notAllowed ∨ right = notAllowed then notAllowed
  else together left right

def repeated (t : Tree) : Tree :=
  if t = empty ∨ t = notAllowed then t
  else match t with
    | oneOrMore _ => t
    | _ => oneOrMore t

def listed (t : Tree) : Tree := if t = notAllowed then t else list t

def excepted (t : Tree) (type : Datatype) (params : List Param) : Tree :=
  if t = notAllowed then data type params else dataExcept type params t

def attributed (t : Tree) (names : NameClass) (annotations : Annotations) : Tree :=
  if t = notAllowed then t else attr names t annotations

/-- A tree with other operands, simplified. It is the same one if the operands are, or if there are more or fewer of
them. -/
def rebuild (t : Tree) (operands : List Tree) : Tree :=
  if t.operands = operands then t
  else match t, operands with
    | choice _ _, [left, right] => either left right
    | group _ _, [left, right] => both group left right
    | interleave _ _, [left, right] => both interleave left right
    | oneOrMore _, [operand] => repeated operand
    | list _, [operand] => listed operand
    | dataExcept type params _, [operand] => operand.excepted type params
    | attr names _ annotations, [operand] => operand.attributed names annotations
    | _, _ => t

theorem rebuild_operands (t : Tree) : t.rebuild t.operands = t := by
  unfold rebuild
  exact if_pos rfl

/-- What a tree is put together to from other operands. -/
inductive Rebuilt : Tree → List Tree → Tree → Prop
  | same (t : Tree) : Rebuilt t t.operands t
  | choice (left right l r : Tree) : Rebuilt (choice left right) [l, r] (either l r)
  | group (left right l r : Tree) : Rebuilt (group left right) [l, r] (both .group l r)
  | interleave (left right l r : Tree) : Rebuilt (interleave left right) [l, r] (both .interleave l r)
  | oneOrMore (operand o : Tree) : Rebuilt (oneOrMore operand) [o] o.repeated
  | list (operand o : Tree) : Rebuilt (list operand) [o] o.listed
  | dataExcept (type : Datatype) (params : List Param) (operand o : Tree) :
      Rebuilt (dataExcept type params operand) [o] (o.excepted type params)
  | attr (names : NameClass) (operand : Tree) (annotations : Annotations) (o : Tree) :
      Rebuilt (attr names operand annotations) [o] (o.attributed names annotations)

theorem rebuilt {t : Tree} {outcomes : List Tree} (hl : outcomes.length = t.operands.length) :
    Rebuilt t outcomes (t.rebuild outcomes) := by
  unfold rebuild
  split
  · next h =>
    subst h
    exact .same t
  · next h =>
    split
    · exact .choice ..
    · exact .group ..
    · exact .interleave ..
    · exact .oneOrMore ..
    · exact .list ..
    · exact .dataExcept ..
    · exact .attr ..
    · cases t <;> simp_all [operands, List.length_eq_two, List.length_eq_one_iff]

/-! ## Parts of simplified trees -/

theorem part_addAlternatives (t : Tree) (known rest : List Tree) : Part t (t.addAlternatives known rest) := by
  induction rest generalizing t known with
  | nil => exact .refl t
  | cons a rest ih =>
    unfold addAlternatives
    split
    · exact ih t known
    · have hchoice : Part t (.choice t a) := .operand (by simp [operands]) (.refl t)
      exact hchoice.trans (ih _ _)

theorem part_either_empty {t : Tree} (h : t ≠ .notAllowed) : Part t (t.either .empty) := by
  by_cases he : t = .empty
  · have hself : either .empty .empty = .empty := if_pos (.inl rfl)
    rw [he, hself]
    exact .refl _
  · unfold either
    rw [if_neg (by simp [he]), if_neg h, if_neg fun h => he h.1]
    split
    · exact .refl t
    · exact part_addAlternatives _ _ _

theorem repeated_ne_notAllowed {t : Tree} (h : t ≠ .notAllowed) : t.repeated ≠ .notAllowed := by
  unfold repeated
  split_ifs
  · exact h
  · split <;> simp

theorem part_of_mem_alternatives {s t : Tree} (h : s ∈ t.alternatives) : Part s t := by
  induction t with
  | choice left right ihl ihr =>
    rw [alternatives, List.mem_append] at h
    rcases h with h | h
    · exact .operand (by simp [operands]) (ihl h)
    · exact .operand (by simp [operands]) (ihr h)
  | _ =>
    simp only [alternatives, List.mem_singleton] at h
    exact h ▸ .refl _

theorem Lacks.alternatives {s t : Tree} (h : t.Lacks s) : ∀ a ∈ t.alternatives, a.Lacks s :=
  fun _ ha hs => h (hs.trans (part_of_mem_alternatives ha))

section Lacks

variable {s t u : Tree} (hs : s.isLink = true)

include hs

theorem ne_of_isLink (ht : t.isLink = false) : t ≠ s := by
  rintro rfl
  simp [ht] at hs

theorem Lacks.addAlternatives {rest : List Tree} (h : t.Lacks s) (hr : ∀ a ∈ rest, a.Lacks s) (known : List Tree) :
    (t.addAlternatives known rest).Lacks s := by
  induction rest generalizing t known with
  | nil => exact h
  | cons a rest ih =>
    simp only [List.forall_mem_cons] at hr
    rw [Tree.addAlternatives]
    split
    · exact ih h hr.2 _
    · refine ih (lacks_of_operands (ne_of_isLink hs rfl) ?_) hr.2 _
      simp [operands, h, hr.1]

theorem Lacks.either (h : t.Lacks s) (h' : u.Lacks s) : (t.either u).Lacks s := by
  unfold Tree.either
  split_ifs
  · exact h
  · exact h'
  · exact h'
  · exact h
  · exact h.addAlternatives hs h'.alternatives _

theorem Lacks.both {together : Tree → Tree → Tree} (h : t.Lacks s) (h' : u.Lacks s)
    (ht : (together t u).Lacks s) : (both together t u).Lacks s := by
  unfold Tree.both
  split_ifs
  · exact h'
  · exact h
  · exact lacks_of_operands (ne_of_isLink hs rfl) (by simp [operands])
  · exact ht

/-- What is put together from other operands has no links but theirs. -/
theorem Lacks.rebuild {outcomes : List Tree} (ht : t ≠ s) (hl : outcomes.length = t.operands.length)
    (h : ∀ u ∈ outcomes, u.Lacks s) : (t.rebuild outcomes).Lacks s := by
  have of {v : Tree} (hv : v.isLink = false) (hv' : ∀ o ∈ v.operands, o ∈ outcomes) : v.Lacks s :=
    lacks_of_operands (ne_of_isLink hs hv) fun o ho => h o (hv' o ho)
  have hr := rebuilt hl
  generalize t.rebuild outcomes = v at hr
  -- Simplifying drops operands or keeps them; it adds nothing that is a link.
  rcases hr with _ | _ | _ | _ | _ | _ | _ | _
  · exact lacks_of_operands ht h
  · exact (h _ (by simp)).either hs (h _ (by simp))
  · exact (h _ (by simp)).both hs (h _ (by simp)) (of rfl (by simp [operands]))
  · exact (h _ (by simp)).both hs (h _ (by simp)) (of rfl (by simp [operands]))
  · unfold repeated
    split_ifs
    · exact h _ (by simp)
    · split
      · exact h _ (by simp)
      · exact of rfl (by simp [operands])
  · unfold listed
    split_ifs
    · exact h _ (by simp)
    · exact of rfl (by simp [operands])
  · unfold excepted
    split_ifs
    · exact of rfl (by simp [operands])
    · exact of rfl (by simp [operands])
  · unfold attributed
    split_ifs
    · exact h _ (by simp)
    · exact of rfl (by simp [operands])

end Lacks

end Tree

end RelaxNg
