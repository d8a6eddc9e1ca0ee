import RelaxNg.Proofs.Tree
import Mathlib.Computability.Language
import Mathlib.Order.FixedPoints
import Mathlib.Order.CompletePartialOrder

/-!
# Languages

The language of a tree is a set of words of letters (`Tree.language`). A letter stands for a piece of text, an element,
an attribute or a value, and carries what is known of it; what an operand means is told by `sense`, and the words of a
reference by an assignment. Simplifying a tree does not change its language, under any assignment
(`language_either`, `language_both_group`, `language_both_interleave`, `language_repeated`, `language_listed`,
`language_excepted`, `language_attributed`).

The meaning of a tree (`Tree.meaning`) is its language where operands of letters mean their own languages, to a number
of levels, and references have the least languages that agree with the bodies of definitions.
-/

namespace RelaxNg

open Computability

/-! ## Shuffles -/

/-- The third list holds the items of the first two, each in order. -/
inductive Shuffle {α : Type} : List α → List α → List α → Prop
  | nil : Shuffle [] [] []
  | left (a : α) {u v w : List α} (h : Shuffle u v w) : Shuffle (a :: u) v (a :: w)
  | right (a : α) {u v w : List α} (h : Shuffle u v w) : Shuffle u (a :: v) (a :: w)

namespace Shuffle

variable {α : Type} {u v w : List α}

theorem nil_left (w : List α) : Shuffle [] w w := by
  induction w with
  | nil => exact .nil
  | cons a w ih => exact .right a ih

theorem nil_right (w : List α) : Shuffle w [] w := by
  induction w with
  | nil => exact .nil
  | cons a w ih => exact .left a ih

theorem eq_of_nil_left (h : Shuffle [] v w) : v = w := by
  induction w generalizing v with
  | nil => cases h; rfl
  | cons a w ih =>
    cases h with
    | right _ h => rw [ih h]

theorem eq_of_nil_right (h : Shuffle u [] w) : u = w := by
  induction w generalizing u with
  | nil => cases h; rfl
  | cons a w ih =>
    cases h with
    | left _ h => rw [ih h]

theorem mem_iff (h : Shuffle u v w) (a : α) : a ∈ w ↔ a ∈ u ∨ a ∈ v := by
  induction h with
  | nil => simp
  | left b _ ih => simp [ih, or_assoc]
  | right b _ ih => simp [ih, or_left_comm]

theorem append (u v : List α) : Shuffle u v (u ++ v) := by
  induction u with
  | nil => exact .nil_left v
  | cons a u ih => exact .left a ih

end Shuffle

/-- The words that two languages give when their words are mixed. -/
def shuffles {α : Type} (l m : Language α) : Language α := {w | ∃ u ∈ l, ∃ v ∈ m, Shuffle u v w}

section shuffles

variable {α : Type} {l l' m m' : Language α}

theorem mem_shuffles {w : List α} : w ∈ shuffles l m ↔ ∃ u ∈ l, ∃ v ∈ m, Shuffle u v w := Iff.rfl

theorem shuffles_mono (hl : l ≤ l') (hm : m ≤ m') : shuffles l m ≤ shuffles l' m' :=
  fun _ ⟨u, hu, v, hv, h⟩ => ⟨u, hl hu, v, hm hv, h⟩

theorem one_shuffles (m : Language α) : shuffles 1 m = m := by
  ext w
  rw [mem_shuffles]
  constructor
  · rintro ⟨u, rfl, v, hv, h⟩
    exact h.eq_of_nil_left ▸ hv
  · exact fun hw => ⟨[], rfl, w, hw, .nil_left w⟩

theorem shuffles_one (l : Language α) : shuffles l 1 = l := by
  ext w
  rw [mem_shuffles]
  constructor
  · rintro ⟨u, hu, v, rfl, h⟩
    exact h.eq_of_nil_right ▸ hu
  · exact fun hw => ⟨w, hw, [], rfl, .nil_right w⟩

theorem zero_shuffles (m : Language α) : shuffles 0 m = 0 := by
  ext w
  exact ⟨fun ⟨_, hu, _⟩ => hu.elim, fun h => h.elim⟩

theorem shuffles_zero (l : Language α) : shuffles l 0 = 0 := by
  ext w
  exact ⟨fun ⟨_, _, _, hv, _⟩ => hv.elim, fun h => h.elim⟩

end shuffles

/-! ## Letters and words -/

/-- A piece of content or an attribute, with what is known of it. `X` is what operands mean. -/
inductive Letter (X : Type) where
  | text
  | element (e : ElementId)
  | attr (names : NameClass) (annotations : Annotations) (operand : X)
  | list (operand : X)
  /-- A value of a datatype; `except` is what is excepted. -/
  | data (type : Datatype) (params : List Param) (except : X)
  | value (type : Datatype) (content : String)

/-- The one word of a letter, if a language has words at all. -/
def wordIf {α : Type} (l : Language α) (a : α) : Language α := {w | w = [a] ∧ l ≠ 0}

namespace Tree

variable {X : Type} (nothing : X) (sense : Tree → X)

/-- The words of a tree. Operands of letters mean what `sense` tells; `nothing` is what a tree without words means. -/
def language (refs : DefinitionId → Language (Letter X)) : Tree → Language (Letter X)
  | empty => 1
  | notAllowed => 0
  | text => {[.text]}∗
  | choice left right => left.language refs + right.language refs
  | group left right => left.language refs * right.language refs
  | interleave left right => shuffles (left.language refs) (right.language refs)
  | oneOrMore operand => operand.language refs * (operand.language refs)∗
  | list operand => wordIf (operand.language refs) (.list (sense operand))
  | data type params => {[.data type params nothing]}
  | dataExcept type params operand => {[.data type params (sense operand)]}
  | value type content => {[.value type content]}
  | attr names operand annotations => wordIf (operand.language refs) (.attr names annotations (sense operand))
  | element e => {[.element e]}
  | ref f => refs f

variable {nothing sense} {refs refs' : DefinitionId → Language (Letter X)} {s t : Tree}

theorem language_mono (h : refs ≤ refs') (t : Tree) :
    t.language nothing sense refs ≤ t.language nothing sense refs' := by
  have wordIf_mono {l l' : Language (Letter X)} (hl : l ≤ l') (a : Letter X) : wordIf l a ≤ wordIf l' a :=
    fun w hw => ⟨hw.1, fun h0 => hw.2 (le_antisymm (h0 ▸ hl) bot_le)⟩
  induction t with
  | choice left right ihl ihr => exact add_le_add ihl ihr
  | group left right ihl ihr => exact mul_le_mul' ihl ihr
  | interleave left right ihl ihr => exact shuffles_mono ihl ihr
  | oneOrMore operand ih => exact mul_le_mul' ih (kstar_mono ih)
  | list operand ih => exact wordIf_mono ih _
  | attr names operand annotations ih => exact wordIf_mono ih _
  | ref f => exact h f
  | _ => exact le_rfl

theorem nil_mem_language (h : t.nullable = true) : [] ∈ t.language nothing sense refs := by
  induction t with
  | empty => rfl
  | text => exact Language.nil_mem_kstar _
  | choice left right ihl ihr =>
    rw [nullable, Bool.or_eq_true] at h
    exact h.imp ihl ihr
  | group left right ihl ihr =>
    rw [nullable, Bool.and_eq_true] at h
    exact ⟨[], ihl h.1, [], ihr h.2, rfl⟩
  | interleave left right ihl ihr =>
    rw [nullable, Bool.and_eq_true] at h
    exact ⟨[], ihl h.1, [], ihr h.2, .nil⟩
  | oneOrMore operand ih => exact ⟨[], ih h, [], Language.nil_mem_kstar _, rfl⟩
  | _ => cases h

/-! ## Simplification -/

theorem language_alternatives (hs : s ∈ t.alternatives) :
    s.language nothing sense refs ≤ t.language nothing sense refs := by
  induction t with
  | choice left right ihl ihr =>
    rcases List.mem_append.1 hs with hs | hs
    · exact (ihl hs).trans le_sup_left
    · exact (ihr hs).trans le_sup_right
  | _ => exact (List.mem_singleton.1 hs) ▸ le_rfl

theorem language_addAlternatives {known rest : List Tree}
    (hk : ∀ k ∈ known, k.language nothing sense refs ≤ t.language nothing sense refs) :
    (t.addAlternatives known rest).language nothing sense refs =
      rest.foldr (fun s l => s.language nothing sense refs + l) 0 + t.language nothing sense refs := by
  induction rest generalizing t known with
  | nil => simp [addAlternatives]
  | cons s rest ih =>
    rw [addAlternatives, List.foldr_cons]
    split
    · next hs =>
      have hst := add_eq_right_iff_le.2 (hk s hs)
      rw [ih hk, add_comm (s.language nothing sense refs), add_assoc, hst]
    · have hk' (k) (hmem : k ∈ s :: known) :
          k.language nothing sense refs ≤ (choice t s).language nothing sense refs := by
        rcases List.mem_cons.1 hmem with rfl | hmem
        · exact le_sup_right
        · exact (hk k hmem).trans le_sup_left
      rw [ih hk', language]
      ac_rfl

theorem foldr_alternatives (t : Tree) :
    t.alternatives.foldr (fun s l => s.language nothing sense refs + l) 0 = t.language nothing sense refs := by
  have append (ts us : List Tree) : (ts ++ us).foldr (fun s l => s.language nothing sense refs + l) 0 =
      ts.foldr (fun s l => s.language nothing sense refs + l) 0 +
        us.foldr (fun s l => s.language nothing sense refs + l) 0 := by
    induction ts with
    | nil => simp
    | cons s ts ih => rw [List.cons_append, List.foldr_cons, ih, List.foldr_cons, add_assoc]
  induction t with
  | choice left right ihl ihr => rw [alternatives, append, ihl, ihr, language]
  | _ => simp [alternatives]

theorem one_le_iff {α : Type} {l : Language α} : 1 ≤ l ↔ [] ∈ l :=
  ⟨fun h => h rfl, fun h w hw => (show w = [] from hw) ▸ h⟩

theorem language_either (s t : Tree) :
    (s.either t).language nothing sense refs =
      s.language nothing sense refs + t.language nothing sense refs := by
  unfold either
  split_ifs with h₁ h₂ h₃ h₄
  · rcases h₁ with rfl | rfl
    · rw [add_idem]
    · exact (add_zero _).symm
  · rw [h₂]
    exact (zero_add _).symm
  · rw [h₃.1]
    exact (add_eq_right_iff_le.2 (one_le_iff.2 (nil_mem_language h₃.2))).symm
  · rw [h₄.1]
    exact (add_eq_left_iff_le.2 (one_le_iff.2 (nil_mem_language h₄.2))).symm
  · rw [language_addAlternatives fun k hk => language_alternatives hk, foldr_alternatives, add_comm]

theorem language_both_group (s t : Tree) :
    (both .group s t).language nothing sense refs =
      s.language nothing sense refs * t.language nothing sense refs := by
  unfold both
  split_ifs with h₁ h₂ h₃
  · rw [h₁]
    exact (one_mul _).symm
  · rw [h₂]
    exact (mul_one _).symm
  · rcases h₃ with rfl | rfl
    · exact (zero_mul _).symm
    · exact (mul_zero _).symm
  · rfl

theorem language_both_interleave (s t : Tree) :
    (both .interleave s t).language nothing sense refs =
      shuffles (s.language nothing sense refs) (t.language nothing sense refs) := by
  unfold both
  split_ifs with h₁ h₂ h₃
  · rw [h₁]
    exact (one_shuffles _).symm
  · rw [h₂]
    exact (shuffles_one _).symm
  · rcases h₃ with rfl | rfl
    · exact (zero_shuffles _).symm
    · exact (shuffles_zero _).symm
  · rfl

theorem repeat_repeat {α : Type} (l : Language α) : l * l∗ * (l * l∗)∗ = l * l∗ := by
  refine le_antisymm (mul_kstar_le_self ?_) ?_
  · calc l * l∗ * (l * l∗) = l * (l∗ * l * l∗) := by simp only [mul_assoc]
      _ ≤ l * (l∗ * l∗) := mul_le_mul_right (mul_le_mul_left kstar_mul_le_kstar _) _
      _ = l * l∗ := by rw [kstar_mul_kstar]
  · calc l * l∗ = l * l∗ * 1 := (mul_one _).symm
      _ ≤ l * l∗ * (l * l∗)∗ := mul_le_mul_right one_le_kstar _

theorem language_repeated (t : Tree) :
    t.repeated.language nothing sense refs =
      t.language nothing sense refs * (t.language nothing sense refs)∗ := by
  unfold repeated
  split_ifs with h
  · rcases h with rfl | rfl
    · exact ((one_mul _).trans kstar_one).symm
    · exact (zero_mul _).symm
  · split
    · exact (repeat_repeat _).symm
    · rfl

theorem language_listed (t : Tree) :
    t.listed.language nothing sense refs = wordIf (t.language nothing sense refs) (.list (sense t)) := by
  unfold listed
  split_ifs with h
  · subst h
    ext w
    exact ⟨fun hw => hw.elim, fun hw => (hw.2 rfl).elim⟩
  · rfl

theorem language_attributed (t : Tree) (names : NameClass) (annotations : Annotations) :
    (t.attributed names annotations).language nothing sense refs =
      wordIf (t.language nothing sense refs) (.attr names annotations (sense t)) := by
  unfold attributed
  split_ifs with h
  · subst h
    ext w
    exact ⟨fun hw => hw.elim, fun hw => (hw.2 rfl).elim⟩
  · rfl

theorem language_excepted (t : Tree) (type : Datatype) (params : List Param) (hn : sense .notAllowed = nothing) :
    (t.excepted type params).language nothing sense refs = {[.data type params (sense t)]} := by
  unfold excepted
  split_ifs with h
  · rw [h, hn]
    rfl
  · rfl

end Tree

/-! ## Meanings -/

/-- What trees can mean if the operands of letters are looked into so many levels deep. -/
def Meaning : Nat → Type
  | 0 => Unit
  | n + 1 => Language (Letter (Meaning n))

def Meaning.nothing : (n : Nat) → Meaning n
  | 0 => ()
  | n + 1 => (0 : Language (Letter (Meaning n)))

namespace Tree

variable {X : Type} (nothing : X) (sense : Tree → X) (bodies : DefinitionId → Option Tree)

/-- The languages of the bodies of definitions, under an assignment; a definition without a body has no words. -/
def bodyLanguages : (DefinitionId → Language (Letter X)) →o (DefinitionId → Language (Letter X)) where
  toFun refs f := (bodies f).elim 0 (language nothing sense refs)
  monotone' refs refs' h f := by
    beta_reduce
    cases bodies f with
    | none => exact bot_le
    | some b => exact language_mono h b

/-- What a tree means, so many levels deep: its words, where references have the least languages that agree with the
bodies of definitions. -/
def meaning : (n : Nat) → Tree → Meaning n
  | 0, _ => ()
  | n + 1, t => t.language (.nothing n) (meaning n) (bodyLanguages (.nothing n) (meaning n) bodies).lfp

variable {bodies}

theorem meaning_ref {f : DefinitionId} {b : Tree} (hb : bodies f = some b) (n : Nat) :
    (ref f).meaning bodies n = b.meaning bodies n := by
  cases n with
  | zero => rfl
  | succ n =>
    have h := congrFun (bodyLanguages (.nothing n) (meaning bodies n) bodies).map_lfp f
    exact h.symm.trans (by simp only [bodyLanguages, OrderHom.coe_mk, hb, Option.elim, meaning])

theorem meaning_notAllowed (n : Nat) : notAllowed.meaning bodies n = .nothing n := by
  cases n <;> rfl

end Tree

end RelaxNg
