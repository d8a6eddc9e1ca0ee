import RelaxNg.Proofs.Tree
import Mathlib.Logic.Relation
import Mathlib.Data.List.Forall2

/-!
# Expansion of trees

`Tree.Expands` says what a tree becomes when bodies are put in the place of references: the operands are expanded, and
the tree is put together from them as it is put together in a draft. A tree that expands becomes one tree only
(`Expands.unique`), which holds no reference (`Expands.refFree`). It does not expand if it spans a reference without a
body or one that spans itself, because what a tree spans expands with it.
-/

namespace RelaxNg.Tree

open Relation

/-- What a tree leads to in one step that enters no element: its operands, and the body of a reference. -/
inductive Down (bodies : DefinitionId → Option Tree) : Tree → Tree → Prop
  | operand {t o : Tree} (h : o ∈ t.operands) : Down bodies t o
  | body {f : DefinitionId} {b : Tree} (h : bodies f = some b) : Down bodies (.ref f) b

def Spans (bodies : DefinitionId → Option Tree) : Tree → Tree → Prop := ReflTransGen (Down bodies)

/-- A tree becomes another when bodies are put in the place of references. -/
inductive Expands (bodies : DefinitionId → Option Tree) : Tree → Tree → Prop
  | ref {f : DefinitionId} {b u : Tree} (hb : bodies f = some b) (h : Expands bodies b u) : Expands bodies (.ref f) u
  | rebuild {t : Tree} {outcomes : List Tree} (ht : ∀ f, t ≠ .ref f) (hl : outcomes.length = t.operands.length)
      (h : ∀ i (_ : i < t.operands.length) (_ : i < outcomes.length), Expands bodies t.operands[i] outcomes[i]) :
      Expands bodies t (t.rebuild outcomes)

def Expandable (bodies : DefinitionId → Option Tree) (t : Tree) : Prop := ∃ u, Expands bodies t u

variable {bodies bodies' : DefinitionId → Option Tree} {s t u u' : Tree} {f : DefinitionId}

/-! ## What expands -/

theorem Expands.unique (h : Expands bodies t u) (h' : Expands bodies t u') : u = u' := by
  induction h generalizing u' with
  | ref hb _ ih =>
    cases h' with
    | ref hb' h' =>
      rw [hb] at hb'
      cases hb'
      exact ih h'
    | rebuild ht => exact absurd rfl (ht _)
  | @rebuild t outcomes ht hl _ ih =>
    cases h' with
    | ref => exact absurd rfl (ht _)
    | rebuild _ hl' h' =>
      exact congrArg t.rebuild (List.ext_getElem (hl.trans hl'.symm) fun i hi hi' =>
        ih i (hl ▸ hi) hi (h' i (hl ▸ hi) hi'))

theorem Expands.of_ref {b : Tree} (h : Expands bodies (.ref f) u) (hb : bodies f = some b) : Expands bodies b u := by
  cases h with
  | ref hb' h =>
    rw [hb] at hb'
    cases hb'
    exact h
  | rebuild ht => exact absurd rfl (ht _)

theorem Expands.mono (hb : ∀ f b, bodies f = some b → bodies' f = some b) (h : Expands bodies t u) :
    Expands bodies' t u := by
  induction h with
  | ref hf _ ih => exact .ref (hb _ _ hf) ih
  | rebuild ht hl _ ih => exact .rebuild ht hl ih

/-- What a tree leads to expands if the tree does. -/
theorem Expands.down (h : Expands bodies t u) (hs : Down bodies t s) : Expandable bodies s := by
  cases hs with
  | @operand _ o ho =>
    cases h with
    | ref => simp [operands] at ho
    | rebuild _ hl h =>
      obtain ⟨i, hi, rfl⟩ := List.mem_iff_getElem.1 ho
      exact ⟨_, h i hi (hl ▸ hi)⟩
  | body hf => exact ⟨_, h.of_ref hf⟩

theorem Expandable.spans (h : Expandable bodies t) (hs : Spans bodies t s) : Expandable bodies s := by
  induction hs with
  | refl => exact h
  | tail _ hd ih =>
    obtain ⟨u, hu⟩ := ih
    exact hu.down hd

theorem Expands.acc (h : Expands bodies t u) : Acc (fun a b => Down bodies b a) t := by
  induction h with
  | ref hb _ ih =>
    refine ⟨_, fun s hs => ?_⟩
    cases hs with
    | operand ho => simp [operands] at ho
    | body hf =>
      rw [hb] at hf
      cases hf
      exact ih
  | @rebuild t outcomes ht hl _ ih =>
    refine ⟨_, fun s hs => ?_⟩
    cases hs with
    | operand ho =>
      obtain ⟨i, hi, rfl⟩ := List.mem_iff_getElem.1 ho
      exact ih i hi (hl ▸ hi)
    | body => exact absurd rfl (ht _)

theorem Spans.mono (hb : ∀ f b, bodies f = some b → bodies' f = some b) (h : Spans bodies t s) : Spans bodies' t s := by
  refine ReflTransGen.mono (fun a b hd => ?_) _ _ h
  cases hd with
  | operand ho => exact .operand ho
  | body hf => exact .body (hb _ _ hf)

/-- More bodies do not lead a tree further that expands. -/
theorem Expandable.spans_iff (hb : ∀ f b, bodies f = some b → bodies' f = some b) (h : Expandable bodies t) :
    Spans bodies' t s ↔ Spans bodies t s := by
  refine ⟨fun hs => ?_, .mono hb⟩
  induction hs with
  | refl => exact .refl
  | tail _ hd ih =>
    refine ih.tail ?_
    cases hd with
    | operand ho => exact .operand ho
    | body hf =>
      obtain ⟨u, hu⟩ := h.spans ih
      cases hu with
      | ref hf' _ =>
        rw [hb _ _ hf'] at hf
        cases hf
        exact .body hf'
      | rebuild ht => exact absurd rfl (ht _)

/-- What leads back to itself does not expand. -/
theorem not_expandable_of_cycle (h : TransGen (Down bodies) t t) : ¬ Expandable bodies t := by
  rintro ⟨u, hu⟩
  have hacc : Acc (TransGen fun a b => Down bodies b a) t := hu.acc.transGen
  have hself : TransGen (fun a b => Down bodies b a) t t := transGen_swap.2 h
  clear hu h
  induction hacc with
  | intro t _ ih => exact ih t hself hself

theorem not_expandable_of_undefined (h : bodies f = none) : ¬ Expandable bodies (.ref f) := by
  rintro ⟨u, hu⟩
  cases hu with
  | ref hb => simp [h] at hb
  | rebuild ht => exact ht f rfl

/-! ## Trees that lead nowhere -/

theorem Spans.eq_of_not_down (h : Spans bodies t s) (hn : ∀ u, ¬ Down bodies t u) : s = t := by
  rcases h.cases_head with rfl | ⟨u, hu, -⟩
  · rfl
  · exact absurd hu (hn u)

theorem Spans.eq_element {e : ElementId} (h : Spans bodies (.element e) s) : s = .element e := by
  refine h.eq_of_not_down fun u hu => ?_
  cases hu with
  | operand ho => simp [operands] at ho

theorem Spans.eq_undefined (hf : bodies f = none) (h : Spans bodies (.ref f) s) : s = .ref f := by
  refine h.eq_of_not_down fun u hu => ?_
  cases hu with
  | operand ho => simp [operands] at ho
  | body hb => simp [hf] at hb

/-! ## References -/

/-- What holds for a tree if it holds for its operands, holds for all trees. -/
theorem induction_on_operands {P : Tree → Prop} (h : ∀ t, (∀ o ∈ t.operands, P o) → P t) (t : Tree) : P t := by
  induction t <;> exact h _ (by simp [operands, *])

theorem RefFree.expands (h : t.RefFree) : Expands bodies t t := by
  induction t using induction_on_operands with
  | h t ih =>
    have hself : Expands bodies t (t.rebuild t.operands) := .rebuild (fun f ht => h f (ht ▸ .refl _)) rfl fun i hi _ =>
      ih _ (List.getElem_mem hi) (h.of_operand (List.getElem_mem hi))
    rwa [rebuild_operands] at hself

theorem Expands.of_leaf (ht : ∀ f, t ≠ .ref f) (ho : t.operands = []) : Expands bodies t t :=
  RefFree.expands (refFree_of_operands ht (by simp [ho]))

/-- A tree without references leads to its parts only. -/
theorem RefFree.part_of_spans (h : t.RefFree) (hs : t.Spans bodies s) : Part s t := by
  induction hs with
  | refl => exact .refl t
  | @tail r s _ hd ih =>
    cases hd with
    | operand ho => exact Part.trans (.operand ho (.refl s)) ih
    | body => exact absurd ih (h _)

/-- What a tree without references leads to expands to a part of it. -/
theorem RefFree.part_of_expands (h : t.RefFree) (hs : t.Spans bodies s) (hx : Expands bodies s u) : Part u t := by
  have hpart := h.part_of_spans hs
  rwa [hx.unique (h.of_part hpart).expands]

/-- The links of what a tree becomes are links that the tree leads to. -/
theorem Expands.lacks (h : Expands bodies t u) (hl : s.isLink = true) (hs : ¬ t.Spans bodies s) : u.Lacks s := by
  induction h with
  | ref hb _ ih => exact ih fun hbs => hs (.head (.body hb) hbs)
  | @rebuild t outcomes ht hlen _ ih =>
    refine Lacks.rebuild hl (fun h => hs (h ▸ .refl)) hlen fun u hu => ?_
    obtain ⟨i, hi, rfl⟩ := List.mem_iff_getElem.1 hu
    exact ih i (hlen ▸ hi) hi fun hos => hs (.head (.operand (List.getElem_mem _)) hos)

theorem Expands.spans_of_part (h : Expands bodies t u) (hl : s.isLink = true) (hp : Part s u) : t.Spans bodies s :=
  Classical.byContradiction fun hs => h.lacks hl hs hp

theorem Expands.refFree (h : Expands bodies t u) : u.RefFree := by
  induction h with
  | ref _ _ ih => exact ih
  | rebuild ht hl _ ih =>
    refine fun f => Lacks.rebuild rfl (ht f) hl fun u hu => ?_
    obtain ⟨i, hi, rfl⟩ := List.mem_iff_getElem.1 hu
    exact ih i (hl ▸ hi) hi f

end RelaxNg.Tree
