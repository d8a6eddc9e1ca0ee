import RelaxNg.Grammar.Walk
import RelaxNg.Proofs.Grammar
import RelaxNg.Proofs.Occurrence
import Mathlib.Data.List.Nodup
import Mathlib.Logic.Relation

/-!
# What a walk meets

A walk meets what the successors lead to from where it starts, and nothing else (`Grammar.mem_walkFrom_iff`). Half way
(`Underway`) everything with a mark was found, and what follows a place that was found has a mark or waits on the stack.
In a sound grammar the successors of stored patterns are stored, so that no walk leaves the grammar
(`Grammar.Sound.mem_reachable_iff`, `Grammar.Sound.mem_top_iff`).
-/

namespace RelaxNg

open Relation

/-! ## Marks -/

namespace Marks

variable {m : Marks} {i j : Nat}

theorem has_mark : (m.mark i).has j = (decide (i = j) || m.has j) := by
  unfold has mark
  by_cases hj : j < m.flags.size
  · by_cases hij : i = j <;> simp [Array.getD, hj, hij]
  · simp [Array.getD, hj]

@[simp] theorem size_mark : (m.mark i).flags.size = m.flags.size := by
  simp [mark]

theorem has_upTo (bound i : Nat) : (upTo bound).has i = decide (bound ≤ i) := by
  by_cases h : i < bound
  · simp [has, upTo, Array.getD, h]
  · simp [has, upTo, Array.getD, h, Nat.le_of_not_lt h]

end Marks

/-! ## A walk half way -/

section walk

variable {α : Type} {number : α → Nat} {next : α → List α} {marks : Marks} {found : Array α} {stack : List α} {x y : α}

/-- What has a mark was found or lies beyond the bound; what follows a place that was found has a mark or waits. -/
structure Underway (number : α → Nat) (next : α → List α) (marks : Marks) (found : Array α) (stack : List α) : Prop where
  mem_of_has : ∀ x, marks.has (number x) = true → x ∈ found ∨ marks.flags.size ≤ number x
  next_met : ∀ x ∈ found, ∀ y ∈ next x, marks.has (number y) = true ∨ y ∈ stack

theorem Underway.skip (h : Underway number next marks found (x :: stack)) (hx : marks.has (number x) = true) :
    Underway number next marks found stack := by
  refine ⟨h.mem_of_has, fun y hy z hz => ?_⟩
  rcases h.next_met y hy z hz with hmet | hwaits
  · exact .inl hmet
  · rcases List.mem_cons.1 hwaits with rfl | hwaits
    · exact .inl hx
    · exact .inr hwaits

theorem Underway.visit (hinj : Function.Injective number) (h : Underway number next marks found (x :: stack)) :
    Underway number next (marks.mark (number x)) (found.push x) (next x ++ stack) := by
  refine ⟨fun y hy => ?_, fun y hy z hz => ?_⟩
  · rw [Marks.has_mark, Bool.or_eq_true, decide_eq_true_eq] at hy
    rw [Marks.size_mark, Array.mem_push]
    rcases hy with hy | hy
    · exact .inl (.inr (hinj hy).symm)
    · exact (h.mem_of_has y hy).imp_left .inl
  · rw [Marks.has_mark, Bool.or_eq_true, decide_eq_true_eq, List.mem_append]
    rcases Array.mem_push.1 hy with hy | rfl
    · rcases h.next_met y hy z hz with hmet | hwaits
      · exact .inl (.inr hmet)
      · rcases List.mem_cons.1 hwaits with rfl | hwaits
        · exact .inl (.inl rfl)
        · exact .inr (.inr hwaits)
    · exact .inr (.inl hz)

/-- Where a walk ends, what waited was found and what follows was found, as far as it lies below the bound. -/
theorem Underway.mem_walk (hinj : Function.Injective number) (h : Underway number next marks found stack)
    (hx : x ∈ found ∨ x ∈ stack) (hxy : ReflTransGen (fun a b => b ∈ next a ∧ number b < marks.flags.size) x y)
    (hlt : number x < marks.flags.size) : y ∈ walk number next marks found stack := by
  fun_induction walk number next marks found stack with
  | case1 marks found =>
    induction hxy with
    | refl => exact hx.resolve_right (by simp)
    | @tail y z _ hz ih =>
      have hmet := (h.next_met y ih z hz.1).resolve_right (by simp)
      exact (h.mem_of_has z hmet).resolve_right (Nat.not_le.2 hz.2)
  | case2 marks found a stack ha ih =>
    refine ih (h.skip ha) ?_ hxy hlt
    rcases hx with hx | hx
    · exact .inl hx
    · rcases List.mem_cons.1 hx with rfl | hx
      · exact .inl ((h.mem_of_has x ha).resolve_right (Nat.not_le.2 hlt))
      · exact .inr hx
  | case3 marks found a stack ha _ ih =>
    refine ih (h.visit hinj) ?_ (by simpa using hxy) (by simpa using hlt)
    rw [Array.mem_push, List.mem_append]
    rcases hx with hx | hx
    · exact .inl (.inl hx)
    · rcases List.mem_cons.1 hx with rfl | hx
      · exact .inl (.inr rfl)
      · exact .inr (.inr hx)

/-- A walk finds nothing but what was found before and what the stack leads to. -/
theorem reaches_of_mem_walk (h : y ∈ walk number next marks found stack) :
    y ∈ found ∨ ∃ x ∈ stack, ReflTransGen (fun a b => b ∈ next a) x y := by
  fun_induction walk number next marks found stack with
  | case1 => exact .inl h
  | case2 marks found a stack ha ih =>
    rcases ih h with hy | ⟨x, hx, hxy⟩
    · exact .inl hy
    · exact .inr ⟨x, List.mem_cons_of_mem _ hx, hxy⟩
  | case3 marks found a stack ha _ ih =>
    rcases ih h with hy | ⟨x, hx, hxy⟩
    · rcases Array.mem_push.1 hy with hy | rfl
      · exact .inl hy
      · exact .inr ⟨y, List.mem_cons_self, .refl⟩
    · rcases List.mem_append.1 hx with hx | hx
      · exact .inr ⟨a, List.mem_cons_self, .head hx hxy⟩
      · exact .inr ⟨x, List.mem_cons_of_mem _ hx, hxy⟩

/-- Where nothing below the bound leads beyond it, a walk meets what its start leads to. -/
theorem mem_walk_iff {bound : Nat} {P : α → Prop} (hinj : Function.Injective number)
    (hbound : ∀ x, P x → number x < bound) (hnext : ∀ x, P x → ∀ y ∈ next x, P y) (hx : P x) :
    y ∈ walk number next (.upTo bound) #[] [x] ↔ ReflTransGen (fun a b => b ∈ next a) x y := by
  have hsize : (Marks.upTo bound).flags.size = bound := by simp [Marks.upTo]
  constructor
  · intro hy
    rcases reaches_of_mem_walk hy with hy | ⟨z, hz, hzy⟩
    · simp at hy
    · exact List.mem_singleton.1 hz ▸ hzy
  · intro hxy
    have hstart : Underway number next (.upTo bound) #[] [x] :=
      ⟨fun z hz => by simpa [hsize, Marks.has_upTo] using hz, by simp⟩
    refine hstart.mem_walk hinj (.inr List.mem_cons_self) ?_ (lt_of_lt_of_eq (hbound x hx) hsize.symm)
    -- no step of the way leaves the bound
    suffices h : ReflTransGen (fun a b => b ∈ next a ∧ number b < (Marks.upTo bound).flags.size) x y ∧ P y from h.1
    induction hxy with
    | refl => exact ⟨.refl, hx⟩
    | tail _ hz ih =>
      have hP := hnext _ ih.2 _ hz
      exact ⟨ih.1.tail ⟨hz, lt_of_lt_of_eq (hbound _ hP) hsize.symm⟩, hP⟩

end walk

/-! ## Firsts -/

theorem mem_firsts {α : Type} [BEq α] [LawfulBEq α] {items : List α} {x : α} : x ∈ firsts items ↔ x ∈ items := by
  unfold firsts
  suffices key : ∀ kept : Array α, x ∈ items.foldl (fun kept item => if kept.contains item then kept
      else kept.push item) kept ↔ x ∈ kept ∨ x ∈ items by simpa using key #[]
  induction items with
  | nil => simp
  | cons item items ih =>
    intro kept
    rw [List.foldl_cons, ih, List.mem_cons]
    split
    · next hk =>
      have hk := Array.contains_iff_mem.1 hk
      constructor
      · exact fun h => h.imp_right .inr
      · rintro (h | rfl | h)
        · exact .inl h
        · exact .inl hk
        · exact .inr h
    · rw [Array.mem_push, or_assoc]

theorem nodup_firsts {α : Type} [BEq α] [LawfulBEq α] (items : List α) : (firsts items).Nodup := by
  unfold firsts
  suffices key : ∀ kept : Array α, kept.toList.Nodup → (items.foldl (fun kept item => if kept.contains item then kept
      else kept.push item) kept).toList.Nodup from key #[] List.nodup_nil
  induction items with
  | nil => exact fun _ h => h
  | cons item items ih =>
    intro kept h
    rw [List.foldl_cons]
    refine ih _ ?_
    split
    · exact h
    · next hk =>
      rw [Array.toList_push]
      have hnew : item ∉ kept.toList := fun hmem => hk (Array.contains_iff_mem.2 (Array.mem_toList_iff.1 hmem))
      exact List.nodup_append.2 ⟨h, List.nodup_singleton _, fun a ha b hb hab =>
        hnew (List.mem_singleton.1 hb ▸ hab ▸ ha)⟩

/-! ## Walks through a grammar -/

namespace Grammar

variable {g : Grammar} {p q : PatternId} {e : ElementId} {names : NameClass}

/-- A pattern stands at the top of a content. -/
def ReachesTop (g : Grammar) : PatternId → PatternId → Prop := ReflTransGen fun p q => q ∈ g.topSuccessors p

/-- Where the successors of stored patterns are stored, a walk meets what its start leads to. -/
theorem mem_walkFrom_iff {next : PatternId → List PatternId} (hnext : ∀ p, g.Has p → ∀ q ∈ next p, g.Has q)
    (hp : g.Has p) : q ∈ g.walkFrom next p ↔ ReflTransGen (fun a b => b ∈ next a) p q := by
  rw [walkFrom, Array.mem_toList_iff]
  exact mem_walk_iff PatternId.index_injective (fun _ => id) hnext hp

theorem Sound.successors_has (hg : g.Sound) (hp : g.Has p) (hq : q ∈ g.successors p) : g.Has q := by
  unfold successors at hq
  split at hq
  · next e he => exact List.mem_singleton.1 hq ▸ hg.content_has e ((hg.settled p).element_lt e he)
  · next d _ => exact hg.body_has d q (Option.mem_toList.1 hq)
  · exact hg.operand_has hp hq

theorem mem_successors_of_top (hq : q ∈ g.topSuccessors p) : q ∈ g.successors p := by
  unfold topSuccessors at hq
  unfold successors
  split at hq <;> simp_all [Pattern.operands]

theorem ReachesTop.reaches (h : g.ReachesTop p q) : g.Reaches p q :=
  ReflTransGen.mono (fun _ _ => mem_successors_of_top) _ _ h

theorem Sound.mem_reachable_iff (hg : g.Sound) (hp : g.Has p) : q ∈ g.reachable p ↔ g.Reaches p q :=
  mem_walkFrom_iff (fun _ hp _ => hg.successors_has hp) hp

theorem Sound.mem_top_iff (hg : g.Sound) (hp : g.Has p) : q ∈ g.top p ↔ g.ReachesTop p q :=
  mem_walkFrom_iff (fun _ hp _ hq => hg.successors_has hp (mem_successors_of_top hq)) hp

theorem elementOf?_eq_some_iff : g.elementOf? p = some e ↔ g.pattern p = .element e := by
  unfold elementOf?
  split <;> simp_all

theorem attributeOf?_eq_some_iff :
    g.attributeOf? p = some names ↔ ∃ operand annotations, g.pattern p = .attr names operand annotations := by
  unfold attributeOf?
  split <;> simp_all

theorem Sound.mem_reachableElements_iff (hg : g.Sound) (hp : g.Has p) :
    e ∈ g.reachableElements p ↔ ∃ q, g.Reaches p q ∧ g.pattern q = .element e := by
  simp only [reachableElements, mem_firsts, List.mem_filterMap, hg.mem_reachable_iff hp, elementOf?_eq_some_iff]

theorem Sound.mem_topElements_iff (hg : g.Sound) (hp : g.Has p) :
    e ∈ g.topElements p ↔ ∃ q, g.ReachesTop p q ∧ g.pattern q = .element e := by
  simp only [topElements, mem_firsts, List.mem_filterMap, hg.mem_top_iff hp, elementOf?_eq_some_iff]

theorem Sound.mem_topAttributes_iff (hg : g.Sound) (hp : g.Has p) : names ∈ g.topAttributes p ↔
    ∃ q, g.ReachesTop p q ∧ ∃ operand annotations, g.pattern q = .attr names operand annotations := by
  simp only [topAttributes, mem_firsts, List.mem_filterMap, hg.mem_top_iff hp, attributeOf?_eq_some_iff]

/-! ## Trees on the way -/

theorem mem_successors_of_operand (h : q ∈ (g.pattern p).operands) : q ∈ g.successors p := by
  unfold successors
  split <;> simp_all [Pattern.operands]

theorem RefFree.of_operand (h : g.RefFree p) (hq : q ∈ (g.pattern p).operands) : g.RefFree q :=
  h.of_successor (mem_successors_of_operand hq)

theorem content_mem_successors (hp : g.pattern p = .element e) : (g.element e).content ∈ g.successors p := by
  unfold successors
  rw [hp]
  exact List.mem_singleton_self _

/-- A part of a tree is the tree of a pattern that is reached. -/
theorem Sound.exists_reaches_of_part {s : Tree} (hg : g.Sound) (h : Tree.Part s (g.tree p)) :
    ∃ q, g.Reaches p q ∧ g.tree q = s := by
  generalize ht : g.tree p = t at h
  induction h generalizing p with
  | refl => exact ⟨p, .refl, ht⟩
  | operand ho _ ih =>
    rw [← ht, hg.operands_tree] at ho
    obtain ⟨q, hq, rfl⟩ := List.mem_map.1 ho
    obtain ⟨r, hr, hrt⟩ := ih rfl
    exact ⟨r, .head (mem_successors_of_operand hq) hr, hrt⟩

theorem RefFree.tree {g : Grammar} {p : PatternId} (hf : g.RefFree p) (hg : g.Sound) : (g.tree p).RefFree := by
  intro d hd
  obtain ⟨q, hq, ht⟩ := hg.exists_reaches_of_part hd
  exact hf q hq d (hg.pattern_eq_ref_iff.2 ht)

theorem RefFree.of_reaches (hf : g.RefFree p) (hq : g.Reaches p q) : g.RefFree q :=
  fun r hr => hf r (hq.trans hr)

end Grammar

end RelaxNg
