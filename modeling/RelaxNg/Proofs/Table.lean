import RelaxNg.Grammar.Table
import RelaxNg.Proofs.Grammar
import Std.Data.HashMap.Lemmas

/-!
# Tables that find every pattern

In a table that is in step with a grammar (`Table.Keeps`) every stored pattern has the hash that its parts give it and
is in the bucket of this hash and in no other one, and no pattern is stored twice. Then a search finds the number of a
pattern exactly if it is stored (`Table.Keeps.number?_eq_some_iff`). Nothing is asked of the hashes but that they are
told from the parts: patterns that share one are in the same bucket, where the search tells them apart.
-/

namespace RelaxNg

theorem Pattern.structuralHash_congr {f f' : PatternId → UInt64} {pattern : Pattern}
    (h : ∀ q ∈ pattern.operands, f q = f' q) : pattern.structuralHash f = pattern.structuralHash f' := by
  cases pattern <;> simp_all [structuralHash, operands]

namespace Table

variable {t : Table} {g h : Grammar} {p q : PatternId} {pattern : Pattern}

/-- A table is in step with a grammar. -/
structure Keeps (t : Table) (g : Grammar) : Prop where
  size_eq : t.hashes.size = g.nodes.size
  /-- A stored hash is told from the pattern and the stored hashes of its operands. -/
  hashOf_eq : ∀ p, g.Has p → t.hashOf p = (g.pattern p).structuralHash t.hashOf
  mem_bucket_iff : ∀ hash p, p ∈ t.bucket hash ↔ g.Has p ∧ t.hashOf p = hash
  pattern_inj : ∀ p q, g.Has p → g.Has q → g.pattern p = g.pattern q → p = q

/-- What a search finds has the hash of what was searched for, and is the same pattern. -/
theorem mem_bucket_of_number? (h : t.number? g pattern = some p) :
    p ∈ t.bucket (pattern.structuralHash t.hashOf) ∧ g.pattern p = pattern := by
  unfold number? at h
  have hsame := Array.find?_some h
  exact ⟨Array.mem_of_find?_eq_some h, of_decide_eq_true hsame⟩

/-- A search finds the number of a pattern exactly if it is stored, whatever else has its hash. -/
theorem Keeps.number?_eq_some_iff (ht : t.Keeps g) :
    t.number? g pattern = some p ↔ g.Has p ∧ g.pattern p = pattern := by
  constructor
  · intro h
    obtain ⟨hmem, hpattern⟩ := mem_bucket_of_number? h
    exact ⟨((ht.mem_bucket_iff _ _).1 hmem).1, hpattern⟩
  · rintro ⟨hp, rfl⟩
    have hmem : p ∈ t.bucket ((g.pattern p).structuralHash t.hashOf) :=
      (ht.mem_bucket_iff _ _).2 ⟨hp, ht.hashOf_eq p hp⟩
    have hfound : (t.number? g (g.pattern p)).isSome := Array.find?_isSome.2 ⟨p, hmem, decide_eq_true rfl⟩
    obtain ⟨q, hq⟩ := Option.isSome_iff_exists.1 hfound
    -- Another pattern of the bucket is not the same, and this one is stored once.
    obtain ⟨hqmem, hpattern⟩ := mem_bucket_of_number? hq
    rw [hq, ht.pattern_inj q p ((ht.mem_bucket_iff _ _).1 hqmem).1 hp hpattern]

theorem Keeps.number?_eq_none_iff (ht : t.Keeps g) :
    t.number? g pattern = none ↔ ∀ p, g.Has p → g.pattern p ≠ pattern := by
  simp only [Option.eq_none_iff_forall_ne_some, ne_eq, ht.number?_eq_some_iff, not_and]

/-- The search comes to the number at which the pattern stands among the stored ones. -/
theorem Keeps.number?_eq (ht : t.Keeps g) (pattern : Pattern) :
    t.number? g pattern = (g.nodes.findIdx? fun n => n.pattern = pattern).map PatternId.mk := by
  cases hi : g.nodes.findIdx? fun n => n.pattern = pattern with
  | some i =>
    obtain ⟨hlt, hpattern, -⟩ := Array.findIdx?_eq_some_iff_getElem.1 hi
    refine ht.number?_eq_some_iff.2 ⟨hlt, ?_⟩
    rw [Grammar.pattern, Grammar.node, ← Array.getElem_eq_getD (h := hlt)]
    exact of_decide_eq_true hpattern
  | none =>
    refine ht.number?_eq_none_iff.2 fun p hp hpattern => ?_
    rw [Grammar.pattern, Grammar.node, ← Array.getElem_eq_getD (h := hp)] at hpattern
    exact of_decide_eq_false (Array.findIdx?_eq_none_iff.1 hi _ (Array.getElem_mem hp)) hpattern

/-! ## Changes of the grammar -/

theorem keeps_empty : Keeps {} {} where
  size_eq := rfl
  hashOf_eq _ hp := absurd hp (Nat.not_lt_zero _)
  mem_bucket_iff hash p := by simp [bucket, Grammar.Has]
  pattern_inj _ _ hp := absurd hp (Nat.not_lt_zero _)

/-- What is not told by the patterns does not matter. -/
theorem Keeps.congr (ht : t.Keeps g) (hsize : h.nodes.size = g.nodes.size) (hpattern : h.pattern = g.pattern) :
    t.Keeps h := by
  have hhas (p) : h.Has p ↔ g.Has p := by rw [Grammar.Has, Grammar.Has, hsize]
  refine ⟨ht.size_eq.trans hsize.symm, fun p hp => ?_, fun hash p => ?_, fun p q hp hq heq => ?_⟩
  · rw [hpattern]
    exact ht.hashOf_eq p ((hhas p).1 hp)
  · rw [hhas]
    exact ht.mem_bucket_iff hash p
  · rw [hpattern] at heq
    exact ht.pattern_inj p q ((hhas p).1 hp) ((hhas q).1 hq) heq

theorem hashOf_enter (t : Table) (p q : PatternId) (pattern : Pattern) :
    (t.enter p pattern).hashOf q =
      if q.index = t.hashes.size then pattern.structuralHash t.hashOf else t.hashOf q := by
  simp only [enter, hashOf, Array.getD_eq_getD_getElem?, Array.getElem?_push]
  split <;> rfl

theorem bucket_enter (t : Table) (p : PatternId) (pattern : Pattern) (hash : UInt64) :
    (t.enter p pattern).bucket hash =
      if pattern.structuralHash t.hashOf = hash then (t.bucket hash).push p else t.bucket hash := by
  simp only [enter, bucket, Std.HashMap.getD_insert, beq_iff_eq]
  split
  · next h => rw [h]
  · rfl

/-- A pattern that is not there yet is entered where it is stored. -/
theorem Keeps.enter (ht : t.Keeps g) (hg : g.Sound) (hf : g.Fits pattern) (hnew : t.number? g pattern = none)
    (location : Option Location) : (t.enter ⟨g.nodes.size⟩ pattern).Keeps (g.storing pattern location) := by
  have hgrows := g.grows_storing pattern location
  have hold {q} (hq : g.Has q) : (t.enter ⟨g.nodes.size⟩ pattern).hashOf q = t.hashOf q := by
    rw [hashOf_enter, if_neg (by rw [ht.size_eq]; exact ne_of_lt hq)]
  have hlast : (t.enter ⟨g.nodes.size⟩ pattern).hashOf ⟨g.nodes.size⟩ = pattern.structuralHash t.hashOf := by
    rw [hashOf_enter, if_pos ht.size_eq.symm]
  refine ⟨by simp [Table.enter, Grammar.storing, ht.size_eq], fun p hp => ?_, fun hash p => ?_, fun p q hp hq heq => ?_⟩
  · rcases Grammar.has_storing_iff.1 hp with hp | hi
    · rw [hold hp, hgrows.pattern_eq hp, ht.hashOf_eq p hp]
      exact Pattern.structuralHash_congr fun q hq => (hold (hg.operand_has hp hq)).symm
    · obtain rfl : p = ⟨g.nodes.size⟩ := PatternId.index_injective hi
      rw [hlast, g.pattern_storing_last]
      exact Pattern.structuralHash_congr fun q hq => (hold (hf.operand_has q hq)).symm
  · rw [bucket_enter, Grammar.has_storing_iff]
    by_cases hi : p.index = g.nodes.size
    · obtain rfl : p = ⟨g.nodes.size⟩ := PatternId.index_injective hi
      have hno : ⟨g.nodes.size⟩ ∉ t.bucket hash := fun h => absurd ((ht.mem_bucket_iff _ _).1 h).1 (lt_irrefl _)
      rw [hlast]
      split <;> simp_all
    · have hne : p ≠ ⟨g.nodes.size⟩ := fun h => hi (congrArg PatternId.index h)
      have hiff : p ∈ t.bucket hash ↔ (g.Has p ∨ p.index = g.nodes.size) ∧
          (t.enter ⟨g.nodes.size⟩ pattern).hashOf p = hash := by
        rw [ht.mem_bucket_iff, or_iff_left hi, hashOf_enter, if_neg (ht.size_eq ▸ hi)]
      rw [← hiff]
      split
      · rw [Array.mem_push, or_iff_left hne]
      · exact Iff.rfl
  · have hno {p} (hp : g.Has p) : g.pattern p ≠ pattern := ht.number?_eq_none_iff.1 hnew p hp
    rcases Grammar.has_storing_iff.1 hp with hp | hi <;> rcases Grammar.has_storing_iff.1 hq with hq | hj
    · rw [hgrows.pattern_eq hp, hgrows.pattern_eq hq] at heq
      exact ht.pattern_inj p q hp hq heq
    · obtain rfl : q = ⟨g.nodes.size⟩ := PatternId.index_injective hj
      rw [hgrows.pattern_eq hp, g.pattern_storing_last] at heq
      exact absurd heq (hno hp)
    · obtain rfl : p = ⟨g.nodes.size⟩ := PatternId.index_injective hi
      rw [hgrows.pattern_eq hq, g.pattern_storing_last] at heq
      exact absurd heq.symm (hno hq)
    · exact PatternId.index_injective (hi.trans hj.symm)

end Table

end RelaxNg
