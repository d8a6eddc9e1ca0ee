/-!
# Marks

Which of the numbers below a bound a walk has met. A number at or above the bound counts as met, so that a walk stays
below it. Marking a number that was not met leaves fewer to meet (`free_mark_lt`), which is why walks end.
-/

namespace RelaxNg

/-- Which of the numbers below the number of flags are marked. -/
structure Marks where
  flags : Array Bool
deriving Inhabited

namespace Marks

def upTo (bound : Nat) : Marks := ⟨Array.replicate bound false⟩

/-- Whether a number is marked or beyond the bound. -/
def has (m : Marks) (i : Nat) : Bool := m.flags.getD i true

def mark (m : Marks) (i : Nat) : Marks := ⟨m.flags.setIfInBounds i true⟩

def free (m : Marks) : Nat := m.flags.toList.count false

theorem count_set_lt (l : List Bool) (i : Nat) (h : l[i]? = some false) :
    (l.set i true).count false < l.count false := by
  induction l generalizing i with
  | nil => simp at h
  | cons b l ih =>
    cases i with
    | zero => simp_all
    | succ i =>
      have := ih i (by simpa using h)
      simp only [List.set_cons_succ, List.count_cons]
      omega

theorem free_mark_lt {m : Marks} {i : Nat} (h : m.has i = false) : (m.mark i).free < m.free := by
  unfold has at h
  unfold mark free
  simp only [Array.toList_setIfInBounds]
  refine count_set_lt _ _ ?_
  by_cases hi : i < m.flags.size
  · simp_all [Array.getD]
  · simp_all [Array.getD]

end Marks

end RelaxNg
