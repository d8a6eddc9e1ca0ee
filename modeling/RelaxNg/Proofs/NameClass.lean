import RelaxNg.NameClass
import Mathlib.Data.Fintype.EquivFin
import Mathlib.Data.Finset.Basic
import Mathlib.Data.String.Basic

/-!
# Common names

`NameClass.overlaps` asks for a common name among the representatives only. A class tells names apart by the names and
namespaces that it mentions (`contains_congr`), so that every common name has a representative, and every common
representative stands for a real name (`QName.IsReal`). Both need that no class mentions the local name and the
namespace that make representatives up (`NameClass.Proper`). So overlap decides whether two classes have a real name in
common (`NameClass.Proper.overlaps_decides`).
-/

namespace RelaxNg

/-- A name that can be written in a document. -/
def QName.IsReal (q : QName) : Prop := q.localName ≠ NameClass.otherLocalName ∧ q.ns ≠ NameClass.otherNamespace

instance (q : QName) : Decidable q.IsReal := inferInstanceAs (Decidable (_ ∧ _))

namespace NameClass

variable {a b nc : NameClass} {q q' : QName}

/-- The names that are mentioned, those in exceptions among them. -/
def names : NameClass → List QName
  | name n => [n]
  | any | ofNamespace _ => []
  | anyExcept except | ofNamespaceExcept _ except => except.names
  | choice left right => left.names ++ right.names

/-- The namespaces whose names are mentioned as a whole, those in exceptions among them. -/
def namespaces : NameClass → List String
  | name _ | any => []
  | anyExcept except => except.namespaces
  | ofNamespace ns => [ns]
  | ofNamespaceExcept ns except => ns :: except.namespaces
  | choice left right => left.namespaces ++ right.namespaces

/-- A class mentions real names and namespaces only. -/
structure Proper (nc : NameClass) : Prop where
  names : ∀ n ∈ nc.names, n.IsReal
  namespaces : ∀ ns ∈ nc.namespaces, ns ≠ otherNamespace

theorem Proper.choice (ha : a.Proper) (hb : b.Proper) : (a.choice b).Proper := by
  constructor
  · intro n hn
    exact (List.mem_append.1 hn).elim (ha.names n) (hb.names n)
  · intro ns hns
    exact (List.mem_append.1 hns).elim (ha.namespaces ns) (hb.namespaces ns)

/-- Names that a class does not tell apart by what it mentions are both in the class or both not. -/
theorem contains_congr (hnames : ∀ n ∈ nc.names, n = q ↔ n = q')
    (hspaces : ∀ ns ∈ nc.namespaces, ns = q.ns ↔ ns = q'.ns) : nc.contains q = nc.contains q' := by
  induction nc with
  | name n =>
    rw [contains, contains, Bool.eq_iff_iff, beq_iff_eq, beq_iff_eq]
    exact hnames n (List.mem_singleton_self n)
  | any => rfl
  | anyExcept except ih => rw [contains, contains, ih hnames hspaces]
  | ofNamespace ns =>
    rw [contains, contains, Bool.eq_iff_iff, beq_iff_eq, beq_iff_eq]
    exact hspaces ns (List.mem_singleton_self ns)
  | ofNamespaceExcept ns except ih =>
    have hns : (ns == q.ns) = (ns == q'.ns) := by
      rw [Bool.eq_iff_iff, beq_iff_eq, beq_iff_eq]
      exact hspaces ns List.mem_cons_self
    rw [contains, contains, hns, ih hnames fun ns hns => hspaces ns (List.mem_cons_of_mem _ hns)]
  | choice left right ihl ihr =>
    rw [contains, contains, ihl, ihr]
    · exact fun n hn => hnames n (List.mem_append_right _ hn)
    · exact fun ns hns => hspaces ns (List.mem_append_right _ hns)
    · exact fun n hn => hnames n (List.mem_append_left _ hn)
    · exact fun ns hns => hspaces ns (List.mem_append_left _ hns)

/-- What two classes together do not tell apart, neither of them does. -/
theorem contains_congr_choice (hnames : ∀ n ∈ (choice a b).names, n = q ↔ n = q')
    (hspaces : ∀ ns ∈ (choice a b).namespaces, ns = q.ns ↔ ns = q'.ns) :
    a.contains q = a.contains q' ∧ b.contains q = b.contains q' := by
  constructor
  · exact contains_congr (fun n hn => hnames n (List.mem_append_left _ hn)) fun ns hns =>
      hspaces ns (List.mem_append_left _ hns)
  · exact contains_congr (fun n hn => hnames n (List.mem_append_right _ hn)) fun ns hns =>
      hspaces ns (List.mem_append_right _ hns)

/-! ## Representatives -/

theorem mem_representatives_of_mem_names (h : q ∈ nc.names) : q ∈ nc.representatives := by
  induction nc with
  | name n => exact h
  | any | ofNamespace ns => cases h
  | anyExcept except ih => exact List.mem_cons_of_mem _ (ih h)
  | ofNamespaceExcept ns except ih => exact List.mem_cons_of_mem _ (ih h)
  | choice left right ihl ihr =>
    exact (List.mem_append.1 h).elim (fun h => List.mem_append_left _ (ihl h)) fun h => List.mem_append_right _ (ihr h)

theorem mem_representatives_of_mem_namespaces {ns : String} (h : ns ∈ nc.namespaces) :
    ⟨ns, otherLocalName⟩ ∈ nc.representatives := by
  induction nc with
  | name n => cases h
  | any => cases h
  | anyExcept except ih => exact List.mem_cons_of_mem _ (ih h)
  | ofNamespace ns' => simp_all [namespaces, representatives]
  | ofNamespaceExcept ns' except ih =>
    rcases List.mem_cons.1 h with rfl | h
    · exact List.mem_cons_self
    · exact List.mem_cons_of_mem _ (ih h)
  | choice left right ihl ihr =>
    exact (List.mem_append.1 h).elim (fun h => List.mem_append_left _ (ihl h)) fun h => List.mem_append_right _ (ihr h)

/-- A name of which nothing is mentioned is in the class because of a wildcard for all names. -/
theorem mem_representatives_of_contains (h : nc.contains q = true) (hn : q ∉ nc.names) (hs : q.ns ∉ nc.namespaces) :
    ⟨otherNamespace, otherLocalName⟩ ∈ nc.representatives := by
  induction nc with
  | name n => simp_all [contains, names]
  | any => exact List.mem_singleton_self _
  | anyExcept => exact List.mem_cons_self
  | ofNamespace ns => simp_all [contains, namespaces]
  | ofNamespaceExcept ns except => simp_all [contains, namespaces]
  | choice left right ihl ihr =>
    simp only [contains, Bool.or_eq_true, names, namespaces, List.mem_append, not_or] at h hn hs
    exact h.elim (fun h => List.mem_append_left _ (ihl h hn.1 hs.1)) fun h => List.mem_append_right _ (ihr h hn.2 hs.2)

/-- Every common name has a representative that is in both classes. -/
theorem Proper.overlaps_of_contains (ha : a.Proper) (hb : b.Proper) (hqa : a.contains q = true)
    (hqb : b.contains q = true) : a.overlaps b = true := by
  have hab := ha.choice hb
  rw [overlaps, List.any_eq_true]
  suffices h : ∃ r ∈ (a.choice b).representatives, a.contains r = true ∧ b.contains r = true by
    simpa only [Bool.and_eq_true, representatives] using h
  -- The representative differs from the name in nothing that the classes mention.
  have stands {r : QName} (hr : r ∈ (a.choice b).representatives) (hlocal : r.localName = otherLocalName)
      (hq : q ∉ (a.choice b).names) (hns : ∀ ns ∈ (a.choice b).namespaces, ns = q.ns ↔ ns = r.ns) :
      ∃ r ∈ (a.choice b).representatives, a.contains r = true ∧ b.contains r = true := by
    have hnames (n) (hn : n ∈ (a.choice b).names) : n = q ↔ n = r :=
      iff_of_false (fun h => hq (h ▸ hn)) fun h => (hab.names n hn).1 (h ▸ hlocal)
    obtain ⟨hra, hrb⟩ := contains_congr_choice hnames hns
    exact ⟨r, hr, hra ▸ hqa, hrb ▸ hqb⟩
  by_cases hq : q ∈ (a.choice b).names
  · exact ⟨q, mem_representatives_of_mem_names hq, hqa, hqb⟩
  by_cases hs : q.ns ∈ (a.choice b).namespaces
  · exact stands (r := ⟨q.ns, otherLocalName⟩) (mem_representatives_of_mem_namespaces hs) rfl hq fun _ _ => .rfl
  · have hr : ⟨otherNamespace, otherLocalName⟩ ∈ (a.choice b).representatives :=
      mem_representatives_of_contains (by simp [contains, hqa]) hq hs
    refine stands hr rfl hq fun ns hns => iff_of_false (fun h => hs (h ▸ hns)) (hab.namespaces ns hns)

/-! ## Real names -/

theorem exists_fresh (taken : List String) : ∃ s, s ∉ taken := by
  obtain ⟨s, hs⟩ := Infinite.exists_notMem_finset taken.toFinset
  exact ⟨s, fun h => hs (List.mem_toFinset.2 h)⟩

/-- A proper class does not tell any name from some real one. -/
theorem Proper.exists_isReal (h : nc.Proper) (q : QName) :
    ∃ r : QName, r.IsReal ∧ (∀ n ∈ nc.names, n = q ↔ n = r) ∧ ∀ ns ∈ nc.namespaces, ns = q.ns ↔ ns = r.ns := by
  by_cases hq : q.IsReal
  · exact ⟨q, hq, fun _ _ => .rfl, fun _ _ => .rfl⟩
  -- A name that is not real is mentioned nowhere, and neither is a fresh one.
  obtain ⟨l, hl⟩ := exists_fresh (otherLocalName :: nc.names.map QName.localName)
  obtain ⟨ns, hns⟩ := exists_fresh (otherNamespace :: nc.namespaces)
  simp only [List.mem_cons, List.mem_map, not_or, not_exists, not_and] at hl hns
  have hnames (ns' : String) (n) (hn : n ∈ nc.names) : n = q ↔ n = ⟨ns', l⟩ :=
    iff_of_false (fun h' => hq (h' ▸ h.names n hn)) fun h' => hl.2 n hn (by rw [h'])
  by_cases hspace : q.ns = otherNamespace
  · refine ⟨⟨ns, l⟩, ⟨hl.1, hns.1⟩, hnames ns, fun ns' hns' => iff_of_false ?_ ?_⟩
    · exact fun h' => h.namespaces ns' hns' (h'.trans hspace)
    · rintro rfl
      exact hns.2 hns'
  · exact ⟨⟨q.ns, l⟩, ⟨hl.1, hspace⟩, hnames q.ns, fun _ _ => .rfl⟩

/-- Classes that overlap have a real name in common. -/
theorem Proper.exists_of_overlaps (ha : a.Proper) (hb : b.Proper) (h : a.overlaps b = true) :
    ∃ q : QName, q.IsReal ∧ a.contains q = true ∧ b.contains q = true := by
  rw [overlaps, List.any_eq_true] at h
  obtain ⟨q, -, hq⟩ := h
  rw [Bool.and_eq_true] at hq
  obtain ⟨r, hr, hnames, hspaces⟩ := (ha.choice hb).exists_isReal q
  obtain ⟨hra, hrb⟩ := contains_congr_choice hnames hspaces
  exact ⟨r, hr, hra ▸ hq.1, hrb ▸ hq.2⟩

/-! ## Deciding overlap -/

theorem Proper.overlaps_iff_exists (ha : a.Proper) (hb : b.Proper) :
    a.overlaps b = true ↔ ∃ q : QName, q.IsReal ∧ a.contains q = true ∧ b.contains q = true := by
  constructor
  · exact ha.exists_of_overlaps hb
  · rintro ⟨q, -, hqa, hqb⟩
    exact ha.overlaps_of_contains hb hqa hqb

/-- Overlap of proper classes is having a real name in common, and so does not depend on which of them is asked. -/
theorem Proper.overlaps_decides (ha : a.Proper) (hb : b.Proper) :
    (a.overlaps b = true ↔ ∃ q : QName, q.IsReal ∧ a.contains q = true ∧ b.contains q = true) ∧
      a.overlaps b = b.overlaps a := by
  refine ⟨ha.overlaps_iff_exists hb, Bool.eq_iff_iff.2 ?_⟩
  rw [ha.overlaps_iff_exists hb, hb.overlaps_iff_exists ha]
  simp only [and_comm]

/-- All names but those of a namespace, its names `x` and `y` excepted from the exception again. -/
def allButMostOfU : NameClass := .anyExcept (.ofNamespaceExcept "u" (.choice (.name ⟨"u", "x"⟩) (.name ⟨"u", "y"⟩)))

/-- The names of a namespace but `x`. -/
def mostOfU : NameClass := .ofNamespaceExcept "u" (.name ⟨"u", "x"⟩)

theorem overlaps_decides_allButMostOfU : allButMostOfU.Proper ∧ mostOfU.Proper ∧
    (∃ q : QName, q.IsReal ∧ allButMostOfU.contains q = true ∧ mostOfU.contains q = true) ∧
      mostOfU.overlaps allButMostOfU = true := by
  have ha : allButMostOfU.Proper := ⟨by decide, by decide⟩
  have hb : mostOfU.Proper := ⟨by decide, by decide⟩
  obtain ⟨hiff, hcomm⟩ := ha.overlaps_decides hb
  have h : allButMostOfU.overlaps mostOfU = true := by decide
  exact ⟨ha, hb, hiff.1 h, hcomm ▸ h⟩

end NameClass

end RelaxNg
