import RelaxNg.Proofs.Identity.Declarations

/-!
# Collecting from a content

The parts of a content are what stands at its top (`mem_parts_iff`). Collecting from a part adds what an attribute there
declares, or goes on with the type of a datatype there, and so collecting from all parts of a content adds what its
attributes declare and finds its type (`foldlM_addPart`, `AddsParts.contentAt_iff`). Whatever is refused for a conflict
contradicts another part or something that was declared before.
-/

namespace RelaxNg

open Relation IdentityCollection

namespace Grammar

/-- In the content of an element with some names, an attribute declares the type of a pair of names. -/
def AttributeAt (g : Grammar) (element : NameClass) (p : PatternId) (n a : QName) (type : Option IdentityType) : Prop :=
  ∃ names value annotations, g.pattern p = .attr names value annotations ∧ element.contains n = true ∧
    names.contains a = true ∧ identityOf? (g.pattern value) = type

/-- A content is of a type if a datatype at its top is, and without one if none there is of any. -/
def ContentAt (g : Grammar) (content : PatternId) : Option IdentityType → Prop
  | some t => ∃ q, g.ReachesTop content q ∧ identityOf? (g.pattern q) = some t
  | none => ∀ q, g.ReachesTop content q → identityOf? (g.pattern q) = none

end Grammar

namespace IdentityCollection

variable {g : Grammar} {p q value content start : PatternId} {element names : NameClass} {n a : QName}
  {found found' type : Option IdentityType} {c c' : Collected} {part : Part} {v : Violation}

/-! ## Parts of a content -/

theorem Part.number_injective : Function.Injective Part.number := by
  rintro ⟨⟨i⟩, b⟩ ⟨⟨j⟩, b'⟩ h
  unfold Part.number at h
  cases b <;> cases b' <;> simp at h ⊢ <;> omega

theorem mem_topSuccessors_of_part {part' : Part} (h : part' ∈ partSuccessors g part) :
    part'.1 ∈ g.topSuccessors part.1 := by
  unfold partSuccessors at h
  split at h
  · next operand ho =>
    rw [List.mem_singleton.1 h, Grammar.topSuccessors, ho]
    exact List.mem_singleton_self _
  · obtain ⟨q, hq, rfl⟩ := List.mem_map.1 h
    exact hq

theorem exists_mem_partSuccessors (h : q ∈ g.topSuccessors p) (whole : Bool) :
    ∃ whole', (q, whole') ∈ partSuccessors g (p, whole) := by
  unfold partSuccessors
  split
  · next operand ho =>
    rw [Grammar.topSuccessors, ho] at h
    exact ⟨false, by rw [List.mem_singleton.1 h]; exact List.mem_singleton_self _⟩
  · exact ⟨whole, List.mem_map_of_mem h⟩

theorem mem_parts_iff (hg : g.Sound) (hp : g.Has content) :
    part ∈ parts g content ↔ ReflTransGen (fun a b => b ∈ partSuccessors g a) (content, true) part := by
  rw [parts, Array.mem_toList_iff]
  refine mem_walk_iff (P := fun part => g.Has part.1) Part.number_injective ?_ ?_ hp
  · rintro ⟨p, b⟩ hhas
    have hlt : p.index < g.nodes.size := hhas
    unfold Part.number
    cases b <;> simp <;> omega
  · exact fun part hhas part' h => hg.successors_has hhas (Grammar.mem_successors_of_top (mem_topSuccessors_of_part h))

theorem reachesTop_of_mem_parts (hg : g.Sound) (hp : g.Has content) (h : part ∈ parts g content) :
    g.ReachesTop content part.1 :=
  ReflTransGen.lift Prod.fst (fun _ _ => mem_topSuccessors_of_part) _ _ ((mem_parts_iff hg hp).1 h)

theorem exists_mem_parts (hg : g.Sound) (hp : g.Has content) (h : g.ReachesTop content q) :
    ∃ whole, (q, whole) ∈ parts g content := by
  induction h with
  | refl => exact ⟨true, (mem_parts_iff hg hp).2 .refl⟩
  | tail _ hq ih =>
    obtain ⟨whole, hmem⟩ := ih
    obtain ⟨whole', hmem'⟩ := exists_mem_partSuccessors hq whole
    exact ⟨whole', (mem_parts_iff hg hp).2 (((mem_parts_iff hg hp).1 hmem).tail hmem')⟩

/-! ## Steps of the collection -/

/-- A type is declared for a pair of names, or a wildcard takes the pair in. -/
def Collected.TellsAttribute (c : Collected) (n a : QName) (type : Option IdentityType) : Prop :=
  c.attributes.Tells (n, a) type ∨
    type = none ∧ ∃ o ∈ c.openAttributes, o.element.contains n = true ∧ o.names.contains a = true

/-- A type is declared for a name, or a wildcard takes the name in. -/
def Collected.TellsElement (c : Collected) (n : QName) (type : Option IdentityType) : Prop :=
  c.elements.Tells n type ∨ type = none ∧ ∃ o ∈ c.openElements, o.names.contains n = true

theorem located_ok {α : Type} {loc : Option Location} {x : Except Violation α} {y : α} :
    located loc x = .ok y ↔ x = .ok y := by
  cases x with
  | ok z => exact Iff.rfl
  | error w => exact ⟨fun h => (by cases h), fun h => (by cases h)⟩

theorem located_error {α : Type} {loc : Option Location} {x : Except Violation α} (h : located loc x = .error v) :
    ∃ w, x = .error w ∧ w.restriction = v.restriction := by
  cases x with
  | ok z => cases h
  | error w =>
    cases h
    exact ⟨w, rfl, rfl⟩

theorem refuseInside_error (h : refuseInside g p = .error v) : v.restriction = .idParent := by
  unfold refuseInside at h
  split at h
  · cases h
    rfl
  · cases h

theorem attributeIdentity_ok (h : attributeIdentity g p = .ok type) : identityOf? (g.pattern p) = type := by
  unfold attributeIdentity at h
  split at h
  · next hp => cases h; rw [hp]; rfl
  · next hp => cases h; rw [hp]; rfl
  · next hp =>
    obtain ⟨-, -, rfl⟩ := map_eq_ok_iff.1 h
    rw [hp]
    rfl
  · next hdata hvalue hexcept =>
    obtain ⟨-, -, rfl⟩ := map_eq_ok_iff.1 h
    unfold identityOf?
    split
    · exact absurd ‹_› (hdata _ _)
    · exact absurd ‹_› (hexcept _ _ _)
    · exact absurd ‹_› (hvalue _ _)
    · rfl

theorem attributeIdentity_error (h : attributeIdentity g p = .error v) : v.restriction = .idParent := by
  unfold attributeIdentity at h
  split at h
  · cases h
  · cases h
  · exact refuseInside_error (map_eq_error_iff.1 h)
  · exact refuseInside_error (map_eq_error_iff.1 h)

/-- The names of the element and of the attribute make the pairs. -/
theorem mem_pairs {elementNames attributeNames : List QName} (he : element.simpleNames? = some elementNames)
    (ha : names.simpleNames? = some attributeNames) :
    (n, a) ∈ (elementNames.flatMap fun e => attributeNames.map fun a => (e, a)) ↔
      element.contains n = true ∧ names.contains a = true := by
  simp [NameClass.mem_simpleNames he, NameClass.mem_simpleNames ha]

theorem addAttribute_ok (hs : c.attributes.Single) (h : addAttribute g element names value c = .ok c') :
    c'.attributes.Single ∧ c'.elements = c.elements ∧ c'.openElements = c.openElements ∧
    ∀ n a t, c'.TellsAttribute n a t ↔ c.TellsAttribute n a t ∨
      element.contains n = true ∧ names.contains a = true ∧ identityOf? (g.pattern value) = t := by
  obtain ⟨type, htype, h⟩ := bind_eq_ok_iff.1 h
  rw [attributeIdentity_ok htype]
  dsimp only at h
  split at h
  · next he ha =>
    obtain ⟨ds, hds, h⟩ := bind_eq_ok_iff.1 h
    cases h
    obtain ⟨hsingle, htells⟩ := (Declarations.foldlM_add hs).1 ds hds
    refine ⟨hsingle, rfl, rfl, fun n a t => ?_⟩
    unfold Collected.TellsAttribute
    rw [htells, mem_pairs he ha, and_assoc, or_right_comm]
    exact or_congr_right (and_congr_right fun _ => and_congr_right fun _ => eq_comm)
  · split at h
    · cases h
    · next hnone =>
      cases h
      have hnone : type = none := by simpa using hnone
      subst hnone
      refine ⟨hs, rfl, rfl, fun n a t => ?_⟩
      simp only [Collected.TellsAttribute, Array.mem_push, or_and_right, exists_or, exists_eq_left, and_or_left, or_assoc]
      exact or_congr_right (or_congr_right ⟨fun ⟨ht, hn, ha⟩ => ⟨hn, ha, ht.symm⟩, fun ⟨hn, ha, ht⟩ => ⟨ht.symm, hn, ha⟩⟩)

theorem addAttribute_error (hs : c.attributes.Single) (h : addAttribute g element names value c = .error v)
    (hv : v.restriction = .idTypeConflict) : ∃ n a t, element.contains n = true ∧ names.contains a = true ∧
      t ≠ identityOf? (g.pattern value) ∧ c.TellsAttribute n a t := by
  rcases bind_eq_error_iff.1 h with h | ⟨type, htype, h⟩
  · rw [attributeIdentity_error h] at hv
    cases hv
  rw [attributeIdentity_ok htype]
  dsimp only at h
  split at h
  · next he ha =>
    rcases bind_eq_error_iff.1 h with h | ⟨ds, -, h⟩
    · obtain ⟨⟨n, a⟩, hkey, t, ht, htells⟩ := (Declarations.foldlM_add hs).2 v h
      obtain ⟨hn, ha⟩ := (mem_pairs he ha).1 hkey
      exact ⟨n, a, t, hn, ha, ht, .inl htells⟩
    · cases h
  · split at h
    · cases h
      split at hv <;> cases hv
    · cases h

theorem contentIdentity_ok {whole : Bool} (h : contentIdentity element whole found type = .ok found') :
    (∀ t, found' = some t ↔ found = some t ∨ type = some t) ∧
    (type.isSome = true → whole = true ∧ element.isOpen = false) := by
  unfold contentIdentity at h
  cases type with
  | none =>
    cases h
    simp
  | some t =>
    dsimp only at h
    split at h
    · cases h
    split at h
    · cases h
    split at h
    · cases h
    · next hwhole hopen hsame =>
      cases h
      refine ⟨fun t' => ?_, fun _ => ⟨by simpa using hwhole, by simpa using hopen⟩⟩
      cases found <;> simp_all

theorem contentIdentity_error {whole : Bool} (h : contentIdentity element whole found type = .error v)
    (hv : v.restriction = .idTypeConflict) :
    element.isOpen = false ∧ ∃ t t', found = some t ∧ type = some t' ∧ t ≠ t' := by
  unfold contentIdentity at h
  cases type with
  | none => cases h
  | some t =>
    dsimp only at h
    split at h
    · cases h
      cases hv
    split at h
    · cases h
      cases hv
    split at h
    · next hopen hsame =>
      obtain ⟨t', rfl⟩ := Option.isSome_iff_exists.1 hsame.1
      exact ⟨by simpa using hopen, t', t, rfl, rfl, fun h => hsame.2 (congrArg some h)⟩
    · cases h

/-- What collecting from parts of a content leaves of what was collected before. -/
structure AddsParts (g : Grammar) (element : NameClass) (c : Collected) (done : List Part)
    (state : Collected × Option IdentityType) : Prop where
  single : state.1.attributes.Single
  elements : state.1.elements = c.elements
  openElements : state.1.openElements = c.openElements
  attributes : ∀ n a t, state.1.TellsAttribute n a t ↔
    c.TellsAttribute n a t ∨ ∃ part ∈ done, g.AttributeAt element part.1 n a t
  found : ∀ t, state.2 = some t ↔ ∃ part ∈ done, identityOf? (g.pattern part.1) = some t
  whole : ∀ part ∈ done, (identityOf? (g.pattern part.1)).isSome = true → part.2 = true ∧ element.isOpen = false

/-- A part that is no attribute counts by its datatype, or something inside it is refused. -/
theorem addPart_content (hp : ∀ names value annotations, g.pattern part.1 ≠ .attr names value annotations) :
    addPart g element (c, found) part =
      (contentIdentity element part.2 found (identityOf? (g.pattern part.1))).map (c, ·) ∨
    ∃ v, addPart g element (c, found) part = .error v ∧ v.restriction = .idParent := by
  unfold addPart
  dsimp only
  split
  · next operand ho =>
    cases hr : refuseInside g operand with
    | ok _ => exact .inl (by rw [ho]; rfl)
    | error v => exact .inr ⟨v, rfl, refuseInside_error hr⟩
  · next ht => exact .inl (by rw [ht]; rfl)
  · next ht => exact .inl (by rw [ht]; rfl)
  · next type _ except ht =>
    cases hr : refuseInside g except with
    | ok _ =>
      left
      rw [ht]
      change (contentIdentity element part.2 found type.identity? >>= fun t => pure (c, t)) =
        (contentIdentity element part.2 found type.identity?).map (c, ·)
      cases contentIdentity element part.2 found type.identity? <;> rfl
    | error v => exact .inr ⟨v, rfl, refuseInside_error hr⟩
  · next ha => exact absurd ha (hp _ _ _)
  · next hlist hdata hvalue hexcept hattr =>
    left
    unfold identityOf?
    split
    · exact absurd ‹_› (hdata _ _)
    · exact absurd ‹_› (hexcept _ _ _)
    · exact absurd ‹_› (hvalue _ _)
    · rfl

theorem addPart_attr {annotations : Annotations} (hp : g.pattern part.1 = .attr names value annotations) :
    addPart g element (c, found) part =
      (located (g.location? part.1) (addAttribute g element names value c)).map (·, found) := by
  unfold addPart
  rw [hp]

theorem addPart_ok (hs : c.attributes.Single) (h : addPart g element (c, found) part = .ok (c', found')) :
    c'.attributes.Single ∧ c'.elements = c.elements ∧ c'.openElements = c.openElements ∧
    (∀ n a t, c'.TellsAttribute n a t ↔ c.TellsAttribute n a t ∨ g.AttributeAt element part.1 n a t) ∧
    (∀ t, found' = some t ↔ found = some t ∨ identityOf? (g.pattern part.1) = some t) ∧
    ((identityOf? (g.pattern part.1)).isSome = true → part.2 = true ∧ element.isOpen = false) := by
  by_cases hattr : ∃ names value annotations, g.pattern part.1 = .attr names value annotations
  · obtain ⟨names, value, annotations, hp⟩ := hattr
    rw [addPart_attr hp] at h
    obtain ⟨_, hadd, heq⟩ := map_eq_ok_iff.1 h
    cases heq
    obtain ⟨hsingle, helements, hopen, htells⟩ := addAttribute_ok hs (located_ok.1 hadd)
    refine ⟨hsingle, helements, hopen, fun n a t => ?_, ?_, ?_⟩
    · simp [htells, Grammar.AttributeAt, hp]
    · simp [hp, identityOf?]
    · simp [hp, identityOf?]
  · rcases addPart_content fun names value annotations hp => hattr ⟨names, value, annotations, hp⟩ with hc | ⟨v, hv, -⟩
    · rw [hc] at h
      obtain ⟨_, hci, heq⟩ := map_eq_ok_iff.1 h
      cases heq
      obtain ⟨hfound, hwhole⟩ := contentIdentity_ok hci
      refine ⟨hs, rfl, rfl, fun n a t => (or_iff_left ?_).symm, hfound, hwhole⟩
      rintro ⟨names, value, annotations, hp, -⟩
      exact hattr ⟨names, value, annotations, hp⟩
    · rw [hv] at h
      cases h

/-- A part is refused for a conflict if a datatype in it contradicts the one found before, or an attribute what was
declared before. -/
theorem addPart_error (hs : c.attributes.Single) (h : addPart g element (c, found) part = .error v)
    (hv : v.restriction = .idTypeConflict) :
    (element.isOpen = false ∧ ∃ t t', found = some t ∧ identityOf? (g.pattern part.1) = some t' ∧ t ≠ t') ∨
    ∃ n a t t', t ≠ t' ∧ c.TellsAttribute n a t ∧ g.AttributeAt element part.1 n a t' := by
  by_cases hattr : ∃ names value annotations, g.pattern part.1 = .attr names value annotations
  · obtain ⟨names, value, annotations, hp⟩ := hattr
    rw [addPart_attr hp] at h
    obtain ⟨w, hw, hwv⟩ := located_error (map_eq_error_iff.1 h)
    obtain ⟨n, a, t, hn, ha, ht, htells⟩ := addAttribute_error hs hw (hwv.trans hv)
    exact .inr ⟨n, a, t, _, ht, htells, names, value, annotations, hp, hn, ha, rfl⟩
  · rcases addPart_content fun names value annotations hp => hattr ⟨names, value, annotations, hp⟩ with
      hc | ⟨w, hw, hparent⟩
    · rw [hc] at h
      exact .inl (contentIdentity_error (map_eq_error_iff.1 h) hv)
    · rw [hw] at h
      cases h
      rw [hparent] at hv
      cases hv

theorem foldlM_addPart (hs : c.attributes.Single) {items : List Part} :
    (∀ state, items.foldlM (addPart g element) (c, none) = .ok state → AddsParts g element c items state) ∧
    ∀ v, items.foldlM (addPart g element) (c, none) = .error v → ∃ done part state, (∀ y ∈ done, y ∈ items) ∧
      part ∈ items ∧ AddsParts g element c done state ∧ addPart g element state part = .error v := by
  refine foldlM_invariant (AddsParts g element c) _ _ ⟨hs, rfl, rfl, by simp, by simp, by simp⟩ ?_
  rintro done part ⟨c₁, found₁⟩ ⟨c₂, found₂⟩ - hI hadd
  obtain ⟨hsingle, helements, hopen, htells, hfound, hwhole⟩ := addPart_ok hI.single hadd
  refine ⟨hsingle, helements.trans hI.elements, hopen.trans hI.openElements, fun n a t => ?_, fun t => ?_, ?_⟩
  · rw [htells, hI.attributes]
    simp [or_and_right, exists_or, or_assoc]
  · rw [hfound, hI.found]
    simp [or_and_right, exists_or]
  · intro part' hmem
    rcases List.mem_append.1 hmem with hmem | hmem
    · exact hI.whole part' hmem
    · exact List.mem_singleton.1 hmem ▸ hwhole

theorem addElement_ok {e : Element} (hs : c.elements.Single) (htype : e.names.isOpen = true → type = none)
    (h : addElement e type c = .ok c') :
    c'.elements.Single ∧ c'.attributes = c.attributes ∧ c'.openAttributes = c.openAttributes ∧
    ∀ n t, c'.TellsElement n t ↔ c.TellsElement n t ∨ e.names.contains n = true ∧ type = t := by
  unfold addElement at h
  split at h
  · next hnone =>
    cases h
    rw [htype (NameClass.simpleNames?_eq_none_iff.1 hnone)]
    refine ⟨hs, rfl, rfl, fun n t => ?_⟩
    simp only [Collected.TellsElement, Array.mem_push, or_and_right, exists_or, exists_eq_left, and_or_left, or_assoc]
    exact or_congr_right (or_congr_right ⟨fun ⟨ht, hn⟩ => ⟨hn, ht.symm⟩, fun ⟨hn, ht⟩ => ⟨ht.symm, hn⟩⟩)
  · next names hnames =>
    obtain ⟨ds, hds, h⟩ := bind_eq_ok_iff.1 h
    cases h
    obtain ⟨hsingle, htells⟩ := (Declarations.foldlM_add hs).1 ds hds
    refine ⟨hsingle, rfl, rfl, fun n t => ?_⟩
    unfold Collected.TellsElement
    rw [htells, NameClass.mem_simpleNames hnames, or_right_comm]
    exact or_congr_right (and_congr_right fun _ => eq_comm)

theorem addElement_error {e : Element} (hs : c.elements.Single) (h : addElement e type c = .error v) :
    ∃ n t, e.names.contains n = true ∧ t ≠ type ∧ c.TellsElement n t := by
  unfold addElement at h
  split at h
  · cases h
  · next names hnames =>
    rcases bind_eq_error_iff.1 h with h | ⟨ds, -, h⟩
    · obtain ⟨n, hn, t, ht, htells⟩ := (Declarations.foldlM_add hs).2 v h
      exact ⟨n, t, (NameClass.mem_simpleNames hnames).1 hn, ht, .inl htells⟩
    · cases h

/-- The type that was found in all parts of a content is the type of the content. -/
theorem AddsParts.contentAt_iff {state : Collected × Option IdentityType} (hg : g.Sound) (hp : g.Has content)
    (h : AddsParts g element c (parts g content) state) {t : Option IdentityType} :
    g.ContentAt content t ↔ state.2 = t := by
  have hfound (t : IdentityType) :
      state.2 = some t ↔ ∃ q, g.ReachesTop content q ∧ identityOf? (g.pattern q) = some t := by
    rw [h.found]
    constructor
    · rintro ⟨part, hpart, ht⟩
      exact ⟨part.1, reachesTop_of_mem_parts hg hp hpart, ht⟩
    · rintro ⟨q, hq, ht⟩
      obtain ⟨whole, hmem⟩ := exists_mem_parts hg hp hq
      exact ⟨(q, whole), hmem, ht⟩
  cases t with
  | some t => exact (hfound t).symm
  | none =>
    constructor
    · intro hnone
      rw [Option.eq_none_iff_forall_ne_some]
      intro t ht
      obtain ⟨q, hq, hqt⟩ := (hfound t).1 ht
      rw [hnone q hq] at hqt
      cases hqt
    · intro hnone q hq
      rw [Option.eq_none_iff_forall_ne_some]
      intro t ht
      rw [(hfound t).2 ⟨q, hq, ht⟩] at hnone
      cases hnone

end IdentityCollection

end RelaxNg
