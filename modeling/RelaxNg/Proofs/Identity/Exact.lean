import RelaxNg.Proofs.Identity.Collecting
import Mathlib.Tactic.IntervalCases

/-!
# Exactness of the identity types

Collecting from all elements that are reached yields what the grammar declares (`Collects`), and each element adds what it
declares itself (`collect_ok`). A name is looked up as it was declared, because the declarations of a name agree and no
wildcard takes in a name with a type. A conflict is only ever found between two declarations of one name.
-/

namespace RelaxNg

open IdentityCollection

namespace Grammar

/-- An attribute of an element that is reached declares the type of a pair of names. -/
def DeclaresAttribute (g : Grammar) (start : PatternId) (n a : QName) (type : Option IdentityType) : Prop :=
  ∃ p e q, g.Reaches start p ∧ g.pattern p = .element e ∧ g.ReachesTop (g.element e).content q ∧
    g.AttributeAt (g.element e).names q n a type

/-- An element that is reached declares the type of a name. -/
def DeclaresElement (g : Grammar) (start : PatternId) (n : QName) (type : Option IdentityType) : Prop :=
  ∃ p e, g.Reaches start p ∧ g.pattern p = .element e ∧ (g.element e).names.contains n = true ∧
    g.ContentAt (g.element e).content type

/-- Two declarations of a name, or of a pair of names, give it different types, none counted as one. -/
def DeclaresConflict (g : Grammar) (start : PatternId) : Prop :=
  (∃ n a t t', t ≠ t' ∧ g.DeclaresAttribute start n a t ∧ g.DeclaresAttribute start n a t') ∨
    ∃ n t t', t ≠ t' ∧ g.DeclaresElement start n t ∧ g.DeclaresElement start n t'

end Grammar

/-! ## All elements -/

namespace IdentityCollection

variable {g : Grammar} {c c' : Collected} {done : List ElementId} {e : ElementId}

/-- What was collected from some elements is what they declare. -/
structure Collects (g : Grammar) (done : List ElementId) (c : Collected) : Prop where
  singleAttributes : c.attributes.Single
  singleElements : c.elements.Single
  attributes : ∀ n a t, c.TellsAttribute n a t ↔
    ∃ e ∈ done, ∃ q, g.ReachesTop (g.element e).content q ∧ g.AttributeAt (g.element e).names q n a t
  elements : ∀ n t, c.TellsElement n t ↔
    ∃ e ∈ done, (g.element e).names.contains n = true ∧ g.ContentAt (g.element e).content t

theorem collect_ok (hg : g.Sound) (hp : g.Has (g.element e).content) (hI : Collects g done c)
    (h : collect g c e = .ok c') : Collects g (done ++ [e]) c' := by
  obtain ⟨⟨c₁, type⟩, hparts, helement⟩ := bind_eq_ok_iff.1 (located_ok.1 h)
  have hadds := (foldlM_addPart hI.singleAttributes).1 _ hparts
  have hopen (ho : (g.element e).names.isOpen = true) : type = none := by
    rw [Option.eq_none_iff_forall_ne_some]
    intro t ht
    obtain ⟨part, hpart, hpt⟩ := (hadds.found t).1 ht
    have hclosed := (hadds.whole part hpart (by simp [hpt])).2
    rw [ho] at hclosed
    cases hclosed
  have hsingle : c₁.elements.Single := by
    rw [hadds.elements]
    exact hI.singleElements
  obtain ⟨hsingle', hattributes, hopens, htells⟩ := addElement_ok hsingle hopen helement
  refine ⟨?_, hsingle', fun n a t => ?_, fun n t => ?_⟩
  · rw [hattributes]
    exact hadds.single
  · have hsame : c'.TellsAttribute n a t ↔ c₁.TellsAttribute n a t := by
      unfold Collected.TellsAttribute
      rw [hattributes, hopens]
    have htop : (∃ part ∈ parts g (g.element e).content, g.AttributeAt (g.element e).names part.1 n a t) ↔
        ∃ q, g.ReachesTop (g.element e).content q ∧ g.AttributeAt (g.element e).names q n a t := by
      constructor
      · rintro ⟨part, hpart, hat⟩
        exact ⟨part.1, reachesTop_of_mem_parts hg hp hpart, hat⟩
      · rintro ⟨q, hq, hat⟩
        obtain ⟨whole, hmem⟩ := exists_mem_parts hg hp hq
        exact ⟨(q, whole), hmem, hat⟩
    rw [hsame, hadds.attributes, hI.attributes, htop]
    simp [or_and_right, exists_or]
  · have hsame : c₁.TellsElement n t ↔ c.TellsElement n t := by
      unfold Collected.TellsElement
      rw [hadds.elements, hadds.openElements]
    rw [htells, hsame, hI.elements, ← hadds.contentAt_iff hg hp]
    simp [or_and_right, exists_or]

end IdentityCollection

namespace Grammar

variable {g : Grammar} {start : PatternId} {done : List ElementId} {c : Collected} {e : ElementId} {v : Violation}
  {m : IdentityMap} {n a : QName} {t : Option IdentityType}

theorem Closed.declaresAttribute (hg : g.Closed start) (hI : Collects g done c)
    (hdone : ∀ e ∈ done, e ∈ g.reachableElements start) (h : c.TellsAttribute n a t) :
    g.DeclaresAttribute start n a t := by
  obtain ⟨e, he, q, hq, hat⟩ := (hI.attributes n a t).1 h
  obtain ⟨p, hp, hpe⟩ := (hg.sound.mem_reachableElements_iff hg.has).1 (hdone e he)
  exact ⟨p, e, q, hp, hpe, hq, hat⟩

theorem Closed.declaresElement (hg : g.Closed start) (hI : Collects g done c)
    (hdone : ∀ e ∈ done, e ∈ g.reachableElements start) (h : c.TellsElement n t) : g.DeclaresElement start n t := by
  obtain ⟨e, he, hn, hat⟩ := (hI.elements n t).1 h
  obtain ⟨p, hp, hpe⟩ := (hg.sound.mem_reachableElements_iff hg.has).1 (hdone e he)
  exact ⟨p, e, hp, hpe, hn, hat⟩

/-- An element is refused for a conflict only if it contradicts itself or what was declared before. -/
theorem Closed.conflict_of_collect (hg : g.Closed start) (hI : Collects g done c)
    (hdone : ∀ e ∈ done, e ∈ g.reachableElements start) (he : e ∈ g.reachableElements start)
    (h : collect g c e = .error v) (hv : v.restriction = .idTypeConflict) : g.DeclaresConflict start := by
  obtain ⟨p, hp, hpe⟩ := (hg.sound.mem_reachableElements_iff hg.has).1 he
  have hc := (hg.content he).has
  obtain ⟨w, hw, hwv⟩ := located_error h
  rw [← hwv] at hv
  have htop {part : Part} (h : part ∈ parts g (g.element e).content) : g.ReachesTop (g.element e).content part.1 :=
    reachesTop_of_mem_parts hg.sound hc h
  -- What was declared so far: by elements done before or by parts of this one.
  have declared {seen : List Part} {state : Collected × Option IdentityType} {n a : QName} {t : Option IdentityType}
      (hseen : ∀ part ∈ seen, part ∈ parts g (g.element e).content)
      (hadds : AddsParts g (g.element e).names c seen state) (ht : state.1.TellsAttribute n a t) :
      g.DeclaresAttribute start n a t := by
    rcases (hadds.attributes n a t).1 ht with ht | ⟨part, hpart, hat⟩
    · exact hg.declaresAttribute hI hdone ht
    · exact ⟨p, e, part.1, hp, hpe, htop (hseen part hpart), hat⟩
  rcases bind_eq_error_iff.1 hw with hw | ⟨⟨c₁, type⟩, hparts, hw⟩
  · obtain ⟨seen, part, state, hseen, hpart, hadds, hfail⟩ := (foldlM_addPart hI.singleAttributes).2 w hw
    rcases addPart_error hadds.single hfail hv with ⟨hclosed, t, t', ht, ht', hne⟩ | ⟨n, a, t, t', hne, ht, hat⟩
    · obtain ⟨n, hn⟩ := NameClass.exists_contains_of_not_open hclosed
      obtain ⟨part', hpart', hpt⟩ := (hadds.found t).1 ht
      exact .inr ⟨n, some t, some t', fun h => hne (Option.some.inj h),
        ⟨p, e, hp, hpe, hn, part'.1, htop (hseen part' hpart'), hpt⟩, ⟨p, e, hp, hpe, hn, part.1, htop hpart, ht'⟩⟩
    · exact .inl ⟨n, a, t, t', hne, declared hseen hadds ht, p, e, part.1, hp, hpe, htop hpart, hat⟩
  · have hadds := (foldlM_addPart hI.singleAttributes).1 _ hparts
    have hsingle : c₁.elements.Single := by
      rw [hadds.elements]
      exact hI.singleElements
    obtain ⟨n, t, hn, hne, ht⟩ := addElement_error hsingle hw
    have ht : c.TellsElement n t := by
      unfold Collected.TellsElement at ht ⊢
      rwa [hadds.elements, hadds.openElements] at ht
    exact .inr ⟨n, t, type, hne, hg.declaresElement hI hdone ht, p, e, hp, hpe, hn,
      (hadds.contentAt_iff hg.sound hc).2 rfl⟩

/-- What is collected from the elements that are reached. -/
theorem Closed.collects (hg : g.Closed start) :
    (∀ c, (g.reachableElements start).foldlM (collect g) {} = .ok c → Collects g (g.reachableElements start) c) ∧
    ∀ v, (g.reachableElements start).foldlM (collect g) {} = .error v → v.restriction = .idTypeConflict →
      g.DeclaresConflict start := by
  have hempty : Collects g [] {} := by
    refine ⟨fun _ _ _ h => ?_, fun _ _ _ h => ?_, fun n a t => ?_, fun n t => ?_⟩
    · obtain ⟨d, hd, -⟩ := h
      simp at hd
    · obtain ⟨d, hd, -⟩ := h
      simp at hd
    · simp [Collected.TellsAttribute, Declarations.Tells]
    · simp [Collected.TellsElement, Declarations.Tells]
  have hfold := foldlM_invariant (Collects g) _ _ hempty fun done e c c' he hI h =>
    collect_ok hg.sound (hg.content he).has hI h
  refine ⟨hfold.1, fun v hv hconflict => ?_⟩
  obtain ⟨done, e, c, hdone, he, hI, hfail⟩ := hfold.2 v hv
  exact hg.conflict_of_collect hI hdone he hfail hconflict

/-- The map is what was collected, and no wildcard takes in a name with a type. -/
theorem Closed.identityMap_ok (hg : g.Closed start) (h : g.identityMap start = .ok m) :
    ∃ c, Collects g (g.reachableElements start) c ∧ m = ⟨typed c.attributes, typed c.elements⟩ ∧
      (∀ n a t t', c.TellsAttribute n a t → c.TellsAttribute n a t' → t = t') ∧
      ∀ n t t', c.TellsElement n t → c.TellsElement n t' → t = t' := by
  obtain ⟨c, hcollect, h⟩ := bind_eq_ok_iff.1 h
  obtain ⟨⟨⟩, hattributes, h⟩ := bind_eq_ok_iff.1 h
  obtain ⟨⟨⟩, helements, h⟩ := bind_eq_ok_iff.1 h
  cases h
  have hI := hg.collects.1 c hcollect
  refine ⟨c, hI, rfl, fun n a t t' => hI.singleAttributes.unique ?_, fun n t t' => hI.singleElements.unique ?_⟩
  · rintro ⟨o, ho, hn, ha⟩ t
    exact refuseTaken_ok (ok_of_forM_ok hattributes ho) (by simp [hn, ha])
  · rintro ⟨o, ho, hn⟩ t
    exact refuseTaken_ok (ok_of_forM_ok helements ho) hn

theorem Closed.conflict_of_identityMap (hg : g.Closed start) (h : g.identityMap start = .error v)
    (hv : v.restriction = .idTypeConflict) : g.DeclaresConflict start := by
  rcases bind_eq_error_iff.1 h with h | ⟨c, hcollect, h⟩
  · exact hg.collects.2 v h hv
  have hI := hg.collects.1 c hcollect
  have differ (t : IdentityType) : none ≠ some t := by simp
  rcases bind_eq_error_iff.1 h with h | ⟨⟨⟩, -, h⟩
  · obtain ⟨o, ho, hfail⟩ := exists_error_of_forM_error h
    obtain ⟨⟨n, a⟩, t, htakes, ht⟩ := refuseTaken_error hfail
    rw [Bool.and_eq_true] at htakes
    exact .inl ⟨n, a, none, some t, differ t, hg.declaresAttribute hI (fun _ => id) (.inr ⟨rfl, o, ho, htakes⟩),
      hg.declaresAttribute hI (fun _ => id) (.inl ht)⟩
  rcases bind_eq_error_iff.1 h with h | ⟨⟨⟩, -, h⟩
  · obtain ⟨o, ho, hfail⟩ := exists_error_of_forM_error h
    obtain ⟨n, t, htakes, ht⟩ := refuseTaken_error hfail
    exact .inr ⟨n, none, some t, differ t, hg.declaresElement hI (fun _ => id) (.inr ⟨rfl, o, ho, htakes⟩),
      hg.declaresElement hI (fun _ => id) (.inl ht)⟩
  · cases h

/-! ## Looking up -/

/-- An answer that is there exactly for a declared type is any type that is declared, if only one can be. -/
theorem eq_of_declared {answer : Option IdentityType} {declared : Option IdentityType → Prop}
    (hsome : ∀ t, answer = some t ↔ declared (some t)) (hunique : ∀ t t', declared t → declared t' → t = t')
    (ht : declared t) : answer = t := by
  cases t with
  | some t => exact (hsome t).2 ht
  | none =>
    rw [Option.eq_none_iff_forall_ne_some]
    intro t h
    cases hunique _ _ ht ((hsome t).1 h)

theorem Closed.attribute?_spec (hg : g.Closed start) (h : g.identityMap start = .ok m) :
    (g.DeclaresAttribute start n a t → m.attribute? n a = t) ∧
    ∀ t, m.attribute? n a = some t → g.DeclaresAttribute start n a (some t) := by
  obtain ⟨c, hI, rfl, hunique, -⟩ := hg.identityMap_ok h
  have hsome (t : IdentityType) :
      IdentityMap.attribute? ⟨typed c.attributes, typed c.elements⟩ n a = some t ↔ c.TellsAttribute n a (some t) := by
    have hfind : IdentityMap.attribute? ⟨typed c.attributes, typed c.elements⟩ n a =
        ((typed c.attributes).find? fun entry => entry.1 == (n, a)).map Prod.snd := rfl
    rw [hfind, find?_typed hI.singleAttributes]
    exact (or_iff_left (by simp)).symm
  refine ⟨fun hdeclared => ?_, fun t ht => hg.declaresAttribute hI (fun _ => id) ((hsome t).1 ht)⟩
  obtain ⟨p, e, q, hp, hpe, hq, hat⟩ := hdeclared
  exact eq_of_declared hsome (hunique n a) ((hI.attributes n a t).2
    ⟨e, (hg.sound.mem_reachableElements_iff hg.has).2 ⟨p, hp, hpe⟩, q, hq, hat⟩)

theorem Closed.element?_spec (hg : g.Closed start) (h : g.identityMap start = .ok m) :
    (g.DeclaresElement start n t → m.element? n = t) ∧
    ∀ t, m.element? n = some t → g.DeclaresElement start n (some t) := by
  obtain ⟨c, hI, rfl, -, hunique⟩ := hg.identityMap_ok h
  have hsome (t : IdentityType) :
      IdentityMap.element? ⟨typed c.attributes, typed c.elements⟩ n = some t ↔ c.TellsElement n (some t) :=
    (find?_typed hI.singleElements).trans (or_iff_left (by simp)).symm
  refine ⟨fun hdeclared => ?_, fun t ht => hg.declaresElement hI (fun _ => id) ((hsome t).1 ht)⟩
  obtain ⟨p, e, hp, hpe, hn, hat⟩ := hdeclared
  exact eq_of_declared hsome (hunique n) ((hI.elements n t).2
    ⟨e, (hg.sound.mem_reachableElements_iff hg.has).2 ⟨p, hp, hpe⟩, hn, hat⟩)

/-- The map of a grammar answers for every name what the grammar declares of it, and has no other types. A grammar is
refused for a conflict only if two of its declarations are in conflict. -/
theorem identityMap_exact (hg : g.Closed start) :
    (∀ m, g.identityMap start = .ok m →
      (∀ n a t, g.DeclaresAttribute start n a t → m.attribute? n a = t) ∧
      (∀ n t, g.DeclaresElement start n t → m.element? n = t) ∧
      (∀ n a t, m.attribute? n a = some t → g.DeclaresAttribute start n a (some t)) ∧
      ∀ n t, m.element? n = some t → g.DeclaresElement start n (some t)) ∧
    ∀ v, g.identityMap start = .error v → v.restriction = .idTypeConflict → g.DeclaresConflict start := by
  refine ⟨fun m h => ⟨?_, ?_, ?_, ?_⟩, fun v h hv => hg.conflict_of_identityMap h hv⟩
  · exact fun n a t => (hg.attribute?_spec h).1
  · exact fun n t => (hg.element?_spec h).1
  · exact fun n a => (hg.attribute?_spec (t := none) h).2
  · exact fun n => (hg.element?_spec (t := none) h).2

/-- An element `e` with an attribute `a` that declares an identity, the content of which refers to one. -/
def keyed : Grammar where
  nodes := #[⟨.empty, true, .empty, none⟩, ⟨.notAllowed, false, .empty, none⟩, ⟨.text, true, .mixed, none⟩,
    ⟨.data (.xsd "ID") [], false, .simple, none⟩, ⟨.attr (.plain "a") ⟨3⟩ .none, false, .empty, none⟩,
    ⟨.data (.xsd "IDREF") [], false, .simple, none⟩, ⟨.group ⟨4⟩ ⟨5⟩, false, .simple, none⟩,
    ⟨.element ⟨0⟩, false, .complex, none⟩]
  elements := #[⟨.plain "e", ⟨6⟩, none, .none⟩]

theorem keyed_closed : keyed.Closed ⟨7⟩ := by
  refine ⟨sound_of_parts (fun p hp => ?_) (by decide) (by decide), by decide, refFree_of_nodes (by simp [keyed]) _⟩
  have hlt : p.index < 8 := hp
  obtain ⟨i⟩ := p
  interval_cases i <;> exact ⟨by decide, rfl, rfl, by rintro _ ⟨⟩ <;> decide, by rintro _ ⟨⟩⟩

theorem keyed_identityMap :
    keyed.identityMap ⟨7⟩ = .ok ⟨[((.plain "e", .plain "a"), .id)], [(.plain "e", .idref)]⟩ := by
  have hreachable : keyed.reachableElements ⟨7⟩ = [⟨0⟩] := by
    simp [reachableElements, firsts, elementOf?, reachable, walkFrom, walk, Marks.upTo, Marks.has, Marks.mark,
      successors, keyed, pattern, node, element, Pattern.operands]
  have hparts : parts keyed ⟨6⟩ = [(⟨6⟩, true), (⟨4⟩, true), (⟨5⟩, true)] := by
    simp [parts, walk, Marks.upTo, Marks.has, Marks.mark, partSuccessors, topSuccessors, keyed, pattern, node,
      Part.number]
  rw [identityMap, hreachable]
  have hcollect : collect keyed {} ⟨0⟩ =
      .ok ⟨#[⟨(.plain "e", .plain "a"), some .id, none⟩], #[⟨.plain "e", some .idref, none⟩], #[], #[]⟩ := by
    change located none ((parts keyed ⟨6⟩).foldlM (addPart keyed (.plain "e")) ({}, none) >>= _) = _
    rw [hparts]
    rfl
  simp only [List.foldlM_cons, hcollect]
  rfl

/-- The statement at `keyed`, in which one name is in a pair and alone. -/
theorem identityMap_exact_keyed : keyed.Closed ⟨7⟩ ∧ ∃ m, keyed.identityMap ⟨7⟩ = .ok m ∧
    keyed.DeclaresAttribute ⟨7⟩ (.plain "e") (.plain "a") (some .id) ∧
    ∀ t, keyed.DeclaresElement ⟨7⟩ (.plain "e") t → t = some .idref := by
  obtain ⟨-, helement, hdeclares, -⟩ := (identityMap_exact keyed_closed).1 _ keyed_identityMap
  exact ⟨keyed_closed, _, keyed_identityMap, hdeclares _ _ _ (by decide),
    fun t ht => (helement _ _ ht).symm.trans (by decide)⟩

end Grammar

end RelaxNg
