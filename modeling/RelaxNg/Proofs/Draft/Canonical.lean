import RelaxNg.Proofs.Draft.Calls

/-!
# The form that simplification leaves

A tree is `Tree.Reduced` if nothing is left to simplify at its top: the alternatives of a choice stand in a row, all of
them different and none dead, nothing is put beside `empty` or beside what accepts nothing, nothing is repeated twice,
and no value, list or exception is dead. It is `Tree.Canonical` if this holds for all of its parts. Every operation
makes canonical trees of canonical ones, and so does expansion, which puts trees together by the same operations. So
all that a draft stores is canonical, whatever calls lead to it and whether they fail or not
(`Draft.ReachedBy.stores_canonical`), and the alternatives of a choice can be told from those of its operands
(`Draft.alternatives_choice`).
-/

namespace RelaxNg

namespace Tree

variable {s t u : Tree} {known rest outcomes : List Tree} {bodies : DefinitionId → Option Tree} {names : NameClass}
  {annotations : Annotations} {type : Datatype} {params : List Param}

/-! ## Alternatives -/

theorem alternatives_eq_self (h : ∀ left right, t ≠ choice left right) : t.alternatives = [t] := by
  cases t with
  | choice left right => exact absurd rfl (h left right)
  | _ => rfl

theorem ne_choice_of_mem_alternatives (h : s ∈ t.alternatives) (left right : Tree) : s ≠ choice left right := by
  induction t with
  | choice _ _ ihl ihr =>
    rw [alternatives, List.mem_append] at h
    exact h.elim ihl ihr
  | _ =>
    simp only [alternatives, List.mem_singleton] at h
    simp [h]

/-- The alternatives that are not known are added at the end, in their order. -/
theorem alternatives_addAlternatives (hr : ∀ a ∈ rest, a.alternatives = [a]) (hn : rest.Nodup) :
    (t.addAlternatives known rest).alternatives = t.alternatives ++ rest.filter (· ∉ known) := by
  induction rest generalizing t known with
  | nil => simp [addAlternatives]
  | cons a rest ih =>
    rw [List.forall_mem_cons] at hr
    rw [List.nodup_cons] at hn
    rw [addAlternatives]
    by_cases ha : a ∈ known
    · rw [if_pos ha, ih hr.2 hn.2, List.filter_cons_of_neg (by simpa using ha)]
    · -- Whether the others are known does not depend on what was added, since it is not among them.
      have hsame : rest.filter (· ∉ a :: known) = rest.filter (· ∉ known) := by
        refine List.filter_congr fun b hb => ?_
        have hne : b ≠ a := fun h => hn.1 (h ▸ hb)
        simp [hne]
      rw [if_neg ha, ih hr.2 hn.2, hsame, List.filter_cons_of_pos (by simpa using ha), alternatives, hr.1,
        List.append_assoc, List.singleton_append]

/-! ## Canonical trees -/

/-- Nothing is left to simplify at the top of a tree. -/
def Reduced : Tree → Prop
  | choice left right => (∀ l r, right ≠ choice l r) ∧ (choice left right).alternatives.Nodup ∧
      notAllowed ∉ (choice left right).alternatives
  | group left right | interleave left right =>
    (left ≠ empty ∧ left ≠ notAllowed) ∧ right ≠ empty ∧ right ≠ notAllowed
  | oneOrMore operand => operand ≠ empty ∧ operand ≠ notAllowed ∧ ∀ o, operand ≠ oneOrMore o
  | list operand => operand ≠ notAllowed
  | dataExcept _ _ operand => operand ≠ notAllowed
  | attr _ operand _ => operand ≠ notAllowed
  | empty | notAllowed | text | data _ _ | value _ _ | element _ | ref _ => True

/-- Nothing is left to simplify in a tree. -/
def Canonical (t : Tree) : Prop := ∀ s, Part s t → s.Reduced

theorem Canonical.reduced (h : t.Canonical) : t.Reduced := h t (.refl t)

theorem Canonical.of_part (h : t.Canonical) (hs : Part s t) : s.Canonical := fun r hr => h r (hr.trans hs)

theorem Canonical.of_operand (h : t.Canonical) (ho : s ∈ t.operands) : s.Canonical :=
  h.of_part (.operand ho (.refl s))

theorem canonical_of_operands (ht : t.Reduced) (h : ∀ o ∈ t.operands, o.Canonical) : t.Canonical := by
  intro s hs
  cases hs with
  | refl => exact ht
  | operand ho hs => exact h _ ho s hs

theorem canonical_of_leaf (h : t.operands = []) : t.Canonical := by
  refine canonical_of_operands ?_ (by simp [h])
  cases t <;> simp [Reduced, operands] at h ⊢

theorem Canonical.nodup_alternatives (h : t.Canonical) : t.alternatives.Nodup := by
  cases t with
  | choice => exact h.reduced.2.1
  | _ => simp [alternatives]

theorem Canonical.notAllowed_notMem (h : t.Canonical) (ht : t ≠ notAllowed) : notAllowed ∉ t.alternatives := by
  cases t with
  | choice => exact h.reduced.2.2
  | notAllowed => exact absurd rfl ht
  | _ => simp [alternatives]

/-! ## What is made of canonical trees -/

theorem Canonical.addAlternatives (h : t.Canonical) (ht : t ≠ notAllowed) (hk : ∀ a ∈ t.alternatives, a ∈ known)
    (hr : ∀ a ∈ rest, a.Canonical ∧ a ≠ notAllowed ∧ ∀ left right, a ≠ choice left right) :
    (t.addAlternatives known rest).Canonical := by
  induction rest generalizing t known with
  | nil => exact h
  | cons a rest ih =>
    rw [List.forall_mem_cons] at hr
    obtain ⟨⟨hca, hna, hea⟩, hrest⟩ := hr
    rw [Tree.addAlternatives]
    split
    · exact ih h ht hk hrest
    · next ha =>
      have halternatives : (choice t a).alternatives = t.alternatives ++ [a] := by
        rw [alternatives, alternatives_eq_self hea]
      have hreduced : (choice t a).Reduced := by
        refine ⟨hea, ?_, ?_⟩ <;> rw [halternatives]
        · refine List.nodup_append.2 ⟨h.nodup_alternatives, List.nodup_singleton a, fun b hb c hc => ?_⟩
          rw [List.mem_singleton.1 hc]
          exact fun hba => ha (hba ▸ hk b hb)
        · rw [List.mem_append, List.mem_singleton, not_or]
          exact ⟨h.notAllowed_notMem ht, hna.symm⟩
      refine ih (canonical_of_operands hreduced (by simp [operands, h, hca])) (by simp) (fun b hb => ?_) hrest
      rw [halternatives, List.mem_append, List.mem_singleton] at hb
      rw [List.mem_cons]
      exact hb.elim (fun hb => .inr (hk b hb)) .inl

theorem Canonical.either (ht : t.Canonical) (hu : u.Canonical) : (t.either u).Canonical := by
  unfold Tree.either
  split_ifs with h₁ h₂
  · exact ht
  · exact hu
  · exact hu
  · exact ht
  · rw [not_or] at h₁
    refine ht.addAlternatives h₂ (fun a ha => ha) fun a ha => ⟨hu.of_part (part_of_mem_alternatives ha), ?_,
      ne_choice_of_mem_alternatives ha⟩
    exact fun h => hu.notAllowed_notMem h₁.2 (h ▸ ha)

theorem Canonical.both {together : Tree → Tree → Tree} (ht : t.Canonical) (hu : u.Canonical)
    (ho : (together t u).operands = [t, u])
    (hr : t ≠ empty → t ≠ notAllowed → u ≠ empty → u ≠ notAllowed → (together t u).Reduced) :
    (both together t u).Canonical := by
  unfold Tree.both
  split_ifs with h₁ h₂ h₃
  · exact hu
  · exact ht
  · exact canonical_of_leaf rfl
  · rw [not_or] at h₃
    exact canonical_of_operands (hr h₁ h₃.1 h₂ h₃.2) (by simp [ho, ht, hu])

theorem Canonical.both_group (ht : t.Canonical) (hu : u.Canonical) : (Tree.both .group t u).Canonical :=
  ht.both hu rfl fun h₁ h₂ h₃ h₄ => ⟨⟨h₁, h₂⟩, h₃, h₄⟩

theorem Canonical.both_interleave (ht : t.Canonical) (hu : u.Canonical) : (Tree.both .interleave t u).Canonical :=
  ht.both hu rfl fun h₁ h₂ h₃ h₄ => ⟨⟨h₁, h₂⟩, h₃, h₄⟩

theorem Canonical.repeated (ht : t.Canonical) : t.repeated.Canonical := by
  unfold Tree.repeated
  split_ifs with h
  · exact ht
  · rw [not_or] at h
    split
    · exact ht
    · next hne => exact canonical_of_operands ⟨h.1, h.2, hne⟩ (by simp [operands, ht])

theorem Canonical.listed (ht : t.Canonical) : t.listed.Canonical := by
  unfold Tree.listed
  split_ifs with h
  · exact ht
  · exact canonical_of_operands h (by simp [operands, ht])

theorem Canonical.excepted (ht : t.Canonical) : (t.excepted type params).Canonical := by
  unfold Tree.excepted
  split_ifs with h
  · exact canonical_of_leaf rfl
  · exact canonical_of_operands h (by simp [operands, ht])

theorem Canonical.attributed (ht : t.Canonical) : (t.attributed names annotations).Canonical := by
  unfold Tree.attributed
  split_ifs with h
  · exact ht
  · exact canonical_of_operands h (by simp [operands, ht])

/-- What is put together of canonical trees is canonical. -/
theorem Rebuilt.canonical (h : Rebuilt t outcomes u) (ht : t.Canonical) (ho : ∀ o ∈ outcomes, o.Canonical) :
    u.Canonical := by
  rcases h with _ | _ | _ | _ | _ | _ | _ | _
  · exact ht
  · exact (ho _ (by simp)).either (ho _ (by simp))
  · exact (ho _ (by simp)).both_group (ho _ (by simp))
  · exact (ho _ (by simp)).both_interleave (ho _ (by simp))
  · exact (ho _ (by simp)).repeated
  · exact (ho _ (by simp)).listed
  · exact (ho _ (by simp)).excepted
  · exact (ho _ (by simp)).attributed

section bodies

variable (hb : ∀ f b, bodies f = some b → b.Canonical)

include hb

theorem Expands.canonical (h : Expands bodies t u) (ht : t.Canonical) : u.Canonical := by
  induction h with
  | ref hf _ ih => exact ih (hb _ _ hf)
  | rebuild _ hl _ ih =>
    refine (rebuilt hl).canonical ht fun o ho => ?_
    obtain ⟨i, hi, rfl⟩ := List.mem_iff_getElem.1 ho
    exact ih i (hl ▸ hi) hi (ht.of_operand (List.getElem_mem _))

theorem Spans.canonical (h : Spans bodies t s) (ht : t.Canonical) : s.Canonical := by
  induction h with
  | refl => exact ht
  | tail _ hd ih =>
    cases hd with
    | operand ho => exact ih.of_operand ho
    | body hf => exact hb _ _ hf

end bodies

/-- The alternatives of a choice are those of the left tree and those of the right one that are new, in order. -/
theorem Canonical.alternatives_either (hu : u.Canonical) (hnt : t ≠ notAllowed) (hnu : u ≠ notAllowed)
    (het : ¬ (t = empty ∧ u.nullable = true)) (heu : ¬ (u = empty ∧ t.nullable = true)) :
    (t.either u).alternatives = t.alternatives ++ u.alternatives.filter (· ∉ t.alternatives) := by
  by_cases h : t = u
  · subst h
    have hself : t.either t = t := if_pos (.inl rfl)
    have hnone : t.alternatives.filter (· ∉ t.alternatives) = [] := by
      rw [List.filter_eq_nil_iff]
      simp
    rw [hself, hnone, List.append_nil]
  · unfold Tree.either
    rw [if_neg (not_or.2 ⟨h, hnu⟩), if_neg hnt, if_neg het, if_neg heu]
    exact alternatives_addAlternatives (fun a ha => alternatives_eq_self (ne_choice_of_mem_alternatives ha))
      hu.nodup_alternatives

end Tree

namespace Draft

variable {d d' : Draft} {p q : PatternId} {c : Call} {t : Tree} {r : PatternId × Draft}

/-! ## Canonical drafts -/

/-- All that is stored is canonical. -/
def Canonical (d : Draft) : Prop := ∀ p, d.grammar.Has p → (d.grammar.tree p).Canonical

theorem Canonical.contents (h : d.Canonical) (hd : d.Sound) (e : ElementId) : (d.contents e).Canonical :=
  h _ (hd.has_content e)

theorem Canonical.bodies (h : d.Canonical) (hd : d.Sound) {f : DefinitionId} (hf : d.bodies f = some t) :
    t.Canonical := by
  obtain ⟨b, hb, rfl⟩ := Option.map_eq_some_iff.1 hf
  exact h b (hd.grammar.body_has f b hb)

theorem Canonical.of_nodes_eq (h : d.Canonical) (hn : d.grammar.nodes = d'.grammar.nodes) : d'.Canonical := by
  intro p hp
  rw [← Grammar.tree_eq_of_nodes_eq hn]
  refine h p ?_
  rwa [Grammar.Has, hn]

theorem Made.canonical (hm : d.Made t r) (h : d.Canonical) (ht : t.Canonical) : r.2.Canonical := by
  intro q hq
  by_cases hold : d.grammar.Has q
  · rw [hm.grows.tree_eq hold]
    exact h q hold
  · exact ht.of_part (hm.part q hq hold)

theorem Yields.canonical {u : Tree} (hu : d.Yields t u) (h : d.Canonical) (hd : d.Sound) (ht : t.Canonical) :
    u.Canonical := by
  have hbodies f b (hb : d.bodies f = some b) := h.bodies hd hb
  cases hu with
  | here hs hx => exact hx.canonical hbodies (hs.canonical hbodies ht)
  | inner _ hs hx => exact hx.canonical hbodies (hs.canonical hbodies (h.contents hd _))

/-- A walk that expands a tree stores nothing but canonical trees, wherever it stops. -/
theorem Walked.canonical (hw : d.Walked t d') (h : d.Canonical) (hd : d.Sound) (ht : t.Canonical) :
    d'.Canonical := by
  intro q hq
  by_cases hold : d.grammar.Has q
  · rw [hw.grows.tree_eq hold]
    exact h q hold
  · obtain ⟨u, hu, hpart⟩ := hw.stored q hq hold
    exact (hu.canonical h hd ht).of_part hpart

theorem Canonical.intern_leaf (h : d.Canonical) (hd : d.Sound) {pattern : Pattern} (hf : d.grammar.Fits pattern)
    (ho : pattern.operands = []) (location : Option Location) : (d.intern pattern location).2.Canonical := by
  refine (hd.made_intern pattern hf location).canonical h (Tree.canonical_of_leaf ?_)
  rw [Tree.operands_pattern_tree, ho, List.map_nil]

theorem Canonical.element (h : d.Canonical) (hd : d.Sound) (hp : d.grammar.Has p) (names : NameClass)
    (location : Option Location) (annotations : Annotations) :
    (d.element names p location annotations).2.Canonical := by
  have hpush : Canonical { d with
      grammar.elements := d.grammar.elements.push ⟨names, p, location, annotations⟩ } := h.of_nodes_eq rfl
  exact hpush.intern_leaf (hd.addElement hp names location annotations)
    ⟨by simp [Pattern.operands], by simp, by simp⟩ rfl location

theorem Canonical.ref (h : d.Canonical) (hd : d.Sound) (name : String) (location : Option Location) :
    (d.ref name location).2.Canonical := by
  unfold Draft.ref
  split
  · next f hf =>
    exact h.intern_leaf hd ⟨by simp [Pattern.operands], by simp, by simp [definition?_lt hf]⟩ rfl location
  · have hpush : Canonical { d with
        grammar.definitions := d.grammar.definitions.push ⟨name, none, location⟩ } := h.of_nodes_eq rfl
    exact hpush.intern_leaf (hd.addDefinition name location) ⟨by simp [Pattern.operands], by simp, by simp⟩ rfl location

/-- Every call leaves a canonical draft canonical, also one that fails. -/
theorem Canonical.after (h : d.Canonical) (hd : d.Sound) (ha : ∀ p ∈ c.arguments, d.grammar.Has p) :
    (d.after c).Canonical := by
  cases c <;> simp only [Call.arguments, List.forall_mem_cons, List.not_mem_nil, IsEmpty.forall_iff, implies_true,
    and_true] at ha
  case data type params => exact (made_data hd type params).canonical h (Tree.canonical_of_leaf rfl)
  case value type content => exact (made_value hd type content).canonical h (Tree.canonical_of_leaf rfl)
  case choice left right => exact (made_choice hd ha.1 ha.2).canonical h ((h _ ha.1).either (h _ ha.2))
  case group left right => exact (made_group hd ha.1 ha.2).canonical h ((h _ ha.1).both_group (h _ ha.2))
  case interleave left right =>
    exact (made_interleave hd ha.1 ha.2).canonical h ((h _ ha.1).both_interleave (h _ ha.2))
  case oneOrMore p => exact (made_oneOrMore hd ha).canonical h (h p ha).repeated
  case optional p =>
    exact (made_optional hd ha).canonical h ((h p ha).either (Tree.canonical_of_leaf rfl))
  case zeroOrMore p =>
    exact (made_zeroOrMore hd ha).canonical h ((h p ha).repeated.either (Tree.canonical_of_leaf rfl))
  case mixed p => exact (made_mixed hd ha).canonical h ((h p ha).both_interleave (Tree.canonical_of_leaf rfl))
  case list p location => exact (made_list hd ha location).canonical h (h p ha).listed
  case dataExcept type params p location =>
    exact (made_dataExcept hd type params ha location).canonical h (h p ha).excepted
  case attr names p location annotations =>
    exact (made_attr hd names ha location annotations).canonical h (h p ha).attributed
  case element names p location annotations => exact h.element hd ha names location annotations
  case ref name location => exact h.ref hd name location
  case define name body =>
    rw [Draft.after]
    cases hdef : d.define name body with
    | ok defined =>
      obtain ⟨definitions, rfl, -⟩ := exists_define_eq hdef
      exact h.of_nodes_eq rfl
    | error => exact h
  case expand p => exact (walked_expand hd ha).canonical h hd (h p ha)

theorem initial_canonical : initial.Canonical := by
  intro p hp
  have hlt : p.index < 3 := by simpa [Grammar.Has, initial_grammar] using hp
  refine Tree.canonical_of_leaf ?_
  rw [initial_sound.grammar.operands_tree, List.map_eq_nil_iff]
  -- The three patterns there are.
  have hindex : p.index = 0 ∨ p.index = 1 ∨ p.index = 2 := by omega
  obtain ⟨i⟩ := p
  rcases hindex with rfl | rfl | rfl
  · exact congrArg Pattern.operands initial_sound.pattern_empty
  · exact congrArg Pattern.operands initial_sound.pattern_notAllowed
  · exact congrArg Pattern.operands initial_sound.pattern_text

theorem ReachedBy.canonical_trees {allowed : Call → Prop} (h : ReachedBy allowed d) : d.Canonical := by
  induction h with
  | initial => exact initial_canonical
  | call h _ ha ih => exact ih.after h.sound ha

end Draft

/-! ## Canonical grammars -/

/-- A stored pattern leaves nothing to simplify. -/
structure Grammar.Canonical (g : Grammar) (p : PatternId) : Prop where
  /-- The alternatives of a choice are in a row on its left, no two of them alike, and none is dead. -/
  choice : ∀ left right, g.pattern p = .choice left right →
    (∀ l r, g.pattern right ≠ .choice l r) ∧ (g.alternatives p).Nodup ∧ Draft.notAllowed ∉ g.alternatives p
  /-- What stands beside something else is neither empty nor dead. -/
  beside : ∀ left right, g.pattern p = .group left right ∨ g.pattern p = .interleave left right →
    ∀ q ∈ [left, right], q ≠ Draft.empty ∧ q ≠ Draft.notAllowed
  /-- What is repeated is neither empty nor dead, and it is not repeated already. -/
  repeated : ∀ operand, g.pattern p = .oneOrMore operand →
    operand ≠ Draft.empty ∧ operand ≠ Draft.notAllowed ∧ ∀ q, g.pattern operand ≠ .oneOrMore q
  list : ∀ operand, g.pattern p = .list operand → operand ≠ Draft.notAllowed
  except : ∀ type params operand, g.pattern p = .dataExcept type params operand → operand ≠ Draft.notAllowed
  value : ∀ names operand annotations, g.pattern p = .attr names operand annotations → operand ≠ Draft.notAllowed

namespace Draft

variable {d : Draft} {p q : PatternId}

theorem Sound.ne_empty (hd : d.Sound) (h : d.grammar.tree p ≠ .empty) : p ≠ empty :=
  fun hp => h (hp ▸ hd.tree_empty)

theorem Sound.ne_notAllowed (hd : d.Sound) (h : d.grammar.tree p ≠ .notAllowed) : p ≠ notAllowed :=
  fun hp => h (hp ▸ hd.tree_notAllowed)

/-- A pattern with a canonical tree leaves nothing to simplify. -/
theorem canonical_of_tree (hd : d.Sound) (h : (d.grammar.tree p).Canonical) : d.grammar.Canonical p := by
  have hreduced := h.reduced
  have ht := hd.grammar.tree_eq p
  constructor
  case choice =>
    intro left right hp
    rw [hp, Pattern.tree] at ht
    rw [ht] at hreduced
    obtain ⟨hright, hnodup, hdead⟩ := hreduced
    rw [← ht, ← map_alternatives hd] at hnodup hdead
    refine ⟨fun l r hr => ?_, hnodup.of_map, fun hmem => hdead ?_⟩
    · refine hright (d.grammar.tree l) (d.grammar.tree r) ?_
      rw [hd.grammar.tree_eq right, hr, Pattern.tree]
    · exact List.mem_map.2 ⟨notAllowed, hmem, hd.tree_notAllowed⟩
  case beside =>
    intro left right hp
    have hboth : (d.grammar.tree left ≠ .empty ∧ d.grammar.tree left ≠ .notAllowed) ∧
        d.grammar.tree right ≠ .empty ∧ d.grammar.tree right ≠ .notAllowed := by
      rcases hp with hp | hp <;> rw [hp, Pattern.tree] at ht <;> rw [ht] at hreduced <;> exact hreduced
    obtain ⟨⟨hle, hln⟩, hre, hrn⟩ := hboth
    simp only [List.forall_mem_cons, List.not_mem_nil, IsEmpty.forall_iff, implies_true, and_true]
    exact ⟨⟨hd.ne_empty hle, hd.ne_notAllowed hln⟩, hd.ne_empty hre, hd.ne_notAllowed hrn⟩
  case repeated =>
    intro operand hp
    rw [hp, Pattern.tree] at ht
    rw [ht] at hreduced
    obtain ⟨he, hn, hr⟩ := hreduced
    refine ⟨hd.ne_empty he, hd.ne_notAllowed hn, fun q hq => hr (d.grammar.tree q) ?_⟩
    rw [hd.grammar.tree_eq operand, hq, Pattern.tree]
  case list | except | value =>
    intros
    simp_all only [Pattern.tree]
    exact hd.ne_notAllowed hreduced

/-- The alternatives of a choice are those of its left operand and those of the right one that are new, in order. -/
theorem alternatives_choice (hd : d.Sound) (hc : d.Canonical) (hp : d.grammar.Has p) (hq : d.grammar.Has q)
    (hnp : p ≠ notAllowed) (hnq : q ≠ notAllowed) (hep : ¬ (p = empty ∧ d.grammar.nullable q = true))
    (heq : ¬ (q = empty ∧ d.grammar.nullable p = true)) :
    (d.choice p q).2.grammar.alternatives (d.choice p q).1 =
      d.grammar.alternatives p ++ (d.grammar.alternatives q).filter (· ∉ d.grammar.alternatives p) := by
  have hm := made_choice hd hp hq
  have hold {r : PatternId} (hr : r ∈ d.grammar.alternatives p ++
      (d.grammar.alternatives q).filter (· ∉ d.grammar.alternatives p)) : d.grammar.Has r := by
    rcases List.mem_append.1 hr with hr | hr
    · exact alternatives_has hd hp r hr
    · exact alternatives_has hd hq r (List.mem_of_mem_filter hr)
  -- Both sides have the same trees, and there is one number for each.
  rw [map_tree_inj hm.sound (alternatives_has hm.sound hm.has) fun r hr => hm.grows.has (hold hr),
    map_alternatives hm.sound, hm.tree_eq, List.map_congr_left fun r hr => hm.grows.tree_eq (hold hr)]
  rw [Ne, hd.eq_notAllowed_iff hp] at hnp
  rw [Ne, hd.eq_notAllowed_iff hq] at hnq
  rw [hd.eq_empty_iff hp, hd.grammar.nullable_tree] at hep
  rw [hd.eq_empty_iff hq, hd.grammar.nullable_tree] at heq
  rw [(hc q hq).alternatives_either hnp hnq hep heq, List.map_append, map_alternatives hd, ← map_alternatives hd q,
    List.filter_map]
  congr 2
  refine List.filter_congr fun r hr => ?_
  have hmem := contains_iff_tree hd (alternatives_has hd hq r hr) (alternatives_has hd hp)
  rw [List.contains_iff_mem, map_alternatives hd] at hmem
  simp [hmem]

/-- In a draft that calls lead to, failed ones included, no pattern leaves anything to simplify. A choice of two
patterns of which none is dead, and none empty beside a nullable one, has the alternatives of the left pattern followed
by those of the right one that are new. -/
theorem ReachedBy.stores_canonical (hd : d.Built) :
    (∀ p, d.grammar.Has p → d.grammar.Canonical p) ∧
    ∀ p q, d.grammar.Has p → d.grammar.Has q → p ≠ notAllowed → q ≠ notAllowed →
      ¬ (p = empty ∧ d.grammar.nullable q = true) → ¬ (q = empty ∧ d.grammar.nullable p = true) →
      (d.choice p q).2.grammar.alternatives (d.choice p q).1 =
        d.grammar.alternatives p ++ (d.grammar.alternatives q).filter (· ∉ d.grammar.alternatives p) := by
  have hc := hd.canonical_trees
  exact ⟨fun p hp => canonical_of_tree hd.sound (hc p hp), fun p q hp hq => alternatives_choice hd.sound hc hp hq⟩

/-! ## Choices that share an alternative -/

/-- A draft with three values. -/
def threeValues : Draft :=
  ((initial.after (.value .token "a")).after (.value .token "b")).after (.value .token "c")

/-- The draft with two choices between two of the values each. -/
def sharing : Draft := (threeValues.after (.choice ⟨3⟩ ⟨4⟩)).after (.choice ⟨5⟩ ⟨4⟩)

/-- The values are stored one after the other, and each of them is new. -/
theorem threeValues_built_grammar : threeValues.Built ∧ threeValues.grammar =
    ⟨#[⟨.empty, true, .empty, none⟩, ⟨.notAllowed, false, .empty, none⟩, ⟨.text, true, .mixed, none⟩,
      ⟨.value .token "a", false, .simple, none⟩, ⟨.value .token "b", false, .simple, none⟩,
      ⟨.value .token "c", false, .simple, none⟩], #[], #[]⟩ := by
  have value {d : Draft} (hd : d.Built) (v : String) (hnew : ∀ n ∈ d.grammar.nodes, n.pattern ≠ .value .token v) :
      (d.after (.value .token v)).Built ∧
        (d.after (.value .token v)).grammar = d.grammar.storing (.value .token v) none :=
    ⟨.call hd trivial (by simp [Call.arguments]), hd.sound.toStored.grammar_intern hnew none⟩
  obtain ⟨ha, hga⟩ := value .initial "a" (by simp [initial_grammar])
  obtain ⟨hb, hgb⟩ := value ha "b" (by simp [hga, initial_grammar, Grammar.storing, Grammar.nodeOf])
  obtain ⟨hc, hgc⟩ := value hb "c" (by simp [hgb, hga, initial_grammar, Grammar.storing, Grammar.nodeOf])
  refine ⟨hc, ?_⟩
  rw [threeValues, hgc, hgb, hga, initial_grammar]
  rfl

theorem threeValues_built : threeValues.Built := threeValues_built_grammar.1

theorem threeValues_grammar : threeValues.grammar =
    ⟨#[⟨.empty, true, .empty, none⟩, ⟨.notAllowed, false, .empty, none⟩, ⟨.text, true, .mixed, none⟩,
      ⟨.value .token "a", false, .simple, none⟩, ⟨.value .token "b", false, .simple, none⟩,
      ⟨.value .token "c", false, .simple, none⟩], #[], #[]⟩ := threeValues_built_grammar.2

theorem sharing_built : sharing.Built := by
  have hfirst : ∀ p ∈ Call.arguments (.choice ⟨3⟩ ⟨4⟩), threeValues.grammar.Has p := by
    simp [Call.arguments, Grammar.Has, threeValues_grammar]
  have hsecond : ∀ p ∈ Call.arguments (.choice ⟨5⟩ ⟨4⟩), threeValues.grammar.Has p := by
    simp [Call.arguments, Grammar.Has, threeValues_grammar]
  have hgrows := (grows_after threeValues_built.sound hfirst).2
  exact .call (.call threeValues_built trivial hfirst) trivial fun p hp => hgrows.has (hsecond p hp)

theorem sharing_grammar : sharing.grammar =
    ⟨#[⟨.empty, true, .empty, none⟩, ⟨.notAllowed, false, .empty, none⟩, ⟨.text, true, .mixed, none⟩,
      ⟨.value .token "a", false, .simple, none⟩, ⟨.value .token "b", false, .simple, none⟩,
      ⟨.value .token "c", false, .simple, none⟩, ⟨.choice ⟨3⟩ ⟨4⟩, false, .simple, none⟩,
      ⟨.choice ⟨5⟩ ⟨4⟩, false, .simple, none⟩], #[], #[]⟩ := by
  have hfirst : (threeValues.after (.choice ⟨3⟩ ⟨4⟩)).grammar = threeValues.grammar.storing (.choice ⟨3⟩ ⟨4⟩) none :=
    threeValues_built.sound.grammar_after_choice (by decide) (by decide) (by decide)
      (by simp [threeValues_grammar, Grammar.pattern, Grammar.node])
      (by simp [threeValues_grammar, Grammar.pattern, Grammar.node]) (by simp [threeValues_grammar])
  have hbuilt : (threeValues.after (.choice ⟨3⟩ ⟨4⟩)).Built :=
    .call threeValues_built trivial (by simp [Call.arguments, Grammar.Has, threeValues_grammar])
  have hsecond : sharing.grammar =
      (threeValues.after (.choice ⟨3⟩ ⟨4⟩)).grammar.storing (.choice ⟨5⟩ ⟨4⟩) none :=
    hbuilt.sound.grammar_after_choice (by decide) (by decide) (by decide)
      (by simp [hfirst, threeValues_grammar, Grammar.storing, Grammar.pattern, Grammar.node])
      (by simp [hfirst, threeValues_grammar, Grammar.storing, Grammar.pattern, Grammar.node])
      (by simp [hfirst, threeValues_grammar, Grammar.storing, Grammar.nodeOf])
  rw [hsecond, hfirst, threeValues_grammar]
  rfl

/-- The value that both choices have stands once in the choice between them, where the left one has it. -/
theorem stores_canonical_sharing :
    sharing.Built ∧ sharing.grammar.Has ⟨6⟩ ∧ sharing.grammar.Has ⟨7⟩ ∧ sharing.grammar.Canonical ⟨6⟩ ∧
      (sharing.choice ⟨6⟩ ⟨7⟩).2.grammar.alternatives (sharing.choice ⟨6⟩ ⟨7⟩).1 = [⟨3⟩, ⟨4⟩, ⟨5⟩] := by
  have hhas : sharing.grammar.Has ⟨6⟩ ∧ sharing.grammar.Has ⟨7⟩ := by
    rw [sharing_grammar]
    decide
  have hleft : sharing.grammar.alternatives ⟨6⟩ = [⟨3⟩, ⟨4⟩] := by
    rw [sharing_grammar]
    simp [Grammar.alternatives, Grammar.alternativesBefore, Grammar.pattern, Grammar.node]
  have hright : sharing.grammar.alternatives ⟨7⟩ = [⟨5⟩, ⟨4⟩] := by
    rw [sharing_grammar]
    simp [Grammar.alternatives, Grammar.alternativesBefore, Grammar.pattern, Grammar.node]
  obtain ⟨hcanonical, halternatives⟩ := ReachedBy.stores_canonical sharing_built
  have h := halternatives ⟨6⟩ ⟨7⟩ hhas.1 hhas.2 (by decide) (by decide) (by simp [empty]) (by simp [empty])
  rw [hleft, hright] at h
  exact ⟨sharing_built, hhas.1, hhas.2, hcanonical _ hhas.1, h⟩

end Draft

end RelaxNg
