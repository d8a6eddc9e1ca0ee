import RelaxNg.Proofs.Draft.Sound

/-!
# What the operations of a draft make

Every operation that simplifies makes a pattern with the tree that the simplification of trees gives (`Draft.Made`):
the draft stays sound, it only grows, by parts of that tree, and its elements, definitions and marks are left alone. So
what is made can be told from the trees of the operands, however patterns are shared and numbered. `Draft.intern` is the
operation on which the others rest.
-/

namespace RelaxNg

namespace Draft

variable {d d' : Draft} {p q : PatternId} {pattern : Pattern} {location : Option Location}

/-! ## Locations -/

/-- Completing a location touches nothing but the stored patterns. -/
theorem exists_locate_eq (d : Draft) (p : PatternId) (location : Option Location) :
    ∃ nodes : Array Node, d.locate p location = { d with grammar.nodes := nodes } ∧
      nodes.size = d.grammar.nodes.size := by
  unfold locate
  split
  · exact ⟨_, rfl, rfl⟩
  · exact ⟨_, rfl, by simp⟩

theorem node_locate (d : Draft) (p q : PatternId) (location : Option Location) :
    ∃ loc, (d.locate p location).grammar.node q = { d.grammar.node q with location := loc } ∧
      ∀ l, d.grammar.location? q = some l → loc = some l := by
  unfold locate
  split
  · exact ⟨_, rfl, fun _ => id⟩
  · next l =>
    unfold Grammar.location? Grammar.node
    simp only [Array.getD_eq_getD_getElem?, Array.getElem?_modify]
    by_cases h : p.index = q.index
    · cases hq : d.grammar.nodes[q.index]? with
      | none => exact ⟨none, by simp [h, Grammar.missingNode], by simp [Grammar.missingNode]⟩
      | some n => exact ⟨n.location.or (some l), by simp [h], by simp +contextual⟩
    · exact ⟨_, by simp [h], fun _ => id⟩

theorem pattern_locate : (d.locate p location).grammar.pattern = d.grammar.pattern := by
  funext q
  obtain ⟨loc, hq, -⟩ := d.node_locate p q location
  simp [Grammar.pattern, hq]

theorem nullable_locate : (d.locate p location).grammar.nullable = d.grammar.nullable := by
  funext q
  obtain ⟨loc, hq, -⟩ := d.node_locate p q location
  simp [Grammar.nullable, hq]

theorem contentType_locate : (d.locate p location).grammar.contentType = d.grammar.contentType := by
  funext q
  obtain ⟨loc, hq, -⟩ := d.node_locate p q location
  simp [Grammar.contentType, hq]

theorem grows_locate (d : Draft) (p : PatternId) (location : Option Location) :
    d.grammar.Grows (d.locate p location).grammar := by
  obtain ⟨nodes, hd, hsize⟩ := d.exists_locate_eq p location
  refine ⟨by rw [hd]; exact le_of_eq hsize.symm, fun _ => congrFun pattern_locate _, fun _ => congrFun nullable_locate _,
    fun _ => congrFun contentType_locate _, fun {q l} hl => ?_⟩
  obtain ⟨loc, hq, hloc⟩ := d.node_locate p q location
  simp [Grammar.location?, hq, hloc l hl]

theorem Stored.locate (hd : d.Stored) (p : PatternId) (location : Option Location) :
    (d.locate p location).Stored := by
  obtain ⟨nodes, he, hsize⟩ := d.exists_locate_eq p location
  have hhas (q) : (d.locate p location).grammar.Has q ↔ d.grammar.Has q := by
    simp [Grammar.Has, he, hsize]
  have hel : (d.locate p location).grammar.elements = d.grammar.elements := by rw [he]
  have hdef : (d.locate p location).grammar.definitions = d.grammar.definitions := by rw [he]
  have htable : (d.locate p location).table = d.table := by rw [he]
  refine ⟨⟨fun q => ?_, fun e h => ?_, fun f b h => ?_⟩, ?_⟩
  · exact (hd.grammar.settled q).congr pattern_locate nullable_locate contentType_locate (by rw [hel]) (by rw [hdef])
  · rw [hhas, Grammar.element, hel]
    exact hd.grammar.content_has e (by rwa [hel] at h)
  · rw [hhas]
    refine hd.grammar.body_has f b ?_
    rwa [Grammar.body?, Grammar.definition, hdef] at h
  · rw [htable]
    exact hd.table.congr (by rw [he]; exact hsize) pattern_locate

/-! ## Storing a pattern -/

theorem exists_intern_eq (d : Draft) (pattern : Pattern) (location : Option Location) :
    ∃ (nodes : Array Node) (table : Table),
      (d.intern pattern location).2 = { d with grammar.nodes := nodes, table } := by
  unfold intern
  split
  · next p _ =>
    obtain ⟨nodes, hd, -⟩ := d.exists_locate_eq p location
    exact ⟨nodes, d.table, hd⟩
  · exact ⟨_, _, rfl⟩

@[simp] theorem intern_elements : (d.intern pattern location).2.grammar.elements = d.grammar.elements := by
  obtain ⟨nodes, table, h⟩ := d.exists_intern_eq pattern location
  rw [h]

@[simp] theorem intern_definitions :
    (d.intern pattern location).2.grammar.definitions = d.grammar.definitions := by
  obtain ⟨nodes, table, h⟩ := d.exists_intern_eq pattern location
  rw [h]

@[simp] theorem intern_expanded : (d.intern pattern location).2.expanded = d.expanded := by
  obtain ⟨nodes, table, h⟩ := d.exists_intern_eq pattern location
  rw [h]

@[simp] theorem grammar_store (d : Draft) (pattern : Pattern) (location : Option Location) :
    (d.store pattern location).grammar = d.grammar.storing pattern location := rfl

theorem grows_intern (d : Draft) (pattern : Pattern) (location : Option Location) :
    d.grammar.Grows (d.intern pattern location).2.grammar := by
  unfold intern
  split
  · exact d.grows_locate _ location
  · exact d.grammar.grows_storing pattern location

theorem Stored.store (hd : d.Stored) (hf : d.grammar.Fits pattern) (hnew : d.table.number? d.grammar pattern = none)
    (location : Option Location) : (d.store pattern location).Stored :=
  ⟨hd.grammar.storing hf location, hd.table.enter hd.grammar hf hnew location⟩

theorem Stored.intern (hd : d.Stored) (hf : d.grammar.Fits pattern) (location : Option Location) :
    (d.intern pattern location).2.Stored := by
  unfold Draft.intern
  split
  · exact hd.locate _ location
  · next h => exact hd.store hf h location

theorem Stored.pattern_intern (hd : d.Stored) (pattern : Pattern) (location : Option Location) :
    (d.intern pattern location).2.grammar.Has (d.intern pattern location).1 ∧
      (d.intern pattern location).2.grammar.pattern (d.intern pattern location).1 = pattern := by
  unfold Draft.intern
  split
  · next p h =>
    obtain ⟨hp, hpattern⟩ := hd.table.number?_eq_some_iff.1 h
    exact ⟨(d.grows_locate p location).has hp, by rw [pattern_locate, hpattern]⟩
  · exact ⟨Grammar.has_storing_iff.2 (.inr rfl), d.grammar.pattern_storing_last pattern location⟩

theorem Stored.number?_eq_none (hd : d.Stored) (hnew : ∀ n ∈ d.grammar.nodes, n.pattern ≠ pattern) :
    d.table.number? d.grammar pattern = none := by
  simpa [hd.table.number?_eq] using hnew

/-- A pattern that is stored nowhere is stored under the next number. -/
theorem Stored.intern_eq_store (hd : d.Stored) (hnew : ∀ n ∈ d.grammar.nodes, n.pattern ≠ pattern)
    (location : Option Location) : d.intern pattern location = (⟨d.grammar.nodes.size⟩, d.store pattern location) := by
  rw [Draft.intern, hd.number?_eq_none hnew]

theorem Stored.grammar_intern (hd : d.Stored) (hnew : ∀ n ∈ d.grammar.nodes, n.pattern ≠ pattern)
    (location : Option Location) : (d.intern pattern location).2.grammar = d.grammar.storing pattern location := by
  rw [hd.intern_eq_store hnew, grammar_store]

theorem stored_none : Stored ⟨{}, {}, {}⟩ where
  grammar := Grammar.sound_of_parts (fun _ hp => absurd hp (Nat.not_lt_zero _)) (by simp) (by simp)
  table := Table.keeps_empty

/-- The leaves are stored one after the other, and each of them is new. -/
theorem initial_stored : initial.Stored ∧ initial.grammar =
    ⟨#[⟨.empty, true, .empty, none⟩, ⟨.notAllowed, false, .empty, none⟩, ⟨.text, true, .mixed, none⟩], #[], #[]⟩ := by
  have leaf {d : Draft} (hd : d.Stored) (pattern : Pattern) (h : pattern ∈ [.empty, .notAllowed, .text])
      (hnew : ∀ n ∈ d.grammar.nodes, n.pattern ≠ pattern) :
      d.intern pattern none = (⟨d.grammar.nodes.size⟩, d.store pattern none) ∧ (d.store pattern none).Stored := by
    have heq := hd.intern_eq_store hnew none
    have hfits : d.grammar.Fits pattern := by
      refine ⟨?_, ?_, ?_⟩ <;> rintro x hx <;> simp at h <;> rcases h with rfl | rfl | rfl <;>
        simp [Pattern.operands] at hx
    have hstored := hd.intern hfits none
    rw [heq] at hstored
    exact ⟨heq, hstored⟩
  obtain ⟨he, hempty⟩ := leaf stored_none .empty (by simp) (by simp)
  obtain ⟨hn, hnotAllowed⟩ := leaf hempty .notAllowed (by simp) (by simp [store, Grammar.nodeOf])
  obtain ⟨ht, htext⟩ := leaf hnotAllowed .text (by simp) (by simp [store, Grammar.nodeOf])
  simp only [initial, he, hn, ht]
  exact ⟨htext, rfl⟩

theorem initial_grammar : initial.grammar =
    ⟨#[⟨.empty, true, .empty, none⟩, ⟨.notAllowed, false, .empty, none⟩, ⟨.text, true, .mixed, none⟩], #[], #[]⟩ :=
  initial_stored.2

theorem initial_sound : initial.Sound where
  toStored := initial_stored.1
  three_le := by rw [initial_grammar]; decide
  pattern_empty := by rw [initial_grammar]; rfl
  pattern_notAllowed := by rw [initial_grammar]; rfl
  pattern_text := by rw [initial_grammar]; rfl

/-! ## What is made -/

/-- An operation makes a pattern with a tree: the draft grows by parts of the tree and stays sound, and nothing else
changes. -/
structure Made (d : Draft) (t : Tree) (r : PatternId × Draft) : Prop where
  sound : r.2.Sound
  grows : d.grammar.Grows r.2.grammar
  elements_eq : r.2.grammar.elements = d.grammar.elements
  definitions_eq : r.2.grammar.definitions = d.grammar.definitions
  expanded_eq : r.2.expanded = d.expanded
  has : r.2.grammar.Has r.1
  tree_eq : r.2.grammar.tree r.1 = t
  part : ∀ q, r.2.grammar.Has q → ¬ d.grammar.Has q → Tree.Part (r.2.grammar.tree q) t

variable {t t' : Tree} {r r' : PatternId × Draft}

theorem Made.trans (h : Made d t r) (h' : Made r.2 t' r') (ht : Tree.Part t t') : Made d t' r' where
  sound := h'.sound
  grows := h.grows.trans h'.grows
  elements_eq := h'.elements_eq.trans h.elements_eq
  definitions_eq := h'.definitions_eq.trans h.definitions_eq
  expanded_eq := h'.expanded_eq.trans h.expanded_eq
  has := h'.has
  tree_eq := h'.tree_eq
  part q hq hn := by
    by_cases hr : r.2.grammar.Has q
    · rw [h'.grows.tree_eq hr]
      exact (h.part q hr hn).trans ht
    · exact h'.part q hq hr

theorem Sound.made_self (hd : d.Sound) (hp : d.grammar.Has p) : Made d (d.grammar.tree p) (p, d) :=
  ⟨hd, .refl _, rfl, rfl, rfl, hp, rfl, fun _ h hn => absurd h hn⟩

theorem eq_of_has_intern (h : (d.intern pattern location).2.grammar.Has q) (hn : ¬ d.grammar.Has q) :
    q = (d.intern pattern location).1 := by
  unfold intern at h ⊢
  split at h
  · next p hp =>
    -- Completing a location stores nothing.
    obtain ⟨nodes, he, hsize⟩ := d.exists_locate_eq p location
    rw [he] at h
    exact absurd (show q.index < d.grammar.nodes.size from hsize ▸ h) hn
  · next hnone =>
    have hlt : q.index < (d.grammar.nodes.push _).size := h
    rw [Array.size_push] at hlt
    have hindex : q.index = d.grammar.nodes.size :=
      le_antisymm (Nat.le_of_lt_succ hlt) (not_lt.1 hn)
    cases q
    cases hindex
    rfl

theorem Sound.made_intern (hd : d.Sound) (pattern : Pattern) (hf : d.grammar.Fits pattern)
    (location : Option Location) : Made d (pattern.tree d.grammar.tree) (d.intern pattern location) := by
  have hgrows := d.grows_intern pattern location
  obtain ⟨hhas, hpattern⟩ := hd.toStored.pattern_intern pattern location
  have hsound := hd.of_grows (hd.toStored.intern hf location) hgrows
  have htree : (d.intern pattern location).2.grammar.tree (d.intern pattern location).1 =
      pattern.tree d.grammar.tree := by
    rw [hsound.grammar.tree_eq, hpattern]
    exact Pattern.tree_congr fun q hq => hgrows.tree_eq (hf.operand_has q hq)
  refine ⟨hsound, hgrows, intern_elements, intern_definitions, intern_expanded, hhas, htree, fun q hq hn => ?_⟩
  rw [eq_of_has_intern hq hn, htree]
  exact .refl _

/-! ## Choice -/

theorem alternativesBefore_map (hg : d.grammar.Sound) (p : PatternId) (rest : List PatternId) :
    (d.grammar.alternativesBefore p rest).map d.grammar.tree =
      (d.grammar.tree p).alternatives ++ rest.map d.grammar.tree := by
  fun_induction d.grammar.alternativesBefore p rest with
  | case1 p rest left right hp _ ih2 ih1 =>
    rw [ih1, ih2, hg.tree_eq p, hp, Pattern.tree, Tree.alternatives, List.append_assoc]
  | case2 p rest left right hp hlt =>
    have hop := (hg.settled p).operand_lt
    rw [hp] at hop
    exact absurd ⟨hop left (by simp [Pattern.operands]), hop right (by simp [Pattern.operands])⟩ hlt
  | case3 p rest hp =>
    have : (d.grammar.tree p).alternatives = [d.grammar.tree p] := by
      rw [hg.tree_eq p]
      cases h : d.grammar.pattern p <;> simp_all [Pattern.tree, Tree.alternatives]
    rw [this, List.map_cons, List.singleton_append]

theorem alternativesBefore_has (hg : d.grammar.Sound) (hp : d.grammar.Has p) {rest : List PatternId}
    (hr : ∀ q ∈ rest, d.grammar.Has q) : ∀ q ∈ d.grammar.alternativesBefore p rest, d.grammar.Has q := by
  fun_induction d.grammar.alternativesBefore p rest with
  | case1 p rest left right hpat _ ih2 ih1 =>
    have hop (q) (hq : q ∈ [left, right]) : d.grammar.Has q := hg.operand_has hp (by rwa [hpat])
    exact ih1 (hop left (by simp)) (ih2 (hop right (by simp)) hr)
  | case2 => simp_all
  | case3 => simp_all

theorem map_alternatives (hd : d.Sound) (p : PatternId) :
    (d.grammar.alternatives p).map d.grammar.tree = (d.grammar.tree p).alternatives := by
  simpa only [Grammar.alternatives, List.map_nil, List.append_nil] using alternativesBefore_map hd.grammar p []

theorem alternatives_has (hd : d.Sound) (hp : d.grammar.Has p) : ∀ q ∈ d.grammar.alternatives p, d.grammar.Has q :=
  alternativesBefore_has hd.grammar hp (by simp)

theorem contains_iff_tree (hd : d.Sound) (hp : d.grammar.Has p) {known : List PatternId}
    (hk : ∀ q ∈ known, d.grammar.Has q) :
    known.contains p = true ↔ d.grammar.tree p ∈ known.map d.grammar.tree := by
  rw [List.contains_iff_mem, List.mem_map]
  refine ⟨fun h => ⟨p, h, rfl⟩, fun ⟨q, hq, ht⟩ => ?_⟩
  rwa [← hd.tree_inj (hk q hq) hp ht]

theorem made_addAlternatives (hd : d.Sound) {result : PatternId} (hr : d.grammar.Has result)
    {known rest : List PatternId} (hk : ∀ q ∈ known, d.grammar.Has q) (hrest : ∀ q ∈ rest, d.grammar.Has q) :
    Made d ((d.grammar.tree result).addAlternatives (known.map d.grammar.tree) (rest.map d.grammar.tree))
      (d.addAlternatives result known rest) := by
  induction rest generalizing d result known with
  | nil => exact hd.made_self hr
  | cons p rest ih =>
    simp only [List.forall_mem_cons] at hrest
    rw [List.map_cons, Tree.addAlternatives, Draft.addAlternatives]
    have hc := contains_iff_tree hd hrest.1 hk
    by_cases h : known.contains p = true
    · rw [if_pos h, if_pos (hc.1 h)]
      exact ih hd hr hk hrest.2
    · rw [if_neg h, if_neg (mt hc.2 h)]
      have hm : Made d _ (d.intern (.choice result p) none) :=
        hd.made_intern (.choice result p) ⟨by simp [Pattern.operands, hr, hrest.1], by simp, by simp⟩ none
      have hold {q} (hq : d.grammar.Has q) := hm.grows.tree_eq hq
      have hrestTree : rest.map (d.intern (.choice result p) none).2.grammar.tree = rest.map d.grammar.tree :=
        List.map_congr_left fun q hq => hold (hrest.2 q hq)
      have hknownTree : (p :: known).map (d.intern (.choice result p) none).2.grammar.tree =
          d.grammar.tree p :: known.map d.grammar.tree := by
        rw [List.map_cons, hold hrest.1]
        exact congrArg _ (List.map_congr_left fun q hq => hold (hk q hq))
      have hknownHas : ∀ q ∈ p :: known, (d.intern (.choice result p) none).2.grammar.Has q := by
        simpa [hm.grows.has hrest.1] using fun q hq => hm.grows.has (hk q hq)
      have hmore := ih hm.sound hm.has hknownHas fun q hq => hm.grows.has (hrest.2 q hq)
      rw [hm.tree_eq, hrestTree, hknownTree] at hmore
      exact hm.trans hmore (Tree.part_addAlternatives _ _ _)

theorem made_choice (hd : d.Sound) (hp : d.grammar.Has p) (hq : d.grammar.Has q) :
    Made d ((d.grammar.tree p).either (d.grammar.tree q)) (d.choice p q) := by
  have hpq : p = q ↔ d.grammar.tree p = d.grammar.tree q := ⟨fun h => h ▸ rfl, hd.tree_inj hp hq⟩
  unfold choice Tree.either
  simp only [hpq, hd.eq_notAllowed_iff hp, hd.eq_notAllowed_iff hq, hd.eq_empty_iff hp, hd.eq_empty_iff hq,
    hd.grammar.nullable_tree]
  split_ifs
  · exact hd.made_self hp
  · exact hd.made_self hq
  · exact hd.made_self hq
  · exact hd.made_self hp
  · rw [← map_alternatives hd, ← map_alternatives hd]
    exact made_addAlternatives hd hp (alternatives_has hd hp) (alternatives_has hd hq)

/-! ## The other operations -/

theorem made_pair (hd : d.Sound) (hp : d.grammar.Has p) (hq : d.grammar.Has q)
    {pattern : PatternId → PatternId → Pattern} (hf : d.grammar.Fits (pattern p q)) {together : Tree → Tree → Tree}
    (ht : (pattern p q).tree d.grammar.tree = together (d.grammar.tree p) (d.grammar.tree q)) :
    Made d (Tree.both together (d.grammar.tree p) (d.grammar.tree q)) (pair pattern d p q) := by
  unfold pair Tree.both
  simp only [hd.eq_notAllowed_iff hp, hd.eq_notAllowed_iff hq, hd.eq_empty_iff hp, hd.eq_empty_iff hq]
  split_ifs
  · exact hd.made_self hq
  · exact hd.made_self hp
  · rw [← hd.tree_notAllowed]
    exact hd.made_self hd.has_notAllowed
  · rw [← ht]
    exact hd.made_intern _ hf none

theorem made_group (hd : d.Sound) (hp : d.grammar.Has p) (hq : d.grammar.Has q) :
    Made d (Tree.both .group (d.grammar.tree p) (d.grammar.tree q)) (d.group p q) :=
  made_pair hd hp hq ⟨by simp [Pattern.operands, hp, hq], by simp, by simp⟩ rfl

theorem made_interleave (hd : d.Sound) (hp : d.grammar.Has p) (hq : d.grammar.Has q) :
    Made d (Tree.both .interleave (d.grammar.tree p) (d.grammar.tree q)) (d.interleave p q) :=
  made_pair hd hp hq ⟨by simp [Pattern.operands, hp, hq], by simp, by simp⟩ rfl

theorem made_oneOrMore (hd : d.Sound) (hp : d.grammar.Has p) :
    Made d (d.grammar.tree p).repeated (d.oneOrMore p) := by
  unfold oneOrMore Tree.repeated
  simp only [hd.eq_notAllowed_iff hp, hd.eq_empty_iff hp]
  by_cases h : d.grammar.tree p = .empty ∨ d.grammar.tree p = .notAllowed
  · rw [if_pos h, if_pos h]
    exact hd.made_self hp
  · rw [if_neg h, if_neg h]
    have hm : Made d (.oneOrMore (d.grammar.tree p)) (d.intern (.oneOrMore p) none) :=
      hd.made_intern (.oneOrMore p) ⟨by simp [Pattern.operands, hp], by simp, by simp⟩ none
    have ht := hd.grammar.tree_eq p
    cases hpat : d.grammar.pattern p with
    | oneOrMore operand =>
      have hself := hd.made_self hp
      rw [ht, hpat, Pattern.tree] at hself ⊢
      exact hself
    | _ =>
      rw [ht, hpat, Pattern.tree] at hm ⊢
      exact hm

theorem made_list (hd : d.Sound) (hp : d.grammar.Has p) (location : Option Location) :
    Made d (d.grammar.tree p).listed (d.list p location) := by
  unfold list Tree.listed
  simp only [hd.eq_notAllowed_iff hp]
  split_ifs
  · exact hd.made_self hp
  · exact hd.made_intern (.list p) ⟨by simp [Pattern.operands, hp], by simp, by simp⟩ location

theorem made_data (hd : d.Sound) (type : Datatype) (params : List Param) :
    Made d (.data type params) (d.data type params) :=
  hd.made_intern (.data type params) ⟨by simp [Pattern.operands], by simp, by simp⟩ none

theorem made_value (hd : d.Sound) (type : Datatype) (v : String) : Made d (.value type v) (d.value type v) :=
  hd.made_intern (.value type v) ⟨by simp [Pattern.operands], by simp, by simp⟩ none

theorem made_dataExcept (hd : d.Sound) (type : Datatype) (params : List Param) (hp : d.grammar.Has p)
    (location : Option Location) :
    Made d ((d.grammar.tree p).excepted type params) (d.dataExcept type params p location) := by
  unfold dataExcept Tree.excepted
  simp only [hd.eq_notAllowed_iff hp]
  split_ifs
  · exact made_data hd type params
  · exact hd.made_intern (.dataExcept type params p) ⟨by simp [Pattern.operands, hp], by simp, by simp⟩ location

theorem made_attr (hd : d.Sound) (names : NameClass) (hp : d.grammar.Has p) (location : Option Location)
    (annotations : Annotations) :
    Made d ((d.grammar.tree p).attributed names annotations) (d.attr names p location annotations) := by
  unfold attr Tree.attributed
  simp only [hd.eq_notAllowed_iff hp]
  split_ifs
  · exact hd.made_self hp
  · exact hd.made_intern (.attr names p annotations) ⟨by simp [Pattern.operands, hp], by simp, by simp⟩ location

end Draft

end RelaxNg
