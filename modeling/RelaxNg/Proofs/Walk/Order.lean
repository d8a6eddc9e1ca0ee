import Mathlib.Data.List.Forall2
import RelaxNg.Proofs.Route
import RelaxNg.Proofs.Walk

/-!
# The order of a walk

A walk meets places in the order in which direct routes first lead to them (`Route.lists_walk`). Each place on its stack
waits at the end of a route (`Waits`). These routes branch off from direct ones, and all others lead on from one of them
or come before all of them; what the direct routes before them lead to was met. So a place with a mark is passed over
without loss, since what is reached behind it is reached on an earlier direct route (`Waits.skip`), and a place without
a mark is met on the first direct route to it (`Waits.visit`). From the places that a walk meets, values are read off in
the same order (`Route.Lists.firsts`).
-/

namespace RelaxNg

/-! ## Branches -/

namespace Route

/-- The routes to the parts of a place. -/
def branches (t : Route) (n : Nat) : List Route := (List.range n).map fun i => t ++ [i]

variable {t u : Route} {n : Nat}

theorem mem_branches : u ∈ t.branches n ↔ ∃ i < n, u = t ++ [i] := by
  simp [branches, eq_comm]

theorem lt_of_mem_branches (h : u ∈ t.branches n) : t < u := by
  obtain ⟨i, -, rfl⟩ := mem_branches.1 h
  exact lt_append_iff.2 (.inr (.inl rfl))

theorem sorted_branches : (t.branches n).Pairwise fun u v => u < v ∧ ¬ u <+: v := by
  refine List.pairwise_map.2 (List.pairwise_lt_range.imp fun {i j} hij => ?_)
  refine ⟨lt_append_iff.2 (.inr (.inr ⟨i, hij, List.prefix_refl _⟩)), fun hpre => ?_⟩
  have heq : t ++ [i] = t ++ [j] := hpre.eq_of_length (by simp)
  simp at heq
  omega

section parts

variable {α : Type} {part : α → Nat → α → Prop} {next : α → List α} {start x y : α}

variable (hpart : ∀ x i y, part x i y ↔ (next x)[i]? = some y)
include hpart

theorem numbered_of_iff : Numbered part := fun x i y z hy hz =>
  Option.some.inj (((hpart x i y).1 hy).symm.trans ((hpart x i z).1 hz))

theorem leads_branches (h : Leads part start t x) :
    List.Forall₂ (Leads part start) (t.branches (next x).length) (next x) := by
  refine List.forall₂_iff_get.2 ⟨by simp [branches], fun i hi hi' => ?_⟩
  simp only [branches, List.get_eq_getElem, List.getElem_map, List.getElem_range]
  exact leads_snoc_iff.2 ⟨x, h, (hpart x i _).2 (List.getElem?_eq_getElem hi')⟩

/-- A route that leads on from a place ends there or goes on to a part of it. -/
theorem eq_or_branches (h : Leads part start t x) (hu : Leads part start u y) (htu : t <+: u) :
    u = t ∨ ∃ v ∈ t.branches (next x).length, v <+: u := by
  obtain ⟨_ | ⟨i, v⟩, rfl⟩ := htu
  · exact .inl (List.append_nil t)
  · obtain ⟨z, hz, hzy⟩ := leads_append_iff.1 hu
    cases hz.unique (numbered_of_iff hpart) h
    rcases hzy with _ | ⟨hi, -⟩
    obtain ⟨hlt, -⟩ := List.getElem?_eq_some_iff.1 ((hpart _ _ _).1 hi)
    exact .inr ⟨t ++ [i], mem_branches.2 ⟨i, hlt, rfl⟩, v, by simp⟩

end parts

end Route

/-! ## A walk and the routes that wait -/

open Route

section walk

variable {α : Type} {number : α → Nat} {next : α → List α} {part : α → Nat → α → Prop} {start x y : α} {marks : Marks}
  {found : Array α} {stack : List α} {waiting : List Route} {r : Route}

/-- Half way, the places on the stack wait at the ends of routes, and what direct routes before these lead to was
met. -/
structure Waits (number : α → Nat) (part : α → Nat → α → Prop) (start : α) (marks : Marks) (found : Array α)
    (stack : List α) (waiting : List Route) : Prop where
  leads : List.Forall₂ (Leads part start) waiting stack
  sorted : waiting.Pairwise fun t u => t < u ∧ ¬ t <+: u
  /-- Every route leads on from one that waits, or comes before them. -/
  covers : ∀ u y, Leads part start u y → (∃ t ∈ waiting, t <+: u) ∨ ∀ t ∈ waiting, u < t
  /-- What waits branches off from a direct route. -/
  forks : ∀ t i, t ++ [i] ∈ waiting → Direct part start t
  met : ∀ u y, Direct part start u → Leads part start u y → (∀ t ∈ waiting, u < t) → y ∈ found
  firsts : ∀ y ∈ found, ∃ t, First part start (· = y) t ∧ ∀ u ∈ waiting, t < u
  ordered : found.toList.Pairwise fun y z => Precedes part start (· = y) (· = z)
  has_iff : ∀ t y, Leads part start t y → (marks.has (number y) = true ↔ y ∈ found)

theorem waits_start {bound : Nat} (hbound : ∀ t y, Leads part start t y → number y < bound) :
    Waits number part start (.upTo bound) #[] [start] [[]] where
  leads := .cons (.nil start) .nil
  sorted := List.pairwise_singleton _ _
  covers _ _ _ := .inl ⟨[], List.mem_singleton_self _, List.nil_prefix⟩
  forks t i h := by simp at h
  met u y _ _ h := absurd (h [] (List.mem_singleton_self _)) (List.not_lt_nil u)
  firsts := by simp
  ordered := .nil
  has_iff t y h := by simpa [Marks.has_upTo] using hbound t y h

/-- What a route before the next one leads to comes before all that waits. -/
theorem Waits.lt_of_lt (h : Waits number part start marks found stack (r :: waiting)) {t : Route} (ht : t < r) :
    ∀ u ∈ r :: waiting, t < u := by
  intro u hu
  rcases List.mem_cons.1 hu with rfl | hu
  · exact ht
  · exact List.lt_trans ht ((List.pairwise_cons.1 h.sorted).1 u hu).1

/-- Only the next route leads on to one that comes before all the others. -/
theorem Waits.eq_head (h : Waits number part start marks found stack (r :: waiting)) {t u : Route}
    (ht : t ∈ r :: waiting) (htu : t <+: u) (hu : ∀ v ∈ waiting, u < v) : t = r := by
  rcases List.mem_cons.1 ht with rfl | ht
  · rfl
  · exact absurd (hu t ht) (List.not_lt.2 htu.le)

/-- A place with a mark is passed over. -/
theorem Waits.skip (hpart : Numbered part) (h : Waits number part start marks found (x :: stack) (r :: waiting))
    (hx : marks.has (number x) = true) : Waits number part start marks found stack waiting where
  leads := (List.forall₂_cons.1 h.leads).2
  sorted := (List.pairwise_cons.1 h.sorted).2
  covers u y hu := by
    rcases h.covers u y hu with ⟨t, ht, htu⟩ | hall
    · rcases List.mem_cons.1 ht with rfl | ht
      · obtain ⟨v, rfl⟩ := htu
        refine .inr fun w hw => ?_
        obtain ⟨hlt, hpre⟩ := (List.pairwise_cons.1 h.sorted).1 w hw
        exact append_lt hlt hpre v
      · exact .inl ⟨t, ht, htu⟩
    · exact .inr fun t ht => hall t (List.mem_cons_of_mem _ ht)
  forks t i ht := h.forks t i (List.mem_cons_of_mem _ ht)
  met u y hd hu hlt := by
    rcases h.covers u y hu with ⟨t, ht, htu⟩ | hall
    · -- What is reached behind the place is reached on an earlier route, too, since the place is.
      cases h.eq_head ht htu hlt
      obtain ⟨v, rfl⟩ := htu
      have hrx : Leads part start r x := (List.forall₂_cons.1 h.leads).1
      obtain ⟨s, hs, hsr⟩ := h.firsts x ((h.has_iff r x hrx).1 hx)
      obtain ⟨_, hsx, rfl⟩ := hs.leads
      obtain ⟨w, hwr, hw, hwy⟩ := hd.earlier hpart hu hrx hs.direct hsx (hsr r List.mem_cons_self)
      exact h.met w y hw hwy (h.lt_of_lt hwr)
    · exact h.met u y hd hu hall
  firsts y hy := by
    obtain ⟨t, ht, hlt⟩ := h.firsts y hy
    exact ⟨t, ht, fun u hu => hlt u (List.mem_cons_of_mem _ hu)⟩
  ordered := h.ordered
  has_iff := h.has_iff

/-- No direct route before the next one leads to a place without a mark. -/
theorem Waits.not_lt (h : Waits number part start marks found (x :: stack) (r :: waiting))
    (hx : ¬ marks.has (number x) = true) {t : Route} (ht : Direct part start t) (htx : Leads part start t x) :
    ¬ t < r :=
  fun hlt => hx ((h.has_iff t x htx).2 (h.met t x ht htx (h.lt_of_lt hlt)))

/-- A place without a mark waits at the end of the first direct route to it. -/
theorem Waits.first (hpart : Numbered part) (h : Waits number part start marks found (x :: stack) (r :: waiting))
    (hx : ¬ marks.has (number x) = true) : First part start (· = x) r := by
  have hrx : Leads part start r x := (List.forall₂_cons.1 h.leads).1
  refine ⟨?_, ⟨x, hrx, rfl⟩, ?_⟩
  · -- It branches off from a direct route, no part of which leads to a place that was not met.
    rcases List.eq_nil_or_concat' r with rfl | ⟨t, i, rfl⟩
    · exact direct_nil
    · have ht : Direct part start t := h.forks t i List.mem_cons_self
      refine ht.snoc hpart hrx fun u hu hux => h.not_lt hx (ht.of_prefix hu) hux ?_
      exact List.lt_of_le_of_lt hu.le (lt_append_iff.2 (.inr (.inl rfl)))
  · rintro t _ ht htx rfl
    exact h.not_lt hx ht htx

/-- A place without a mark is met, and its parts wait in its stead. -/
theorem Waits.visit (hpart : ∀ x i y, part x i y ↔ (next x)[i]? = some y) (hinj : Function.Injective number)
    (h : Waits number part start marks found (x :: stack) (r :: waiting)) (hx : ¬ marks.has (number x) = true) :
    Waits number part start (marks.mark (number x)) (found.push x) (next x ++ stack)
      (r.branches (next x).length ++ waiting) := by
  have hrx : Leads part start r x := (List.forall₂_cons.1 h.leads).1
  have hrest := List.pairwise_cons.1 h.sorted
  have hfirst : First part start (· = x) r := h.first (numbered_of_iff hpart) hx
  have hbefore {t : Route} (ht : t < r ∨ t = r) : ∀ u ∈ r.branches (next x).length ++ waiting, t < u := by
    intro u hu
    have hru : r < u := (List.mem_append.1 hu).elim lt_of_mem_branches fun hu => (hrest.1 u hu).1
    exact ht.elim (fun ht => List.lt_trans ht hru) fun ht => ht ▸ hru
  constructor
  case leads => exact List.rel_append (leads_branches hpart hrx) (List.forall₂_cons.1 h.leads).2
  case sorted =>
    refine List.pairwise_append.2 ⟨sorted_branches, hrest.2, fun t ht u hu => ?_⟩
    obtain ⟨i, -, rfl⟩ := mem_branches.1 ht
    obtain ⟨hlt, hpre⟩ := hrest.1 u hu
    exact ⟨append_lt hlt hpre [i], fun hiu => hpre ((List.prefix_append r [i]).trans hiu)⟩
  case covers =>
    intro u y hu
    rcases h.covers u y hu with ⟨t, ht, htu⟩ | hall
    · rcases List.mem_cons.1 ht with rfl | ht
      · rcases eq_or_branches hpart hrx hu htu with rfl | ⟨v, hv, hvu⟩
        · exact .inr (hbefore (.inr rfl))
        · exact .inl ⟨v, List.mem_append_left _ hv, hvu⟩
      · exact .inl ⟨t, List.mem_append_right _ ht, htu⟩
    · exact .inr (hbefore (.inl (hall r List.mem_cons_self)))
  case forks =>
    intro t i ht
    rcases List.mem_append.1 ht with ht | ht
    · obtain ⟨j, -, heq⟩ := mem_branches.1 ht
      obtain ⟨rfl, -⟩ := List.append_inj' heq rfl
      exact hfirst.direct
    · exact h.forks t i (List.mem_cons_of_mem _ ht)
  case met =>
    intro u y hd hu hlt
    rw [Array.mem_push]
    rcases h.covers u y hu with ⟨t, ht, htu⟩ | hall
    · -- Only the place itself lies before its parts.
      cases h.eq_head ht htu fun v hv => hlt v (List.mem_append_right _ hv)
      rcases eq_or_branches hpart hrx hu htu with rfl | ⟨v, hv, hvu⟩
      · exact .inr (hu.unique (numbered_of_iff hpart) hrx)
      · exact absurd (hlt v (List.mem_append_left _ hv)) (List.not_lt.2 hvu.le)
    · exact .inl (h.met u y hd hu hall)
  case firsts =>
    intro y hy
    rcases Array.mem_push.1 hy with hy | rfl
    · obtain ⟨t, ht, hlt⟩ := h.firsts y hy
      exact ⟨t, ht, hbefore (.inl (hlt r List.mem_cons_self))⟩
    · exact ⟨r, hfirst, hbefore (.inr rfl)⟩
  case ordered =>
    rw [Array.toList_push]
    refine List.pairwise_append.2 ⟨h.ordered, List.pairwise_singleton _ _, fun y hy z hz => ?_⟩
    obtain ⟨t, ht, hlt⟩ := h.firsts y (Array.mem_toList_iff.1 hy)
    cases List.mem_singleton.1 hz
    exact ⟨t, r, ht, hfirst, hlt r List.mem_cons_self⟩
  case has_iff =>
    intro t y ht
    rw [Marks.has_mark, Bool.or_eq_true, decide_eq_true_eq, h.has_iff t y ht, Array.mem_push, hinj.eq_iff, or_comm,
      eq_comm]

/-- A walk goes on until nothing waits. -/
theorem Waits.ends (hpart : ∀ x i y, part x i y ↔ (next x)[i]? = some y) (hinj : Function.Injective number)
    (h : Waits number part start marks found stack waiting) :
    ∃ met, Waits number part start met (walk number next marks found stack) [] [] := by
  fun_induction walk number next marks found stack generalizing waiting with
  | case1 marks found =>
    cases h.leads
    exact ⟨marks, h⟩
  | case2 marks found x stack hx ih =>
    obtain ⟨r, waiting, -, -, rfl⟩ := List.forall₂_cons_right_iff.1 h.leads
    exact ih (h.skip (numbered_of_iff hpart) hx)
  | case3 marks found x stack hx _ ih =>
    obtain ⟨r, waiting, -, -, rfl⟩ := List.forall₂_cons_right_iff.1 h.leads
    exact ih (h.visit hpart hinj hx)

/-- Where all that routes lead to lies below the bound, a walk meets it in the order of the first direct routes. -/
theorem Route.lists_walk {bound : Nat} (hpart : ∀ x i y, part x i y ↔ (next x)[i]? = some y)
    (hinj : Function.Injective number) (hbound : ∀ t y, Leads part start t y → number y < bound) :
    Lists part start (fun x y => x = y) (walk number next (.upTo bound) #[] [start]).toList := by
  obtain ⟨marks, h⟩ := (waits_start hbound).ends hpart hinj
  refine ⟨fun y => ?_, nodup_of_ordered h.ordered, h.ordered⟩
  rw [Array.mem_toList_iff]
  constructor
  · intro hy
    obtain ⟨t, ht, -⟩ := h.firsts y hy
    exact ⟨t, ht.leads⟩
  · rintro ⟨t, _, ht, rfl⟩
    obtain ⟨u, hu, huy⟩ := ht.exists_direct (numbered_of_iff hpart)
    exact h.met u _ hu huy (by simp)

end walk

/-! ## Values of places -/

section firsts

variable {β : Type} [BEq β] [LawfulBEq β] {items : List β} {b : β}

theorem firsts_concat : firsts (items ++ [b]) = if b ∈ firsts items then firsts items else firsts items ++ [b] := by
  simp only [firsts, List.foldl_append, List.foldl_cons, List.foldl_nil, Array.mem_toList_iff]
  by_cases hb : b ∈ items.foldl (fun kept item => if kept.contains item then kept else kept.push item) #[]
  · rw [if_pos (Array.contains_iff_mem.2 hb), if_pos hb]
  · rw [if_neg (mt Array.contains_iff_mem.1 hb), if_neg hb, Array.toList_push]

/-- The firsts of equal items stand as the items do. -/
theorem pairwise_firsts {R : β → β → Prop} (h : ∀ xs b ys c zs, items = xs ++ b :: (ys ++ c :: zs) → b ∉ xs →
    c ∉ xs ++ b :: ys → R b c) : (firsts items).Pairwise R := by
  induction items using List.reverseRecOn with
  | nil => exact .nil
  | append_singleton items item ih =>
    have hinit : (firsts items).Pairwise R := ih fun xs b ys c zs heq => h xs b ys c (zs ++ [item]) (by simp [heq])
    rw [firsts_concat]
    split
    · exact hinit
    · next hnew =>
      refine List.pairwise_append.2 ⟨hinit, List.pairwise_singleton _ _, fun b hb c hc => ?_⟩
      cases List.mem_singleton.1 hc
      obtain ⟨xs, ys, heq, hb⟩ := List.eq_append_cons_of_mem (mem_firsts.1 hb)
      rw [mem_firsts, heq] at hnew
      exact h xs b ys item [] (by simp [heq]) hb hnew

end firsts

namespace Route

variable {α β : Type} {part : α → Nat → α → Prop} {start y : α} {places before after : List α} {f : α → Option β}
  {b : β} {t : Route}

theorem exists_split_of_filterMap {bs cs : List β} (h : places.filterMap f = bs ++ b :: cs) :
    ∃ before y after, places = before ++ y :: after ∧ before.filterMap f = bs ∧ f y = some b ∧
      after.filterMap f = cs := by
  obtain ⟨first, rest, rfl, hbs, hrest⟩ := List.filterMap_eq_append_iff.1 h
  obtain ⟨without, y, after, rfl, hnone, hy, hcs⟩ := List.filterMap_eq_cons_iff.1 hrest
  refine ⟨first ++ without, y, after, by simp, ?_, hy, hcs⟩
  rw [List.filterMap_append, hbs, List.filterMap_eq_nil_iff.2 hnone, List.append_nil]

/-- The first place with a value in a list is the one that routes lead to first. -/
theorem Lists.first_of_split (h : Lists part start (fun x y => x = y) (before ++ y :: after)) (hy : f y = some b)
    (hb : b ∉ before.filterMap f) (ht : First part start (· = y) t) : First part start (f · = some b) t := by
  obtain ⟨_, hty, rfl⟩ := ht.leads
  refine ⟨ht.direct, ⟨_, hty, hy⟩, fun u z hu huz hz => ?_⟩
  rcases List.mem_append.1 ((h.mem_iff z).2 ⟨u, z, huz, rfl⟩) with hmem | hmem
  · exact absurd (List.mem_filterMap.2 ⟨z, hmem, hz⟩) hb
  · rcases List.mem_cons.1 hmem with rfl | hmem
    · exact ht.not_lt u z hu huz rfl
    · obtain ⟨t', v, ht', hv, hlt⟩ := (List.pairwise_cons.1 (List.pairwise_append.1 h.ordered).2.1).1 z hmem
      cases ht.unique ht'
      exact fun hut => hv.not_lt u z hu huz rfl (List.lt_trans hut hlt)

/-- The values of the places that a walk meets, each kept once, stand in the order of the routes to them. -/
theorem Lists.firsts [BEq β] [LawfulBEq β] (h : Lists part start (fun x y => x = y) places) (f : α → Option β) :
    Lists part start (fun y b => f y = some b) (firsts (places.filterMap f)) := by
  have hordered : (RelaxNg.firsts (places.filterMap f)).Pairwise fun b c =>
      Precedes part start (f · = some b) (f · = some c) := by
    refine pairwise_firsts fun xs b ys c zs heq hb hc => ?_
    obtain ⟨before, y, rest, rfl, rfl, hy, hrest⟩ := exists_split_of_filterMap heq
    obtain ⟨between, z, after, rfl, rfl, hz, -⟩ := exists_split_of_filterMap hrest
    obtain ⟨t, u, ht, hu, hlt⟩ := (List.pairwise_cons.1 (List.pairwise_append.1 h.ordered).2.1).1 z (by simp)
    refine ⟨t, u, h.first_of_split hy hb ht, ?_, hlt⟩
    have h' : Lists part start (fun x y => x = y) ((before ++ y :: between) ++ z :: after) := by simpa using h
    exact h'.first_of_split hz (by simpa [hy] using hc) hu
  refine ⟨fun b => ?_, nodup_of_ordered hordered, hordered⟩
  simp only [mem_firsts, List.mem_filterMap, h.mem_iff, exists_eq_right]
  grind

end Route

end RelaxNg
