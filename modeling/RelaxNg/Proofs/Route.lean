import Mathlib.Data.List.Induction

/-!
# Routes

A route names the part to take at each step, from places that have their parts in an order (`Route.Leads`). Routes are
ordered as a walk from left to right comes to them. Where parts lead back to a place, ever longer routes lead there, and
none of them need be the first. What counts as an occurrence is therefore the end of a direct route, which comes to no
place twice; where no place leads back to itself, all routes are direct (`Route.direct_of_acyclic`). What a route leads
to a direct route leads to (`Route.Leads.exists_direct`), and what is reached behind a place is reached on an earlier
direct route if the place is (`Route.Direct.earlier`).
-/

namespace RelaxNg

/-- Which part to take at each step. Routes are ordered as a walk comes to them: a route that branches off further left
is earlier, and so is a part of the way. -/
abbrev Route := List Nat

namespace Route

variable {t u : Route} {n : Nat}

/-- Before a branch come what is before the fork, the fork and the branches further left. -/
theorem lt_append_iff : u < t ++ [n] ↔ u < t ∨ u = t ∨ ∃ i < n, t ++ [i] <+: u := by
  induction t generalizing u with
  | nil =>
    cases u with
    | nil => simp
    | cons i u => simp [List.cons_lt_cons_iff, List.cons_prefix_cons]
  | cons j t ih =>
    cases u with
    | nil => simp
    | cons i u =>
      simp only [List.cons_append, List.cons_lt_cons_iff, List.cons_prefix_cons, List.cons.injEq, ih]
      grind

theorem lt_append_zero_iff : u < t ++ [0] ↔ u < t ∨ u = t := by
  simp [lt_append_iff]

theorem lt_append_succ_iff : u < t ++ [n + 1] ↔ u < t ++ [n] ∨ t ++ [n] <+: u := by
  simp only [lt_append_iff, Nat.lt_succ_iff_lt_or_eq]
  grind

/-- A route that branches off to the left stays to the left. -/
theorem append_lt_append (h : u < t) (hp : ¬ u <+: t) (v w : Route) : u ++ v < t ++ w := by
  induction u generalizing t with
  | nil => exact absurd List.nil_prefix hp
  | cons i u ih =>
    cases t with
    | nil => simp at h
    | cons j t =>
      simp only [List.cons_append, List.cons_lt_cons_iff, List.cons_prefix_cons, not_and] at h hp ⊢
      rcases h with h | ⟨rfl, h⟩
      · exact .inl h
      · exact .inr ⟨rfl, ih h (hp rfl)⟩

theorem append_lt (h : u < t) (hp : ¬ u <+: t) (v : Route) : u ++ v < t := by
  simpa using append_lt_append h hp v []

/-! ## What routes lead to -/

section parts

variable {α β : Type} {part : α → Nat → α → Prop} {start x y z : α} {s t u v : Route} {i : Nat} {P : α → Prop}

/-- A route leads from a place to another one; `part x i y` says that `y` is the part of `x` at `i`. -/
inductive Leads (part : α → Nat → α → Prop) : α → Route → α → Prop
  | nil (x : α) : Leads part x [] x
  | cons {x y z : α} {i : Nat} {t : Route} (h : part x i y) (rest : Leads part y t z) : Leads part x (i :: t) z

/-- A route comes to no place twice. -/
def Direct (part : α → Nat → α → Prop) (start : α) (t : Route) : Prop :=
  ∀ u v y, u <+: t → v <+: t → Leads part start u y → Leads part start v y → u = v

/-- A route is the first of the direct ones that lead to a place of some kind. -/
structure First (part : α → Nat → α → Prop) (start : α) (P : α → Prop) (t : Route) : Prop where
  direct : Direct part start t
  leads : ∃ y, Leads part start t y ∧ P y
  not_lt : ∀ u y, Direct part start u → Leads part start u y → P y → ¬ u < t

/-- Routes first lead to a place of one kind, and later to one of another kind. -/
def Precedes (part : α → Nat → α → Prop) (start : α) (P Q : α → Prop) : Prop :=
  ∃ t u, First part start P t ∧ First part start Q u ∧ t < u

/-- A list holds the values of the places that routes lead to, each once, in the order of the first direct routes to
them. -/
structure Lists (part : α → Nat → α → Prop) (start : α) (value : α → β → Prop) (values : List β) : Prop where
  mem_iff : ∀ b, b ∈ values ↔ ∃ t y, Leads part start t y ∧ value y b
  nodup : values.Nodup
  ordered : values.Pairwise fun b c => Precedes part start (value · b) (value · c)

theorem leads_append_iff : Leads part x (t ++ u) z ↔ ∃ y, Leads part x t y ∧ Leads part y u z := by
  induction t generalizing x with
  | nil =>
    constructor
    · exact fun h => ⟨x, .nil x, h⟩
    · rintro ⟨y, ⟨⟩, h⟩
      exact h
  | cons i t ih =>
    constructor
    · rintro (_ | ⟨hp, h⟩)
      obtain ⟨y, ht, hu⟩ := ih.1 h
      exact ⟨y, .cons hp ht, hu⟩
    · rintro ⟨y, _ | ⟨hp, ht⟩, hu⟩
      exact .cons hp (ih.2 ⟨y, ht, hu⟩)

theorem leads_snoc_iff : Leads part x (t ++ [i]) z ↔ ∃ y, Leads part x t y ∧ part y i z := by
  rw [leads_append_iff]
  refine exists_congr fun y => and_congr_right fun _ => ?_
  constructor
  · rintro (_ | ⟨hp, ⟨⟩⟩)
    exact hp
  · exact fun hp => .cons hp (.nil z)

theorem direct_nil : Direct part start [] := fun u v _ hu hv _ _ => by
  rw [List.prefix_nil.1 hu, List.prefix_nil.1 hv]

theorem Direct.of_prefix (h : Direct part start t) (hu : u <+: t) : Direct part start u :=
  fun v w y hv hw => h v w y (hv.trans hu) (hw.trans hu)

/-- A kind of places has one first route. -/
theorem First.unique (ht : First part start P t) (hu : First part start P u) : t = u := by
  obtain ⟨y, hy, hPy⟩ := ht.leads
  obtain ⟨z, hz, hPz⟩ := hu.leads
  exact List.le_antisymm (ht.not_lt u z hu.direct hz hPz) (hu.not_lt t y ht.direct hy hPy)

theorem nodup_of_ordered {value : α → β → Prop} {values : List β}
    (h : values.Pairwise fun b c => Precedes part start (value · b) (value · c)) : values.Nodup := by
  refine h.imp ?_
  rintro b _ ⟨t, u, ht, hu, hlt⟩ rfl
  exact List.lt_irrefl t (hu.unique ht ▸ hlt)

/-! ### Places with one part at each number -/

/-- A place has at most one part at each number. -/
def Numbered (part : α → Nat → α → Prop) : Prop := ∀ x i y z, part x i y → part x i z → y = z

variable (hpart : Numbered part)
include hpart

theorem Leads.unique (hy : Leads part x t y) (hz : Leads part x t z) : y = z := by
  induction hy with
  | nil =>
    cases hz
    rfl
  | cons h _ ih =>
    rcases hz with _ | ⟨h', hz⟩
    cases hpart _ _ _ _ h h'
    exact ih hz

/-- Where no route leads from a place back to it, all routes are direct. -/
theorem direct_of_acyclic (h : ∀ u x v, Leads part start u x → Leads part x v x → v = []) : Direct part start t := by
  have heq {u v : Route} {y : α} (hp : u <+: v) (hu : Leads part start u y) (hv : Leads part start v y) : u = v := by
    obtain ⟨w, rfl⟩ := hp
    obtain ⟨x, hx, hw⟩ := leads_append_iff.1 hv
    cases hx.unique hpart hu
    rw [h u _ w hu hw, List.append_nil]
  intro u v y hu hv huy hvy
  rcases List.prefix_or_prefix_of_prefix hu hv with hp | hp
  · exact heq hp huy hvy
  · exact (heq hp hvy huy).symm

theorem Direct.snoc (ht : Direct part start t) (hy : Leads part start (t ++ [i]) y)
    (hnew : ∀ u, u <+: t → ¬ Leads part start u y) : Direct part start (t ++ [i]) := by
  intro u v z hu hv huz hvz
  rcases List.prefix_concat_iff.1 hu with rfl | hu <;> rcases List.prefix_concat_iff.1 hv with rfl | hv
  · rfl
  · exact absurd (huz.unique hpart hy ▸ hvz) (hnew v hv)
  · exact absurd (hvz.unique hpart hy ▸ huz) (hnew u hu)
  · exact ht u v z hu hv huz hvz

/-- To a part of a place at the end of a direct route leads that route with one step more, or a part of it. -/
theorem Direct.exists_snoc (ht : Direct part start t) (hy : Leads part start (t ++ [i]) y) :
    ∃ u, Direct part start u ∧ Leads part start u y ∧ (u = t ++ [i] ∨ u <+: t) := by
  by_cases h : ∃ u, u <+: t ∧ Leads part start u y
  · obtain ⟨u, hu, huy⟩ := h
    exact ⟨u, ht.of_prefix hu, huy, .inr hu⟩
  · exact ⟨t ++ [i], ht.snoc hpart hy fun u hu huy => h ⟨u, hu, huy⟩, hy, .inl rfl⟩

theorem Leads.exists_direct (h : Leads part start t y) : ∃ u, Direct part start u ∧ Leads part start u y := by
  induction t using List.reverseRecOn generalizing y with
  | nil => exact ⟨[], direct_nil, h⟩
  | append_singleton t i ih =>
    obtain ⟨x, hx, hxy⟩ := leads_snoc_iff.1 h
    obtain ⟨u, hu, hux⟩ := ih hx
    obtain ⟨v, hv, hvy, -⟩ := hu.exists_snoc hpart (leads_snoc_iff.2 ⟨x, hux, hxy⟩)
    exact ⟨v, hv, hvy⟩

/-- What is reached directly behind a place is reached on an earlier direct route if the place is. -/
theorem Direct.earlier (h : Direct part start (t ++ v)) (hy : Leads part start (t ++ v) y)
    (ht : Leads part start t x) (hs : Direct part start s) (hsx : Leads part start s x) (hlt : s < t) :
    ∃ u < t, Direct part start u ∧ Leads part start u y := by
  induction v using List.reverseRecOn generalizing y with
  | nil =>
    rw [List.append_nil] at hy
    exact ⟨s, hlt, hs, ht.unique hpart hy ▸ hsx⟩
  | append_singleton v i ih =>
    rw [← List.append_assoc] at h hy
    obtain ⟨z, hz, hzy⟩ := leads_snoc_iff.1 hy
    have hinit : t ++ v <+: t ++ v ++ [i] := List.prefix_append _ _
    obtain ⟨w, hwt, hw, hwz⟩ := ih (h.of_prefix hinit) hz
    -- the earlier route branches off from the later one, which comes to that place only once
    have hpre : ¬ w <+: t := by
      intro hp
      have hwhole : w = t ++ v := h w (t ++ v) z ((hp.trans (List.prefix_append t v)).trans hinit) hinit hwz hz
      exact List.not_lt.2 List.le_append_left (hwhole ▸ hwt)
    obtain ⟨u, hu, huy, rfl | hpu⟩ := hw.exists_snoc hpart (leads_snoc_iff.2 ⟨z, hwz, hzy⟩)
    · exact ⟨_, append_lt hwt hpre [i], hu, huy⟩
    · exact ⟨u, List.lt_of_le_of_lt hpu.le hwt, hu, huy⟩

end parts

end Route

end RelaxNg
