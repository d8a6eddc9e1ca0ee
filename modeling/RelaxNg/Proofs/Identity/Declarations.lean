import RelaxNg.Grammar.Identity
import RelaxNg.Proofs.Schema

/-!
# Collected declarations

What is collected of identity types is a set of declarations: a name, or a pair of names, has a type or is without one
(`Declarations.Tells`, `Collected.TellsAttribute`, `Collected.TellsElement`). A name class with a wildcard declares all
its names to be without a type. Each step of the collection adds the declarations of the pattern it is about and nothing
else, and it is refused for a conflict exactly where one of them contradicts what was declared before. A fold of such
steps is followed by what it leaves of the items done so far (`foldlM_invariant`).
-/

namespace RelaxNg

/-- What every step keeps that goes well holds in the end of all items. A fold that fails has an item at which it held
of those before. -/
theorem foldlM_invariant {ε σ α : Type} {f : σ → α → Except ε σ} (I : List α → σ → Prop) (items : List α) (s : σ)
    (h0 : I [] s) (hstep : ∀ done x s s', x ∈ items → I done s → f s x = .ok s' → I (done ++ [x]) s') :
    (∀ s', items.foldlM f s = .ok s' → I items s') ∧ ∀ v, items.foldlM f s = .error v →
      ∃ done x s', (∀ y ∈ done, y ∈ items) ∧ x ∈ items ∧ I done s' ∧ f s' x = .error v := by
  suffices key : ∀ rest done s, I done s → (∀ y ∈ done ++ rest, y ∈ items) →
      (∀ s', rest.foldlM f s = .ok s' → I (done ++ rest) s') ∧ ∀ v, rest.foldlM f s = .error v →
        ∃ done x s', (∀ y ∈ done, y ∈ items) ∧ x ∈ items ∧ I done s' ∧ f s' x = .error v from
    key items [] s h0 fun _ => id
  intro rest
  induction rest with
  | nil =>
    intro done s hs _
    refine ⟨fun s' h => ?_, fun v h => by cases h⟩
    cases h
    rwa [List.append_nil]
  | cons x rest ih =>
    intro done s hs hsub
    have hx : x ∈ items := hsub x (by simp)
    rw [List.foldlM_cons]
    cases hfx : f s x with
    | error v =>
      refine ⟨fun s' h => (by cases h), fun v' h => ?_⟩
      cases h
      exact ⟨done, x, s, fun y hy => hsub y (List.mem_append_left _ hy), hx, hs, hfx⟩
    | ok s' =>
      have hnext := ih (done ++ [x]) s' (hstep done x s s' hx hs hfx) (by simpa using hsub)
      rw [List.append_assoc] at hnext
      exact hnext

theorem exists_step_of_foldlM_ok {ε σ α : Type} {f : σ → α → Except ε σ} {items : List α} {s s' : σ}
    (h : items.foldlM f s = .ok s') {x : α} (hx : x ∈ items) : ∃ t t', f t x = .ok t' := by
  refine (foldlM_invariant (fun done _ => ∀ x ∈ done, ∃ t t', f t x = .ok t') items s (by simp) ?_).1 s' h x hx
  intro done y t t' _ hd hy z hz
  rcases List.mem_append.1 hz with hz | hz
  · exact hd z hz
  · exact List.mem_singleton.1 hz ▸ ⟨t, t', hy⟩

theorem forM_eq_foldlM {ε α : Type} (f : α → Except ε Unit) (items : Array α) :
    items.forM f = items.toList.foldlM (fun _ => f) () :=
  Array.foldlM_toList.symm

theorem ok_of_forM_ok {ε α : Type} {f : α → Except ε Unit} {items : Array α} (h : items.forM f = .ok ()) {x : α}
    (hx : x ∈ items) : f x = .ok () := by
  rw [forM_eq_foldlM] at h
  obtain ⟨_, _, hfx⟩ := exists_step_of_foldlM_ok h (Array.mem_toList_iff.2 hx)
  exact hfx

theorem exists_error_of_forM_error {ε α : Type} {f : α → Except ε Unit} {items : Array α} {v : ε}
    (h : items.forM f = .error v) : ∃ x ∈ items, f x = .error v := by
  rw [forM_eq_foldlM] at h
  obtain ⟨_, x, _, _, hx, -, hfx⟩ :=
    (foldlM_invariant (fun _ _ => True) _ _ trivial fun _ _ _ _ _ _ _ => trivial).2 v h
  exact ⟨x, Array.mem_toList_iff.1 hx, hfx⟩

theorem bind_eq_error_iff {ε α β : Type} {x : Except ε α} {f : α → Except ε β} {v : ε} :
    x >>= f = .error v ↔ x = .error v ∨ ∃ a, x = .ok a ∧ f a = .error v := by
  cases x <;> simp [bind, Except.bind]

theorem map_eq_ok_iff {ε α β : Type} {x : Except ε α} {f : α → β} {b : β} :
    x.map f = .ok b ↔ ∃ a, x = .ok a ∧ f a = b := by
  cases x with
  | error v => exact ⟨fun h => (by cases h), fun ⟨_, h, _⟩ => (by cases h)⟩
  | ok a => exact ⟨fun h => ⟨a, rfl, Except.ok.inj h⟩, fun ⟨_, h, hb⟩ => by cases h; exact congrArg Except.ok hb⟩

theorem map_eq_error_iff {ε α β : Type} {x : Except ε α} {f : α → β} {v : ε} : x.map f = .error v ↔ x = .error v := by
  cases x with
  | error w => exact ⟨fun h => congrArg Except.error (Except.error.inj h), fun h => by cases h; rfl⟩
  | ok a => exact ⟨fun h => (by cases h), fun h => (by cases h)⟩

namespace NameClass

variable {nc : NameClass} {n : QName}

theorem contains_iff_of_not_open (h : nc.isOpen = false) : nc.contains n = true ↔ n ∈ nc.singleNames := by
  induction nc with
  | name m =>
    rw [contains, singleNames, List.mem_singleton, beq_iff_eq]
    exact eq_comm
  | choice left right ihl ihr =>
    rw [isOpen, Bool.or_eq_false_iff] at h
    rw [contains, Bool.or_eq_true, ihl h.1, ihr h.2, singleNames, List.mem_append]
  | any | anyExcept | ofNamespace | ofNamespaceExcept => cases h

theorem exists_contains_of_not_open (h : nc.isOpen = false) : ∃ n, nc.contains n = true := by
  induction nc with
  | name m => exact ⟨m, beq_self_eq_true m⟩
  | choice left right ihl _ =>
    rw [isOpen, Bool.or_eq_false_iff] at h
    obtain ⟨n, hn⟩ := ihl h.1
    exact ⟨n, by rw [contains, hn, Bool.true_or]⟩
  | any | anyExcept | ofNamespace | ofNamespaceExcept => cases h

theorem simpleNames?_eq_none_iff : nc.simpleNames? = none ↔ nc.isOpen = true := by
  unfold simpleNames?
  split <;> simp_all

theorem mem_simpleNames {names : List QName} (h : nc.simpleNames? = some names) :
    n ∈ names ↔ nc.contains n = true := by
  have hclosed : nc.isOpen = false := by
    by_contra hopen
    rw [simpleNames?_eq_none_iff.2 (by simpa using hopen)] at h
    cases h
  rw [contains_iff_of_not_open hclosed]
  rw [simpleNames?, hclosed] at h
  cases h
  suffices key : ∀ singles kept : List QName, n ∈ singles.foldl (fun names n => if names.contains n then names
      else names ++ [n]) kept ↔ n ∈ kept ∨ n ∈ singles by simpa using key nc.singleNames []
  intro singles
  induction singles with
  | nil => simp
  | cons m singles ih =>
    intro kept
    rw [List.foldl_cons, ih, List.mem_cons]
    split
    · next hm =>
      have hmem : n = m → n ∈ kept := fun h => h ▸ by simpa using hm
      tauto
    · rw [List.mem_append, List.mem_singleton, or_assoc]

end NameClass

namespace IdentityCollection

/-! ## Declarations -/

section Declarations

variable {κ : Type} {ds ds' : Declarations κ} {key : κ} {type : Option IdentityType} {location : Option Location}

/-- A type is declared for a key. -/
def Declarations.Tells (ds : Declarations κ) (key : κ) (type : Option IdentityType) : Prop :=
  ∃ d ∈ ds, d.key = key ∧ d.type = type

/-- The declarations of a key agree. -/
def Declarations.Single (ds : Declarations κ) : Prop := ∀ key t t', ds.Tells key t → ds.Tells key t' → t = t'

theorem Declarations.tells_push {d : Declared κ} :
    Declarations.Tells (ds.push d) key type ↔ ds.Tells key type ∨ d.key = key ∧ d.type = type := by
  simp only [Tells, Array.mem_push, or_and_right, exists_or, exists_eq_left]

theorem refuseTaken_ok {takes : κ → Bool} {t : IdentityType} (h : refuseTaken ds takes location = .ok ())
    (hkey : takes key = true) : ¬ ds.Tells key (some t) := by
  rintro ⟨d, hd, rfl, ht⟩
  unfold refuseTaken at h
  split at h
  · cases h
  · next hnone => simpa [ht, hkey] using Array.find?_eq_none.1 hnone d hd

theorem refuseTaken_error {takes : κ → Bool} {v : Violation} (h : refuseTaken ds takes location = .error v) :
    ∃ key t, takes key = true ∧ ds.Tells key (some t) := by
  unfold refuseTaken at h
  split at h
  · next d hd =>
    have hd' := Array.find?_some hd
    rw [Bool.and_eq_true, Option.isSome_iff_exists] at hd'
    obtain ⟨⟨t, ht⟩, hkey⟩ := hd'
    exact ⟨d.key, t, hkey, d, Array.mem_of_find?_eq_some hd, rfl, ht⟩
  · cases h

/-- The declarations of a key agree with being without a type where no taken key has one. -/
theorem Declarations.Single.unique {taken : Prop} {t t' : Option IdentityType} (hs : ds.Single)
    (htaken : taken → ∀ t, ¬ ds.Tells key (some t)) (h : ds.Tells key t ∨ t = none ∧ taken)
    (h' : ds.Tells key t' ∨ t' = none ∧ taken) : t = t' := by
  have none_of_taken {t : Option IdentityType} (ht : ds.Tells key t) (hk : taken) : t = none := by
    cases t with
    | none => rfl
    | some t => exact absurd ht (htaken hk t)
  rcases h with h | ⟨rfl, hk⟩ <;> rcases h' with h' | ⟨rfl, hk'⟩
  · exact hs key t t' h h'
  · exact none_of_taken h hk'
  · exact (none_of_taken h' hk).symm
  · rfl

variable [BEq κ] [LawfulBEq κ]

theorem Declarations.add_ok (hs : ds.Single) (h : ds.add key type location = .ok ds') :
    ds'.Single ∧ ∀ k t, ds'.Tells k t ↔ ds.Tells k t ∨ k = key ∧ t = type := by
  have hadd : (∀ t, ds.Tells key t → t = type) ∧ ∀ k t, ds'.Tells k t ↔ ds.Tells k t ∨ k = key ∧ t = type := by
    unfold add at h
    split at h
    · next hnone =>
      cases h
      refine ⟨fun t ht => ?_, fun k t => ?_⟩
      · obtain ⟨d, hd, hkey, -⟩ := ht
        exact absurd (by simpa using hkey) (Array.find?_eq_none.1 hnone d hd)
      · rw [tells_push]
        exact or_congr_right (and_congr eq_comm eq_comm)
    · next d hd =>
      split at h
      · next htype =>
        cases h
        have hkey : ds.Tells key type := ⟨d, Array.mem_of_find?_eq_some hd, by simpa using Array.find?_some hd, htype⟩
        refine ⟨fun t ht => hs key t type ht hkey, fun k t => ⟨.inl, ?_⟩⟩
        rintro (ht | ⟨rfl, rfl⟩)
        · exact ht
        · exact hkey
      · cases h
  refine ⟨fun k t t' ht ht' => ?_, hadd.2⟩
  rcases (hadd.2 k t).1 ht with ht | ⟨rfl, rfl⟩
  · rcases (hadd.2 k t').1 ht' with ht' | ⟨rfl, rfl⟩
    · exact hs k t t' ht ht'
    · exact hadd.1 t ht
  · rcases (hadd.2 k t').1 ht' with ht' | ⟨-, rfl⟩
    · exact (hadd.1 t' ht').symm
    · rfl

theorem Declarations.add_error {v : Violation} (h : ds.add key type location = .error v) :
    ∃ t, t ≠ type ∧ ds.Tells key t := by
  unfold add at h
  split at h
  · cases h
  · next d hd =>
    split at h
    · cases h
    · next htype => exact ⟨d.type, htype, d, Array.mem_of_find?_eq_some hd, by simpa using Array.find?_some hd, rfl⟩

/-- Adding one type for many keys tells it of each of them, unless one has another. -/
theorem Declarations.foldlM_add {keys : List κ} (hs : ds.Single) :
    (∀ ds', keys.foldlM (fun ds key => add ds key type location) ds = .ok ds' →
      ds'.Single ∧ ∀ k t, ds'.Tells k t ↔ ds.Tells k t ∨ k ∈ keys ∧ t = type) ∧
    ∀ v, keys.foldlM (fun ds key => add ds key type location) ds = .error v →
      ∃ key ∈ keys, ∃ t, t ≠ type ∧ ds.Tells key t := by
  have hfold := foldlM_invariant (f := fun ds key => add ds key type location)
    (fun done ds' => ds'.Single ∧ ∀ k t, ds'.Tells k t ↔ ds.Tells k t ∨ k ∈ done ∧ t = type) keys ds
    ⟨hs, by simp⟩ fun done key ds₁ ds₂ _ hI hadd => by
      obtain ⟨hsingle, htells⟩ := add_ok hI.1 hadd
      refine ⟨hsingle, fun k t => ?_⟩
      rw [htells, hI.2, List.mem_append, List.mem_singleton, or_and_right, or_assoc]
  refine ⟨hfold.1, fun v hv => ?_⟩
  obtain ⟨done, key, ds₁, -, hkey, hI, hadd⟩ := hfold.2 v hv
  obtain ⟨t, ht, htells⟩ := add_error hadd
  exact ⟨key, hkey, t, ht, ((hI.2 key t).1 htells).resolve_right fun h => ht h.2⟩

/-- The types that are left are the declared ones. -/
theorem find?_typed (hs : ds.Single) {t : IdentityType} :
    ((typed ds).find? fun entry => entry.1 == key).map Prod.snd = some t ↔ ds.Tells key (some t) := by
  have hmem : ∀ k t, (k, t) ∈ typed ds ↔ ds.Tells k (some t) := by
    intro k t
    simp only [typed, List.mem_filterMap, Option.map_eq_some_iff, Declarations.Tells, Array.mem_toList_iff]
    constructor
    · rintro ⟨d, hd, t', ht', heq⟩
      cases heq
      exact ⟨d, hd, rfl, ht'⟩
    · rintro ⟨d, hd, rfl, ht⟩
      exact ⟨d, hd, t, ht, rfl⟩
  rw [Option.map_eq_some_iff]
  constructor
  · rintro ⟨entry, hfind, rfl⟩
    have hkey : entry.1 = key := by simpa using List.find?_some hfind
    exact hkey ▸ (hmem _ _).1 (List.mem_of_find?_eq_some hfind)
  · intro ht
    cases hfind : (typed ds).find? fun entry => entry.1 == key with
    | none => simpa using List.find?_eq_none.1 hfind _ ((hmem key t).2 ht)
    | some entry =>
      have hkey : entry.1 = key := by simpa using List.find?_some hfind
      have hentry := (hmem entry.1 entry.2).1 (List.mem_of_find?_eq_some hfind)
      exact ⟨entry, rfl, Option.some.inj (hs _ _ _ (hkey ▸ hentry) ht)⟩

end Declarations

end IdentityCollection

end RelaxNg
