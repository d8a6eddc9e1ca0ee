import RelaxNg.Proofs.Validation.Values
import RelaxNg.Validation.SchemaValidator

/-!
# Integrity of identities

A validator of identities whose receiver goes on reports an error in a document exactly if the document has no integrity
(`SchemaValidation.hadError_iff_integrity`). What is malformed and what is declared twice is reported at once, and what
is declared and referred to is kept for the end. So as long as nothing was reported, what the tracker keeps is what the
values so far declare and refer to (`IdentityTracker.Told`); from the first report on it does not matter any more. The
value of an open element waits on a stack, where only the text directly in the element reaches it, and an element with
all that is in it leaves the stack as it was (`SchemaValidation.follow_nested`).
-/

namespace RelaxNg

variable {values : List TypedValue} {v : TypedValue} {token value : String} {type : IdentityType}

namespace Attempt

variable {σ α : Type}

/-- What every step of a loop establishes for one item more, without an error, the loop establishes for all. -/
theorem forM_invariant (f : α → Attempt σ Unit) (I : List α → σ → Prop) (items : List α) (s : σ) (h0 : I [] s)
    (hstep : ∀ done x s, x ∈ items → I done s → ∃ s', (f x).runFrom s = (.ok (), s') ∧ I (done ++ [x]) s') :
    ∃ s', (items.forM f).runFrom s = (.ok (), s') ∧ I items s' := by
  suffices key : ∀ rest done s, I done s → (∀ x ∈ rest, x ∈ items) →
      ∃ s', (rest.forM f).runFrom s = (.ok (), s') ∧ I (done ++ rest) s' from key items [] s h0 fun _ => id
  intro rest
  induction rest with
  | nil => exact fun done s hs _ => ⟨s, rfl, by rwa [List.append_nil]⟩
  | cons x rest ih =>
    intro done s hs hsub
    rw [List.forall_mem_cons] at hsub
    obtain ⟨t, ht, hI⟩ := hstep done x s hsub.1 hs
    obtain ⟨u, hu, hI⟩ := ih (done ++ [x]) t hI hsub.2
    rw [List.append_assoc] at hI
    exact ⟨u, runFrom_then_ok.2 ⟨t, ht, hu⟩, hI⟩

end Attempt

namespace Context

/-- The receiver goes on whatever it is told. -/
def GoesOn (c : Context) : Prop := ∀ issued d, c.reports.receiver.answer issued d = .ok ()

/-- The context after a diagnostic. -/
def told (c : Context) (d : Diagnostic) : Context := { c with reports := c.reports.push d }

def toldAll (c : Context) (ds : List Diagnostic) : Context := ds.foldl told c

/-- What was issued from one context to another. -/
def since (earlier later : Context) : List Diagnostic := later.reports.issued.toList.drop earlier.reports.issued.size

variable {c : Context}

theorem GoesOn.issue (h : c.GoesOn) (d : Diagnostic) : (issue d).runFrom c = (.ok (), c.told d) := by
  change (c.reports.receiver.answer c.reports.issued d, c.told d) = _
  rw [h]

theorem GoesOn.toldAll (h : c.GoesOn) (ds : List Diagnostic) : (c.toldAll ds).GoesOn := by
  induction ds generalizing c with
  | nil => exact h
  | cons d ds ih => exact ih (c := c.told d) h

theorem location_toldAll (c : Context) (ds : List Diagnostic) : (c.toldAll ds).location = c.location := by
  induction ds generalizing c with
  | nil => rfl
  | cons d ds ih => exact ih (c.told d)

theorem issued_toldAll (c : Context) (ds : List Diagnostic) :
    (c.toldAll ds).reports.issued.toList = c.reports.issued.toList ++ ds := by
  induction ds generalizing c with
  | nil => simp [toldAll]
  | cons d ds ih => simpa [toldAll, told, Reports.push] using ih (c.told d)

theorem since_toldAll (c : Context) (ds : List Diagnostic) : c.since (c.toldAll ds) = ds := by
  rw [since, issued_toldAll, ← Array.length_toList, List.drop_left]

theorem toldAll_append (c : Context) (ds ds' : List Diagnostic) :
    c.toldAll (ds ++ ds') = (c.toldAll ds).toldAll ds' := List.foldl_append

theorem enter_runFrom {attributes : Nat} (hlevel : c.level + 1 ≤ c.limits.maxXmlDepth)
    (hattributes : attributes ≤ c.limits.maxAttributes) :
    (enter attributes).runFrom c = (.ok (), { c with level := c.level + 1 }) := by
  have hdepth : c.limits.check .xmlDepth (c.level + 1) = .ok () := if_neg (Nat.not_lt.2 hlevel)
  have hnumber : c.limits.check .attributes attributes = .ok () := if_neg (Nat.not_lt.2 hattributes)
  unfold enter
  rw [Attempt.runFrom_modify_then, Attempt.runFrom_get_then]
  dsimp only
  rw [hdepth, hnumber]
  rfl

end Context

namespace IdentityTracker

/-! ## What a tracker keeps -/

/-- What stays as it is while values are checked. -/
structure Stands (types : IdentityMap) (limits : Limits) (level : Nat) (stack : List (Option OpenValue))
    (s : Context × IdentityTracker) : Prop where
  goesOn : s.1.GoesOn
  limits : s.1.limits = limits
  level : s.1.level = level
  types : s.2.types = types
  values : s.2.values = stack

/-- No error was reported exactly if the values so far are fine, and then what they declare and refer to is kept. -/
structure Told (done : List TypedValue) (s : Context × IdentityTracker) : Prop where
  hadError : s.1.hadError = false ↔ Fine done
  declared : Fine done → s.2.declared.map Prod.fst = declaredIn done
  references : Fine done → ∀ token, token ∈ s.2.references.map Prod.fst ↔ token ∈ referredIn done
  located : ∀ entry ∈ s.2.references, entry.2 ≠ []

variable {types : IdentityMap} {limits : Limits} {level : Nat} {stack : List (Option OpenValue)}
  {s s' : Context × IdentityTracker} {t : IdentityTracker} {done : List TypedValue} {location : Option Location}
  {references : List (String × List (Option Location))} {name : QName} {d : Diagnostic}

theorem mem_addReference : value ∈ (addReference token location references).map Prod.fst ↔
    value ∈ references.map Prod.fst ∨ value = token := by
  induction references with
  | nil => simp [addReference]
  | cons entry rest ih =>
    unfold addReference
    split
    · next heq =>
      subst heq
      simp only [List.map_cons, List.mem_cons]
      tauto
    · simp only [List.map_cons, List.mem_cons, ih, or_assoc]

theorem located_addReference (h : ∀ entry ∈ references, entry.2 ≠ []) :
    ∀ entry ∈ addReference token location references, entry.2 ≠ [] := by
  induction references with
  | nil => simp [addReference]
  | cons entry rest ih =>
    rw [List.forall_mem_cons] at h
    unfold addReference
    split
    · exact List.forall_mem_cons.2 ⟨by simp, h.2⟩
    · exact List.forall_mem_cons.2 ⟨h.1, ih h.2⟩

theorem isDeclared_iff : t.isDeclared token = true ↔ token ∈ t.declared.map Prod.fst := by
  simp [isDeclared]

theorem declaration?_eq_none_iff : t.declaration? token = none ↔ token ∉ t.declared.map Prod.fst := by
  simp only [declaration?, Option.map_eq_none_iff, List.find?_eq_none, List.mem_map, not_exists, not_and, beq_iff_eq]

theorem identity?_eq_some_iff :
    identity? value = some token ↔ Xml.tokens value = [token] ∧ Xml.isNCName token = true := by
  unfold identity? Xml.singleToken?
  split
  · next heq => simp [heq, Option.filter_eq_some_iff]
  · next hne =>
    simp only [Option.filter_none, reduceCtorEq, false_iff]
    exact fun h => hne _ h.1

instance (v : TypedValue) : Decidable (WellFormed v) :=
  have h (value : String) : (identity? value).isSome = true ↔
      ∃ token, Xml.tokens value = [token] ∧ Xml.isNCName token = true := by
    simp only [Option.isSome_iff_exists, identity?_eq_some_iff]
  match v with
  | (.id, value) => decidable_of_iff _ (h value)
  | (.idref, value) => decidable_of_iff _ (h value)
  | (.idrefs, value) => inferInstanceAs (Decidable (Xml.tokens value ≠ [] ∧ ∀ _ ∈ _, _ = true))

instance (values : List TypedValue) : Decidable (Integrity values) :=
  decidable_of_iff (((∀ v ∈ values, WellFormed v) ∧ (declaredIn values).Nodup) ∧ _) integrity_iff.symm

theorem Stands.issue (hs : Stands types limits level stack s) (d : Diagnostic) :
    (onContext (Context.issue d)).runFrom s = (.ok (), s.1.told d, s.2) ∧
      Stands types limits level stack (s.1.told d, s.2) := by
  constructor
  · change (((Context.issue d).runFrom s.1).1, ((Context.issue d).runFrom s.1).2, s.2) = _
    rw [hs.goesOn.issue]
  · exact ⟨hs.goesOn, hs.limits, hs.level, hs.types, hs.values⟩

theorem hadError_told (c : Context) : (c.told d).hadError = (c.hadError || d.isError) := rfl

theorem Told.fail (h : Told done s) {done' : List TypedValue} (hf : ¬ Fine done') (he : s'.1.hadError = true)
    (hr : s'.2.references = s.2.references) : Told done' s' := by
  refine ⟨iff_of_false (by simp [he]) hf, fun h' => absurd h' hf, fun h' => absurd h' hf, ?_⟩
  rw [hr]
  exact h.located

/-- A value that declares nothing counts by its form and by the tokens that it refers to. -/
theorem Told.refer (h : Told done s) (hv : v.1 ≠ .id)
    (he : s'.1.hadError = false ↔ s.1.hadError = false ∧ WellFormed v) (hd : s'.2.declared = s.2.declared)
    (hr : WellFormed v → ∀ token, token ∈ s'.2.references.map Prod.fst ↔
      token ∈ s.2.references.map Prod.fst ∨ token ∈ Xml.tokens v.2)
    (hl : ∀ entry ∈ s'.2.references, entry.2 ≠ []) : Told (done ++ [v]) s' := by
  have hnone : declaredIn [v] = [] := by simp [declaredIn, hv]
  have hfine : Fine (done ++ [v]) ↔ Fine done ∧ WellFormed v := by
    rw [fine_concat, hnone]
    simp
  refine ⟨?_, fun hf => ?_, fun hf token => ?_, hl⟩
  · rw [he, h.hadError, hfine]
  · rw [hd, h.declared (hfine.1 hf).1, declaredIn_concat, hnone, List.append_nil]
  · rw [hr (hfine.1 hf).2, h.references (hfine.1 hf).1, referredIn_concat, List.mem_append]
    simp [referredIn, hv]

/-! ## Steps -/

theorem declare_told (hs : Stands types limits level stack s) (h : Told done s)
    (ht : Xml.tokens value = [token]) (hn : Xml.isNCName token = true) : ∃ s',
    (declare token location).runFrom s = (.ok (), s') ∧ Stands types limits level stack s' ∧
      Told (done ++ [(.id, value)]) s' := by
  have hdeclares : declaredIn [(.id, value)] = [token] := by simp [declaredIn, ht]
  have hfine : Fine (done ++ [(.id, value)]) ↔ Fine done ∧ token ∉ declaredIn done := by
    rw [fine_concat, hdeclares, List.disjoint_singleton]
    simp [WellFormed, ht, hn]
  unfold declare
  rw [Attempt.runFrom_get_then]
  cases hd : s.2.declaration? token with
  | some first =>
    obtain ⟨he, hs₁⟩ := hs.issue ⟨.error, "ID \"" ++ token ++ "\" has already been defined", location⟩
    obtain ⟨hw, hs₂⟩ := hs₁.issue ⟨.warning, "first occurrence of ID \"" ++ token ++ "\"", first⟩
    refine ⟨_, Attempt.runFrom_then_ok.2 ⟨_, he, hw⟩, hs₂, h.fail (fun hf => ?_) ?_ rfl⟩
    · obtain ⟨hdone, hnew⟩ := hfine.1 hf
      rw [← h.declared hdone, ← declaration?_eq_none_iff, hd] at hnew
      cases hnew
    · simp [hadError_told, Diagnostic.isError]
  | none =>
    rw [declaration?_eq_none_iff] at hd
    have hsame : Fine (done ++ [(.id, value)]) ↔ Fine done := by
      rw [hfine, and_iff_left_iff_imp]
      intro hf
      rwa [← h.declared hf]
    refine ⟨_, Attempt.runFrom_modify _ _, ⟨hs.goesOn, hs.limits, hs.level, hs.types, hs.values⟩, ?_⟩
    refine ⟨h.hadError.trans hsame.symm, fun hf => ?_, fun hf token => ?_, h.located⟩
    · rw [List.map_append, h.declared (hsame.1 hf), declaredIn_concat, hdeclares]
      rfl
    · rw [h.references (hsame.1 hf), referredIn_concat, List.mem_append]
      simp [referredIn]

/-- Words were referred to as far as they are names, and the others reported. -/
structure Refers (words : List String) (s s' : Context × IdentityTracker) : Prop where
  hadError : s'.1.hadError = false ↔ s.1.hadError = false ∧ ∀ word ∈ words, Xml.isNCName word = true
  declared : s'.2.declared = s.2.declared
  references : ∀ token, token ∈ s'.2.references.map Prod.fst ↔
    token ∈ s.2.references.map Prod.fst ∨ token ∈ words ∧ Xml.isNCName token = true
  located : ∀ entry ∈ s'.2.references, entry.2 ≠ []

theorem refer_words (location : Option Location) (hs : Stands types limits level stack s)
    (hl : ∀ entry ∈ s.2.references, entry.2 ≠ []) (words : List String) : ∃ s',
    (words.forM fun word => if Xml.isNCName word then refer word location
      else onContext (Context.errorAt ("invalid IDREFS token \"" ++ word ++ "\"") location)).runFrom s = (.ok (), s') ∧
    Stands types limits level stack s' ∧ Refers words s s' := by
  refine Attempt.forM_invariant _ (fun seen s' => Stands types limits level stack s' ∧ Refers seen s s') words s
    ⟨hs, by simp, rfl, by simp, hl⟩ ?_
  rintro seen word s₁ - ⟨hs₁, h₁⟩
  split
  · next hname =>
    refine ⟨_, Attempt.runFrom_modify _ _, ⟨hs₁.goesOn, hs₁.limits, hs₁.level, hs₁.types, hs₁.values⟩, ?_, h₁.declared,
      fun token => ?_, located_addReference h₁.located⟩
    · rw [List.forall_mem_append, List.forall_mem_singleton, and_iff_left hname]
      exact h₁.hadError
    · have hword : token = word ∧ Xml.isNCName token = true ↔ token = word := and_iff_left_of_imp fun h => h ▸ hname
      rw [mem_addReference, h₁.references, List.mem_append, List.mem_singleton, or_and_right, hword, or_assoc]
  · next hname =>
    obtain ⟨hrun, hs₂⟩ := hs₁.issue ⟨.error, "invalid IDREFS token \"" ++ word ++ "\"", location⟩
    refine ⟨_, hrun, hs₂, ?_, h₁.declared, fun token => ?_, h₁.located⟩
    · simp [hadError_told, Diagnostic.isError, hname]
    · have hword : ¬ (token = word ∧ Xml.isNCName token = true) := fun h => hname (h.1 ▸ h.2)
      rw [h₁.references, List.mem_append, List.mem_singleton, or_and_right, or_iff_left hword]

theorem check_told (location : Option Location) (hs : Stands types limits level stack s) (h : Told done s) : ∃ s',
    (check type value location).runFrom s = (.ok (), s') ∧ Stands types limits level stack s' ∧
      Told (done ++ [(type, value)]) s' := by
  have report (message : String) (hw : ¬ WellFormed (type, value)) : ∃ s',
      (onContext (Context.errorAt message location)).runFrom s = (.ok (), s') ∧ Stands types limits level stack s' ∧
        Told (done ++ [(type, value)]) s' := by
    obtain ⟨hrun, hs'⟩ := hs.issue ⟨.error, message, location⟩
    refine ⟨_, hrun, hs', h.fail (fun hf => hw (fine_concat.1 hf).2.1) ?_ rfl⟩
    simp [hadError_told, Diagnostic.isError]
  have malformed (hi : identity? value = none) : ¬ ∃ token, Xml.tokens value = [token] ∧ Xml.isNCName token = true := by
    rintro ⟨token, ht⟩
    rw [identity?_eq_some_iff.2 ht] at hi
    cases hi
  unfold check
  cases type with
  | id =>
    cases hi : identity? value with
    | none => exact report _ (malformed hi)
    | some token =>
      obtain ⟨ht, hn⟩ := identity?_eq_some_iff.1 hi
      exact declare_told hs h ht hn
  | idref =>
    cases hi : identity? value with
    | none => exact report _ (malformed hi)
    | some token =>
      obtain ⟨ht, hn⟩ := identity?_eq_some_iff.1 hi
      refine ⟨_, Attempt.runFrom_modify _ _, ⟨hs.goesOn, hs.limits, hs.level, hs.types, hs.values⟩,
        h.refer (by simp) ?_ rfl (fun _ token' => ?_) (located_addReference h.located)⟩
      · exact (and_iff_left ⟨token, ht, hn⟩).symm
      · rw [mem_addReference, ht, List.mem_singleton]
  | idrefs =>
    cases ht : Xml.tokens value with
    | nil => exact report _ fun hw => hw.1 ht
    | cons word words =>
      obtain ⟨s', hrun, hs', hr⟩ := refer_words location hs h.located (word :: words)
      have hwell : WellFormed (.idrefs, value) ↔ ∀ token ∈ word :: words, Xml.isNCName token = true := by
        simp [WellFormed, ht]
      refine ⟨s', hrun, hs', h.refer (by simp) (by rw [hr.hadError, hwell]) hr.declared (fun hw token => ?_) hr.located⟩
      rw [hr.references, ht, and_iff_left_of_imp (hwell.1 hw token)]

/-- The stack of open elements after a text in the innermost one. -/
def appendText (text : String) : List (Option OpenValue) → List (Option OpenValue)
  | some value :: outer => some { value with text := value.text ++ text } :: outer
  | stack => stack

theorem appendText_empty (stack : List (Option OpenValue)) : appendText "" stack = stack := by
  unfold appendText
  split
  · rw [String.append_empty]
  · rfl

theorem appendText_append (text text' : String) (stack : List (Option OpenValue)) :
    appendText text' (appendText text stack) = appendText (text ++ text') stack := by
  cases stack with
  | nil => rfl
  | cons top outer =>
    cases top with
    | none => rfl
    | some value => simp [appendText, String.append_assoc]

/-- What an element that was entered has on the stack, after some text in it. -/
def opened (types : IdentityMap) (name : QName) (location : Option Location) (text : String) : Option OpenValue :=
  (types.element? name).map (⟨·, text, location⟩)

theorem appendText_opened {inner text : String} : appendText text (opened types name location inner :: stack) =
    opened types name location (inner ++ text) :: stack := by
  unfold opened
  cases types.element? name <;> rfl

theorem text_eq (content : String) (t : IdentityTracker) :
    t.text content = { t with values := appendText content t.values } := by
  obtain ⟨types, declared, references, values⟩ := t
  cases values with
  | nil => rfl
  | cons top outer => cases top <;> rfl

theorem text_told (hs : Stands types limits level stack s) (h : Told done s) (text : String) :
    Stands types limits level (appendText text stack) (s.1, s.2.text text) ∧ Told done (s.1, s.2.text text) := by
  rw [text_eq]
  exact ⟨⟨hs.goesOn, hs.limits, hs.level, hs.types, by rw [← hs.values]⟩,
    ⟨h.hadError, h.declared, h.references, h.located⟩⟩

theorem startElement_told (hs : Stands types limits level stack s) (h : Told done s) (attributes : List Attribute) :
    ∃ s' location, (startElement name attributes).runFrom s = (.ok (), s') ∧
      Stands types limits level (opened types name location "" :: stack) s' ∧
      Told (done ++ types.attributeValues name attributes) s' := by
  have hloop := Attempt.forM_invariant
    (fun a => (s.2.types.attribute? name a.name).elim (pure ()) (check · a.value s.1.location))
    (fun seen s' => Stands types limits level stack s' ∧ Told (done ++ types.attributeValues name seen) s') attributes s
    ⟨hs, by simpa [IdentityMap.attributeValues] using h⟩ fun seen a s' _ hI => by
      have hvalues : types.attributeValues name (seen ++ [a]) =
          types.attributeValues name seen ++ types.attributeValues name [a] := List.filterMap_append ..
      rw [hs.types, hvalues, ← List.append_assoc]
      cases ha : types.attribute? name a.name with
      | none => exact ⟨s', rfl, hI.1, by simpa [IdentityMap.attributeValues, ha] using hI.2⟩
      | some type => simpa [IdentityMap.attributeValues, ha] using check_told s.1.location hI.1 hI.2
  obtain ⟨s₁, hrun, hs₁, htold⟩ := hloop
  refine ⟨(s₁.1, { s₁.2 with values := opened types name s.1.location "" :: s₁.2.values }), s.1.location, ?_,
    ⟨hs₁.goesOn, hs₁.limits, hs₁.level, hs₁.types, by rw [← hs₁.values]⟩,
    ⟨htold.hadError, htold.declared, htold.references, htold.located⟩⟩
  unfold startElement
  rw [Attempt.runFrom_get_then]
  refine Attempt.runFrom_then_ok.2 ⟨s₁, ?_, ?_⟩
  · rw [← hrun]
    congr 2
    funext a
    cases s.2.types.attribute? name a.name <;> rfl
  · dsimp only
    rw [hs.types]
    rfl

theorem endElement_told {text : String} (hs : Stands types limits level (opened types name location text :: stack) s)
    (h : Told done s) : ∃ s', endElement.runFrom s = (.ok (), s') ∧ Stands types limits level stack s' ∧
      Told (done ++ types.elementValue name text) s' := by
  have hs₁ : Stands types limits level stack (s.1, { s.2 with values := s.2.values.tail }) :=
    ⟨hs.goesOn, hs.limits, hs.level, hs.types, by rw [hs.values]; rfl⟩
  have h₁ : Told done (s.1, { s.2 with values := s.2.values.tail }) :=
    ⟨h.hadError, h.declared, h.references, h.located⟩
  unfold endElement IdentityMap.elementValue
  rw [Attempt.runFrom_get_then]
  dsimp only
  rw [hs.values]
  cases ht : types.element? name with
  | none =>
    refine ⟨_, Attempt.runFrom_then_ok.2 ⟨_, Attempt.runFrom_modify _ _, ?_⟩, hs₁, by simpa using h₁⟩
    simp [opened, ht]
  | some type =>
    obtain ⟨s', hrun, hs', h'⟩ := check_told location hs₁ h₁
    refine ⟨s', Attempt.runFrom_then_ok.2 ⟨_, Attempt.runFrom_modify _ _, ?_⟩, hs', h'⟩
    simpa [opened, ht] using hrun

/-- Reports every place of a reference to what is not declared. -/
def resolve (t : IdentityTracker) (entry : String × List (Option Location)) : Tracking :=
  unless t.isDeclared entry.1 do
    entry.2.forM fun location =>
      onContext (Context.errorAt ("IDREF \"" ++ entry.1 ++ "\" without matching ID") location)

theorem resolve_verdict {entry : String × List (Option Location)} (hs : Stands types limits level stack s)
    (hl : entry.2 ≠ []) : ∃ s', (resolve t entry).runFrom s = (.ok (), s') ∧ Stands types limits level stack s' ∧
      (s'.1.hadError = false ↔ s.1.hadError = false ∧ t.isDeclared entry.1 = true) := by
  unfold resolve
  cases hd : t.isDeclared entry.1 with
  | true => exact ⟨s, rfl, hs, by simp⟩
  | false =>
    obtain ⟨s', hrun, hs', he⟩ := Attempt.forM_invariant
      (fun location => onContext (Context.errorAt ("IDREF \"" ++ entry.1 ++ "\" without matching ID") location))
      (fun seen s' => Stands types limits level stack s' ∧ (s'.1.hadError = false ↔ s.1.hadError = false ∧ seen = []))
      entry.2 s ⟨hs, by simp⟩ fun seen location s₁ _ hI => by
        obtain ⟨hrun, hs₂⟩ := hI.1.issue ⟨.error, "IDREF \"" ++ entry.1 ++ "\" without matching ID", location⟩
        exact ⟨_, hrun, hs₂, by simp [hadError_told, Diagnostic.isError]⟩
    exact ⟨s', hrun, hs', by simp [he, hl]⟩

/-- At the end every reference is resolved, or an error is reported. -/
theorem endDocument_verdict (hs : Stands types limits level stack s) (h : Told done s) :
    ∃ s', endDocument.runFrom s = (.ok (), s') ∧ (s'.1.hadError = false ↔ Integrity done) := by
  obtain ⟨s', hrun, -, he⟩ := Attempt.forM_invariant (resolve s.2)
    (fun seen s' => Stands types limits level stack s' ∧
      (s'.1.hadError = false ↔ s.1.hadError = false ∧ ∀ entry ∈ seen, s.2.isDeclared entry.1 = true))
    s.2.references s ⟨hs, by simp⟩ fun seen entry s₁ hentry hI => by
      obtain ⟨s', hrun, hs', he⟩ := resolve_verdict hI.1 (h.located entry hentry)
      refine ⟨s', hrun, hs', ?_⟩
      rw [he, hI.2, List.forall_mem_append, List.forall_mem_singleton, and_assoc]
  refine ⟨s', hrun, ?_⟩
  rw [he, h.hadError, integrity_iff]
  refine and_congr_right fun hf => ?_
  have hreferences := h.references hf
  simp only [isDeclared_iff, h.declared hf]
  constructor
  · intro hall token ht
    obtain ⟨entry, hentry, rfl⟩ := List.mem_map.1 ((hreferences token).2 ht)
    exact hall entry hentry
  · exact fun hall entry hentry => hall _ ((hreferences _).1 (List.mem_map_of_mem hentry))

end IdentityTracker

/-! ## Runs -/

namespace SchemaValidation

open IdentityTracker

/-- A validation of identities alone. -/
def tracking (s : Context × IdentityTracker) : SchemaValidation := ⟨s.1, none, some s.2⟩

variable {types : IdentityMap} {limits : Limits} {level : Nat} {stack : List (Option OpenValue)}
  {s s' : Context × IdentityTracker} {done : List TypedValue} {name : QName}
  {attributes : List Attribute} {notices : List Notice} {text : String}

theorem onIdentities_runFrom {step : IdentityTracker.Tracking} (h : step.runFrom s = (.ok (), s')) :
    (onIdentities step).runFrom (tracking s) = (.ok (), tracking s') := by
  change ((step.runFrom s).1, tracking (step.runFrom s).2) = _
  rw [h]

theorem handle_startElement (written : String) (hs : Stands types limits level stack s) (h : Told done s)
    (hlevel : level + 1 ≤ limits.maxXmlDepth) (hattributes : attributes.length ≤ limits.maxAttributes) :
    ∃ s' location, (handle (.startElement name written attributes)).runFrom (tracking s) = (.ok (), tracking s') ∧
      Stands types limits (level + 1) (opened types name location "" :: stack) s' ∧
      Told (done ++ types.attributeValues name attributes) s' := by
  rw [← hs.limits] at hlevel hattributes
  have henter := Context.enter_runFrom (hs.level ▸ hlevel) hattributes
  have hs₁ : Stands types limits (level + 1) stack ({ s.1 with level := s.1.level + 1 }, s.2) :=
    ⟨hs.goesOn, hs.limits, congrArg (· + 1) hs.level, hs.types, hs.values⟩
  have h₁ : Told done ({ s.1 with level := s.1.level + 1 }, s.2) := ⟨h.hadError, h.declared, h.references, h.located⟩
  obtain ⟨s', location, hrun, hs', h'⟩ := startElement_told hs₁ h₁ attributes
  refine ⟨s', location, ?_, hs', h'⟩
  refine Attempt.runFrom_then_ok.2 ⟨tracking ({ s.1 with level := s.1.level + 1 }, s.2), ?_,
    Attempt.runFrom_then_ok.2 ⟨_, rfl, onIdentities_runFrom hrun⟩⟩
  change (((Context.enter attributes.length).runFrom s.1).1,
    (⟨((Context.enter attributes.length).runFrom s.1).2, none, some s.2⟩ : SchemaValidation)) = _
  rw [henter]
  rfl

theorem handle_endElement {location : Option Location} (written : String)
    (hs : Stands types limits (level + 1) (opened types name location text :: stack) s) (h : Told done s) :
    ∃ s', (handle (.endElement name written)).runFrom (tracking s) = (.ok (), tracking s') ∧
      Stands types limits level stack s' ∧ Told (done ++ types.elementValue name text) s' := by
  have hs₁ : Stands types limits level (opened types name location text :: stack) (s.1.leave, s.2) :=
    ⟨hs.goesOn, hs.limits, by rw [Context.leave, hs.level]; rfl, hs.types, hs.values⟩
  have h₁ : Told done (s.1.leave, s.2) := ⟨h.hadError, h.declared, h.references, h.located⟩
  obtain ⟨s', hrun, hs', h'⟩ := endElement_told hs₁ h₁
  exact ⟨s', Attempt.runFrom_then_ok.2 ⟨tracking (s.1.leave, s.2), rfl, onIdentities_runFrom hrun⟩, hs', h'⟩

theorem notice_quiet {notice : Notice} (hn : notice.isQuiet = true) (hs : Stands types limits level stack s)
    (h : Told done s) : ∃ s', (schemaValidator.notice notice).runFrom (tracking s) = (.ok (), tracking s') ∧
      Stands types limits level stack s' ∧ Told done s' := by
  cases notice with
  | locate location =>
    exact ⟨(s.1.locate location, s.2), rfl, ⟨hs.goesOn, hs.limits, hs.level, hs.types, hs.values⟩,
      ⟨h.hadError, h.declared, h.references, h.located⟩⟩
  | event event =>
    refine ⟨s, ?_, hs, h⟩
    cases event <;> first | rfl | cases hn

theorem follow_append {before after : List Notice} {s s' u : SchemaValidation}
    (h : (schemaValidator.follow before).runFrom s = (.ok (), s'))
    (h' : (schemaValidator.follow after).runFrom s' = (.ok (), u)) :
    (schemaValidator.follow (before ++ after)).runFrom s = (.ok (), u) := by
  unfold Validator.follow at h h' ⊢
  change (forM (before ++ after) schemaValidator.notice).runFrom s = _
  rw [List.forM_append]
  exact Attempt.runFrom_then_ok.2 ⟨s', h, h'⟩

theorem follow_cons {notice : Notice} {s s' u : SchemaValidation}
    (h : (schemaValidator.notice notice).runFrom s = (.ok (), s'))
    (h' : (schemaValidator.follow notices).runFrom s' = (.ok (), u)) :
    (schemaValidator.follow (notice :: notices)).runFrom s = (.ok (), u) :=
  Attempt.runFrom_then_ok.2 ⟨s', h, h'⟩

/-- Nested elements leave the stack as it was, but for the text beside them, and all their values are told. -/
theorem follow_nested (hn : Nested types limits level notices text values) (hs : Stands types limits level stack s)
    (h : Told done s) : ∃ s', (schemaValidator.follow notices).runFrom (tracking s) = (.ok (), tracking s') ∧
      Stands types limits level (appendText text stack) s' ∧ Told (done ++ values) s' := by
  induction hn generalizing stack s done with
  | nil level => exact ⟨s, rfl, by rwa [appendText_empty], by rwa [List.append_nil]⟩
  | quiet hq _ ih =>
    obtain ⟨s₁, hrun₁, hs₁, h₁⟩ := notice_quiet hq hs h
    obtain ⟨s₂, hrun₂, hs₂, h₂⟩ := ih hs₁ h₁
    exact ⟨s₂, follow_cons hrun₁ hrun₂, hs₂, h₂⟩
  | text piece _ ih =>
    obtain ⟨hs₁, h₁⟩ := text_told hs h piece
    obtain ⟨s₂, hrun₂, hs₂, h₂⟩ := ih hs₁ h₁
    rw [appendText_append] at hs₂
    exact ⟨s₂, follow_cons rfl hrun₂, hs₂, h₂⟩
  | element name written attributes hlevel hattributes _ _ ihin ih =>
    obtain ⟨s₁, location, hrun₁, hs₁, h₁⟩ := handle_startElement written hs h hlevel hattributes
    obtain ⟨s₂, hrun₂, hs₂, h₂⟩ := ihin hs₁ h₁
    rw [appendText_opened, String.empty_append] at hs₂
    obtain ⟨s₃, hrun₃, hs₃, h₃⟩ := handle_endElement written hs₂ h₂
    obtain ⟨s₄, hrun₄, hs₄, h₄⟩ := ih hs₃ h₃
    refine ⟨s₄, follow_cons hrun₁ (follow_append hrun₂ (follow_cons hrun₃ hrun₄)), hs₄, ?_⟩
    simpa only [List.append_assoc] using h₄

/-- A validator of identities whose receiver goes on takes in every document within the limits, and then an error was
reported exactly if the document has no integrity. -/
theorem hadError_iff_integrity {schema : Schema} {receiver : Receiver} (source : Option String)
    (hgoes : ∀ issued d, receiver.answer issued d = .ok ()) {values : List TypedValue}
    (h : OneDocument schema.identities schema.options.limits notices values) :
    ∃ s, (schemaValidator.follow notices).runFrom (.newForIdentities schema receiver source) = (.ok (), s) ∧
      (schemaValidator.hadError s = false ↔ Integrity values) := by
  obtain @⟨before, body, text, _, hbefore, hn⟩ := h
  have hs : Stands schema.identities schema.options.limits 0 []
      (.new receiver schema.options.limits source, { types := schema.identities }) :=
    ⟨hgoes, rfl, rfl, rfl, rfl⟩
  have ht : Told [] (.new receiver schema.options.limits source, ({ types := schema.identities } : IdentityTracker)) := by
    refine ⟨by simp [Context.new, Context.hadError, Reports.new, Fine, declaredIn], fun _ => rfl, fun _ => ?_, ?_⟩
    · simp [referredIn]
    · simp
  obtain ⟨s₁, hrun₁, hs₁, h₁⟩ := follow_nested (.of_locations hbefore) hs ht
  obtain ⟨s₂, hrun₂, hs₂, h₂⟩ := follow_nested hn hs₁ h₁
  obtain ⟨s₃, hrun₃, he⟩ := endDocument_verdict hs₂ h₂
  refine ⟨tracking s₃, ?_, he⟩
  have hend : (schemaValidator.follow [.event .endDocument]).runFrom (tracking s₂) = (.ok (), tracking s₃) :=
    follow_cons (onIdentities_runFrom hrun₃) rfl
  exact follow_append hrun₁ (follow_cons rfl (follow_append hrun₂ hend))

/-- A schema in which elements `key` declare identities and elements `ref` refer to them. -/
def keyedByElements : Schema where
  grammar := {}
  start := ⟨1⟩
  identities := ⟨[], [(.plain "key", .id), (.plain "ref", .idref)]⟩
  contentModel := none
  options := {}

/-- The statement where an element stands in the midst of the text of one that it refers to. -/
theorem hadError_iff_integrity_keyedByElements :
    let notices : List Notice := [.locate none, .event .startDocument, .event (.startElement (.plain "key") "key" []),
      .event (.text "a"), .event (.startElement (.plain "ref") "ref" []), .event (.text "ab "),
      .event (.endElement (.plain "ref") "ref"), .event (.text "b"), .event (.endElement (.plain "key") "key"),
      .event .endDocument]
    (∀ issued d, Receiver.silent.answer issued d = .ok ()) ∧
      OneDocument keyedByElements.identities keyedByElements.options.limits notices [(.idref, "ab "), (.id, "ab")] ∧
      ∃ s, (schemaValidator.follow notices).runFrom (.newForIdentities keyedByElements .silent none) = (.ok (), s) ∧
        schemaValidator.hadError s = false := by
  have hgoes : ∀ issued d, Receiver.silent.answer issued d = .ok () := fun _ _ => rfl
  have href : Nested keyedByElements.identities keyedByElements.options.limits 1
      [.event (.startElement (.plain "ref") "ref" []), .event (.text "ab "), .event (.endElement (.plain "ref") "ref"),
        .event (.text "b")] ("b" ++ "")
      (keyedByElements.identities.elementValue (.plain "ref") ("ab " ++ "") ++ []) :=
    @Nested.element _ _ _ [.event (.text "ab ")] _ _ [.event (.text "b")] _ _ _ _ _ (by decide) (by decide)
      (.text _ (.nil _)) (.text _ (.nil _))
  rw [String.append_empty] at href
  have hkey := @Nested.element _ _ 0 _ _ _ [] "" [] (.plain "key") "key" [] (by decide) (by decide)
    (.text "a" href) (.nil _)
  rw [String.append_empty, show "a" ++ "b" = "ab" by simp] at hkey
  have hdocument := @OneDocument.intro _ _ [.locate none] _ _ _ (by simp) hkey
  obtain ⟨s, hrun, he⟩ := hadError_iff_integrity none hgoes hdocument
  exact ⟨hgoes, hdocument, s, hrun, he.2 (by decide +kernel)⟩

end SchemaValidation

end RelaxNg
