import RelaxNg.Attempt

/-!
# What attempts ensure

`Attempt.Ensures` tells what holds after a step, whether it succeeds or fails, and has a rule for each way in which
steps are put together; the invariant of a loop is told of the items that are still to come. `Attempt.Keeps` is the case
of a property of states that no answer matters to, `Attempt.FailsIn` that of what is asked of failures only, and
`Attempt.Relates` compares two steps on states of different kinds.
-/

namespace RelaxNg.Attempt

variable {σ τ α β : Type} {step : Attempt σ α} {next : α → Attempt σ β} {s : σ}

/-! ## After a step -/

/-- What holds after a step from a state: `ok` of its answer and the state it leaves, or `failed` of that state if there
is no answer. -/
def Ensures (step : Attempt σ α) (s : σ) (ok : α → σ → Prop) (failed : σ → Prop) : Prop :=
  match step.runFrom s with
  | (.ok a, t) => ok a t
  | (.error _, t) => failed t

section Ensures

variable {ok ok' : α → σ → Prop} {then' : β → σ → Prop} {failed failed' : σ → Prop}

theorem ensures_of_ok {a : α} {t : σ} (hr : step.runFrom s = (.ok a, t)) (h : ok a t) : Ensures step s ok failed := by
  rwa [Ensures, hr]

/-- A step that cannot fail has an answer. -/
theorem Ensures.exists_ok (h : Ensures step s ok fun _ => False) : ∃ a t, step.runFrom s = (.ok a, t) ∧ ok a t := by
  unfold Ensures at h
  split at h
  · next hr => exact ⟨_, _, hr, h⟩
  · exact h.elim

theorem Ensures.of_runFrom {a : α} {t : σ} (h : Ensures step s ok failed) (hr : step.runFrom s = (.ok a, t)) :
    ok a t := by
  rwa [Ensures, hr] at h

theorem Ensures.mono (h : Ensures step s ok failed) (hok : ∀ a t, ok a t → ok' a t)
    (hfailed : ∀ t, failed t → failed' t) : Ensures step s ok' failed' := by
  unfold Ensures at h ⊢
  split at h
  · exact hok _ _ h
  · exact hfailed _ h

/-- What holds if the step succeeds. -/
theorem Ensures.on_ok (h : Ensures step s ok failed) : Ensures step s ok fun _ => True :=
  h.mono (fun _ _ => id) fun _ _ => trivial

/-- What a property of the state alone asks for is asked whether the step succeeds or fails. -/
theorem ensures_state_iff {P : σ → Prop} : Ensures step s (fun _ => P) P ↔ P (step.runFrom s).2 := by
  unfold Ensures
  rcases step.runFrom s with ⟨_ | a, t⟩ <;> rfl

theorem ensures_bind : Ensures (step >>= next) s then' failed ↔
    Ensures step s (fun a t => Ensures (next a) t then' failed) failed := by
  unfold Ensures
  rw [runFrom_bind]
  rcases step.runFrom s with ⟨_ | a, t⟩ <;> rfl

theorem ensures_modify_then {f : σ → σ} {next : PUnit → Attempt σ β} :
    Ensures (modify f >>= next) s then' failed ↔ Ensures (next ⟨⟩) (f s) then' failed := Iff.rfl

theorem ensures_get_then {f : σ → Attempt σ β} :
    Ensures (get >>= f) s then' failed ↔ Ensures (f s) s then' failed := Iff.rfl

theorem Ensures.bind (h : Ensures step s ok failed) (hnext : ∀ a t, ok a t → Ensures (next a) t then' failed) :
    Ensures (step >>= next) s then' failed := ensures_bind.2 (h.mono hnext fun _ => id)

theorem ensures_answer_then {result : Except Error α} (hnext : ∀ a, result = .ok a → Ensures (next a) s then' failed)
    (hfailed : failed s) : Ensures (answer result >>= next) s then' failed := by
  cases result with
  | ok a => exact hnext a rfl
  | error e => exact hfailed

/-- A step that runs another one and keeps the state it leaves in its own state ensures what that one does. -/
theorem ensures_of_runFrom {u : τ} {outer : Attempt τ α} {put : σ → τ} {ok : α → τ → Prop} {failed : τ → Prop}
    (h : outer.runFrom u = ((step.runFrom s).1, put (step.runFrom s).2)) :
    Ensures outer u ok failed ↔ Ensures step s (fun a t => ok a (put t)) fun t => failed (put t) := by
  unfold Ensures
  rw [h]
  rcases step.runFrom s with ⟨_ | a, t⟩ <;> rfl

theorem ensures_onPart {view : τ → σ} {put : σ → τ → τ} {u : τ} {ok : α → τ → Prop} {failed : τ → Prop} :
    Ensures (onPart view put step) u ok failed ↔
      Ensures step (view u) (fun a s => ok a (put s u)) (fun s => failed (put s u)) := ensures_of_runFrom rfl

/-- The invariant of a loop is told of the items that are still to come. -/
theorem ensures_forM {f : α → Attempt σ Unit} {items : List α} (I : List α → σ → Prop) (h0 : I items s)
    (hstep : ∀ x rest t, I (x :: rest) t → Ensures (f x) t (fun _ => I rest) failed) :
    Ensures (items.forM f) s (fun _ => I []) failed := by
  induction items generalizing s with
  | nil => exact h0
  | cons x rest ih => exact (hstep x rest s h0).bind fun _ _ => ih

/-- A loop fails at an item, the items before it done and those behind it not begun. -/
theorem exists_of_forM_error {f : α → Attempt σ Unit} {items : List α} {e : Error} {u : σ}
    (h : (items.forM f).runFrom s = (.error e, u)) : ∃ before x after t, items = before ++ x :: after ∧
      (before.forM f).runFrom s = (.ok (), t) ∧ (f x).runFrom t = (.error e, u) := by
  induction items generalizing s with
  | nil => cases h
  | cons y rest ih =>
    rw [List.forM_eq_forM, List.forM_cons, runFrom_bind] at h
    rcases hy : (f y).runFrom s with ⟨_ | _, t⟩ <;> rw [hy] at h
    · exact ⟨[], y, rest, s, rfl, rfl, hy.trans h⟩
    · obtain ⟨before, x, after, v, rfl, hbefore, hx⟩ := ih h
      refine ⟨y :: before, x, after, v, rfl, ?_, hx⟩
      rw [List.forM_eq_forM, List.forM_cons, runFrom_bind, hy]
      exact hbefore

end Ensures

/-! ## What is never lost -/

/-- A step leaves a state with a property from every state with it, also if it fails. -/
def Keeps (P : σ → Prop) (step : Attempt σ α) : Prop := ∀ s, P s → P (step.runFrom s).2

section Keeps

variable {P : σ → Prop}

theorem Keeps.ensures (h : Keeps P step) (hs : P s) : Ensures step s (fun _ => P) P := ensures_state_iff.2 (h s hs)

theorem keeps_pure (a : α) : Keeps P (pure a : Attempt σ α) := fun _ => id

theorem Keeps.bind (h : Keeps P step) (hnext : ∀ a, Keeps P (next a)) : Keeps P (step >>= next) := by
  intro s hs
  have ht := h s hs
  rw [runFrom_bind]
  rcases hr : step.runFrom s with ⟨_ | a, t⟩ <;> rw [hr] at ht
  · exact ht
  · exact hnext a t ht

theorem keeps_get_then {f : σ → Attempt σ β} (h : ∀ s, Keeps P (f s)) : Keeps P (get >>= f) := fun s => h s s

theorem keeps_forM {f : α → Attempt σ Unit} {items : List α} (h : ∀ x ∈ items, Keeps P (f x)) :
    Keeps P (items.forM f) := by
  induction items with
  | nil => exact keeps_pure _
  | cons x rest ih =>
    rw [List.forall_mem_cons] at h
    exact h.1.bind fun _ => ih h.2

/-- A property of a part alone is kept by a step on that part which keeps it. -/
theorem keeps_onPart {view : τ → σ} {put : σ → τ → τ} (hview : ∀ s u, view (put s u) = s) (h : Keeps P step) :
    Keeps (fun u => P (view u)) (onPart view put step) := by
  intro u hu
  have ht := h (view u) hu
  change P (view (put (step.runFrom (view u)).2 u))
  rwa [hview]

end Keeps

/-! ## What failures leave -/

/-- A step leaves a state with a property wherever it fails. -/
def FailsIn (P : σ → Prop) (step : Attempt σ α) : Prop := ∀ s, Ensures step s (fun _ _ => True) P

section FailsIn

variable {P : σ → Prop}

theorem failsIn_pure (a : α) : FailsIn P (pure a : Attempt σ α) := fun _ => trivial

theorem failsIn_modify (f : σ → σ) : FailsIn P (modify f : Attempt σ PUnit) := fun _ => trivial

theorem failsIn_of_leaves (h : ∀ s, P (step.runFrom s).2) : FailsIn P step :=
  fun s => (ensures_state_iff.2 (h s)).mono (fun _ _ _ => trivial) fun _ => id

theorem FailsIn.bind (h : FailsIn P step) (hnext : ∀ a, FailsIn P (next a)) : FailsIn P (step >>= next) :=
  fun s => (h s).bind fun a t _ => hnext a t

theorem failsIn_get_then {f : σ → Attempt σ β} (h : ∀ s, FailsIn P (f s)) : FailsIn P (get >>= f) := fun s => h s s

theorem failsIn_forM {f : α → Attempt σ Unit} {items : List α} (h : ∀ x ∈ items, FailsIn P (f x)) :
    FailsIn P (items.forM f) := by
  induction items with
  | nil => exact failsIn_pure _
  | cons x rest ih =>
    rw [List.forall_mem_cons] at h
    exact h.1.bind fun _ => ih h.2

theorem failsIn_onPart {view : τ → σ} {put : σ → τ → τ} {Q : τ → Prop} (hput : ∀ s u, P s → Q (put s u))
    (h : FailsIn P step) : FailsIn Q (onPart view put step) :=
  fun u => ensures_onPart.2 ((h (view u)).mono (fun _ _ _ => trivial) fun s => hput s u)

end FailsIn

/-! ## Two steps -/

/-- Two steps give the same answer from related states and leave related states. -/
def Relates (R : σ → τ → Prop) (step : Attempt σ α) (step' : Attempt τ α) : Prop :=
  ∀ s u, R s u → (step.runFrom s).1 = (step'.runFrom u).1 ∧ R (step.runFrom s).2 (step'.runFrom u).2

section Relates

variable {R : σ → τ → Prop} {step' : Attempt τ α} {next' : α → Attempt τ β}

theorem relates_pure (a : α) : Relates R (pure a) (pure a) := fun _ _ h => ⟨rfl, h⟩

theorem relates_throw (e : Error) : Relates R (throw e : Attempt σ α) (throw e) := fun _ _ h => ⟨rfl, h⟩

theorem relates_answer (result : Except Error α) : Relates R (answer result) (answer result) := fun _ _ h => ⟨rfl, h⟩

theorem relates_modify {f : σ → σ} {g : τ → τ} (h : ∀ s u, R s u → R (f s) (g u)) :
    Relates R (modify f : Attempt σ PUnit) (modify g) := fun s u hr => ⟨rfl, h s u hr⟩

theorem Relates.bind (h : Relates R step step') (hnext : ∀ a, Relates R (next a) (next' a)) :
    Relates R (step >>= next) (step' >>= next') := by
  intro s u hr
  obtain ⟨ha, ht⟩ := h s u hr
  rw [runFrom_bind, runFrom_bind]
  generalize step.runFrom s = run at ha ht
  generalize step'.runFrom u = run' at ha ht
  obtain ⟨answer, t⟩ := run
  obtain ⟨answer', t'⟩ := run'
  subst ha
  cases answer with
  | error e => exact ⟨rfl, ht⟩
  | ok a => exact hnext a t t' ht

theorem relates_get_then {f : σ → Attempt σ β} {g : τ → Attempt τ β}
    (h : ∀ s u, R s u → Relates R (f s) (g u)) : Relates R (get >>= f) (get >>= g) := fun s u hr => h s u hr s u hr

theorem relates_forM {f : α → Attempt σ Unit} {g : α → Attempt τ Unit} {items : List α}
    (h : ∀ x ∈ items, Relates R (f x) (g x)) : Relates R (items.forM f) (items.forM g) := by
  induction items with
  | nil => exact relates_pure _
  | cons x rest ih =>
    rw [List.forall_mem_cons] at h
    exact h.1.bind fun _ => ih h.2

theorem relates_eq (step : Attempt σ α) : Relates Eq step step := by
  rintro s _ rfl
  exact ⟨rfl, rfl⟩

/-- A step that relates each state with a property to itself keeps the property. -/
theorem relates_self_iff {P : σ → Prop} : Relates (fun s u => s = u ∧ P s) step step ↔ Keeps P step := by
  constructor
  · intro h s hs
    exact (h s s ⟨rfl, hs⟩).2.2
  · rintro h s _ ⟨rfl, hs⟩
    exact ⟨rfl, rfl, h s hs⟩

end Relates

end RelaxNg.Attempt
