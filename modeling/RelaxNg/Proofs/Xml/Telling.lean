import RelaxNg.Proofs.Attempt
import RelaxNg.Xml.Document

/-!
# What validators are told

Everything that a validator is told of a scan is noted together with the reading at that moment, the scopes, the open
elements and the state of the validator (`Document.tellings`); noting changes no answer (`Document.validateScan_eq`).
What holds of tellings is proved along the reading: each part of it has one rule that says what the validator has to
ensure at its events (`Document.ensures_start`, `ensures_finish`, `ensures_read_of_aside`, `ensures_readScan`).
-/

namespace RelaxNg.Xml

open Attempt

variable {σ τ : Type}

/-- The reading with another state in the place of the validator's. -/
def Reading.map (f : τ → σ) (r : Reading τ) : Reading σ := ⟨r.scopes, r.opened, f r.state⟩

/-- An event that a validator is told, and the reading at that moment. -/
structure Telling (σ : Type) extends Reading σ where
  event : Event

/-- Two readings stand at the same place, and their states are related. -/
structure Reading.Related (R : σ → τ → Prop) (r : Reading σ) (u : Reading τ) : Prop where
  scopes : r.scopes = u.scopes
  opened : r.opened = u.opened
  state : R r.state u.state

/-- A reading after an event, which is noted, left the validator in a state. -/
def Reading.noted (event : Event) (state : σ) (r : Reading (σ × List (Telling σ))) : Reading (σ × List (Telling σ)) :=
  { r with state := (state, r.state.2 ++ [⟨r.map Prod.fst, event⟩]) }

/-- A validator as part of a reading in which everything that it is told is noted. -/
def Reading.noting (v : Validator σ) : Validator (Reading (σ × List (Telling σ))) where
  locate location r := { r with state := (v.locate location r.state.1, r.state.2) }
  handle event := Attempt.onPart (fun r => r.state.1) (Reading.noted event) (v.handle event)
  reset r := { r with state := (v.reset r.state.1, r.state.2) }
  hadError r := v.hadError r.state.1

def Piece.isTag : Piece → Bool
  | startTag _ | emptyTag _ | endTag => true
  | text _ | literal _ | doctype _ | remark => false

namespace Document

/-- What a validator in a state is told of a scan. -/
def tellings (v : Validator σ) (place : Nat → Location) (scan : Scan) (state : σ) : List (Telling σ) :=
  ((readScan (Reading.noting v) place scan).runFrom { state := (state, []) }).2.state.2

/-! ## Readings that agree -/

section Agree

variable {R : σ → τ → Prop} {v : Validator (Reading σ)} {w : Validator (Reading τ)}

/-- Two validators within readings do the same and keep their states related. -/
structure Agree (R : σ → τ → Prop) (v : Validator (Reading σ)) (w : Validator (Reading τ)) : Prop where
  locate : ∀ location r u, Reading.Related R r u → Reading.Related R (v.locate location r) (w.locate location u)
  handle : ∀ event, Relates (Reading.Related R) (v.handle event) (w.handle event)
  hadError : ∀ r u, Reading.Related R r u → v.hadError r = w.hadError u

theorem Agree.start (h : Agree R v w) (tag : Tag) : Relates (Reading.Related R) (start v tag) (start w tag) := by
  refine (relates_answer _).bind fun raw => Relates.bind (relates_modify fun r u hr => ?_) fun _ => ?_
  · exact ⟨congrArg Scopes.push hr.scopes, hr.opened, hr.state⟩
  refine Relates.bind (relates_forM fun (label, ns) _ => (h.handle _).bind fun _ => relates_modify fun r u hr => ?_)
    fun _ => relates_get_then fun r u hr => ?_
  · exact ⟨congrArg (Scopes.declare · label ns) hr.scopes, hr.opened, hr.state⟩
  dsimp only
  rw [hr.scopes]
  refine (relates_answer _).bind fun name => (relates_answer _).bind fun attributes => (h.handle _).bind fun _ => ?_
  exact relates_modify fun r u hr => ⟨hr.scopes, congrArg _ hr.opened, hr.state⟩

theorem Agree.finish (h : Agree R v w) : Relates (Reading.Related R) (finish v) (finish w) := by
  refine relates_get_then fun r u hr => ?_
  rw [hr.opened]
  cases u.opened with
  | nil => exact relates_throw _
  | cons element outer =>
    refine Relates.bind (relates_modify fun r u hr => ⟨hr.scopes, rfl, hr.state⟩) fun _ => (h.handle _).bind fun _ => ?_
    refine (relates_forM fun _ _ => h.handle _).bind fun _ => relates_modify fun r u hr => ?_
    exact ⟨congrArg Scopes.pop hr.scopes, hr.opened, hr.state⟩

theorem Agree.text (h : Agree R v w) (content : String) :
    Relates (Reading.Related R) (text v content) (text w content) := by
  unfold Document.text
  split
  · exact relates_pure _
  · exact h.handle _

theorem Agree.read (h : Agree R v w) (piece : Piece) :
    Relates (Reading.Related R) (read v piece) (read w piece) := by
  cases piece with
  | startTag tag => exact h.start tag
  | emptyTag tag => exact (h.start tag).bind fun _ => h.finish
  | endTag => exact h.finish
  | text chars =>
    rw [Document.read, Document.read]
    split
    · exact h.text _
    · exact relates_throw _
  | literal chars => exact h.text _
  | doctype chars => exact relates_forM fun _ _ => h.handle _
  | remark => exact relates_pure _

theorem Agree.readScan (h : Agree R v w) (place : Nat → Location) (scan : Scan) :
    Relates (Reading.Related R) (readScan v place scan) (readScan w place scan) := by
  have hlocate (offset : Nat) : Relates (Reading.Related R) (Document.locate v (place offset))
      (Document.locate w (place offset)) := relates_modify fun r u => h.locate _ r u
  have hend : Relates (Reading.Related R) (do v.handle .endDocument; return !v.hadError (← get))
      (do w.handle .endDocument; return !w.hadError (← get)) := by
    refine (h.handle _).bind fun _ => relates_get_then fun r u hr => ?_
    rw [h.hadError r u hr]
    exact relates_pure _
  refine (hlocate 0).bind fun _ => (h.handle _).bind fun _ => ?_
  refine Relates.bind (relates_forM fun _ _ => (hlocate _).bind fun _ => h.read _) fun _ => ?_
  split
  · exact relates_throw _
  · refine (hlocate _).bind fun _ => relates_get_then fun r u hr => ?_
    rw [hr.opened]
    split
    · exact hend
    · exact (relates_throw _).bind fun _ => hend

end Agree

/-- Two validators that answer every event alike and stay related answer a scan alike and stay related. -/
theorem relates_validateScan {v : Validator σ} {w : Validator τ} {R : σ → τ → Prop}
    (hlocate : ∀ location s u, R s u → R (v.locate location s) (w.locate location u))
    (hhandle : ∀ event, Relates R (v.handle event) (w.handle event))
    (hadError : ∀ s u, R s u → v.hadError s = w.hadError u) (place : Nat → Location) (scan : Scan) :
    Relates R (validateScan v place scan) (validateScan w place scan) := by
  have hagree : Agree R (Reading.within v) (Reading.within w) := by
    refine ⟨fun location r u hr => ?_, fun event r u hr => ?_, fun r u hr => hadError _ _ hr.state⟩
    · exact ⟨hr.scopes, hr.opened, hlocate location _ _ hr.state⟩
    · obtain ⟨hanswer, hstate⟩ := hhandle event r.state u.state hr.state
      exact ⟨hanswer, hr.scopes, hr.opened, hstate⟩
  intro s u hs
  obtain ⟨hanswer, hreading⟩ := hagree.readScan place scan ⟨.empty, [], s⟩ ⟨.empty, [], u⟩ ⟨rfl, rfl, hs⟩
  exact ⟨hanswer, hreading.state⟩

/-- A validator agrees with another one of which everything is noted, if their states stay related at every event. -/
theorem agree_noting {v : Validator σ} {w : Validator τ} {R : σ → τ × List (Telling τ) → Prop}
    (hlocate : ∀ location s u log, R s (u, log) → R (v.locate location s) (w.locate location u, log))
    (hhandle : ∀ event s log (r : Reading τ), R s (r.state, log) →
      ((v.handle event).runFrom s).1 = ((w.handle event).runFrom r.state).1 ∧
        R ((v.handle event).runFrom s).2 (((w.handle event).runFrom r.state).2, log ++ [⟨r, event⟩]))
    (hadError : ∀ s u log, R s (u, log) → v.hadError s = w.hadError u) :
    Agree R (Reading.within v) (Reading.noting w) where
  locate location r u h := ⟨h.scopes, h.opened, hlocate location r.state u.state.1 u.state.2 h.state⟩
  handle event r u h := by
    obtain ⟨hanswer, hstate⟩ := hhandle event r.state u.state.2 (u.map Prod.fst) h.state
    exact ⟨hanswer, h.scopes, h.opened, hstate⟩
  hadError r u h := hadError r.state u.state.1 u.state.2 h.state

/-- What agrees from the beginning gives the same answer to a scan. -/
theorem validateScan_of_agree {v : Validator σ} {w : Validator τ} {R : σ → τ × List (Telling τ) → Prop}
    (h : Agree R (Reading.within v) (Reading.noting w)) (place : Nat → Location) (scan : Scan) {s : σ} {u : τ}
    (hs : R s (u, [])) :
    ((validateScan v place scan).runFrom s).1 =
        ((readScan (Reading.noting w) place scan).runFrom { state := (u, []) }).1 ∧
      R ((validateScan v place scan).runFrom s).2
        ((readScan (Reading.noting w) place scan).runFrom { state := (u, []) }).2.state := by
  obtain ⟨hanswer, hreading⟩ := h.readScan place scan ⟨.empty, [], s⟩ ⟨.empty, [], (u, [])⟩ ⟨rfl, rfl, hs⟩
  exact ⟨hanswer, hreading.state⟩

/-- A scan is validated as it is when everything is noted. -/
theorem validateScan_eq (v : Validator σ) (place : Nat → Location) (scan : Scan) (state : σ) :
    (validateScan v place scan).runFrom state =
      let (answer, r) := (readScan (Reading.noting v) place scan).runFrom { state := (state, []) }
      (answer, r.state.1) := by
  have hagree : Agree (fun s (x : σ × List (Telling σ)) => s = x.1) (Reading.within v) (Reading.noting v) := by
    refine agree_noting ?_ ?_ ?_
    · rintro location s u log rfl
      rfl
    · rintro event s log r rfl
      exact ⟨rfl, rfl⟩
    · rintro s u log rfl
      rfl
  obtain ⟨hanswer, hstate⟩ := validateScan_of_agree hagree place scan (s := state) rfl
  exact Prod.ext hanswer hstate

/-- What a validator keeps whatever it is told, a scan keeps. -/
theorem keeps_validateScan {v : Validator σ} {P : σ → Prop} (hlocate : ∀ location s, P s → P (v.locate location s))
    (hhandle : ∀ event, Keeps P (v.handle event)) (place : Nat → Location) (scan : Scan) :
    Keeps P (validateScan v place scan) := by
  intro s hs
  have hagree : Agree (fun s (x : σ × List (Telling σ)) => s = x.1 ∧ P s) (Reading.within v) (Reading.noting v) := by
    refine agree_noting ?_ ?_ ?_
    · rintro location s u log ⟨rfl, hs⟩
      exact ⟨rfl, hlocate location s hs⟩
    · rintro event s log r ⟨rfl, hs⟩
      exact ⟨rfl, rfl, hhandle event _ hs⟩
    · rintro s u log ⟨rfl, -⟩
      rfl
  exact (validateScan_of_agree hagree place scan (s := s) ⟨rfl, hs⟩).2.2

/-! ## What a reading ensures -/

section Ensures

variable {v : Validator (Reading σ)} {r : Reading σ} {tag : Tag} {failed : Reading σ → Prop}

/-- At an event that is noted, the validator ensures what it ensures in its own state. -/
theorem ensures_noting {v : Validator σ} {event : Event} {r : Reading (σ × List (Telling σ))}
    {ok : Unit → Reading (σ × List (Telling σ)) → Prop} {failed : Reading (σ × List (Telling σ)) → Prop} :
    Ensures ((Reading.noting v).handle event) r ok failed ↔
      Ensures (v.handle event) r.state.1 (fun a s => ok a (r.noted event s)) (fun s => failed (r.noted event s)) :=
  ensures_onPart

theorem attributes_of_mapM {scopes : Scopes} {raw : List (String × String)} {attributes : List Attribute}
    (h : raw.mapM (resolved scopes) = .ok attributes) :
    ∀ a ∈ attributes, scopes.resolveAttribute a.written = .ok a.name := by
  induction raw generalizing attributes with
  | nil =>
    cases h
    simp
  | cons first rest ih =>
    rw [List.mapM_cons] at h
    cases hf : scopes.resolveAttribute first.1 with
    | error e =>
      rw [resolved, hf] at h
      cases h
    | ok name =>
      rw [resolved, hf] at h
      cases hr : rest.mapM (resolved scopes) with
      | error e =>
        rw [hr] at h
        cases h
      | ok others =>
        rw [hr] at h
        cases h
        exact List.forall_mem_cons.2 ⟨hf, ih hr⟩

/-- A start tag: `D` holds in its scope, of all its declarations and of those that are still to come. -/
theorem ensures_start (D : List (String × String) → List (String × String) → Reading σ → Prop) {ok : Reading σ → Prop}
    (hr : failed r) (hpush : ∀ declared, D declared declared { r with scopes := r.scopes.push })
    (hdeclare : ∀ declared label ns rest t, D declared ((label, ns) :: rest) t →
      Ensures (v.handle (.declare label ns)) t
        (fun _ u => D declared rest { u with scopes := u.scopes.declare label ns }) failed)
    (hdeclared : ∀ declared t, D declared [] t → failed t)
    (hstart : ∀ name attributes declared t, D declared [] t → t.scopes.resolve tag.written = .ok name →
      (∀ a ∈ attributes, t.scopes.resolveAttribute a.written = .ok a.name) →
      Ensures (v.handle (.startElement name tag.written attributes)) t
        (fun _ u => ok { u with opened := ⟨name, tag.written, declared.map Prod.fst⟩ :: u.opened }) failed) :
    Ensures (start v tag) r (fun _ => ok) failed := by
  refine ensures_answer_then (fun raw _ => ?_) hr
  refine ensures_modify_then.2 ((ensures_forM (D (declarations raw)) (hpush _) ?_).bind fun _ t ht =>
    ensures_get_then.2 ?_)
  · rintro ⟨label, ns⟩ rest t ht
    exact (hdeclare _ label ns rest t ht).bind fun _ _ => id
  refine ensures_answer_then (fun name hname => ?_) (hdeclared _ t ht)
  refine ensures_answer_then (fun attributes hattributes => ?_) (hdeclared _ t ht)
  exact (hstart name attributes _ t ht hname (attributes_of_mapM hattributes)).bind fun _ _ => id

/-- The end of an element: `U` holds until its scope is closed, of the labels whose end is still to be told. -/
theorem ensures_finish (U : List String → Reading σ → Prop) {ok : Reading σ → Prop} (hr : r.opened = [] → failed r)
    (hend : ∀ element outer, r.opened = element :: outer →
      Ensures (v.handle (.endElement element.name element.written)) { r with opened := outer }
        (fun _ => U element.labels) failed)
    (hundeclare : ∀ label rest t, U (label :: rest) t → Ensures (v.handle (.undeclare label)) t (fun _ => U rest) failed)
    (hpop : ∀ t, U [] t → ok { t with scopes := t.scopes.pop }) :
    Ensures (finish v) r (fun _ => ok) failed := by
  obtain ⟨scopes, opened, state⟩ := r
  cases opened with
  | nil => exact hr rfl
  | cons element outer =>
    refine (hend element outer rfl).bind fun _ t ht => ?_
    exact (ensures_forM U ht hundeclare).bind fun _ => hpop

/-- A piece that is no tag leaves what text and entities leave. -/
theorem ensures_read_of_aside {piece : Piece} (I : Reading σ → Prop) (hr : I r) (hfailed : ∀ t, I t → failed t)
    (hp : piece.isTag = false)
    (htext : ∀ content t, I t → Ensures (v.handle (.text content)) t (fun _ => I) failed)
    (hentity : ∀ entity t, I t → Ensures (v.handle (.entity entity)) t (fun _ => I) failed) :
    Ensures (read v piece) r (fun _ => I) failed := by
  have htext' (content : String) : Ensures (text v content) r (fun _ => I) failed := by
    unfold text
    split
    · exact hr
    · exact htext content r hr
  cases piece with
  | startTag | emptyTag | endTag => cases hp
  | text chars =>
    rw [read]
    split
    · exact htext' _
    · exact hfailed r hr
  | literal chars => exact htext' _
  | doctype chars => exact ensures_forM (fun _ => I) hr fun entity _ t => hentity entity t
  | remark => exact hr

/-- A scan: `I` holds between its pieces, of those that are still to come. -/
theorem ensures_readScan {place : Nat → Location} {scan : Scan} (I : List (Nat × Piece) → Reading σ → Prop)
    {ok : Bool → Reading σ → Prop}
    (hstart : Ensures (v.handle .startDocument) (v.locate (some (place 0)) r) (fun _ => I scan.pieces) failed)
    (hpiece : ∀ offset piece rest t, I ((offset, piece) :: rest) t →
      Ensures (read v piece) (v.locate (some (place offset)) t) (fun _ => I rest) failed)
    (hmalformed : ∀ t, scan.ending = .malformed → I [] t → failed t)
    (hopen : ∀ offset t, scan.ending = .finished offset → I [] t → (v.locate (some (place offset)) t).opened ≠ [] →
      failed (v.locate (some (place offset)) t))
    (hend : ∀ offset t, scan.ending = .finished offset → I [] t → (v.locate (some (place offset)) t).opened = [] →
      Ensures (v.handle .endDocument) (v.locate (some (place offset)) t) (fun _ u => ok (!v.hadError u) u) failed) :
    Ensures (readScan v place scan) r ok failed := by
  refine hstart.bind fun _ t ht => ?_
  refine (ensures_forM I ht fun (offset, piece) rest t => hpiece offset piece rest t).bind fun _ t ht => ?_
  cases he : scan.ending with
  | malformed => exact hmalformed t he ht
  | finished offset =>
    have hopen := hopen offset t he ht
    have hend := hend offset t he ht
    -- What is still open is looked at after the place of the end was told.
    refine ensures_modify_then.2 (ensures_get_then.2 ?_)
    cases ho : (v.locate (some (place offset)) t).opened with
    | cons element outer => exact hopen (by simp [ho])
    | nil => exact (hend ho).bind fun _ _ => id

end Ensures

theorem ensures_validateScan {v : Validator σ} {place : Nat → Location} {scan : Scan} {s : σ} {ok : Bool → σ → Prop}
    {failed : σ → Prop} : Ensures (validateScan v place scan) s ok failed ↔
      Ensures (readScan (Reading.within v) place scan) { state := s } (fun valid r => ok valid r.state)
        fun r => failed r.state := ensures_of_runFrom rfl

/-- A scan that is read to its end is answered by whether the validator then knows of no error. -/
theorem ensures_validateScan_answer (v : Validator σ) (place : Nat → Location) (scan : Scan) (s : σ) :
    Ensures (validateScan v place scan) s (fun valid t => valid = !v.hadError t) fun _ => True := by
  have hany {α : Type} {step : Step σ α} {r : Reading σ} : Ensures step r (fun _ _ => True) fun _ => True :=
    ensures_state_iff.2 trivial
  exact ensures_validateScan.2 <| ensures_readScan (fun _ _ => True) hany (fun _ _ _ _ _ => hany)
    (fun _ _ _ => trivial) (fun _ _ _ _ _ => trivial) fun _ _ _ _ _ => hany.mono (fun _ _ _ => rfl) fun _ => id

end Document

end RelaxNg.Xml
