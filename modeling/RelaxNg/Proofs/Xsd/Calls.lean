import RelaxNg.Proofs.Xml.Telling
import RelaxNg.Proofs.Xsd.Abreast

/-!
# The calls into a session

The calls that an event makes into a session are those that the session notes when it notes them all
(`Validation.calls`), which changes no answer (`Validation.handle_recorded`); those of a whole scan are those of the
events that the validation is told (`Validation.sessionCalls_eq`). An event makes at most the call that stands for it,
in the scopes of the validation, and a start tag in a scope of its own (`Validation.call_of_mem_calls`).
-/

namespace RelaxNg.Xsd

open Attempt Xml

variable {ς τ : Type}

/-- The engine whose sessions note all calls and what they know at each. -/
def Engine.recorded (engine : Engine ς) : Engine (ς × List (Call × Environment)) where
  start config := (engine.start config, [])
  answer call env s := (engine.answer call env s.1).map (·, s.2 ++ [(call, env)])
  reset s := (engine.reset s.1, s.2)

/-- The names that are handed over in a call. -/
def Call.names : Call → List Name
  | startElement name attributes => name :: attributes.map Prod.fst
  | endElement name => [name]
  | startDocument | endDocument | text _ | space _ => []

namespace Validation

variable {engine : Engine ς} {s : Validation ς} {event : Event} {call : Call} {env : Environment}

def withSession (session : τ) (s : Validation ς) : Validation τ := { s with session }

/-- The calls that an event makes into the session, and what the session knows at each. -/
def calls (engine : Engine ς) (event : Event) (s : Validation ς) : List (Call × Environment) :=
  ((handle engine.recorded event).runFrom (s.withSession (s.session, []))).2.session.2

/-- The scopes with which an event meets the session. -/
def scopesAt (s : Validation ς) : Event → Scopes
  | .startElement _ _ _ => s.openScope.scopes
  | _ => s.scopes

/-- The call that stands for an event in some scopes. -/
def callFor? (scopes : Scopes) : Event → Option Call
  | .startDocument => some .startDocument
  | .endDocument => some .endDocument
  | .startElement name written attributes =>
    some (.startElement (.of name written scopes) (attributes.map fun a => (.of a.name a.written scopes, a.value)))
  | .endElement name written => some (.endElement (.of name written scopes))
  | .text content => some (.text content)
  | .space content => some (.space content)
  | .declare _ _ | .undeclare _ | .entity _ => none

/-- The scopes after an event, and whether one waits for its element. -/
def scopesAfter (s : Validation ς) : Event → Scopes × Bool
  | .declare label ns => (s.openScope.scopes.declare label ns, true)
  | .startElement _ _ _ => (s.openScope.scopes, false)
  | .endElement _ _ => (s.scopes.pop, s.scopeOpened)
  | _ => (s.scopes, s.scopeOpened)

/-! ## Sessions that answer alike -/

section SeenAs

variable {engine' : Engine τ} {f : ς → τ}

/-- The validation is another one with another view of its session. -/
def Viewed (f : ς → τ) (s : Validation ς) (u : Validation τ) : Prop := u = s.withSession (f s.session)

theorem viewed_iff {s : Validation ς} {u : Validation τ} : Viewed f s u ↔ Together Eq f s u := by
  constructor
  · rintro rfl
    exact ⟨rfl, rfl, rfl, rfl, rfl⟩
  · rintro ⟨hcontext, hscopes, hopened, hentities, hsession⟩
    cases u
    cases hcontext
    cases hscopes
    cases hopened
    cases hentities
    cases hsession
    rfl

theorem openScope_session (s : Validation ς) : s.openScope.session = s.session := by
  cases h : s.scopeOpened <;> simp [openScope, h]

/-- The validation does the same whichever of the two sessions it holds. -/
theorem relates_handle_viewed (h : engine.SeenAs f engine') (event : Event) :
    Relates (Viewed f) (handle engine event) (handle engine' event) := by
  intro s u hu
  obtain ⟨hanswer, ht⟩ := relates_handle (fun _ => relates_eq _) Context.abreast_eq h event s u (viewed_iff.1 hu)
  exact ⟨hanswer, viewed_iff.2 ht⟩

end SeenAs

/-! ## Recording -/

theorem recorded_seenAs (engine : Engine ς) : engine.recorded.SeenAs Prod.fst engine := by
  intro call env s
  change _ = (Dialogue.map _ _).map _
  rw [Dialogue.map_map, Dialogue.map_self]

/-- What was noted before makes no difference. -/
theorem recorded_seenAs_after (engine : Engine ς) (log : List (Call × Environment)) :
    engine.recorded.SeenAs (fun s => (s.1, log ++ s.2)) engine.recorded := by
  intro call env s
  change Dialogue.map _ _ = (Dialogue.map _ _).map _
  rw [Dialogue.map_map, List.append_assoc]

theorem session_tell (call : Call) (s : Validation (ς × List (Call × Environment))) :
    ((tell engine.recorded call).runFrom s).2.session.2 = s.session.2 ++ [(call, s.environment)] :=
  (congrArg Prod.snd (Dialogue.hold_relates (fun _ => relates_eq _) _ _ (rfl : s.context = s.context)).2.1).symm

/-- A session that notes its calls notes behind what it has noted those of every event, and answers as ever. -/
theorem handle_recorded (engine : Engine ς) (event : Event) (s : Validation (ς × List (Call × Environment))) :
    let run := (handle engine.recorded event).runFrom s
    let plain := s.withSession s.session.1
    run.1 = ((handle engine event).runFrom plain).1 ∧ Viewed Prod.fst run.2 ((handle engine event).runFrom plain).2 ∧
      run.2.session.2 = s.session.2 ++ calls engine event plain := by
  obtain ⟨hanswer, hstate⟩ := relates_handle_viewed (recorded_seenAs engine) event s _ rfl
  refine ⟨hanswer, hstate, ?_⟩
  have hlog := (relates_handle_viewed (recorded_seenAs_after engine s.session.2) event
    (s.withSession (s.session.1, [])) s (by simp [Viewed, withSession])).2
  exact congrArg (fun u => u.session.2) hlog

/-- The calls into the session while a scan is validated. -/
def sessionCalls (engine : Engine ς) (place : Nat → Location) (scan : Scan) (s : Validation ς) :
    List (Call × Environment) :=
  ((Document.validateScan (validator engine.recorded) place scan).runFrom
    (s.withSession (s.session, []))).2.session.2

/-- All calls while a scan is validated are those of the events that the validation is told. -/
theorem sessionCalls_eq (engine : Engine ς) (place : Nat → Location) (scan : Scan) (s : Validation ς) :
    sessionCalls engine place scan s =
      (Document.tellings (validator engine) place scan s).flatMap fun t => calls engine t.event t.state := by
  let R (s : Validation (ς × List (Call × Environment))) (u : Validation ς × List (Telling (Validation ς))) :=
    Viewed Prod.fst s u.1 ∧ s.session.2 = u.2.flatMap fun t => calls engine t.event t.state
  have hagree : Document.Agree R (Reading.within (validator engine.recorded)) (Reading.noting (validator engine)) := by
    refine Document.agree_noting ?_ ?_ ?_
    · rintro location s _ log ⟨rfl, hlog⟩
      exact ⟨rfl, hlog⟩
    · rintro event s log ⟨scopes, opened, _⟩ ⟨rfl, hlog⟩
      obtain ⟨hanswer, hstate, hcalls⟩ := handle_recorded engine event s
      refine ⟨hanswer, hstate, hcalls.trans ?_⟩
      rw [hlog, List.flatMap_append, List.flatMap_singleton]
    · rintro s _ log ⟨rfl, -⟩
      rfl
  exact (Document.validateScan_of_agree (R := R) hagree place scan ⟨rfl, rfl⟩).2.2

/-! ## What an event does -/

theorem ensures_onContext (step : Attempt Context Unit) (s : Validation ς) :
    Ensures (onContext step) s (fun _ t => ∃ context, t = { s with context })
      fun t => ∃ context, t = { s with context } :=
  ensures_state_iff.2 ⟨_, rfl⟩

/-- What an event leaves of the scopes. -/
theorem ensures_scopesAfter (engine : Engine ς) (event : Event) (s : Validation ς) :
    Ensures (handle engine event) s (fun _ t => (t.scopes, t.scopeOpened) = s.scopesAfter event) fun _ => True := by
  have always {step : Step ς Unit} {s : Validation ς} {p : Scopes × Bool}
      (h : ((step.runFrom s).2.scopes, (step.runFrom s).2.scopeOpened) = p) :
      Ensures step s (fun _ t => (t.scopes, t.scopeOpened) = p) fun _ => True :=
    (ensures_state_iff.2 h).on_ok
  obtain ⟨context, scopes, scopeOpened, entities, session⟩ := s
  cases event with
  | startDocument | endDocument | text | space | undeclare | endElement => exact always rfl
  | declare label ns => cases scopeOpened <;> exact always rfl
  | entity entity =>
    refine always ?_
    change ((if _ then _ else _ : Validation ς).scopes, (if _ then _ else _ : Validation ς).scopeOpened) = _
    split <;> rfl
  | startElement name written attributes =>
    refine (ensures_onContext _ _).on_ok.bind ?_
    rintro _ _ ⟨context, rfl⟩
    cases scopeOpened <;> exact always rfl

theorem mem_session_tell {s : Validation (ς × List (Call × Environment))} {c : Call × Environment}
    (hs : s.session.2 = []) (hc : c ∈ ((tell engine.recorded call).runFrom s).2.session.2) :
    c.1 = call ∧ c.2.scopes = s.scopes := by
  rw [session_tell, hs, List.nil_append, List.mem_singleton] at hc
  rw [hc]
  exact ⟨rfl, rfl⟩

/-- An event makes at most one call, the one that stands for it. -/
theorem call_of_mem_calls (h : (call, env) ∈ calls engine event s) :
    env.scopes = s.scopesAt event ∧ callFor? env.scopes event = some call := by
  cases event with
  | startDocument | endDocument | text | space | endElement =>
    obtain ⟨rfl, he⟩ := mem_session_tell rfl h
    rw [he]
    exact ⟨rfl, rfl⟩
  | undeclare label => cases h
  | declare label ns =>
    change (call, env) ∈ (s.withSession (s.session, [])).openScope.session.2 at h
    rw [openScope_session] at h
    cases h
  | entity entity =>
    change (call, env) ∈ (if _ then _ else _ : Validation (ς × List (Call × Environment))).session.2 at h
    split at h <;> cases h
  | startElement name written attributes =>
    -- The limits are checked before the scope is opened; if they are exceeded there is no call at all.
    let Fine (t : Validation (ς × List (Call × Environment))) : Prop := ∀ c ∈ t.session.2,
      c.2.scopes = s.openScope.scopes ∧ callFor? c.2.scopes (.startElement name written attributes) = some c.1
    suffices hrun : Ensures (handle engine.recorded (.startElement name written attributes))
        (s.withSession (s.session, [])) (fun _ => Fine) Fine from ensures_state_iff.1 hrun _ h
    refine Ensures.bind ((ensures_onContext _ _).mono (fun _ _ => id) ?_) ?_
    · rintro _ ⟨context, rfl⟩ c ⟨⟩
    · rintro _ _ ⟨context, rfl⟩
      refine ensures_modify_then.2 (ensures_get_then.2 (ensures_state_iff.2 fun c hc => ?_))
      obtain ⟨hcall, hc⟩ := mem_session_tell (by rw [openScope_session]; rfl) hc
      have hscopes : c.2.scopes = s.openScope.scopes := by
        rw [hc]
        cases hs : s.scopeOpened <;> simp [openScope, withSession, hs]
      refine ⟨hscopes, ?_⟩
      rw [hcall, hc]
      rfl

end Validation

end RelaxNg.Xsd
