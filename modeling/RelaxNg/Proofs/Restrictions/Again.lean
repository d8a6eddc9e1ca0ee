import Mathlib.Logic.Function.Iterate
import RelaxNg.Proofs.Restrictions.Leaving
import RelaxNg.Proofs.Restrictions.Locations
import RelaxNg.Proofs.Restrictions.Places

/-!
# Checks that are made again

The check of a start comes, through choices and references, to elements and to what is refused where it stands: the
alternatives of the start. It visits them from left to right, and apart from the entered elements it leaves nothing
behind (`checkStart_surveys`). An element is entered before its content is checked and stays entered if that fails. So a
check that has failed in an element goes past it the next time (`checkStart_again`), and after as many calls as there
are alternatives it fails only for what is refused at the start itself (`checkStart_repeated`).
-/

namespace RelaxNg.RestrictionCheck

open Attempt

variable {g : Grammar} {limit levels : Nat} {limits : Limits} {p start : PatternId} {s t : State} {e : Error}
  {entered left : Entered} {opened : List DefinitionId}

/-! ## Alternatives of a start -/

inductive Alternative where
  /-- What must not stand at the start, or stands too deep. -/
  | refused (e : Error)
  /-- An element, the definitions that are open around it and the location that it tells. -/
  | element (id : ElementId) (levels : Nat) (opened : List DefinitionId) (loc : Option Location)

namespace Alternative

def refusal? : Alternative → Option Error
  | refused e => some e
  | element _ _ _ _ => none

/-- An element that was entered. -/
def Settled (entered : Entered) : Alternative → Prop
  | refused _ => False
  | element id _ _ _ => entered.contains id = true

end Alternative

/-- What the check of a pattern comes to at the start, or in definitions that are open there. -/
def alternatives (g : Grammar) (limit : Nat) : (levels : Nat) → (opened : List DefinitionId) → PatternId →
    List Alternative
  | 0, _, _ => [.refused (.recursion (.depthExceeded (limit + 1) limit))]
  | levels + 1, opened, p =>
    match g.pattern p with
    | .choice left right => alternatives g limit levels opened left ++ alternatives g limit levels opened right
    | .ref d =>
      match g.body? d with
      | none => []
      | some body => if opened.contains d then [] else alternatives g limit levels (d :: opened) body
    | .element id => [.element id levels opened (g.mark? p)]
    | pattern =>
      match Place.start.prohibited? pattern with
      | none => []
      | some r => [.refused (.restriction ⟨r, if pattern.refusesFirst then none else g.mark? p⟩)]

/-- Refuses what is refused, and checks the content of an element unless it was entered before. -/
def visit (g : Grammar) (limit : Nat) : Alternative → Attempt Entered Unit
  | .refused e => throw e
  | .element id levels opened loc => do
    if (← get).contains id then return
    onPart (fun entered => { checked := entered.insert id, active := .ofList opened, attributes := some .empty })
      (fun s _ => s.checked) (located loc (check g limit levels (g.element id).content .element))

/-! ## One visit -/

theorem visit_entered {id : ElementId} {loc : Option Location} (h : entered.contains id = true) :
    (visit g limit (.element id levels opened loc)).runFrom entered = (.ok (), entered) := by
  unfold visit
  rw [runFrom_get_then, if_pos h]
  rfl

theorem visit_settled {a : Alternative} (h : a.Settled entered) :
    (visit g limit a).runFrom entered = (.ok (), entered) := by
  cases a with
  | refused e => exact h.elim
  | element id levels opened loc => exact visit_entered h

theorem visit_element {id : ElementId} {loc : Option Location} (h : entered.contains id = false) :
    (visit g limit (.element id levels opened loc)).runFrom entered =
      (((located loc (check g limit levels (g.element id).content .element)).runFrom
          { checked := entered.insert id, active := .ofList opened, attributes := some .empty }).1,
        ((check g limit levels (g.element id).content .element).runFrom
          { checked := entered.insert id, active := .ofList opened, attributes := some .empty }).2.checked) := by
  unfold visit
  rw [runFrom_get_then, h]
  rfl

theorem keeps_visit {id : ElementId} (a : Alternative) :
    Keeps (fun entered => entered.contains id = true) (visit g limit a) := by
  intro entered h
  cases a with
  | refused e => exact h
  | element other levels opened loc =>
    cases hother : entered.contains other
    · rw [visit_element hother]
      exact (check_leaves _ _ _ _ _ _).checked id (by simp [h])
    · rwa [visit_entered hother]

theorem visit_settles (g : Grammar) (limit : Nat) (id : ElementId) (levels : Nat) (opened : List DefinitionId)
    (loc : Option Location) (entered : Entered) : (Alternative.element id levels opened loc).Settled
      ((visit g limit (.element id levels opened loc)).runFrom entered).2 := by
  cases h : entered.contains id
  · rw [visit_element h]
    exact (check_leaves _ _ _ _ _ _).checked id (by simp)
  · rwa [visit_entered h]

theorem visit_cases {a : Alternative} {answer : Except Error Unit}
    (h : (visit g limit a).runFrom entered = (answer, left)) :
    (∃ e, a = .refused e ∧ answer = .error e) ∨ a.Settled left := by
  cases a with
  | refused e =>
    cases h
    exact .inl ⟨e, rfl, rfl⟩
  | element id levels opened loc =>
    have hsettled := visit_settles g limit id levels opened loc entered
    rw [h] at hsettled
    exact .inr hsettled

/-- A visit fails at what is refused, or in an element that is entered all the same. -/
theorem visit_fails {a : Alternative} (h : (visit g limit a).runFrom entered = (.error e, left)) :
    a = .refused e ∨ ¬ a.Settled entered ∧ a.Settled left := by
  rcases visit_cases h with ⟨_, rfl, ⟨⟩⟩ | hleft
  · exact .inl rfl
  · refine .inr ⟨fun hsettled => ?_, hleft⟩
    rw [visit_settled hsettled] at h
    cases h

/-! ## Visits of many -/

variable {a : Alternative} {as : List Alternative}

theorem Alternative.Settled.visits (h : a.Settled entered) (g : Grammar) (limit : Nat) (as : List Alternative) :
    a.Settled ((as.forM (visit g limit)).runFrom entered).2 := by
  cases a with
  | refused e => exact h
  | element id levels opened loc => exact keeps_forM (fun b _ => keeps_visit b) entered h

theorem visits_refused_then (e : Error) (as : List Alternative) :
    ((.refused e :: as).forM (visit g limit)).runFrom entered = (.error e, entered) := rfl

/-- What is settled makes no difference to the visits behind it. -/
theorem visits_settled_then (h : a.Settled entered) (as : List Alternative) :
    ((a :: as).forM (visit g limit)).runFrom entered = (as.forM (visit g limit)).runFrom entered := by
  rw [List.forM_eq_forM, List.forM_cons, runFrom_bind, visit_settled h]

theorem visits_of_settled (h : ∀ a ∈ as, a.Settled entered) :
    (as.forM (visit g limit)).runFrom entered = (.ok (), entered) := by
  induction as with
  | nil => rfl
  | cons a as ih =>
    rw [List.forall_mem_cons] at h
    rw [visits_settled_then h.1, ih h.2]

theorem settled_of_visits (h : (as.forM (visit g limit)).runFrom entered = (.ok (), left)) :
    ∀ a ∈ as, a.Settled left := by
  induction as generalizing entered with
  | nil => exact nofun
  | cons a as ih =>
    obtain ⟨mid, ha, has⟩ := runFrom_then_ok.1 h
    rcases visit_cases ha with ⟨_, -, ⟨⟩⟩ | hmid
    have hleft := hmid.visits g limit as
    rw [has] at hleft
    exact List.forall_mem_cons.2 ⟨hleft, ih has⟩

/-- The elements that visits leave entered. -/
def afterVisits (g : Grammar) (limit : Nat) (as : List Alternative) (entered : Entered) : Entered :=
  ((as.forM (visit g limit)).runFrom entered).2

theorem settled_afterVisits (g : Grammar) (limit : Nat) (id : ElementId) (levels : Nat) (opened : List DefinitionId)
    (loc : Option Location) (as : List Alternative) (entered : Entered) :
    (Alternative.element id levels opened loc).Settled
      (afterVisits g limit (.element id levels opened loc :: as) entered) := by
  have hmid := visit_settles g limit id levels opened loc entered
  rw [afterVisits, List.forM_eq_forM, List.forM_cons, runFrom_bind]
  rcases hr : (visit g limit (.element id levels opened loc)).runFrom entered with ⟨_ | _, mid⟩ <;> rw [hr] at hmid
  · exact hmid
  · exact hmid.visits g limit as

/-- Once an element is settled, it makes no difference how often the visits are made. -/
theorem iterate_afterVisits (g : Grammar) (limit : Nat) (as : List Alternative) (n : Nat) (h : a.Settled entered) :
    (afterVisits g limit (a :: as))^[n] entered = (afterVisits g limit as)^[n] entered ∧
      a.Settled ((afterVisits g limit as)^[n] entered) := by
  induction n generalizing entered with
  | zero => exact ⟨rfl, h⟩
  | succ n ih =>
    have hstep : afterVisits g limit (a :: as) entered = afterVisits g limit as entered := by
      rw [afterVisits, visits_settled_then h, afterVisits]
    rw [Function.iterate_succ_apply, Function.iterate_succ_apply, hstep]
    exact ih (h.visits g limit as)

/-- Visits that are made often enough fail only for what is refused itself. -/
theorem visits_repeated {n : Nat} (hn : as.length ≤ n) (entered : Entered) :
    ((as.forM (visit g limit)).runFrom ((afterVisits g limit as)^[n] entered)).1 =
      match as.findSome? Alternative.refusal? with
      | some e => .error e
      | none => .ok () := by
  induction as generalizing n entered with
  | nil => rfl
  | cons a as ih =>
    cases a with
    | refused e =>
      rw [visits_refused_then]
      rfl
    | element id levels opened loc =>
      obtain ⟨n, rfl⟩ := Nat.exists_eq_add_one_of_ne_zero (Nat.ne_zero_of_lt hn)
      obtain ⟨heq, hlast⟩ := iterate_afterVisits g limit as n
        (settled_afterVisits g limit id levels opened loc as entered)
      rw [Function.iterate_succ_apply, heq, visits_settled_then hlast, ih (Nat.le_of_succ_le_succ hn)]
      rfl

/-! ## A start and its alternatives -/

/-- A state of a check at the start, inside of definitions. A definition that was closed again leaves the table of the
open ones in another shape than it was, so the tables agree only in what they hold. -/
def AtStart (opened : List DefinitionId) (s : State) (entered : Entered) : Prop :=
  Alike s { checked := entered, active := .ofList opened }

theorem AtStart.onAttributes (h : AtStart opened s entered) (change : AttributeNames → AttributeNames) :
    (onAttributes change).runFrom s = (.ok (), s) := by
  have hs : s.attributes = none := h.attributes
  rw [runFrom_onAttributes, hs, Option.map_none, ← hs]

theorem AtStart.onAlphabet (h : AtStart opened s entered) (change : Alphabet → Alphabet) :
    (onAlphabet change).runFrom s = (.ok (), s) := by
  have hs : s.alphabet = none := h.alphabet
  rw [runFrom_onAlphabet, hs, Option.map_none, ← hs]

/-- A step that changes no state at the start may come before another one. -/
theorem relates_skip_then {skip step : Check} {step' : Attempt Entered Unit}
    (hskip : ∀ s entered, AtStart opened s entered → skip.runFrom s = (.ok (), s))
    (h : Relates (AtStart opened) step step') : Relates (AtStart opened) (skip >>= fun _ => step) step' := by
  intro s entered hs
  rw [runFrom_bind, hskip s entered hs]
  exact h s entered hs

theorem relates_skip {skip : Check} (hskip : ∀ s entered, AtStart opened s entered → skip.runFrom s = (.ok (), s)) :
    Relates (AtStart opened) skip (pure () : Attempt Entered Unit) := by
  intro s entered hs
  rw [hskip s entered hs]
  exact ⟨rfl, hs⟩

theorem equiv_insert {active : Std.HashSet DefinitionId} (h : active.Equiv (.ofList opened)) (d : DefinitionId) :
    (active.insert d).Equiv (.ofList (d :: opened)) := by
  refine .of_forall_contains_eq fun d' => ?_
  rw [Std.HashSet.contains_insert, h.contains_eq, Std.HashSet.contains_ofList, Std.HashSet.contains_ofList,
    List.contains_cons, BEq.comm]

theorem equiv_erase {active : Std.HashSet DefinitionId} {d : DefinitionId} (h : active.Equiv (.ofList (d :: opened)))
    (hd : opened.contains d = false) : (active.erase d).Equiv (.ofList opened) := by
  refine .of_forall_contains_eq fun d' => ?_
  rw [Std.HashSet.contains_erase, h.contains_eq, Std.HashSet.contains_ofList, Std.HashSet.contains_ofList,
    List.contains_cons, BEq.comm]
  cases hd' : d' == d
  · simp
  · rw [eq_of_beq hd', hd]
    rfl

theorem relates_inside_opened {d : DefinitionId} {step : Check} {step' : Attempt Entered Unit}
    (hd : opened.contains d = false) (h : Relates (AtStart (d :: opened)) step step') :
    Relates (AtStart opened) (inside d step) step' := by
  intro s entered hs
  obtain ⟨ha, ht⟩ := h { s with active := s.active.insert d } entered
    ⟨hs.checked, equiv_insert hs.active d, hs.attributes, hs.alphabet⟩
  exact ⟨ha, ht.checked, equiv_erase ht.active hd, ht.attributes, ht.alphabet⟩

theorem forM_visit_singleton (a : Alternative) : [a].forM (visit g limit) = visit g limit a := by
  rw [List.forM_eq_forM, List.forM_cons, List.forM_nil, bind_pure]

/-- What stands where it must not is refused with the location that it tells, and nothing is entered. -/
theorem check_prohibited {r : Restriction} (h : Place.start.prohibited? (g.pattern p) = some r) :
    (check g limit (levels + 1) p .start).runFrom s =
      (.error (.restriction ⟨r, if (g.pattern p).refusesFirst then none else g.mark? p⟩), s) := by
  rw [check, Grammar.mark?]
  cases hp : g.pattern p <;> simp only [hp, Place.prohibited?, Option.some.injEq, reduceCtorEq] at h <;> subst h <;> rfl

theorem relates_visit_element {id : ElementId} (hp : g.pattern p = .element id) :
    Relates (AtStart opened) (check g limit (levels + 1) p .start)
      (visit g limit (.element id levels opened (g.mark? p))) := by
  have hmark : g.mark? p = (g.element id).location.or (g.location? p) := by
    rw [Grammar.mark?, hp]
  rw [check, visit, hmark]
  simp only [hp]
  refine relates_skip_then (fun s entered hs => hs.onAlphabet _) (relates_get_then fun s entered hs => ?_)
  rw [hs.checked]
  split
  · exact relates_pure _
  · intro s entered hs
    have hsame := check_alike g limit levels (g.element id).content .element
      { s with checked := s.checked.insert id, attributes := some .empty, alphabet := none }
      { checked := entered.insert id, active := .ofList opened, attributes := some .empty }
      ⟨congrArg (·.insert id) hs.checked, hs.active, rfl, rfl⟩
    exact ⟨congrArg (Except.mapError (Error.within _)) hsame.1, hsame.2.checked,
      (check_leaves _ _ _ _ _ _).active.trans hs.active, hs.attributes, hs.alphabet⟩

/-- The check of a pattern at the start visits its alternatives. -/
theorem relates_alternatives (g : Grammar) (limit levels : Nat) (opened : List DefinitionId) (p : PatternId) :
    Relates (AtStart opened) (check g limit levels p .start)
      ((alternatives g limit levels opened p).forM (visit g limit)) := by
  induction levels generalizing opened p with
  | zero =>
    rw [check_zero, alternatives, forM_visit_singleton]
    exact relates_throw _
  | succ levels ih =>
    rw [alternatives]
    cases hp : g.pattern p with
    | choice left right =>
      simp only [List.forM_eq_forM, List.forM_append]
      rw [check]
      simp only [hp]
      refine relates_skip_then (fun s entered hs => hs.onAttributes _) ((ih _ _).bind fun _ => ?_)
      refine relates_skip_then (fun s entered hs => hs.onAttributes _) ?_
      rw [← bind_pure (forM (alternatives g limit levels opened right) _)]
      exact (ih _ _).bind fun _ => relates_skip fun s entered hs => hs.onAttributes _
    | ref d =>
      rw [check]
      simp only [hp]
      cases g.body? d with
      | none => exact relates_pure _
      | some body =>
        intro s entered hs
        rw [runFrom_get_then, hs.active.contains_eq, Std.HashSet.contains_ofList]
        cases hd : opened.contains d
        · exact relates_inside_opened hd (ih _ _) s entered hs
        · exact ⟨rfl, hs⟩
    | element id =>
      rw [forM_visit_singleton]
      exact relates_visit_element hp
    | notAllowed =>
      rw [check]
      simp only [hp]
      exact relates_pure _
    | _ =>
      simp only [Place.prohibited?]
      rw [forM_visit_singleton]
      intro s entered hs
      rw [check_prohibited (by rw [hp]; rfl), hp]
      exact ⟨rfl, hs⟩

/-- No definition is open, as between the calls of a check. -/
def State.Idle (s : State) : Prop := s.active.isEmpty = true

def startAlternatives (g : Grammar) (limits : Limits) (start : PatternId) : List Alternative :=
  alternatives g limits.maxRecursionDepth (limits.maxRecursionDepth + 1) [] start

def survey (g : Grammar) (limits : Limits) (start : PatternId) : Attempt Entered Unit :=
  (startAlternatives g limits start).forM (visit g limits.maxRecursionDepth)

/-- All that the check of a start leaves behind are the entered elements. -/
theorem checkStart_surveys (g : Grammar) (limits : Limits) (start : PatternId) :
    Relates (fun s entered => s.Idle ∧ s.checked = entered) (checkStart g limits start) (survey g limits start) := by
  rintro s _ ⟨hs, rfl⟩
  have hempty : s.active.Equiv (.ofList []) := .of_forall_contains_eq fun d => by
    rw [Std.HashSet.isEmpty_iff_forall_contains.1 hs, Std.HashSet.contains_ofList, List.contains_nil]
  obtain ⟨ha, ht⟩ := relates_alternatives g limits.maxRecursionDepth (limits.maxRecursionDepth + 1) [] start
    { s with attributes := none, alphabet := none } s.checked ⟨rfl, hempty, rfl, rfl⟩
  exact ⟨ha, ht.active.isEmpty_eq, ht.checked⟩

/-! ## The check of a start, made again -/

/-- A check of a start fails at an alternative, the ones before it passed: it is refused itself, or an element that was
not entered before and is now. Made again the check fails in the same way exactly if the alternative is refused itself
or one behind it fails so, the content of the element being left out. -/
theorem checkStart_again (hs : s.Idle) (h : (checkStart g limits start).runFrom s = (.error e, t)) :
    ∃ before a after mid, startAlternatives g limits start = before ++ a :: after ∧
      (before.forM (visit g limits.maxRecursionDepth)).runFrom s.checked = (.ok (), mid) ∧
      (visit g limits.maxRecursionDepth a).runFrom mid = (.error e, t.checked) ∧
      (a = .refused e ∨ ¬ a.Settled s.checked ∧ a.Settled t.checked) ∧
      (Fails (checkStart g limits start) t e ↔ a = .refused e ∨
        ((after.forM (visit g limits.maxRecursionDepth)).runFrom t.checked).1 = .error e) := by
  obtain ⟨hanswer, hidle, hchecked⟩ := checkStart_surveys g limits start s s.checked ⟨hs, rfl⟩
  rw [h] at hanswer hidle hchecked
  have hfirst : (survey g limits start).runFrom s.checked = (.error e, t.checked) :=
    Prod.ext hanswer.symm hchecked.symm
  obtain ⟨before, a, after, mid, hsplit, hbefore, ha⟩ := exists_of_forM_error hfirst
  have hskip : (before.forM (visit g limits.maxRecursionDepth)).runFrom t.checked = (.ok (), t.checked) := by
    refine visits_of_settled fun b hb => ?_
    have hb := (settled_of_visits hbefore b hb).visits g limits.maxRecursionDepth [a]
    rwa [forM_visit_singleton, ha] at hb
  have hagain : ((checkStart g limits start).runFrom t).1 =
      (((a :: after).forM (visit g limits.maxRecursionDepth)).runFrom t.checked).1 := by
    rw [(checkStart_surveys _ _ _ t t.checked ⟨hidle, rfl⟩).1, survey, hsplit, List.forM_eq_forM, List.forM_append,
      runFrom_bind, ← List.forM_eq_forM, hskip]
  have hstop := visit_fails ha
  refine ⟨before, a, after, mid, hsplit, hbefore, ha, ?_, ?_⟩
  · refine hstop.imp id fun ⟨hnot, hleft⟩ => ⟨fun hsettled => hnot ?_, hleft⟩
    have hmid := hsettled.visits g limits.maxRecursionDepth before
    rwa [hbefore] at hmid
  · rw [Fails, hagain]
    rcases hstop with rfl | ⟨-, hleft⟩
    · exact iff_of_true rfl (.inl rfl)
    · have hne : a ≠ .refused e := by
        rintro rfl
        exact hleft
      rw [visits_settled_then hleft, or_iff_right hne]

/-- An element with an attribute whose name is reserved. -/
def reserved : Grammar where
  nodes := #[⟨.empty, true, .empty, none⟩, ⟨.notAllowed, false, .empty, none⟩, ⟨.text, true, .mixed, none⟩,
    ⟨.attr (.plain "xmlns") ⟨2⟩ .none, false, .empty, none⟩, ⟨.element ⟨0⟩, false, .complex, none⟩]
  elements := #[⟨.plain "e", ⟨3⟩, none, .none⟩]

theorem reserved_fails :
    Fails (checkStart reserved .standard ⟨4⟩) {} (.restriction (.of .xmlnsAttributeName)) := by
  have helement : reserved.pattern ⟨4⟩ = .element ⟨0⟩ := rfl
  have hattr : Fails (check reserved 5000 5000 ⟨3⟩ .element)
      { checked := ({} : Entered).insert ⟨0⟩, attributes := some .empty } (.restriction (.of .xmlnsAttributeName)) :=
    (check_attr_fails rfl).2 ⟨_, .inr ⟨rfl, .inl ⟨by decide, rfl⟩⟩, rfl⟩
  exact isolated_fails.2 ((check_element_fails helement).2 ⟨by simp, _, .inr ⟨rfl, hattr⟩, rfl⟩)

theorem startAlternatives_reserved :
    startAlternatives reserved .standard ⟨4⟩ = [.element ⟨0⟩ 5000 [] none] := rfl

/-- The statement at `reserved`: the error is not told again. -/
theorem checkStart_again_reserved : State.Idle {} ∧
    ∃ t, (checkStart reserved .standard ⟨4⟩).runFrom {} = (.error (.restriction (.of .xmlnsAttributeName)), t) ∧
      ¬ Fails (checkStart reserved .standard ⟨4⟩) t (.restriction (.of .xmlnsAttributeName)) := by
  have hidle : State.Idle {} := rfl
  have hfirst : (checkStart reserved .standard ⟨4⟩).runFrom {} = (.error (.restriction (.of .xmlnsAttributeName)),
    ((checkStart reserved .standard ⟨4⟩).runFrom {}).2) := Prod.ext reserved_fails rfl
  obtain ⟨before, a, after, mid, hsplit, -, -, -, hiff⟩ := checkStart_again hidle hfirst
  refine ⟨hidle, _, hfirst, fun h => ?_⟩
  rw [startAlternatives_reserved] at hsplit
  cases before with
  | nil =>
    cases hsplit
    rcases hiff.1 h with h | h <;> cases h
  | cons b before => simp at hsplit

/-- A check of `reserved` fails, and passes when it is made again. -/
theorem reserved_passes_again :
    ((checkStart reserved .standard ⟨4⟩).runFrom {}).1 = .error (.restriction (.of .xmlnsAttributeName)) ∧
      ((checkStart reserved .standard ⟨4⟩).runFrom ((checkStart reserved .standard ⟨4⟩).runFrom {}).2).1 = .ok () := by
  refine ⟨reserved_fails, ?_⟩
  obtain ⟨-, hidle, hchecked⟩ := checkStart_surveys reserved .standard ⟨4⟩ {} {} ⟨rfl, rfl⟩
  rw [(checkStart_surveys _ _ _ _ _ ⟨hidle, hchecked⟩).1, survey, startAlternatives_reserved,
    visits_of_settled (List.forall_mem_singleton.2 ?_)]
  exact settled_afterVisits _ _ _ _ _ _ [] _

/-- After as many calls as there are alternatives, the check of a start fails only for what is refused at the start. -/
theorem checkStart_repeated (hs : s.Idle) {n : Nat} (hn : (startAlternatives g limits start).length ≤ n) :
    ((checkStart g limits start).runFrom ((fun s => ((checkStart g limits start).runFrom s).2)^[n] s)).1 =
      match (startAlternatives g limits start).findSome? Alternative.refusal? with
      | some e => .error e
      | none => .ok () := by
  have hcalls (n : Nat) (s : State) (hs : s.Idle) :
      ((fun s => ((checkStart g limits start).runFrom s).2)^[n] s).Idle ∧
        ((fun s => ((checkStart g limits start).runFrom s).2)^[n] s).checked =
          (afterVisits g limits.maxRecursionDepth (startAlternatives g limits start))^[n] s.checked := by
    induction n generalizing s with
    | zero => exact ⟨hs, rfl⟩
    | succ n ih =>
      obtain ⟨-, hidle, hchecked⟩ := checkStart_surveys g limits start s s.checked ⟨hs, rfl⟩
      rw [Function.iterate_succ_apply, Function.iterate_succ_apply, afterVisits, ← survey, ← hchecked]
      exact ih _ hidle
  rw [(checkStart_surveys _ _ _ _ _ (hcalls n s hs)).1]
  exact visits_repeated hn s.checked

end RelaxNg.RestrictionCheck
