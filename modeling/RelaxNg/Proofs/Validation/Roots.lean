import RelaxNg.Proofs.Validation.Errors
import RelaxNg.Proofs.Validation.Integrity
import RelaxNg.Proofs.Validation.Tracking
import RelaxNg.Proofs.Xml.Telling

/-!
# Roots of documents that are accepted

A validation that tracks content accepts a document only if the start pattern declares each of its roots, the elements
that begin while no element is open (`Draft.accepted_roots`). The roots are the tags that begin at depth zero; nothing
counts them, so that a document without a root and one with several are accepted as well
(`Draft.accepted_without_one_root`).
-/

namespace RelaxNg

open Attempt Xml Xml.Document

/-! ## Roots -/

/-- The root that is told of, name and written name, if a root is. -/
def Xml.Telling.root? {σ : Type} (t : Telling σ) : Option (QName × String) :=
  match t.event with
  | .startElement name written _ => if t.opened.isEmpty then some (name, written) else none
  | _ => none

/-- The written name of an element that begins in a number of open elements, if it is a root. -/
def Xml.rootAt (depth : Nat) (written : String) : List String := if depth = 0 then [written] else []

/-- The written names of the roots among the elements that begin in some pieces, in a number of open elements. -/
def Xml.Scan.rootsFrom : Nat → List (Nat × Piece) → List String
  | _, [] => []
  | depth, (_, piece) :: rest =>
    match piece with
    | .startTag tag => rootAt depth tag.written ++ rootsFrom (depth + 1) rest
    | .emptyTag tag => rootAt depth tag.written ++ rootsFrom depth rest
    | .endTag => rootsFrom (depth - 1) rest
    | .text _ | .literal _ | .doctype _ | .remark => rootsFrom depth rest

/-- The written names of the elements of a scan that stand in no other. -/
def Xml.Scan.roots (scan : Scan) : List String := rootsFrom 0 scan.pieces

/-- The start pattern allows an element with a name. -/
def Schema.DeclaresRoot (schema : Schema) (name : QName) : Prop :=
  ∃ e ∈ schema.grammar.topElements schema.start, (schema.grammar.element e).names.contains name = true

theorem Grammar.eq_elementModel {g : Grammar} {start : PatternId} {e : ElementId} {m : ElementModel}
    (h : (g.contentModel start).element? e = some m) : m = g.elementModel e := by
  unfold ContentModel.element? at h
  obtain ⟨entry, hfind, rfl⟩ := Option.map_eq_some_iff.1 h
  have hentry : entry.1 = e := by simpa using List.find?_some hfind
  have hmem := List.mem_of_find?_eq_some hfind
  simp only [contentModel, List.mem_map] at hmem
  obtain ⟨e', -, rfl⟩ := hmem
  rw [← hentry]

namespace SchemaValidation

abbrev Noted := Reading (SchemaValidation × List (Telling SchemaValidation))

variable {model : ContentModel} {roots : List String} {r : Noted} {event : Event} {tag : Tag}

/-- The roots so far are told of, and each is declared unless an error was reported. -/
structure Accounts (model : ContentModel) (roots : List String) (r : Noted) : Prop where
  tracks : r.state.1.Tracks model r.opened.length
  roots : (r.state.2.filterMap Telling.root?).map Prod.snd = roots
  declared : r.state.1.context.hadError = false →
    ∀ root ∈ r.state.2.filterMap Telling.root?, model.matching model.start root.1 ≠ []

theorem roots_noted (event : Event) (s : SchemaValidation) (r : Noted) :
    (r.noted event s).state.2.filterMap Telling.root? =
      r.state.2.filterMap Telling.root? ++ (Telling.mk (r.map Prod.fst) event).root?.toList := by
  change (_ ++ [_]).filterMap _ = _
  rw [List.filterMap_append]
  cases h : (Telling.mk (r.map Prod.fst) event).root? <;> simp [h]

theorem root?_eq_none {σ : Type} {r : Reading σ}
    (hstart : ∀ name written attributes, event ≠ .startElement name written attributes) :
    (Telling.mk r event).root? = none := by
  cases event with
  | startElement name written attributes => exact absurd rfl (hstart name written attributes)
  | _ => rfl

/-! ## The roots along a reading -/

/-- An event that begins no element tells of no root. -/
theorem Accounts.noted {opened : List OpenElement} {s : SchemaValidation} (h : Accounts model roots r)
    (hstart : ∀ name written attributes, event ≠ .startElement name written attributes)
    (htracks : s.Tracks model opened.length) (herror : r.state.1.context.hadError = true → s.context.hadError = true) :
    Accounts model roots (({ r with opened } : Noted).noted event s) := by
  have hroots : (({ r with opened } : Noted).noted event s).state.2.filterMap Telling.root? =
      r.state.2.filterMap Telling.root? := by
    rw [roots_noted, root?_eq_none hstart]
    exact List.append_nil _
  refine ⟨htracks, by rw [hroots, h.roots], fun hs => ?_⟩
  rw [hroots]
  refine h.declared (Bool.eq_false_iff.2 fun hr => ?_)
  exact Bool.eq_false_iff.1 hs (herror hr)

theorem Accounts.aside (h : Accounts model roots r)
    (hstart : ∀ name written attributes, event ≠ .startElement name written attributes)
    (hend : ∀ name written, event ≠ .endElement name written) :
    Ensures ((Reading.noting schemaValidator).handle event) r
      (fun _ t => Accounts model roots t ∧ t.opened = r.opened) fun _ => True := by
  refine ensures_noting.2 ((ensures_handle_aside h.tracks hstart hend).mono ?_ fun _ => id)
  exact fun _ s ⟨htracks, herror⟩ => ⟨h.noted hstart htracks herror, rfl⟩

/-- The start of an element tells of a root if no element is open, which is declared unless an error is reported. -/
theorem Accounts.noted_startElement {name : QName} {written : String} {attributes : List Attribute}
    {s : SchemaValidation} (h : Accounts model roots r) (element : OpenElement)
    (htracks : s.Tracks model (r.opened.length + 1))
    (herror : r.state.1.context.hadError = true ∨ r.opened.length = 0 ∧ model.matching model.start name = [] →
      s.context.hadError = true) :
    Accounts model (roots ++ rootAt r.opened.length written)
      { r.noted (.startElement name written attributes) s with opened := element :: r.opened } := by
  have hlog := roots_noted (.startElement name written attributes) s r
  have hgood (hs : s.context.hadError = false) :
      r.state.1.context.hadError = false ∧ (r.opened.length = 0 → model.matching model.start name ≠ []) := by
    refine ⟨Bool.eq_false_iff.2 fun hr => ?_, fun hlength hnone => ?_⟩
    · exact Bool.eq_false_iff.1 hs (herror (.inl hr))
    · exact Bool.eq_false_iff.1 hs (herror (.inr ⟨hlength, hnone⟩))
  refine ⟨htracks, ?_, fun hs => ?_⟩
  · change ((r.noted _ s).state.2.filterMap _).map _ = _
    rw [hlog, List.map_append, h.roots]
    cases ho : r.opened <;> simp [Telling.root?, Reading.map, rootAt, ho]
  · change ∀ root ∈ (r.noted _ s).state.2.filterMap _, _
    obtain ⟨hr, hroot⟩ := hgood hs
    rw [hlog, List.forall_mem_append]
    refine ⟨h.declared hr, fun root hmem => ?_⟩
    cases ho : r.opened with
    | nil =>
      obtain rfl : root = (name, written) := by simpa [Telling.root?, Reading.map, ho] using hmem
      exact hroot (by rw [ho]; rfl)
    | cons => simp [Telling.root?, Reading.map, ho] at hmem

theorem Accounts.start (h : Accounts model roots r) (tag : Tag) :
    Ensures (start (Reading.noting schemaValidator) tag) r
      (fun _ t => Accounts model (roots ++ rootAt r.opened.length tag.written) t ∧
        t.opened.length = r.opened.length + 1)
      fun _ => True := by
  refine ensures_start (fun _ _ t => Accounts model roots t ∧ t.opened = r.opened) trivial
    (fun _ => ⟨⟨h.tracks, h.roots, h.declared⟩, rfl⟩) (fun _ label ns rest t ht => ?_) (fun _ _ _ => trivial)
    fun name attributes declared t ⟨ht, ho⟩ _ _ => ?_
  · refine (ht.1.aside (by simp) (by simp)).mono ?_ fun _ => id
    exact fun _ u ⟨hu, ho⟩ => ⟨⟨hu.tracks, hu.roots, hu.declared⟩, ho.trans ht.2⟩
  · refine ensures_noting.2 ((ensures_handle_startElement ht.tracks name tag.written attributes).mono ?_ fun _ => id)
    rintro _ s ⟨htracks, herror⟩
    rw [← ho]
    exact ⟨ht.noted_startElement _ htracks herror, rfl⟩

theorem Accounts.finish (h : Accounts model roots r) :
    Ensures (finish (Reading.noting schemaValidator)) r
      (fun _ t => Accounts model roots t ∧ t.opened.length = r.opened.length - 1) fun _ => True := by
  refine ensures_finish (fun _ t => Accounts model roots t ∧ t.opened.length = r.opened.length - 1) (fun _ => trivial)
    (fun element outer ho => ?_) (fun label _ t ht => ?_) fun t ht => ⟨⟨ht.1.tracks, ht.1.roots, ht.1.declared⟩, ht.2⟩
  · refine ensures_noting.2
      ((ensures_handle_endElement h.tracks element.name element.written).mono ?_ fun _ => id)
    rintro _ s ⟨htracks, herror⟩
    rw [ho] at htracks
    refine ⟨h.noted (by simp) htracks herror, ?_⟩
    rw [ho]
    rfl
  · refine (ht.1.aside (by simp) (by simp)).mono ?_ fun _ => id
    exact fun _ u ⟨hu, ho⟩ => ⟨hu, by rw [ho, ht.2]⟩

theorem Accounts.read_aside (h : Accounts model roots r) {piece : Piece} (hp : piece.isTag = false) :
    Ensures (read (Reading.noting schemaValidator) piece) r
      (fun _ t => Accounts model roots t ∧ t.opened = r.opened) fun _ => True := by
  refine ensures_read_of_aside _ ⟨h, rfl⟩ (fun _ _ => trivial) hp (fun content t ht => ?_) fun entity t ht => ?_
  all_goals exact (ht.1.aside (by simp) (by simp)).mono (fun _ u ⟨hu, ho⟩ => ⟨hu, ho.trans ht.2⟩) fun _ => id

/-- The roots told of and those that are still to come are those of the scan. -/
def Owes (model : ContentModel) (all : List String) (rest : List (Nat × Piece)) (r : Noted) : Prop :=
  ∃ roots, Accounts model roots r ∧ roots ++ Scan.rootsFrom r.opened.length rest = all

theorem Owes.read {all : List String} {offset : Nat} {piece : Piece} {rest : List (Nat × Piece)}
    (h : Owes model all ((offset, piece) :: rest) r) :
    Ensures (read (Reading.noting schemaValidator) piece) r (fun _ => Owes model all rest) fun _ => True := by
  obtain ⟨roots, h, hall⟩ := h
  cases piece with
  | startTag tag =>
    refine (h.start tag).mono (fun _ t ⟨ht, ho⟩ => ⟨_, ht, ?_⟩) fun _ => id
    rw [ho, List.append_assoc]
    exact hall
  | emptyTag tag =>
    -- The element is closed again before the next piece, so that roots are counted in the same depth as before.
    refine (h.start tag).bind fun _ t ⟨ht, ho⟩ => ht.finish.mono (fun _ u ⟨hu, ho'⟩ => ⟨_, hu, ?_⟩) fun _ => id
    rw [ho', ho, List.append_assoc]
    exact hall
  | endTag =>
    refine h.finish.mono (fun _ t ⟨ht, ho⟩ => ⟨_, ht, ?_⟩) fun _ => id
    rw [ho]
    exact hall
  | text | literal | doctype | remark =>
    refine (h.read_aside rfl).mono (fun _ t ⟨ht, ho⟩ => ⟨_, ht, ?_⟩) fun _ => id
    rw [ho]
    exact hall

theorem Owes.located {all : List String} {rest : List (Nat × Piece)} (h : Owes model all rest r)
    (location : Option Location) : Owes model all rest ((Reading.noting schemaValidator).locate location r) :=
  h.imp fun _ h => ⟨⟨h.1.tracks, h.1.roots, h.1.declared⟩, h.2⟩

theorem Owes.document {all : List String} {rest : List (Nat × Piece)} (h : Owes model all rest r)
    (hevent : event = .startDocument ∨ event = .endDocument) :
    Ensures ((Reading.noting schemaValidator).handle event) r (fun _ => Owes model all rest) fun _ => True := by
  obtain ⟨roots, h, hall⟩ := h
  refine (h.aside ?_ ?_).mono (fun _ t ⟨ht, ho⟩ => ⟨roots, ht, by rw [ho, hall]⟩) fun _ => id
  all_goals rcases hevent with rfl | rfl <;> simp

/-- A scan that is accepted is read to its end, and its roots are told of and allowed by the model. -/
theorem roots_of_accepted {s s' : SchemaValidation} {place : Nat → Location} {scan : Scan} (hs : s.Tracks model 0)
    (h : (validateScan schemaValidator place scan).runFrom s = (.ok true, s')) :
    let told := (tellings schemaValidator place scan s).filterMap Telling.root?
    told.map Prod.snd = scan.roots ∧ ∀ root ∈ told, model.matching model.start root.1 ≠ [] := by
  have hnew : Owes model scan.roots scan.pieces (⟨.empty, [], (s, [])⟩ : Noted) :=
    ⟨[], ⟨hs, rfl, fun _ _ h => absurd h List.not_mem_nil⟩, rfl⟩
  have hrun : Ensures (readScan (Reading.noting schemaValidator) place scan) (⟨.empty, [], (s, [])⟩ : Noted)
      (fun answer r => answer = true →
        (r.state.2.filterMap Telling.root?).map Prod.snd = scan.roots ∧
          ∀ root ∈ r.state.2.filterMap Telling.root?, model.matching model.start root.1 ≠ []) fun _ => True := by
    -- Between the pieces the roots told of and those to come are those of the scan; at its end none is to come.
    refine ensures_readScan (Owes model scan.roots) ((hnew.located _).document (.inl rfl))
      (fun offset piece rest t ht => (ht.located _).read) (fun _ _ _ => trivial) (fun _ _ _ _ _ => trivial)
      fun offset t _ ht _ => ?_
    refine ((ht.located _).document (.inr rfl)).mono ?_ fun _ => id
    rintro _ u ⟨roots, hu, hall⟩ herror
    rw [Bool.not_eq_true'] at herror
    refine ⟨hu.roots.trans ?_, hu.declared herror⟩
    rw [← hall, Scan.rootsFrom, List.append_nil]
  rw [validateScan_eq] at h
  obtain ⟨hanswer, -⟩ := Prod.mk.inj h
  exact hrun.of_runFrom (Prod.ext hanswer rfl) rfl

end SchemaValidation

/-! ## Any number of roots -/

/-- A lone tag `e` begins and ends an element with that name. -/
theorem Xml.Document.read_lone {σ : Type} {v : Validator (Reading σ)} {x y z : σ}
    (hstart : (v.handle (.startElement (.plain "e") "e" [])).runFrom ⟨Scopes.empty.push, [], x⟩ =
      (.ok (), ⟨Scopes.empty.push, [], y⟩))
    (hend : (v.handle (.endElement (.plain "e") "e")).runFrom ⟨Scopes.empty.push, [], y⟩ =
      (.ok (), ⟨Scopes.empty.push, [], z⟩)) :
    (read v (.emptyTag ⟨"e", []⟩)).runFrom ⟨.empty, [], x⟩ = (.ok (), ⟨.empty, [], z⟩) := by
  have hname : Scopes.empty.push.resolve "e" = .ok (.plain "e") := by decide +kernel
  have hopen : (start v ⟨"e", []⟩).runFrom ⟨.empty, [], x⟩ =
      (.ok (), ⟨Scopes.empty.push, [⟨.plain "e", "e", []⟩], y⟩) := by
    refine runFrom_bind_ok.2 ⟨[], _, rfl, runFrom_then_ok.2 ⟨_, rfl, runFrom_then_ok.2 ⟨_, rfl, ?_⟩⟩⟩
    refine runFrom_bind_ok.2 ⟨_, _, rfl, runFrom_bind_ok.2 ⟨_, _, congrArg (·, _) hname, ?_⟩⟩
    exact runFrom_bind_ok.2 ⟨[], _, rfl, runFrom_then_ok.2 ⟨_, hstart, rfl⟩⟩
  have hclose : (finish v).runFrom ⟨Scopes.empty.push, [⟨.plain "e", "e", []⟩], y⟩ = (.ok (), ⟨.empty, [], z⟩) :=
    runFrom_bind_ok.2 ⟨_, _, rfl, runFrom_then_ok.2 ⟨_, rfl, runFrom_then_ok.2 ⟨_, hend, rfl⟩⟩⟩
  exact runFrom_then_ok.2 ⟨_, hopen, hclose⟩

namespace SchemaValidation

theorem onContent_runFrom {s : SchemaValidation} {step : ContentTracker.Tracking} {t t' : ContentTracker} {c : Context}
    (hs : s.content = some t) (h : step.runFrom (s.context, t) = (.ok (), c, t')) :
    (onContent step).runFrom s = (.ok (), { s with context := c, content := some t' }) := by
  obtain ⟨context, content, identities⟩ := s
  cases hs
  exact congrArg (fun run : _ × Context × ContentTracker =>
    (run.1, (⟨run.2.1, some run.2.2, identities⟩ : SchemaValidation))) h

/-- A lone tag `e` is read as an element that the tracker passes. -/
theorem read_lone_runFrom {c : Context} {t : ContentTracker} {candidates : List ElementId}
    (hlevel : c.level + 1 ≤ c.limits.maxXmlDepth) (ht : t.candidates? (.plain "e") = some candidates)
    (hne : candidates ≠ []) (log : List (Telling SchemaValidation)) :
    ∃ log', (Document.read (Reading.noting schemaValidator) (.emptyTag ⟨"e", []⟩)).runFrom
        ⟨.empty, [], (⟨c, some t, none⟩, log)⟩ = (.ok (), ⟨.empty, [], (⟨c, some t, none⟩, log')⟩) ∧
      log'.filterMap Telling.root? = log.filterMap Telling.root? ++ [(.plain "e", "e")] := by
  let inside : SchemaValidation :=
    ⟨{ c with level := c.level + 1 }, some { t with frames := ⟨.plain "e", candidates, false⟩ :: t.frames }, none⟩
  have hpasses : ContentTracker.Passes (ContentTracker.startElement (.plain "e") []) t
      { t with frames := ⟨.plain "e", candidates, false⟩ :: t.frames } :=
    ContentTracker.passes_startElement ht hne (by simp)
  have hstart : (handle (.startElement (.plain "e") "e" [])).runFrom ⟨c, some t, none⟩ = (.ok (), inside) := by
    have henter : (Context.enter 0).runFrom c = (.ok (), { c with level := c.level + 1 }) :=
      Context.enter_runFrom hlevel (Nat.zero_le _)
    refine runFrom_then_ok.2 ⟨⟨{ c with level := c.level + 1 }, some t, none⟩, ?_,
      runFrom_then_ok.2 ⟨inside, onContent_runFrom rfl (hpasses _), rfl⟩⟩
    exact congrArg (fun run : _ × Context => (run.1, (⟨run.2, some t, none⟩ : SchemaValidation))) henter
  have hnoted {event : Event} {s s' : SchemaValidation} {log : List (Telling SchemaValidation)}
      (h : (handle event).runFrom s = (.ok (), s')) :
      ((Reading.noting schemaValidator).handle event).runFrom ⟨Scopes.empty.push, [], (s, log)⟩ =
        (.ok (), ⟨Scopes.empty.push, [], (s', log ++ [⟨⟨Scopes.empty.push, [], s⟩, event⟩])⟩) :=
    congrArg (fun run : _ × SchemaValidation => (run.1, Reading.noted event run.2 ⟨Scopes.empty.push, [], (s, log)⟩)) h
  refine ⟨_, read_lone (hnoted hstart) (hnoted rfl), ?_⟩
  simp [Telling.root?]

end SchemaValidation

namespace Draft

open SchemaValidation

/-- Any number of tags `e` side by side. -/
def loneTags (offsets : List Nat) (end' : Nat) : Scan := ⟨offsets.map (·, .emptyTag ⟨"e", []⟩), .finished end'⟩

theorem resolved_candidates : ∃ candidates,
    ContentTracker.candidates? { model := resolved.grammar.contentModel resolved.start } (.plain "e") =
      some candidates ∧ candidates ≠ [] := by
  have hp : resolvable.grammar.Has ⟨4⟩ := by
    rw [resolvable_grammar, referring_grammar]
    decide
  have hclosed := resolvable_fresh.closed_of_compile hp resolvable_compile
  have hpattern : resolved.grammar.pattern resolved.start = .element ⟨0⟩ := by
    rw [resolved_grammar]
    rfl
  have htop : ⟨0⟩ ∈ resolved.grammar.topElements resolved.start :=
    (hclosed.sound.mem_topElements_iff hclosed.has).2 ⟨_, .refl, hpattern⟩
  have hname : (resolved.grammar.elementModel ⟨0⟩).names.contains (.plain "e") = true := by
    rw [Grammar.elementModel, resolved_grammar]
    rfl
  have hexpects : ContentTracker.Expects { model := resolved.grammar.contentModel resolved.start } ⟨0⟩ := ⟨_, rfl, htop⟩
  obtain ⟨candidates, hc, hmem⟩ :=
    hexpects.exists_candidates (Grammar.element?_contentModel (hclosed.mem_of_start htop)) hname
  exact ⟨candidates, hc, List.ne_nil_of_mem hmem⟩

/-- No element is open, no error was reported, and some elements `e` were told as roots. -/
def Resting (told : Nat) (r : Noted) : Prop := ∃ c log,
  r = ⟨.empty, [], (⟨c, some { model := resolved.grammar.contentModel resolved.start }, none⟩, log)⟩ ∧
    c.level + 1 ≤ c.limits.maxXmlDepth ∧ c.hadError = false ∧
    log.filterMap Telling.root? = List.replicate told (.plain "e", "e")

theorem Resting.located {told : Nat} {r : Noted} (h : Resting told r) (location : Option Location) :
    Resting told ((Reading.noting schemaValidator).locate location r) := by
  obtain ⟨c, log, rfl, h⟩ := h
  exact ⟨c.locate location, log, rfl, h⟩

theorem Resting.document {told : Nat} {r : Noted} (h : Resting told r) {event : Event}
    (hevent : event = .startDocument ∨ event = .endDocument) {failed : Noted → Prop} :
    Ensures ((Reading.noting schemaValidator).handle event) r (fun _ => Resting told) failed := by
  obtain ⟨c, log, rfl, hlevel, herror, hlog⟩ := h
  rcases hevent with rfl | rfl <;>
  · refine ensures_of_ok rfl ⟨c, _, rfl, hlevel, herror, ?_⟩
    rw [List.filterMap_append, hlog]
    exact List.append_nil _

theorem Resting.read {told : Nat} {r : Noted} (h : Resting told r) {failed : Noted → Prop} :
    Ensures (Document.read (Reading.noting schemaValidator) (.emptyTag ⟨"e", []⟩)) r (fun _ => Resting (told + 1))
      failed := by
  obtain ⟨c, log, rfl, hlevel, herror, hlog⟩ := h
  obtain ⟨candidates, ht, hne⟩ := resolved_candidates
  obtain ⟨log', hrun, hlog'⟩ := read_lone_runFrom hlevel ht hne log
  refine ensures_of_ok hrun ⟨c, log', rfl, hlevel, herror, ?_⟩
  rw [hlog', hlog, List.replicate_succ']

/-- Tags `e` side by side are accepted however many they are, and each is told as a root. -/
theorem resolved_accepts_loneTags (place : Nat → Location) (offsets : List Nat) (end' : Nat) :
    let s : SchemaValidation := .new resolved .silent none
    (∃ s', (validateScan schemaValidator place (loneTags offsets end')).runFrom s = (.ok true, s')) ∧
      (tellings schemaValidator place (loneTags offsets end') s).filterMap Telling.root? =
        List.replicate offsets.length (.plain "e", "e") := by
  intro s
  let I (rest : List (Nat × Piece)) (r : Noted) : Prop :=
    (∀ x ∈ rest, x.2 = .emptyTag ⟨"e", []⟩) ∧ ∃ told, told + rest.length = offsets.length ∧ Resting told r
  have hnew : Resting 0 ⟨.empty, [], (s, [])⟩ :=
    ⟨.new .silent resolved.options.limits none, [], rfl, by simp [Context.new, resolved], rfl, rfl⟩
  have hrun : Ensures (readScan (Reading.noting schemaValidator) place (loneTags offsets end')) ⟨.empty, [], (s, [])⟩
      (fun answer r => answer = true ∧ Resting offsets.length r) fun _ => False := by
    refine ensures_readScan I ?_ (fun offset piece rest t ht => ?_) (fun _ he => ?_) (fun _ t _ ht ho => ?_)
      fun offset t _ ht _ => ?_
    · refine ((hnew.located _).document (.inl rfl)).mono (fun _ t ht => ?_) fun _ => id
      exact ⟨by simp [loneTags], 0, by simp [loneTags], ht⟩
    · obtain ⟨hrest, told, htold, ht⟩ := ht
      rw [List.forall_mem_cons] at hrest
      obtain ⟨rfl, hrest⟩ := hrest
      refine (ht.located _).read.mono (fun _ u hu => ⟨hrest, told + 1, ?_, hu⟩) fun _ => id
      rw [← htold, List.length_cons]
      omega
    · cases he
    · obtain ⟨-, told, -, c, log, rfl, -⟩ := ht
      exact ho rfl
    · obtain ⟨-, told, htold, ht⟩ := ht
      refine ((ht.located _).document (.inr rfl)).mono (fun _ u hu => ?_) fun _ => id
      rw [← htold]
      refine ⟨?_, hu⟩
      obtain ⟨c, log, rfl, -, herror, -⟩ := hu
      exact congrArg not herror
  obtain ⟨_, r, hr, rfl, hresting⟩ := hrun.exists_ok
  refine ⟨⟨r.state.1, by rw [validateScan_eq, hr]⟩, ?_⟩
  obtain ⟨c, log, rfl, -, -, hlog⟩ := hresting
  rw [tellings, hr]
  exact hlog

theorem scanFrom_loneTag (offset : Nat) (rest : List Char) :
    Scan.scanFrom [] offset ('<' :: 'e' :: '/' :: '>' :: rest) =
      (Scan.scanFrom [] (offset + 4) rest).cons offset (.emptyTag ⟨"e", []⟩) := by
  have hmarkup : Scan.markup? [] ('e' :: '/' :: '>' :: rest) = some (.emptyTag ⟨"e", []⟩, 3, []) := rfl
  rw [Scan.scanFrom, if_pos rfl, if_neg (by simp), hmarkup]
  rfl

theorem scanFrom_nil (offset : Nat) : Scan.scanFrom [] offset [] = loneTags [] offset := by
  rw [Scan.scanFrom]
  rfl

/-! ## The roots of accepted documents -/

/-- A document that a new validation accepts has no root that the start pattern does not allow; the roots are told of
one by one as they stand side by side in the document. So there is exactly one, and it is allowed, if the document has
one element that stands in no other. -/
theorem accepted_roots {d : Draft} {start : PatternId} {options : Options} {schema : Schema}
    (hc : d.compile start options = .ok schema) (ht : options.trackContent = true) (receiver : Receiver)
    (source : Option String) (place : Nat → Location) (scan : Scan) {s : SchemaValidation}
    (h : (validateScan schemaValidator place scan).runFrom (.new schema receiver source) = (.ok true, s)) :
    let roots := (tellings schemaValidator place scan (.new schema receiver source)).filterMap Telling.root?
    roots.map Prod.snd = scan.roots ∧ (∀ root ∈ roots, schema.DeclaresRoot root.1) ∧
      ((∃ root, roots = [root] ∧ schema.DeclaresRoot root.1) ↔ ∃ written, scan.roots = [written]) := by
  have hmodel : schema.contentModel = some (schema.grammar.contentModel schema.start) :=
    (compile_eq_ok_iff.1 hc).contentModel.trans (if_pos ht)
  have hnew : (SchemaValidation.new schema receiver source).Tracks (schema.grammar.contentModel schema.start) 0 :=
    ⟨{ model := schema.grammar.contentModel schema.start }, by rw [SchemaValidation.new, hmodel]; rfl, rfl, rfl⟩
  obtain ⟨hroots, hdeclared⟩ := SchemaValidation.roots_of_accepted hnew h
  intro roots
  have hdeclares : ∀ root ∈ roots, schema.DeclaresRoot root.1 := by
    intro root hroot
    obtain ⟨e, he⟩ := List.exists_mem_of_ne_nil _ (hdeclared root hroot)
    obtain ⟨he, hname⟩ := List.mem_filter.1 he
    obtain ⟨m, hm, hname⟩ := (Option.any_eq_true _ _).1 hname
    rw [Grammar.eq_elementModel hm] at hname
    exact ⟨e, he, hname⟩
  refine ⟨hroots, hdeclares, ?_, ?_⟩
  · rintro ⟨root, hroot, -⟩
    exact ⟨root.2, by rw [← hroots]; exact congrArg _ hroot⟩
  · rintro ⟨written, hwritten⟩
    obtain ⟨root, hroot, -⟩ := List.map_eq_singleton_iff.1 (hroots.trans hwritten)
    exact ⟨root, hroot, hdeclares root (by rw [show roots = [root] from hroot]; exact List.mem_singleton_self _)⟩

/-- The statement for one element `e`. -/
theorem accepted_roots_loneTag :
    let s : SchemaValidation := .new resolved .silent none
    let place := Location.inChars none "<e/>".toList
    resolvable.compile ⟨4⟩ { checkIdentity := false } = .ok resolved ∧
      ({ checkIdentity := false } : Options).trackContent = true ∧
      (∃ s', (validateScan schemaValidator place (loneTags [0] 4)).runFrom s = (.ok true, s')) ∧
      ∃ root, (tellings schemaValidator place (loneTags [0] 4) s).filterMap Telling.root? = [root] ∧
        resolved.DeclaresRoot root.1 := by
  obtain ⟨⟨s', h⟩, -⟩ := resolved_accepts_loneTags (Location.inChars none "<e/>".toList) [0] 4
  obtain ⟨-, -, hone⟩ := accepted_roots resolvable_compile rfl .silent none _ _ h
  exact ⟨resolvable_compile, rfl, ⟨s', h⟩, hone.2 ⟨"e", rfl⟩⟩

/-- The empty document is accepted, which has no root, and so are two elements side by side. -/
theorem accepted_without_one_root :
    let s : SchemaValidation := .new resolved .silent none
    let roots (document : String) := (tellings schemaValidator (Location.inChars none document.toList)
      (.of document.toList) s).filterMap Telling.root?
    resolvable.compile ⟨4⟩ { checkIdentity := false } = .ok resolved ∧
      ({ checkIdentity := false } : Options).trackContent = true ∧
      (∃ s', (validate schemaValidator "").runFrom s = (.ok true, s')) ∧ roots "" = [] ∧
      (∃ s', (validate schemaValidator "<e/><e/>").runFrom s = (.ok true, s')) ∧
      roots "<e/><e/>" = [(.plain "e", "e"), (.plain "e", "e")] := by
  have hnone : Scan.of "".toList = loneTags [] 0 := by
    change Scan.of [] = _
    rw [Scan.of, scanFrom_nil]
    simp
  have htwo : Scan.of "<e/><e/>".toList = loneTags [0, 4] 8 := by
    change Scan.of ['<', 'e', '/', '>', '<', 'e', '/', '>'] = _
    rw [Scan.of, scanFrom_loneTag, scanFrom_loneTag, scanFrom_nil]
    · rfl
    · simp
  obtain ⟨haccepts₀, hroots₀⟩ := resolved_accepts_loneTags (Location.inChars none "".toList) [] 0
  obtain ⟨haccepts₂, hroots₂⟩ := resolved_accepts_loneTags (Location.inChars none "<e/><e/>".toList) [0, 4] 8
  dsimp only
  rw [validate, validate, hnone, htwo]
  exact ⟨resolvable_compile, rfl, haccepts₀, hroots₀, haccepts₂, hroots₂⟩

end Draft

end RelaxNg
