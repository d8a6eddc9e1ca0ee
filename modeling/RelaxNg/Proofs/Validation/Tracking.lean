import RelaxNg.Proofs.Schema
import RelaxNg.Proofs.Validation.Document
import RelaxNg.Validation.ContentTracker

/-!
# Tracking valid documents

The tracker of a schema reports nothing in a document that matches the start pattern
(`Draft.Fresh.tracker_passes_of_matches`). What carries the proof is that the element of the grammar for which an open
element stands is always among what the tracker takes it for: the model covers its content, so the elements,
attributes and texts in it are expected, and an element that is entered stands for one of those expected.
-/

namespace RelaxNg

namespace ContentTracker

def handle : Event → Tracking
  | .startElement name _ attributes => startElement name attributes
  | .endElement _ _ => modify fun s => (s.1, s.2.endElement)
  | .text content => text content
  | _ => pure ()

def follow (events : List Event) : Tracking := events.forM handle

/-- A step goes from a tracker to another and reports nothing. -/
def Passes (step : Tracking) (t t' : ContentTracker) : Prop := ∀ c, step.runFrom (c, t) = (.ok (), c, t')

variable {t t' t'' : ContentTracker} {step : Tracking} {name : QName} {attributes : List Attribute}

theorem passes_pure (t : ContentTracker) : Passes (pure ()) t t := fun _ => rfl

theorem passes_become (t t' : ContentTracker) : Passes (become t') t t' := fun _ => rfl

theorem passes_endElement (t : ContentTracker) (name : QName) (written : String) :
    Passes (handle (.endElement name written)) t t.endElement := fun _ => rfl

theorem Passes.andThen {next : Tracking} (h : Passes step t t') (h' : Passes next t' t'') :
    Passes (step >>= fun _ => next) t t'' := by
  intro c
  rw [Attempt.runFrom_bind, h c]
  exact h' c

theorem passes_follow_cons {event : Event} {events : List Event} (h : Passes (handle event) t t')
    (h' : Passes (follow events) t' t'') : Passes (follow (event :: events)) t t'' := h.andThen h'

theorem passes_follow_append {events events' : List Event} (h : Passes (follow events) t t')
    (h' : Passes (follow events') t' t'') : Passes (follow (events ++ events')) t t'' := by
  show Passes (forM (events ++ events') handle) t t''
  rw [List.forM_append]
  exact h.andThen h'

theorem passes_forM {α : Type} {f : α → Tracking} {xs : List α} (h : ∀ x ∈ xs, Passes (f x) t t) :
    Passes (xs.forM f) t t := by
  induction xs with
  | nil => exact passes_pure t
  | cons x xs ih =>
    show Passes (f x >>= fun _ => xs.forM f) t t
    exact (h x List.mem_cons_self).andThen (ih fun y hy => h y (List.mem_cons_of_mem _ hy))

theorem passes_startElement {candidates : List ElementId} (hc : t.candidates? name = some candidates)
    (hne : candidates ≠ []) (ha : ∀ a ∈ attributes, t.allowsAttribute candidates a.name = true) :
    Passes (startElement name attributes) t { t with frames := ⟨name, candidates, false⟩ :: t.frames } := by
  intro c
  have hall : Passes (attributes.forM fun a =>
      if t.allowsAttribute candidates a.name = true then pure ()
      else complain ("attribute \"" ++ a.name.render ++ "\" not allowed on element \"" ++ name.render ++ "\"")) t t := by
    refine passes_forM fun a hmem => ?_
    rw [if_pos (ha a hmem)]
    exact passes_pure t
  unfold startElement
  rw [Attempt.runFrom_get_then]
  simp only [hc, Option.getD_some, Option.some.injEq, hne, if_false, List.isEmpty_iff]
  exact hall.andThen (passes_become t _) c

theorem passes_text {content : String} (h : Xml.isBlank content = true ∨ t.allowsText = true) :
    Passes (text content) t t := by
  intro c
  unfold text
  split
  · rfl
  · next hblank =>
    have htext := h.resolve_left hblank
    rw [Attempt.runFrom_get_then]
    dsimp only
    split
    · next hf => simp [allowsText, currentModels, hf] at htext
    · next hf => rw [htext, Bool.or_true, if_pos rfl, Attempt.runFrom_pure]

/-- Text in pieces is passed if it is white space or there may be text. -/
theorem passes_pieces {pieces : List String} (h : Xml.isBlank (String.join pieces) = true ∨ t.allowsText = true) :
    Passes (follow (pieces.map .text)) t t := by
  refine passes_forM fun event hevent => ?_
  obtain ⟨piece, hpiece, rfl⟩ := List.mem_map.1 hevent
  refine passes_text (h.imp_left fun hblank => ?_)
  unfold Xml.isBlank at hblank ⊢
  rw [List.all_eq_true] at hblank ⊢
  intro char hchar
  refine hblank char ?_
  simp
  exact ⟨piece, hpiece, hchar⟩

/-! ## What is expected -/

/-- An element of the grammar may begin here. -/
def Expects (t : ContentTracker) (e : ElementId) : Prop := ∃ allowed, t.allowed? = some allowed ∧ e ∈ allowed

variable {e e' : ElementId} {m : ElementModel} {candidates : List ElementId} {reported : Bool} {outer : List Frame}

theorem Expects.exists_candidates (h : t.Expects e) (hm : t.model.element? e = some m)
    (hn : m.names.contains name = true) : ∃ candidates, t.candidates? name = some candidates ∧ e ∈ candidates := by
  obtain ⟨allowed, hallowed, he⟩ := h
  refine ⟨t.model.matching allowed name, by rw [candidates?, hallowed]; rfl, ?_⟩
  simp [ContentModel.matching, he, hm, hn]

theorem allowsAttribute_of_mem (he : e ∈ candidates) (hm : t.model.element? e = some m) {names : NameClass}
    (ha : names ∈ m.attributes) (hn : names.contains name = true) : t.allowsAttribute candidates name = true := by
  simp only [allowsAttribute, Bool.or_eq_true, List.any_eq_true]
  exact .inr ⟨e, he, by simpa [hm] using ⟨names, ha, hn⟩⟩

theorem mem_currentModels (hf : t.frames = ⟨name, candidates, reported⟩ :: outer) (he : e ∈ candidates)
    (hm : t.model.element? e = some m) : m ∈ t.currentModels := by
  simpa [currentModels, hf] using ⟨e, he, hm⟩

theorem expects_of_child (hf : t.frames = ⟨name, candidates, reported⟩ :: outer) (he : e ∈ candidates)
    (hm : t.model.element? e = some m) (hc : e' ∈ m.children) : t.Expects e' := by
  have hne : candidates.isEmpty = false := List.isEmpty_eq_false_iff_exists_mem.2 ⟨e, he⟩
  refine ⟨firsts (t.currentModels.flatMap ElementModel.children), by simp [allowed?, hf, hne], mem_firsts.2 ?_⟩
  exact List.mem_flatMap.2 ⟨m, mem_currentModels hf he hm, hc⟩

theorem allowsText_of_mem (hf : t.frames = ⟨name, candidates, reported⟩ :: outer) (he : e ∈ candidates)
    (hm : t.model.element? e = some m) (ht : m.allowsText = true) : t.allowsText = true :=
  List.any_eq_true.2 ⟨m, mem_currentModels hf he hm, ht⟩

/-! ## Words of a grammar -/

variable {g : Grammar} {start : PatternId} {i : Interpretation} {word : List (Letter (Language String))}
  {items : List Item} {events : List Event}

/-- An element that may begin here is entered if its attributes and what stands in it spell a word that the model of the
element covers, and it is among what the tracker takes it for. -/
theorem Expects.exists_enters {l : Language (Letter (Language String))} (h : t.Expects e)
    (hm : t.model.element? e = some m) (hn : m.names.contains name = true) (hcovers : m.Covers l) (hw : word ∈ l)
    (hs : g.Spells i word attributes items) : ∃ candidates, e ∈ candidates ∧
      Passes (startElement name attributes) t { t with frames := ⟨name, candidates, false⟩ :: t.frames } := by
  obtain ⟨candidates, hc, hmem⟩ := h.exists_candidates hm hn
  refine ⟨candidates, hmem, passes_startElement hc (List.ne_nil_of_mem hmem) fun a ha => ?_⟩
  rcases hs.exists_attr ha with hns | ⟨letter, hletter, hname⟩
  · simp [allowsAttribute, hns]
  · cases letter with
    | attr names annotations operand =>
      exact allowsAttribute_of_mem hmem hm (hcovers.attr _ _ _ (mem_alphabet hw hletter)) hname
    | _ => cases hname

/-- What spells a word is passed if the elements of the word may begin here and its texts may stand here. -/
theorem passes_of_spells (hg : g.Closed start) (h : g.Spells i word attributes items)
    (hm : t.model = g.contentModel start)
    (he : ∀ e, .element e ∈ word → t.Expects e ∧ e ∈ g.reachableElements start)
    (ht : ∀ s, .text s ∈ items → Xml.isBlank s = true ∨ t.allowsText = true) (hv : Tells items events) :
    Passes (follow events) t t := by
  induction h generalizing t events with
  | nil =>
    cases hv
    exact passes_pure t
  | blank hs _ ih =>
    cases hv with
    | text pieces hv =>
      exact passes_follow_append (passes_pieces (.inl hs)) (ih hm he (fun s hs => ht s (List.mem_cons_of_mem _ hs)) hv)
  | declaration _ _ ih => exact ih hm he ht hv
  | text _ _ ih =>
    cases hv with
    | text pieces hv =>
      refine passes_follow_append (passes_pieces (ht _ List.mem_cons_self)) (ih hm ?_ ?_ hv)
      · exact fun e hmem => he e (List.mem_cons_of_mem _ hmem)
      · exact fun s hs => ht s (List.mem_cons_of_mem _ hs)
  | noText _ _ ih | attr _ _ _ ih => exact ih hm (fun e hmem => he e (List.mem_cons_of_mem _ hmem)) ht hv
  | @element _ _ _ e name written inner children content hn hw hin _ ihin ih =>
    cases hv with
    | @element _ _ _ _ inside _ after hvin hv =>
      obtain ⟨hexpects, hreach⟩ := he e List.mem_cons_self
      have hmodel : t.model.element? e = some (g.elementModel e) := hm ▸ Grammar.element?_contentModel hreach
      have hcontent := hg.content hreach
      have hcovers := Grammar.elementModel_covers hg.sound hcontent.has (hcontent.refFree.tree hg.sound) 0
        (Tree.texts i) i.contents
      obtain ⟨candidates, hmem, hstart⟩ := hexpects.exists_enters hmodel hn hcovers hw hin
      -- Inside, the true element is among the candidates, so its model answers for all that is spelled there.
      have hinside : Passes (follow inside) { t with frames := ⟨name, candidates, false⟩ :: t.frames }
          { t with frames := ⟨name, candidates, false⟩ :: t.frames } := by
        refine ihin hm (fun e' he' => ?_) (fun s hs => ?_) hvin
        · have hchild := hcovers.element e' (mem_alphabet hw he')
          exact ⟨expects_of_child rfl hmem hmodel hchild, hg.mem_of_child hreach hchild⟩
        · refine (hin.exists_text hs).imp_right fun ⟨letter, hletter, htext⟩ => ?_
          exact allowsText_of_mem rfl hmem hmodel (hcovers.text _ (mem_alphabet hw hletter) htext)
      have hafter : Passes (follow after) t t := by
        refine ih hm ?_ ?_ hv
        · exact fun e hmem => he e (List.mem_cons_of_mem _ hmem)
        · exact fun s hs => ht s (List.mem_cons_of_mem _ hs)
      refine passes_follow_cons hstart (passes_follow_append hinside ?_)
      exact passes_follow_cons (passes_endElement _ name written) hafter

end ContentTracker

/-- The tracker of a schema reports nothing in a document that matches the start pattern. -/
theorem Draft.Fresh.tracker_passes_of_matches {d : Draft} {start : PatternId} {options : Options} {schema : Schema}
    {model : ContentModel} (hd : d.Fresh) (hp : d.grammar.Has start) (h : d.compile start options = .ok schema)
    (hm : schema.contentModel = some model) {i : Interpretation} {root : Item}
    (hroot : schema.grammar.Matches i schema.start root) {events : List Event} (hv : Tells [root] events)
    (context : Context) :
    (ContentTracker.follow events).runFrom (context, { model }) = (.ok (), context, { model }) := by
  have hclosed := hd.closed_of_compile hp h
  obtain ⟨hroot, word, hword, hspells⟩ := hroot
  refine ContentTracker.passes_of_spells hclosed hspells (contentModel_of_compile h hm) (fun e he => ?_)
    (fun s hs => ?_) hv context
  · have htop := hclosed.sound.mem_topElements_of_mem_alphabet hclosed.has (hclosed.refFree.tree hclosed.sound)
      (mem_alphabet hword he)
    exact ⟨⟨_, rfl, contentModel_of_compile h hm ▸ htop⟩, hclosed.mem_of_start htop⟩
  · rw [← List.mem_singleton.1 hs] at hroot
    cases hroot

/-- The statement where an element has an attribute and holds an element with text, which comes in two pieces. -/
theorem Draft.Fresh.tracker_passes_of_matches_enclosing :
    let attributes := [⟨.plain "a", "a", "b c"⟩]
    let root := Item.element (.plain "doc") "doc" attributes [.element (.plain "e") "e" [] [.text "hi"]]
    let events := [.startElement (.plain "doc") "doc" attributes, .startElement (.plain "e") "e" [], .text "h",
      .text "i", .endElement (.plain "e") "e", .endElement (.plain "doc") "doc"]
    Draft.enclosing.Fresh ∧ Draft.enclosing.grammar.Has ⟨7⟩ ∧
      Draft.enclosing.compile ⟨7⟩ { checkIdentity := false } = .ok Draft.enclosed ∧
      Draft.enclosed.grammar.Matches .literal Draft.enclosed.start root ∧ Tells [root] events ∧
      ∃ model, Draft.enclosed.contentModel = some model ∧ ∀ context,
        (ContentTracker.follow events).runFrom (context, { model }) = (.ok (), context, { model }) := by
  intro attributes root events
  obtain ⟨htree, -, hinner⟩ := Draft.enclosed_trees
  have hmatches : Draft.enclosed.grammar.Matches .literal Draft.enclosed.start root := by
    have hstart : [.element ⟨1⟩] ∈ Draft.enclosed.grammar.contentLanguage .literal Draft.enclosed.start := by
      rw [Grammar.contentLanguage, htree]
      rfl
    have htext : [Letter.text] ∈ Draft.enclosed.grammar.contentLanguage .literal
        (Draft.enclosed.grammar.element ⟨0⟩).content := by
      rw [Grammar.contentLanguage, hinner]
      exact Language.mem_kstar.2 ⟨[[.text]], rfl, fun _ hu => List.mem_singleton.1 hu⟩
    have hvalue : ["b c"] ∈ Tree.texts .literal .text :=
      Language.mem_kstar.2 ⟨[["b c"]], rfl, fun _ hu => ⟨_, List.mem_singleton.1 hu, trivial⟩⟩
    have hchild : Draft.enclosed.grammar.Spells .literal [.element ⟨0⟩] ([] ++ [])
        [.element (.plain "e") "e" [] [.text "hi"]] :=
      .element rfl htext (.text (show Letter.text.Takes _ _ from trivial) .nil) .nil
    refine ⟨rfl, _, hstart, .element rfl (Draft.enclosed_word 0 (Tree.texts .literal) _) ?_ .nil⟩
    exact .attr rfl (.inl hvalue) hchild
  have hevents : Tells [root] events := .element _ _ _ (.element _ _ _ (.text ["h", "i"] .nil) .nil) .nil
  exact ⟨Draft.enclosing_fresh, Draft.enclosing_has, Draft.enclosing_compile, hmatches, hevents, _, rfl,
    Draft.Fresh.tracker_passes_of_matches Draft.enclosing_fresh Draft.enclosing_has Draft.enclosing_compile rfl hmatches
      hevents⟩

end RelaxNg
