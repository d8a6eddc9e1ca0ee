import Mathlib.Data.List.Infix
import RelaxNg.Proofs.Xml.Spans
import RelaxNg.Xml.Entity

/-!
# Declarations of unparsed entities

How a declaration of an unparsed entity is written (`Declares`): its keywords, its parts and its literals stand in one
order, with white space between them, and each literal is in quotes of a kind that it does not hold. Whatever way some
entities are written, in a text that does not begin a declaration elsewhere, the declarations found in it are those
entities in their order (`UnparsedEntity.declaredIn_exact`). The parts of a declaration are read one by one, each up to
the first character that cannot belong to it; a declaration cannot begin inside another one's beginning, so that the
search never begins too early.
-/

namespace RelaxNg.Xml.UnparsedEntity

/-! ## Written forms -/

/-- How a declaration begins. -/
def opening : List Char := ['<', '!', 'E', 'N', 'T', 'I', 'T', 'Y']

/-- White space, one character at least. -/
def IsGap (chars : List Char) : Prop := chars ≠ [] ∧ ∀ c ∈ chars, isWhite c = true

/-- A text in quotes of a kind that it does not hold. -/
inductive Quotes (text : List Char) : List Char → Prop
  | intro {quote : Char} (hquote : quote = '"' ∨ quote = '\'') (htext : quote ∉ text) :
      Quotes text (quote :: (text ++ [quote]))

/-- The identifiers of an entity, the public one if there is one. -/
inductive Identifies : Option String → String → List Char → Prop
  | system {systemId gap literal} (hgap : IsGap gap) (hliteral : Quotes systemId.toList literal) :
      Identifies none systemId (['S', 'Y', 'S', 'T', 'E', 'M'] ++ (gap ++ literal))
  | publicAndSystem {publicId systemId gap gap' literal literal'} (hgap : IsGap gap)
      (hliteral : Quotes publicId.toList literal) (hgap' : IsGap gap') (hliteral' : Quotes systemId.toList literal') :
      Identifies (some publicId) systemId (['P', 'U', 'B', 'L', 'I', 'C'] ++ (gap ++ (literal ++ (gap' ++ literal'))))

inductive Declares (entity : UnparsedEntity) : List Char → Prop
  | intro {gap₁ gap₂ identifiers gap₃ gap₄ space : List Char} (hgap₁ : IsGap gap₁) (hgap₂ : IsGap gap₂)
      (hidentifiers : Identifies entity.publicId entity.systemId identifiers) (hgap₃ : IsGap gap₃)
      (hgap₄ : IsGap gap₄) (hspace : ∀ c ∈ space, isWhite c = true) :
      Declares entity (opening ++ (gap₁ ++ (entity.name.toList ++ (gap₂ ++ (identifiers ++ (gap₃ ++
        (['N', 'D', 'A', 'T', 'A'] ++ (gap₄ ++ (entity.notationName.toList ++ (space ++ ['>']))))))))))

/-- The declarations of some entities in their order, with other text around them in which none begins. -/
inductive Writes : List UnparsedEntity → List Char → Prop
  | nil {text : List Char} (htext : ¬ opening <:+: text) : Writes [] text
  | cons {text declaration rest : List Char} {entity : UnparsedEntity} {entities : List UnparsedEntity}
      (htext : ¬ opening <:+: text) (hdeclaration : Declares entity declaration) (hrest : Writes entities rest) :
      Writes (entity :: entities) (text ++ (declaration ++ rest))

/-- What a declaration can tell: its names end where white space or the next mark begins, and for each identifier there
is a kind of quotes. -/
structure Declarable (entity : UnparsedEntity) : Prop where
  name_ne : entity.name ≠ ""
  name : ∀ c ∈ entity.name.toList, isWhite c = false ∧ c ≠ '%'
  notationName_ne : entity.notationName ≠ ""
  notationName : ∀ c ∈ entity.notationName.toList, isWhite c = false ∧ c ≠ '>'
  publicId : ∀ publicId ∈ entity.publicId, '"' ∉ publicId.toList ∨ '\'' ∉ publicId.toList
  systemId : '"' ∉ entity.systemId.toList ∨ '\'' ∉ entity.systemId.toList

/-! ### There is a written form -/

theorem exists_quotes {text : List Char} (h : '"' ∉ text ∨ '\'' ∉ text) : ∃ literal, Quotes text literal := by
  rcases h with h | h
  · exact ⟨_, .intro (.inl rfl) h⟩
  · exact ⟨_, .intro (.inr rfl) h⟩

theorem not_opening_nil : ¬ opening <:+: [] := by
  decide

theorem isGap_singleton {c : Char} (h : isWhite c = true) : IsGap [c] :=
  ⟨List.cons_ne_nil _ _, List.forall_mem_singleton.2 h⟩

theorem isGap_blank : IsGap [' '] := isGap_singleton (by decide)

variable {entity : UnparsedEntity} {entities : List UnparsedEntity}

theorem Declarable.exists_declares (h : entity.Declarable) : ∃ declaration, Declares entity declaration := by
  suffices hids : ∃ identifiers, Identifies entity.publicId entity.systemId identifiers by
    obtain ⟨identifiers, hidentifiers⟩ := hids
    exact ⟨_, .intro isGap_blank isGap_blank hidentifiers isGap_blank isGap_blank (List.forall_mem_nil _)⟩
  obtain ⟨literal', hliteral'⟩ := exists_quotes h.systemId
  cases hpublic : entity.publicId with
  | none => exact ⟨_, .system isGap_blank hliteral'⟩
  | some publicId =>
    obtain ⟨literal, hliteral⟩ := exists_quotes (h.publicId publicId hpublic)
    exact ⟨_, .publicAndSystem isGap_blank hliteral isGap_blank hliteral'⟩

theorem exists_writes (h : ∀ entity ∈ entities, entity.Declarable) : ∃ chars, Writes entities chars := by
  induction entities with
  | nil => exact ⟨[], .nil not_opening_nil⟩
  | cons entity entities ih =>
    rw [List.forall_mem_cons] at h
    obtain ⟨declaration, hdeclaration⟩ := h.1.exists_declares
    obtain ⟨rest, hrest⟩ := ih h.2
    exact ⟨_, .cons not_opening_nil hdeclaration hrest⟩

/-! ## Reading the parts -/

variable {chars text first rest gap literal identifiers declaration : List Char}

theorem leading?_append {belongs : Char → Bool} (hne : first ≠ []) (hfirst : ∀ c ∈ first, belongs c = true)
    (hrest : EndsBefore belongs rest) : leading? belongs (first ++ rest) = some (first, rest) := by
  unfold leading?
  rw [span_append hfirst hrest]
  cases first with
  | nil => exact absurd rfl hne
  | cons c first => rfl

theorem white?_append (hgap : IsGap gap) (hrest : EndsBefore isWhite rest) : white? (gap ++ rest) = some rest := by
  rw [white?, leading?_append hgap.1 hgap.2 hrest]
  rfl

theorem literal?_append (h : Quotes text literal) (rest : List Char) :
    literal? (literal ++ rest) = some (text, rest) := by
  obtain ⟨hquote, htext⟩ := h
  rw [List.cons_append, List.append_assoc, List.singleton_append, literal?, if_pos (by simpa using hquote),
    span_mark htext]

theorem Quotes.endsBefore_append (h : Quotes text literal) (rest : List Char) :
    EndsBefore isWhite (literal ++ rest) := by
  obtain ⟨rfl | rfl, -⟩ := h <;> exact endsBefore_cons.2 (by decide)

theorem keyword_append (keyword rest : List Char) : keyword.isPrefixOf? (keyword ++ rest) = some rest :=
  List.isPrefixOf?_eq_some_iff_append_eq.2 rfl

theorem identifiers?_append {publicId : Option String} {systemId : String}
    (h : Identifies publicId systemId identifiers) (rest : List Char) :
    identifiers? (identifiers ++ rest) = some (publicId.map String.toList, systemId.toList, rest) := by
  unfold identifiers?
  cases h with
  | @system _ gap literal hgap hliteral =>
    rw [List.append_assoc, List.append_assoc, keyword_append]
    simp [white?_append hgap (hliteral.endsBefore_append rest), literal?_append hliteral]
  | @publicAndSystem _ _ gap gap' literal literal' hgap hliteral hgap' hliteral' =>
    have hsystem : ['S', 'Y', 'S', 'T', 'E', 'M'].isPrefixOf?
        (['P', 'U', 'B', 'L', 'I', 'C'] ++ (gap ++ (literal ++ (gap' ++ literal'))) ++ rest) = none := rfl
    rw [hsystem]
    simp only [List.append_assoc, keyword_append]
    simp [white?_append hgap (hliteral.endsBefore_append _), literal?_append hliteral,
      white?_append hgap' (hliteral'.endsBefore_append rest), literal?_append hliteral']

theorem Identifies.endsBefore_append {publicId : Option String} {systemId : String}
    (h : Identifies publicId systemId identifiers) (rest : List Char) :
    EndsBefore isWhite (identifiers ++ rest) := by
  cases h <;> exact endsBefore_cons.2 (by decide)

theorem endsBefore_append {belongs : Char → Bool} (hne : first ≠ []) (hfirst : ∀ c ∈ first, belongs c = false)
    (rest : List Char) : EndsBefore belongs (first ++ rest) := by
  cases first with
  | nil => exact absurd rfl hne
  | cons c first => exact endsBefore_cons.2 (hfirst c List.mem_cons_self)

/-- A class that leaves white space out ends before a gap. -/
theorem IsGap.endsBefore_append {belongs : Char → Bool} (h : IsGap gap)
    (hwhite : ∀ c, isWhite c = true → belongs c = false) (rest : List Char) : EndsBefore belongs (gap ++ rest) :=
  UnparsedEntity.endsBefore_append h.1 (fun c hc => hwhite c (h.2 c hc)) rest

theorem Declarable.name_read (he : entity.Declarable) (hgap : IsGap gap) (tail : List Char) :
    leading? (fun c => !isWhite c && c != '%') (entity.name.toList ++ (gap ++ tail)) =
      some (entity.name.toList, gap ++ tail) :=
  leading?_append (by simpa using he.name_ne) (fun c hc => by simpa using he.name c hc)
    (hgap.endsBefore_append (by simp_all) tail)

theorem Declarable.notationName_read (he : entity.Declarable) {space : List Char}
    (hspace : ∀ c ∈ space, isWhite c = true) (tail : List Char) :
    leading? (fun c => !isWhite c && c != '>') (entity.notationName.toList ++ (space ++ '>' :: tail)) =
      some (entity.notationName.toList, space ++ '>' :: tail) := by
  refine leading?_append (by simpa using he.notationName_ne) (fun c hc => by simpa using he.notationName c hc) ?_
  cases space with
  | nil => exact endsBefore_cons.2 (by decide)
  | cons c space => exact endsBefore_cons.2 (by simp [hspace c])

theorem declaration?_append (he : entity.Declarable) (h : Declares entity declaration) (rest : List Char) :
    declaration? (declaration ++ rest) = some (entity, rest) := by
  obtain @⟨gap₁, gap₂, identifiers, gap₃, gap₄, space, hgap₁, hgap₂, hidentifiers, hgap₃, hgap₄, hspace⟩ := h
  have hname (tail : List Char) : EndsBefore isWhite (entity.name.toList ++ tail) :=
    endsBefore_append (by simpa using he.name_ne) (fun c hc => (he.name c hc).1) tail
  have hname' (tail : List Char) : EndsBefore isWhite (entity.notationName.toList ++ tail) :=
    endsBefore_append (by simpa using he.notationName_ne) (fun c hc => (he.notationName c hc).1) tail
  have hkeyword (tail : List Char) : EndsBefore isWhite (['N', 'D', 'A', 'T', 'A'] ++ tail) :=
    endsBefore_cons.2 (by decide)
  have hend : (space ++ '>' :: rest).dropWhile isWhite = '>' :: rest :=
    dropWhile_append_endsBefore hspace (endsBefore_cons.2 (by decide))
  unfold declaration?
  simp only [opening, List.append_assoc, List.singleton_append, Option.bind_eq_bind]
  rw [keyword_append, Option.bind_some, white?_append hgap₁ (hname _), Option.bind_some, he.name_read hgap₂,
    Option.bind_some, white?_append hgap₂ (hidentifiers.endsBefore_append _), Option.bind_some,
    identifiers?_append hidentifiers, Option.bind_some, white?_append hgap₃ (hkeyword _), Option.bind_some,
    keyword_append, Option.bind_some, white?_append hgap₄ (hname' _), Option.bind_some,
    he.notationName_read hspace, Option.bind_some, hend]
  simp

/-! ## Searching -/

theorem declaration?_eq_none (h : ¬ opening <+: chars) : declaration? chars = none := by
  have hprefix : opening.isPrefixOf? chars = none := by
    rw [Option.eq_none_iff_forall_ne_some]
    intro rest hrest
    exact h ⟨rest, List.isPrefixOf?_eq_some_iff_append_eq.1 hrest⟩
  unfold declaration?
  rw [← opening, hprefix]
  rfl

/-- Where a text ends, or another declaration begins. -/
def AtBoundary (rest : List Char) : Prop := ∀ c ∈ rest.head?, c = '<'

/-- No declaration begins in a text and goes on behind its end: within its beginning none begins. -/
theorem not_starts_opening {c : Char} (htext : ¬ opening <:+: c :: text) (hrest : AtBoundary rest) :
    ¬ opening <+: c :: text ++ rest := by
  intro h
  rcases List.prefix_or_prefix_of_prefix h (List.prefix_append (c :: text) rest) with hin | ⟨more, hmore⟩
  · exact htext hin.isInfix
  · rw [← hmore, List.prefix_append_right_inj] at h
    cases more with
    | nil => exact htext (by simp [← hmore])
    | cons d more =>
      obtain ⟨after, rfl⟩ := h
      obtain rfl : d = '<' := hrest d rfl
      have htail : '<' ∈ opening.tail := by simp [← hmore]
      exact absurd htail (by decide)

theorem declaredAfter_append (chars rest : List Char) :
    declaredAfter chars.length (chars ++ rest) = declaredAfter 0 rest := by
  induction chars with
  | nil => rfl
  | cons c chars ih => rw [List.length_cons, List.cons_append, declaredAfter, ih]

theorem declaredAfter_text (htext : ¬ opening <:+: text) (hrest : AtBoundary rest) :
    declaredAfter 0 (text ++ rest) = declaredAfter 0 rest := by
  induction text with
  | nil => rfl
  | cons c text ih =>
    have hnone : declaration? (c :: (text ++ rest)) = none := declaration?_eq_none (not_starts_opening htext hrest)
    rw [List.cons_append, declaredAfter, hnone]
    exact ih fun h => htext (List.infix_cons h)

theorem Declares.exists_eq_cons (h : Declares entity declaration) : ∃ more, declaration = '<' :: more := by
  cases h
  exact ⟨_, rfl⟩

theorem declaredAfter_declaration (he : entity.Declarable) (h : Declares entity declaration) (rest : List Char) :
    declaredAfter 0 (declaration ++ rest) = entity :: declaredAfter 0 rest := by
  have hread := declaration?_append he h rest
  obtain ⟨more, rfl⟩ := h.exists_eq_cons
  rw [List.cons_append] at hread
  rw [List.cons_append, declaredAfter, hread]
  simp only [List.length_append, Nat.add_sub_cancel, declaredAfter_append]

theorem Writes.declaredAfter_eq (h : Writes entities chars) (he : ∀ entity ∈ entities, entity.Declarable) :
    declaredAfter 0 chars = entities := by
  induction h with
  | @nil text htext =>
    have hpassed := declaredAfter_text htext (show AtBoundary [] by simp [AtBoundary])
    rwa [List.append_nil] at hpassed
  | @cons text declaration rest entity entities htext hdeclaration hrest ih =>
    rw [List.forall_mem_cons] at he
    have hbegins : AtBoundary (declaration ++ rest) := by
      obtain ⟨more, rfl⟩ := hdeclaration.exists_eq_cons
      simp [AtBoundary]
    rw [declaredAfter_text htext hbegins, declaredAfter_declaration he.1 hdeclaration, ih he.2]

/-- Entities that a declaration can tell have written forms, and from each of these they are found in their order. -/
theorem declaredIn_exact (he : ∀ entity ∈ entities, entity.Declarable) : (∃ doctype, Writes entities doctype) ∧
    ∀ doctype : String, Writes entities doctype.toList → declaredIn doctype = entities :=
  ⟨exists_writes he, fun _ h => h.declaredAfter_eq he⟩

/-- An entity whose system identifier holds the beginning and the end of a declaration. -/
def pic : UnparsedEntity := ⟨"pic", some "-//X", "a>b<!ENTITY c", "gif"⟩

def logo : UnparsedEntity := ⟨"logo", none, "it's", "png"⟩

theorem pictures_declarable : ∀ entity ∈ [pic, logo], entity.Declarable := by
  rw [List.forall_mem_cons, List.forall_mem_singleton]
  constructor <;> constructor <;> simp [pic, logo] <;> decide

theorem pic_declared : Declares pic "<!ENTITY pic PUBLIC '-//X'\n\"a>b<!ENTITY c\" NDATA gif>".toList := by
  have hpublic : Quotes "-//X".toList ('\'' :: ("-//X".toList ++ ['\''])) := .intro (.inr rfl) (by decide)
  have hsystem : Quotes "a>b<!ENTITY c".toList ('"' :: ("a>b<!ENTITY c".toList ++ ['"'])) :=
    .intro (.inl rfl) (by decide)
  have hline : IsGap ['\n'] := isGap_singleton (by decide)
  have hdeclared : Declares pic _ :=
    .intro isGap_blank isGap_blank (.publicAndSystem isGap_blank hpublic hline hsystem) isGap_blank isGap_blank
      (List.forall_mem_nil _)
  simpa [pic, opening] using hdeclared

theorem logo_declared : Declares logo "<!ENTITY\tlogo SYSTEM \"it's\" NDATA png >".toList := by
  have hsystem : Quotes "it's".toList ('"' :: ("it's".toList ++ ['"'])) := .intro (.inl rfl) (by decide)
  have htab : IsGap ['\t'] := isGap_singleton (by decide)
  have hdeclared : Declares logo _ :=
    .intro htab isGap_blank (.system isGap_blank hsystem) isGap_blank isGap_blank isGap_blank.2
  simpa [logo, opening] using hdeclared

/-- The statement at a document type declaration with both entities and an element type between them. -/
theorem declaredIn_exact_pictures : (∀ entity ∈ [pic, logo], entity.Declarable) ∧
    declaredIn ("r [" ++ "<!ENTITY pic PUBLIC '-//X'\n\"a>b<!ENTITY c\" NDATA gif>" ++ "<!ELEMENT r ANY> " ++
      "<!ENTITY\tlogo SYSTEM \"it's\" NDATA png >" ++ "]") = [pic, logo] := by
  refine ⟨pictures_declarable, (declaredIn_exact pictures_declarable).2 _ ?_⟩
  simp only [String.toList_append, List.append_assoc]
  exact .cons (by decide) pic_declared (.cons (by decide) logo_declared (.nil (by decide)))

end RelaxNg.Xml.UnparsedEntity
