import RelaxNg.Proofs.Alphabet
import RelaxNg.Validation.Event
import RelaxNg.Xml.Name

/-!
# Documents and what they match

A document is a tree of elements and texts. It matches a start pattern (`Grammar.Matches`) if it spells a word of the
pattern's language: a letter of an element stands for an element with one of its names that spells a word of its
content, a letter of an attribute for an attribute with one of its names, and a letter of text or of a value for a text
that it takes. White space counts for nothing beside other letters, and neither do namespace declarations. Which texts
are values of a datatype is left open, and so is what references stand for (`Interpretation`).

A document reaches validation as events (`Tells`), each text in as many pieces as one likes.
-/

namespace RelaxNg

open Computability

/-- An element of a document with its attributes and what stands in it, or a text. -/
inductive Item where
  | element (name : QName) (written : String) (attributes : List Attribute) (children : List Item)
  | text (content : String)

def Item.isElement : Item → Bool
  | element _ _ _ _ => true
  | text _ => false

/-! ## Texts -/

/-- What a grammar does not tell. The words of an operand in an attribute or a list are lists of texts. -/
structure Interpretation where
  /-- Whether a text is a value of a datatype with parameters. -/
  allows : Datatype → List Param → String → Prop
  /-- Whether a text is the same value of a datatype as another. -/
  equal : Datatype → String → String → Prop
  /-- What references stand for in attributes and lists. -/
  texts : DefinitionId → Language String
  /-- What references stand for in contents. -/
  contents : DefinitionId → Language (Letter (Language String))

/-- Texts are values as they are written. -/
def Interpretation.literal : Interpretation := ⟨fun _ _ _ => True, fun _ content s => content = s, 0, 0⟩

def Letter.isAttr {X : Type} (name : QName) : Letter X → Bool
  | attr names _ _ => names.contains name
  | _ => false

/-- A letter stands for a text. -/
def Letter.Takes (i : Interpretation) : Letter (Language String) → String → Prop
  | text, _ => True
  | list operand, s => Xml.tokens s ∈ operand
  | data type params except, s => i.allows type params s ∧ [s] ∉ except
  | value type content, s => i.equal type content s
  | element _, _ | attr _ _ _, _ => False

/-- The texts that a letter stands for, as words of one text each. -/
def Letter.texts (i : Interpretation) (a : Letter (Language String)) : Language String := {w | ∃ s, w = [s] ∧ a.Takes i s}

/-- The lists of texts that a tree matches. -/
def Tree.texts (i : Interpretation) : Tree → Language String
  | empty => 1
  | notAllowed => 0
  | text => (Letter.text.texts i)∗
  | choice left right => left.texts i + right.texts i
  | group left right => left.texts i * right.texts i
  | interleave left right => shuffles (left.texts i) (right.texts i)
  | oneOrMore operand => operand.texts i * (operand.texts i)∗
  | list operand => (Letter.list (operand.texts i)).texts i
  | data type params => (Letter.data type params 0).texts i
  | dataExcept type params operand => (Letter.data type params (operand.texts i)).texts i
  | value type content => (Letter.value type content).texts i
  | attr _ _ _ | element _ => 0
  | ref d => i.texts d

/-! ## Matching -/

namespace Grammar

/-- The words of the contents that a pattern matches. -/
def contentLanguage (g : Grammar) (i : Interpretation) (p : PatternId) : Language (Letter (Language String)) :=
  (g.tree p).language 0 (Tree.texts i) i.contents

/-- Attributes and the items beside them spell a word. -/
inductive Spells (g : Grammar) (i : Interpretation) :
    List (Letter (Language String)) → List Attribute → List Item → Prop
  | nil : Spells g i [] [] []
  /-- White space stands for no letter. -/
  | blank {word attributes items} {s : String} (hs : Xml.isBlank s = true) (h : Spells g i word attributes items) :
      Spells g i word attributes (.text s :: items)
  /-- A namespace declaration stands for no letter. -/
  | declaration {word before after items} {a : Attribute} (ha : a.name.ns = Namespace.xmlns)
      (h : Spells g i word (before ++ after) items) : Spells g i word (before ++ a :: after) items
  | text {word attributes items} {letter : Letter (Language String)} {s : String} (hs : letter.Takes i s)
      (h : Spells g i word attributes items) : Spells g i (letter :: word) attributes (.text s :: items)
  /-- The empty text needs no item. -/
  | noText {word attributes items} {letter : Letter (Language String)} (hs : letter.Takes i "")
      (h : Spells g i word attributes items) : Spells g i (letter :: word) attributes items
  /-- The attributes of an element have no order. -/
  | attr {word before after items names annotations} {operand : Language String} {a : Attribute}
      (hn : names.contains a.name = true) (ha : [a.value] ∈ operand ∨ Xml.isBlank a.value = true ∧ [] ∈ operand)
      (h : Spells g i word (before ++ after) items) :
      Spells g i (.attr names annotations operand :: word) (before ++ a :: after) items
  | element {word attributes items e name written inner children} {content : List (Letter (Language String))}
      (hn : (g.element e).names.contains name = true) (hw : content ∈ g.contentLanguage i (g.element e).content)
      (hin : Spells g i content inner children) (h : Spells g i word attributes items) :
      Spells g i (.element e :: word) attributes (.element name written inner children :: items)

/-- A document matches a start pattern: its element alone spells a word of the pattern's language. -/
def Matches (g : Grammar) (i : Interpretation) (start : PatternId) (root : Item) : Prop :=
  root.isElement ∧ ∃ word ∈ g.contentLanguage i start, g.Spells i word [] [root]

variable {g : Grammar} {i : Interpretation} {word : List (Letter (Language String))} {attributes : List Attribute}
  {items : List Item}

/-- An attribute is a namespace declaration or stands for a letter with its name. -/
theorem Spells.exists_attr (h : g.Spells i word attributes items) {a : Attribute} (ha : a ∈ attributes) :
    a.name.ns = Namespace.xmlns ∨ ∃ letter ∈ word, letter.isAttr a.name = true := by
  have split {before after : List Attribute} {b : Attribute} (h : a ∈ before ++ b :: after) :
      a = b ∨ a ∈ before ++ after := by
    rw [List.mem_append, List.mem_cons] at h
    rw [List.mem_append]
    tauto
  induction h with
  | nil => cases ha
  | blank _ _ ih => exact ih ha
  | declaration hb _ ih =>
    rcases split ha with rfl | ha
    · exact .inl hb
    · exact ih ha
  | text _ _ ih | noText _ _ ih => exact (ih ha).imp_right List.exists_mem_cons_of_exists
  | attr hn _ _ ih =>
    rcases split ha with rfl | ha
    · exact .inr ⟨_, List.mem_cons_self, hn⟩
    · exact (ih ha).imp_right List.exists_mem_cons_of_exists
  | element _ _ _ _ _ ih => exact (ih ha).imp_right List.exists_mem_cons_of_exists

/-- A text is white space or stands for a letter of text. -/
theorem Spells.exists_text (h : g.Spells i word attributes items) {s : String} (hs : .text s ∈ items) :
    Xml.isBlank s = true ∨ ∃ letter ∈ word, letter.isText = true := by
  induction h with
  | nil => cases hs
  | blank hb _ ih =>
    rcases List.mem_cons.1 hs with heq | hs
    · cases heq
      exact .inl hb
    · exact ih hs
  | declaration _ _ ih => exact ih hs
  | @text _ _ _ letter _ ht _ ih =>
    rcases List.mem_cons.1 hs with heq | hs
    · exact .inr ⟨letter, List.mem_cons_self, by cases letter <;> first | rfl | exact ht.elim⟩
    · exact (ih hs).imp_right List.exists_mem_cons_of_exists
  | noText _ _ ih => exact (ih hs).imp_right List.exists_mem_cons_of_exists
  | attr _ _ _ ih => exact (ih hs).imp_right List.exists_mem_cons_of_exists
  | element _ _ _ _ _ ih =>
    rcases List.mem_cons.1 hs with heq | hs
    · cases heq
    · exact (ih hs).imp_right List.exists_mem_cons_of_exists

end Grammar

/-! ## Events -/

/-- Events tell of items one after the other, of each text in pieces. -/
inductive Tells : List Item → List Event → Prop
  | nil : Tells [] []
  | text (pieces : List String) {items events} (h : Tells items events) :
      Tells (.text (String.join pieces) :: items) (pieces.map Event.text ++ events)
  | element (name : QName) (written : String) (attributes : List Attribute) {children inside items events}
      (hin : Tells children inside) (h : Tells items events) :
      Tells (.element name written attributes children :: items)
        (.startElement name written attributes :: (inside ++ .endElement name written :: events))

end RelaxNg
