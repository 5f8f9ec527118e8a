import Stencil.Proofs.Tree

/-!
# Legible trees

The scanner takes more for an attribute or a text than a careful author writes: an unquoted value may
be empty or end in a slash, and a brace may stand open.  `TreesScanned` is what tags, texts and
comments have that come from some source.  Whether such trees can be read again from what is written
depends on what stands behind each piece.  They are legible if no brace that stands open in a text or
between quotes is closed by what follows, no text starts markup, and no value that ends in a slash
comes to stand before the end of its tag.

Well-formed trees are both, whatever follows them (`TreesWellFormed.scanned`,
`TreesWellFormed.legible`).
-/

namespace Stencil.Markup

open Stencil.Text

/-- The values that are scanned from between quotes of a kind. -/
def Quote.Yields : Quote → List Char → Prop
  | .double, _ | .single, _ => True
  | .brace, text => Matched text
  | .unquoted, text =>
      (∀ c ∈ text, isBlank c = false ∧ c ≠ '>') ∧
        ∀ c ∈ text.head?, c ≠ '"' ∧ c ≠ '\'' ∧ c ≠ '\x7b'

/-- An attribute as it is scanned: it has a name that ends where it should, or else it is a value in
braces alone. -/
structure ScannedAttribute (name : String) (value : Option (String × Quote)) : Prop where
  part : ∀ c ∈ name.toList, isAttributePart c = true
  start : name.toList.head? ≠ some '\x7b'
  anonymous : name = "" → ∃ text, value = some (text, .brace)
  value : ∀ text quote, value = some (text, quote) → quote.Yields text.toList

/-- Attributes as they are scanned.  Only the last one may have a value without any character. -/
def ScannedAttributes : List (String × Option (String × Quote)) → Prop
  | [] => True
  | (name, value) :: rest =>
      ScannedAttribute name value ∧ (value = some ("", .unquoted) → rest = []) ∧
        ScannedAttributes rest

/-- The name of a tag as it is scanned. -/
def ScannedName (name : String) : Prop :=
  ∃ c rest, name.toList = c :: rest ∧ isTagStart c = true ∧ ∀ x ∈ rest, isTagPart x = true

/-- The name and the value of an attribute as they are written. -/
def PlainAttribute.written (a : PlainAttribute) : String × Option (String × Quote) :=
  (a.name.full, a.value)

/-- The element comes from some source, its children apart. -/
structure Tag.Scanned (affix : Bool) (t : Tag) : Prop where
  name : ScannedName t.name
  empty : t.empty = (t.selfClosing || isVoid t.name)
  divided : ∀ a ∈ t.attributes,
    a.name = if affix then .split a.name.full else { base := a.name.full }
  attributes : ScannedAttributes (t.attributes.map PlainAttribute.written)
  raw : t.holdsRaw = true → ∃ body, t.raw = some body ∧ Unclosed t.name body.toList
  plain : t.holdsRaw = false → t.raw = none

mutual

/-- The tree comes from some source. -/
def Tree.Scanned (affix : Bool) : Tree → Prop
  | .text text => text ≠ ""
  | .comment content => ¬ "-->".toList <:+: content.toList
  | .element tag children =>
      tag.Scanned affix ∧ (tag.empty = true ∨ tag.holdsRaw = true → children = []) ∧
        TreesScanned affix children

/-- The trees come from some source, and no text stands beside another one. -/
def TreesScanned (affix : Bool) : List Tree → Prop
  | [] => True
  | t :: rest =>
      t.Scanned affix ∧ ¬ (t.isText = true ∧ rest.head?.any Tree.isText = true) ∧
        TreesScanned affix rest

end

/-- A value in quotes is read up to its closing quote, behind which the rest stands: the quote is not
in it but in braces, and a brace that is open at its end stays open. -/
inductive ReadsQuoted (quote : Char) (rest : List Char) : List Char → Prop
  | nil : ReadsQuoted quote rest []
  | char {c : Char} {tail : List Char} (hc : c ≠ quote)
      (hopen : braceSpan (c :: (tail ++ quote :: rest)) = none) (htail : ReadsQuoted quote rest tail) :
      ReadsQuoted quote rest (c :: tail)
  | span {inner tail : List Char} (hinner : Matched inner) (htail : ReadsQuoted quote rest tail) :
      ReadsQuoted quote rest ('\x7b' :: (inner ++ '\x7d' :: tail))

/-- A text is read up to the rest behind it: it does not start markup but in braces, except for
declarations, and a brace that is open at its end stays open. -/
inductive ReadsText (rest : List Char) : List Char → Prop
  | nil : ReadsText rest []
  | char {c : Char} {tail : List Char} (hmarkup : startsMarkup (c :: (tail ++ rest)) = false)
      (hopen : braceSpan (c :: (tail ++ rest)) = none) (htail : ReadsText rest tail) :
      ReadsText rest (c :: tail)
  | span {inner tail : List Char} (hinner : Matched inner) (htail : ReadsText rest tail) :
      ReadsText rest ('\x7b' :: (inner ++ '\x7d' :: tail))
  | declaration {inner tail : List Char} (hinner : '>' ∉ inner) (hcomment : ¬ ['-', '-'] <+: inner)
      (htail : ReadsText rest tail) : ReadsText rest ('<' :: '!' :: (inner ++ '>' :: tail))
  /-- A declaration without an end is the last thing in its source. -/
  | unended {inner : List Char} (hinner : '>' ∉ inner) (hcomment : ¬ ['-', '-'] <+: inner)
      (hrest : rest = []) : ReadsText rest ('<' :: '!' :: inner)

/-- A value can be read between quotes of a kind if the rest stands behind it. -/
def Quote.Legible (rest : List Char) : Quote → List Char → Prop
  | .double, text => ReadsQuoted '"' rest text
  | .single, text => ReadsQuoted '\'' rest text
  | .brace, _ => True
  | .unquoted, text => rest.head? = some '>' → text.getLast? ≠ some '/'

/-- The attributes can be read, each with the others and the rest behind it. -/
def AttributesLegible (rest : List Char) : List PlainAttribute → Prop
  | [] => True
  | a :: more =>
      (∀ text quote, a.value = some (text, quote) →
        quote.Legible (more.flatMap (fun b => ' ' :: b.chars) ++ rest) text.toList) ∧
        AttributesLegible rest more

/-- What is written of an element behind its opening tag. -/
def Tag.behind (t : Tag) (children : List Tree) : List Char :=
  if t.selfClosing || t.empty then []
  else (t.raw.getD "").toList ++ (treesChars children ++ t.closing)

mutual

/-- The tree can be read if the rest stands behind it. -/
def Tree.Legible (rest : List Char) : Tree → Prop
  | .text text => ReadsText rest text.toList
  | .comment _ => True
  | .element tag children =>
      AttributesLegible (tag.ending ++ (tag.behind children ++ rest)) tag.attributes ∧
        TreesLegible (tag.closing ++ rest) children

/-- The trees can be read, each with the others and the rest behind it. -/
def TreesLegible (rest : List Char) : List Tree → Prop
  | [] => True
  | t :: more => t.Legible (treesChars more ++ rest) ∧ TreesLegible rest more

end

/-- A character that opens no brace begins no braced span. -/
theorem braceSpan_of_ne {c : Char} (h : c ≠ '\x7b') (rest : List Char) :
    braceSpan (c :: rest) = none := by
  unfold braceSpan
  split
  · next heq => exact absurd (List.cons.inj heq).1 h
  · rfl

/-- A character other than the opening bracket begins no markup. -/
theorem startsMarkup_of_ne {c : Char} (h : c ≠ '<') (rest : List Char) :
    startsMarkup (c :: rest) = false := by
  rw [Bool.eq_false_iff]
  intro hstarts
  rcases startsMarkup_cases hstarts with ⟨_, _, heq, -⟩ | ⟨_, _, heq, -⟩
  · exact h (List.cons.inj heq).1
  · exact h (List.cons.inj heq).1

/-- A closed text without the mark is read as a quoted value. -/
theorem Closed.readsQuoted {quote : Char} {text : List Char} (h : Closed (· ≠ quote) text)
    (rest : List Char) : ReadsQuoted quote rest text := by
  induction h with
  | nil => exact .nil
  | char hbrace hc _ ih => exact .char hc (braceSpan_of_ne hbrace _) ih
  | span hinner _ ih => exact .span hinner ih

/-- A closed text without an opening bracket is read as a text. -/
theorem Closed.readsText {text : List Char} (h : Closed (· ≠ '<') text) (rest : List Char) :
    ReadsText rest text := by
  induction h with
  | nil => exact .nil
  | char hbrace hc _ ih => exact .char (startsMarkup_of_ne hc _) (braceSpan_of_ne hbrace _) ih
  | span hinner _ ih => exact .span hinner ih

/-- A value that its quote admits is the one it yields. -/
theorem Quote.Admits.yields {quote : Quote} {text : List Char} (h : quote.Admits text) :
    quote.Yields text := by
  cases quote with
  | double | single => trivial
  | brace => exact h
  | unquoted =>
      obtain ⟨-, hchars, hhead, -⟩ := h
      exact ⟨hchars, hhead⟩

/-- A value that its quote admits is legible in front of anything. -/
theorem Quote.Admits.legible {quote : Quote} {text : List Char} (h : quote.Admits text)
    (rest : List Char) : quote.Legible rest text := by
  cases quote with
  | double | single => exact Closed.readsQuoted h rest
  | brace => trivial
  | unquoted =>
      obtain ⟨-, -, -, hlast⟩ := h
      exact fun _ => hlast

/-- Well-formed attributes are scanned well. -/
theorem scannedAttributes_of_wellFormed {affix : Bool} {attributes : List PlainAttribute}
    (h : ∀ a ∈ attributes, a.WellFormed affix) :
    ScannedAttributes (attributes.map PlainAttribute.written) := by
  induction attributes with
  | nil => trivial
  | cons a more ih =>
      obtain ⟨ha, hmore⟩ := List.forall_mem_cons.mp h
      refine ⟨⟨ha.part, ha.start, ha.anonymous, fun text quote hvalue => ?_⟩, fun hvalue => ?_,
        ih hmore⟩
      · exact (ha.value text quote hvalue).yields
      · -- a well-formed value without quotes is not empty
        exact absurd rfl (ha.value "" .unquoted hvalue).1

/-- Well-formed attributes are legible in front of anything. -/
theorem attributesLegible_of_wellFormed {affix : Bool} {attributes : List PlainAttribute}
    (h : ∀ a ∈ attributes, a.WellFormed affix) (rest : List Char) :
    AttributesLegible rest attributes := by
  induction attributes with
  | nil => trivial
  | cons a more ih =>
      obtain ⟨ha, hmore⟩ := List.forall_mem_cons.mp h
      exact ⟨fun text quote hvalue => (ha.value text quote hvalue).legible _, ih hmore⟩

/-- A well-formed tag is scanned well. -/
theorem Tag.WellFormed.scanned {affix : Bool} {t : Tag} (h : t.WellFormed affix) :
    t.Scanned affix where
  name := h.name
  empty := h.empty
  divided a ha := (h.attributes a ha).divided
  attributes := scannedAttributes_of_wellFormed h.attributes
  raw := h.raw
  plain := h.plain

mutual

/-- A well-formed tree is scanned well. -/
theorem Tree.WellFormed.scanned {affix : Bool} {t : Tree} (h : t.WellFormed affix) :
    t.Scanned affix := by
  match t with
  | .text _ => exact h.1
  | .comment _ => exact h
  | .element tag children =>
      simp only [Tree.WellFormed] at h
      exact ⟨h.1.scanned, h.2.1, TreesWellFormed.scanned h.2.2⟩

/-- A list of well-formed trees is scanned well. -/
theorem TreesWellFormed.scanned {affix : Bool} {ts : List Tree} (h : TreesWellFormed affix ts) :
    TreesScanned affix ts := by
  match ts with
  | [] => trivial
  | t :: more =>
      simp only [TreesWellFormed] at h
      exact ⟨h.1.scanned, h.2.1, TreesWellFormed.scanned h.2.2⟩

end

mutual

/-- A well-formed tree is legible in front of anything. -/
theorem Tree.WellFormed.legible {affix : Bool} {t : Tree} (h : t.WellFormed affix)
    (rest : List Char) : t.Legible rest := by
  match t with
  | .text _ => exact h.2.readsText rest
  | .comment _ => trivial
  | .element tag children =>
      simp only [Tree.WellFormed] at h
      exact ⟨attributesLegible_of_wellFormed h.1.attributes _, TreesWellFormed.legible h.2.2 _⟩

/-- Well-formed trees can be read whatever stands behind them. -/
theorem TreesWellFormed.legible {affix : Bool} {ts : List Tree} (h : TreesWellFormed affix ts)
    (rest : List Char) : TreesLegible rest ts := by
  match ts with
  | [] => trivial
  | t :: more =>
      simp only [TreesWellFormed] at h
      exact ⟨h.1.legible _, TreesWellFormed.legible h.2.2 rest⟩

end

end Stencil.Markup
