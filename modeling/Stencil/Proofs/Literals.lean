import Mathlib.Data.List.Chain
import Stencil.Template
import Stencil.Json
import Stencil.Proofs.Frame
import Stencil.Proofs.Holes
import Stencil.Proofs.Quotation
import Stencil.Render.Code

/-!
# Markup and values as literals

Markup and the values of attributes are written as code in one of two ways: as a string literal if
they are text alone, and as template text with holes if they hold expressions.  A string literal reads
back by the rules of JSON.  Text inside template text is escaped by three replacements, which come to
one pass (`toList_templateText`).  Template text is read up to a backquote or the start of a hole that
no backslash stands before, and what was read denotes its text by the escapes of templates, with line
ends read as line feeds; then the hole is read to its end (`ReadsTemplate`).  Both read back to what
was written, whatever its characters, exactly if nothing is left open in the code of a hole
(`code_denotes`).
-/

namespace Stencil

open Stencil.Text

/-! ### String literals -/

namespace Json

/-- What stands for a control character is a plain escape, and no Unicode one. -/
theorem plainEscape?_of_mem_letterEscapes :
    ∀ p ∈ letterEscapes, p.1 ≠ 'u' ∧ plainEscape? p.1 = some p.2 := by
  decide

/-- The digits of a control character. -/
theorem hexFour?_control (n : Nat) (h : n < 0x20) (rest : List Char) :
    hexFour? ('0' :: '0' :: Nat.digitChar (n / 16) :: Nat.digitChar (n % 16) :: rest) = some n := by
  have hdigits : ∀ n < 0x20, hexDigit? (Nat.digitChar (n / 16)) = some (n / 16) ∧
      hexDigit? (Nat.digitChar (n % 16)) = some (n % 16) := by
    decide
  obtain ⟨hhigh, hlow⟩ := hdigits n h
  simp only [hexFour?, show hexDigit? '0' = some 0 from rfl, hhigh, hlow, Option.bind_eq_bind,
    Option.bind_some, Option.pure_def]
  congr 1
  omega

/-- A string is over at its closing quote, and has one unit for each character. -/
theorem units?_quoted (cs rest : List Char) :
    units? 0 (cs.flatMap quotedChar ++ '"' :: rest) = some (cs.map Char.toNat, rest) := by
  induction cs with
  | nil => rfl
  | cons c cs ih =>
      rw [List.flatMap_cons, List.append_assoc]
      rcases quotedChar_cases c with ⟨d, hc, hd⟩ | ⟨hc, hsmall⟩ | ⟨hc, hquote, hslash, hlarge⟩
      · obtain ⟨hu, hescape⟩ := plainEscape?_of_mem_letterEscapes _ hd
        rw [hc]
        simp [units?, hu, hescape, ih]
      · rw [hc, controlEscape]
        simp [units?, hexFour?_control c.toNat hsmall, ih]
      · rw [hc]
        simp [units?, hquote, hslash, hlarge, ih]

/-- Characters are no halves of pairs. -/
theorem textOfUnits?_map_toNat (cs : List Char) : textOfUnits? (cs.map Char.toNat) = some cs := by
  have hvalid : ∀ c : Char, ¬ (0xd800 ≤ c.toNat ∧ c.toNat < 0xe000) := by
    intro c
    have hc : c.toNat < 0xd800 ∨ 0xdfff < c.toNat ∧ c.toNat < 0x110000 := c.valid
    omega
  induction cs with
  | nil => rfl
  | cons c rest ih =>
      have hc := hvalid c
      cases rest with
      | nil => simp [textOfUnits?, hc]
      | cons d more =>
          have hhigh : ¬ (0xd800 ≤ c.toNat ∧ c.toNat < 0xdc00) := by omega
          have hlow : ¬ (0xdc00 ≤ c.toNat ∧ c.toNat < 0xe000) := by omega
          rw [List.map_cons] at ih
          rw [List.map_cons, List.map_cons, textOfUnits?, if_neg hhigh, if_neg hlow, ih]
          simp

/-- **A string literal reads back** to its text by the rules of JSON. -/
theorem parse?_quote (text : String) : parse? (quote text) = some (.string (some text)) := by
  have hchars : (quote text).toList = '"' :: (text.toList.flatMap quotedChar ++ '"' :: []) := by
    simp [quote]
  have hstring : string? (text.toList.flatMap quotedChar ++ '"' :: []) = some (some text, []) := by
    rw [string?, units?_quoted]
    simp [textOfUnits?_map_toNat]
  have hvalue : ∀ fuel, value? (fuel + 1) (quote text).toList = some (.string (some text), []) := by
    intro fuel
    rw [hchars, value?, show skipBlanks ('"' :: (text.toList.flatMap quotedChar ++ ['"'])) =
      '"' :: (text.toList.flatMap quotedChar ++ ['"']) from rfl]
    simp [hstring]
  rw [parse?]
  simp only [hvalue]
  rfl

end Json

namespace Render

open Stencil.Markup
open Stencil.Script (isLineEnd templateSpan decodeText escape? textOfCodes textOfCodes_map_toNat)

/-! ### Three replacements in one pass -/

/-- Characters inside template text: backslashes, backquotes and the start of a hole are escaped. -/
def templateChars : List Char → List Char
  | [] => []
  | c :: rest =>
      if c == '\\' || c == '\x60' || (c == '$' && rest.head? == some '\x7b') then
        '\\' :: c :: templateChars rest
      else c :: templateChars rest

/-- The starts of holes are escaped one by one, since they do not overlap. -/
theorem replaceText_hole_cons (c : Char) (cs : List Char) :
    replaceText ['$', '\x7b'] ['\\', '$', '\x7b'] (c :: cs) =
      (if c = '$' ∧ cs.head? = some '\x7b' then ['\\', c] else [c]) ++
        replaceText ['$', '\x7b'] ['\\', '$', '\x7b'] cs := by
  by_cases h : c = '$' ∧ cs.head? = some '\x7b'
  · obtain ⟨rfl, hcs⟩ := h
    obtain ⟨rest, rfl⟩ := List.head?_eq_some_iff.mp hcs
    rfl
  · have hprefix : ['$', '\x7b'].isPrefixOf (c :: cs) = false := by
      cases cs with
      | nil => simp [List.isPrefixOf]
      | cons d rest =>
          simp only [List.head?_cons, Option.some_inj] at h
          simp only [List.isPrefixOf, Bool.and_true, Bool.and_eq_false_iff, beq_eq_false_iff_ne]
          exact (not_and_or.mp h).imp (fun h => Ne.symm h) fun h => Ne.symm h
    rw [if_neg h, replaceText, replaceFrom, hprefix]
    rfl

/-- A character behind the first two replacements. -/
def slashed (c : Char) : List Char := if c = '\\' ∨ c = '\x60' then ['\\', c] else [c]

/-- Escaping backslashes and then backticks escapes each character by itself. -/
theorem replaceChar_slashes (cs : List Char) :
    replaceChar '\x60' ['\\', '\x60'] (replaceChar '\\' ['\\', '\\'] cs) = cs.flatMap slashed := by
  rw [replaceChar, replaceChar, List.flatMap_assoc]
  congr 1
  funext c
  unfold slashed
  by_cases hslash : c = '\\'
  · simp [hslash]
  · by_cases hquote : c = '\x60' <;> simp [hslash, hquote]

/-- **Three replacements** one after another escape each character once. -/
theorem toList_templateText (text : String) :
    (templateText text).toList = templateChars text.toList := by
  rw [templateText, String.toList_ofList, replaceChar_slashes]
  induction text.toList with
  | nil => rfl
  | cons c rest ih =>
      have hhead : (rest.flatMap slashed).head? = some '\x7b' ↔ rest.head? = some '\x7b' := by
        cases rest with
        | nil => rfl
        | cons d more =>
            rw [List.flatMap_cons, slashed]
            split
            · next hd => rcases hd with rfl | rfl <;> simp
            · simp
      rw [List.flatMap_cons, slashed, templateChars]
      split
      · next hc =>
          rw [if_pos (by rcases hc with rfl | rfl <;> rfl)]
          simp only [List.cons_append, List.nil_append]
          rw [replaceText_hole_cons, replaceText_hole_cons, ih]
          rcases hc with rfl | rfl <;> simp
      · next hc =>
          rw [List.cons_append, List.nil_append, replaceText_hole_cons, ih]
          simp only [hhead]
          obtain ⟨hslash, hquote⟩ := not_or.mp hc
          by_cases hhole : c = '$' ∧ rest.head? = some '\x7b' <;>
            simp [hslash, hquote, hhole]

/-! ### Template text -/

/-- The text as templates read its line ends: a carriage return, alone or with the line feed behind it,
is a line feed. -/
def lineFeeds : List Char → List Char
  | [] => []
  | '\r' :: '\n' :: rest => '\n' :: lineFeeds rest
  | c :: rest => (if c = '\r' then '\n' else c) :: lineFeeds rest

/-- The text that the characters between two holes denote. -/
def cooked? (raw : List Char) : Option (List Char) :=
  (decodeText true 0 (lineFeeds raw)).map textOfCodes

/-- A text with holes: what stands before the first hole, and each hole's code with what stands behind
it. -/
structure Holed where
  first : List Char
  more : List (List Char × List Char)
  deriving DecidableEq, Repr

/-- Template text is read, from behind the opening backquote to the closing one.  Every stretch ends at
a backquote or the start of a hole that is not escaped, and a hole ends where its code does. -/
inductive ReadsTemplate (regex : List Char → Bool) : List Char → Holed → Prop
  | last {cs raw text : List Char} (hspan : templateSpan 0 cs = some (raw, true, []))
      (htext : cooked? raw = some text) : ReadsTemplate regex cs ⟨text, []⟩
  | hole {cs raw text inside code rest : List Char} {t : Holed}
      (hspan : templateSpan 0 cs = some (raw, false, inside))
      (htext : cooked? raw = some text) (hcode : readHole regex [] [] inside = some (code, rest))
      (hrest : ReadsTemplate regex rest t) :
      ReadsTemplate regex cs ⟨text, (code, t.first) :: t.more⟩

/-- What is written between backquotes: a text, or a hole with some code. -/
inductive Segment where
  | text (cs : List Char)
  | hole (code : List Char)
  deriving DecidableEq, Repr

namespace Segment

/-- The text. -/
def text? : Segment → Option (List Char)
  | .text cs => some cs
  | .hole _ => none

/-- How it is written in template text. -/
def written : Segment → List Char
  | .text cs => templateChars cs
  | .hole code => '$' :: '\x7b' :: (code ++ ['\x7d'])

end Segment

/-- Segments as a text with holes. -/
def holed : List Segment → Holed
  | [] => ⟨[], []⟩
  | .text cs :: rest => ⟨cs ++ (holed rest).first, (holed rest).more⟩
  | .hole code :: rest => ⟨[], (code, (holed rest).first) :: (holed rest).more⟩

/-- A text with holes as templates read its line ends. -/
def Holed.normalized (t : Holed) : Holed :=
  ⟨lineFeeds t.first, t.more.map fun x => (x.1, lineFeeds x.2)⟩

/-- No text directly follows a text. -/
def Apart (segments : List Segment) : Prop :=
  segments.IsChain fun a b => a.text?.isNone = true ∨ b.text?.isNone = true

instance (segments : List Segment) : Decidable (Apart segments) :=
  inferInstanceAs (Decidable (List.IsChain _ _))

/-- Whether a character is written behind a backslash in template text, by what follows it. -/
def isEscaped (c : Char) (rest : List Char) : Prop :=
  c = '\\' ∨ c = '\x60' ∨ c = '$' ∧ rest.head? = some '\x7b'

/-- An escaped character of a template literal gets a backslash. -/
theorem templateChars_of_escaped {c : Char} {rest : List Char} (h : isEscaped c rest) :
    templateChars (c :: rest) = '\\' :: c :: templateChars rest := by
  rw [templateChars, if_pos]
  simpa [isEscaped, or_assoc] using h

/-- Any other character of a template literal stands for itself. -/
theorem templateChars_of_not_escaped {c : Char} {rest : List Char} (h : ¬ isEscaped c rest) :
    templateChars (c :: rest) = c :: templateChars rest := by
  rw [templateChars, if_neg]
  simpa [isEscaped, or_assoc] using h

/-- Written text starts as the text does, or with a backslash. -/
theorem head?_of_templateChars {cs : List Char} {d : Char} (hd : d ≠ '\\')
    (h : (templateChars cs).head? = some d) : cs.head? = some d := by
  cases cs with
  | nil => exact h
  | cons c rest =>
      by_cases hc : isEscaped c rest
      · rw [templateChars_of_escaped hc] at h
        exact absurd (Option.some.inj h).symm hd
      · rwa [templateChars_of_not_escaped hc] at h

/-- A template literal goes on behind an escaped character. -/
theorem templateSpan_escape (c : Char) (cs : List Char) :
    templateSpan 0 ('\\' :: c :: cs) =
      (templateSpan 0 cs).map fun p => ('\\' :: c :: p.1, p.2) := by
  simp [templateSpan, Function.comp_def]

/-- A template literal goes on behind a plain character. -/
theorem templateSpan_plain {c : Char} {cs : List Char}
    (h : c ≠ '\\' ∧ c ≠ '\x60' ∧ ¬ (c = '$' ∧ cs.head? = some '\x7b')) :
    templateSpan 0 (c :: cs) = (templateSpan 0 cs).map fun p => (c :: p.1, p.2) := by
  obtain ⟨hslash, hquote, hhole⟩ := h
  rw [templateSpan]
  · simp only [Nat.lt_irrefl, if_false, beq_iff_eq, hslash, hquote]
  · rintro tail hdollar rfl
    exact hhole ⟨hdollar, rfl⟩

/-- **Written text is read to its end**: no backquote and no start of a hole in it is left without a
backslash, nor does one arise where a hole follows. -/
theorem templateSpan_templateChars (cs : List Char) {rest : List Char} (hrest : rest.head? ≠ some '\x7b') :
    templateSpan 0 (templateChars cs ++ rest) =
      (templateSpan 0 rest).map fun p => (templateChars cs ++ p.1, p.2) := by
  induction cs with
  | nil => simp [templateChars]
  | cons c more ih =>
      by_cases hc : isEscaped c more
      · rw [templateChars_of_escaped hc, List.cons_append, List.cons_append, templateSpan_escape, ih,
          Option.map_map]
        rfl
      · have hplain : c ≠ '\\' ∧ c ≠ '\x60' ∧
            ¬ (c = '$' ∧ (templateChars more ++ rest).head? = some '\x7b') := by
          refine ⟨fun h => hc (.inl h), fun h => hc (.inr (.inl h)), ?_⟩
          rintro ⟨hdollar, hhead⟩
          rw [List.head?_append] at hhead
          rcases Option.or_eq_some_iff.mp hhead with hhead | ⟨-, hhead⟩
          · exact hc (.inr (.inr ⟨hdollar, head?_of_templateChars (by decide) hhead⟩))
          · exact hrest hhead
        rw [templateChars_of_not_escaped hc, List.cons_append, templateSpan_plain hplain, ih,
          Option.map_map]
        rfl

/-- A character that begins no line end in two is read by itself. -/
theorem lineFeeds_cons {c : Char} {rest : List Char} (h : ¬ (c = '\r' ∧ rest.head? = some '\n')) :
    lineFeeds (c :: rest) = (if c = '\r' then '\n' else c) :: lineFeeds rest := by
  rw [lineFeeds.eq_def]
  split
  · next heq => simp at heq
  · next heq =>
      obtain ⟨rfl, rfl⟩ := List.cons.inj heq
      exact absurd ⟨rfl, rfl⟩ h
  · next heq =>
      obtain ⟨rfl, rfl⟩ := List.cons.inj heq
      rfl

/-- Line ends start no hole. -/
theorem head?_lineFeeds (cs : List Char) :
    (lineFeeds cs).head? = some '\x7b' ↔ cs.head? = some '\x7b' := by
  cases cs with
  | nil => rfl
  | cons c rest =>
      by_cases h : c = '\r' ∧ rest.head? = some '\n'
      · obtain ⟨rfl, hrest⟩ := h
        obtain ⟨more, rfl⟩ := List.head?_eq_some_iff.mp hrest
        simp [lineFeeds]
      · rw [lineFeeds_cons h, List.head?_cons, List.head?_cons]
        split
        · next hc => simp [hc]
        · rfl

/-- Line ends are not escaped, and no escape hides one. -/
theorem lineFeeds_templateChars (cs : List Char) :
    lineFeeds (templateChars cs) = templateChars (lineFeeds cs) := by
  fun_induction lineFeeds cs with
  | case1 => rfl
  | case2 rest ih =>
      have hplain : ∀ c, c = '\r' ∨ c = '\n' → ∀ more, ¬ isEscaped c more := by
        rintro c (rfl | rfl) more <;> simp [isEscaped]
      rw [templateChars_of_not_escaped (hplain _ (.inl rfl) _),
        templateChars_of_not_escaped (hplain _ (.inr rfl) _),
        templateChars_of_not_escaped (hplain _ (.inr rfl) _), lineFeeds, ih]
  | case3 c rest hnot ih =>
      by_cases hc : isEscaped c rest
      · have hne : c ≠ '\r' := by
          rintro rfl
          simp [isEscaped] at hc
        have hc' : isEscaped c (lineFeeds rest) := by
          rwa [isEscaped, head?_lineFeeds]
        rw [templateChars_of_escaped hc, if_neg hne, templateChars_of_escaped hc',
          lineFeeds_cons (by simp), if_neg (by decide), lineFeeds_cons (by simp [hne]), if_neg hne, ih]
      · have hc' : ¬ isEscaped (if c = '\r' then '\n' else c) (lineFeeds rest) := by
          split
          · simp [isEscaped]
          · rwa [isEscaped, head?_lineFeeds]
        have hends : ¬ (c = '\r' ∧ (templateChars rest).head? = some '\n') := by
          rintro ⟨rfl, hhead⟩
          obtain ⟨more, rfl⟩ := List.head?_eq_some_iff.mp (head?_of_templateChars (by decide) hhead)
          exact hnot more rfl rfl
        rw [templateChars_of_not_escaped hc, templateChars_of_not_escaped hc', lineFeeds_cons hends, ih]

/-- Written text denotes the text it was made from. -/
theorem decodeText_templateChars (cs : List Char) :
    decodeText true 0 (templateChars cs) = some (cs.map Char.toNat) := by
  induction cs with
  | nil => rfl
  | cons c rest ih =>
      by_cases hc : isEscaped c rest
      · have hescape : escape? true (c :: templateChars rest) = some ([c.toNat], 1) := by
          rcases hc with rfl | rfl | ⟨rfl, -⟩ <;> rfl
        rw [templateChars_of_escaped hc]
        simp [decodeText, hescape, ih]
      · have hslash : c ≠ '\\' := fun h => hc (.inl h)
        rw [templateChars_of_not_escaped hc]
        simp [decodeText, hslash, ih]

/-- How a text is written in template text: nothing in it ends the stretch, also together with what
stands behind it unless that is an opening brace, and it denotes the text. -/
structure Writes (raw text : List Char) : Prop where
  span : ∀ rest, rest.head? ≠ some '\x7b' →
    templateSpan 0 (raw ++ rest) = (templateSpan 0 rest).map fun p => (raw ++ p.1, p.2)
  cooked : cooked? raw = some (lineFeeds text)

/-- The characters written for a text are those of a template literal. -/
theorem writes_templateChars (cs : List Char) : Writes (templateChars cs) cs where
  span := fun _ hrest => templateSpan_templateChars cs hrest
  cooked := by
    rw [cooked?, lineFeeds_templateChars, decodeText_templateChars, Option.map_some,
      textOfCodes_map_toNat]

/-! ### Segments -/

section Segments

variable {regex : List Char → Bool}

/-- What is written behind a text, up to the closing backquote, ends the text at once. -/
theorem templateSpan_written {segments : List Segment} (h : ∀ s ∈ segments.head?, s.text? = none) :
    ∃ last rest, templateSpan 0 (segments.flatMap Segment.written ++ ['\x60']) = some ([], last, rest) ∧
      (segments.flatMap Segment.written ++ ['\x60']).head? ≠ some '\x7b' := by
  cases segments with
  | nil => exact ⟨true, [], rfl, by decide⟩
  | cons s rest =>
      cases s with
      | text cs => simp [Segment.text?] at h
      | hole code =>
          refine ⟨false, code ++ '\x7d' :: (rest.flatMap Segment.written ++ ['\x60']), ?_, ?_⟩ <;>
            simp [Segment.written, templateSpan]

/-- Segments that start with no text have none in front of their first hole. -/
theorem first_holed {segments : List Segment} (h : ∀ s ∈ segments.head?, s.text? = none) :
    (holed segments).first = [] := by
  cases segments with
  | nil => rfl
  | cons s rest =>
      cases s with
      | text cs => simp [Segment.text?] at h
      | hole code => rfl

/-- Text in front of a hole or the closing backquote is read with it. -/
theorem readsTemplate_text_iff {rest text : List Char} {more : List (List Char × List Char)}
    (hends : ∃ last tail, templateSpan 0 rest = some ([], last, tail) ∧ rest.head? ≠ some '\x7b')
    (cs : List Char) : ReadsTemplate regex (templateChars cs ++ rest) ⟨text, more⟩ ↔
      text = lineFeeds cs ∧ ReadsTemplate regex rest ⟨[], more⟩ := by
  obtain ⟨last, tail, hspan, hhead⟩ := hends
  have hnil : cooked? [] = some [] := rfl
  have hwrites := writes_templateChars cs
  have hread := hwrites.span rest hhead
  rw [hspan, Option.map_some, List.append_nil] at hread
  constructor
  · intro h
    cases h with
    | last hspan' htext =>
        obtain ⟨rfl, rfl, rfl⟩ : templateChars cs = _ ∧ last = true ∧ tail = [] := by
          simpa using hread.symm.trans hspan'
        exact ⟨Option.some.inj (htext.symm.trans hwrites.cooked), .last hspan hnil⟩
    | hole hspan' htext hcode hrest =>
        obtain ⟨rfl, rfl, rfl⟩ : templateChars cs = _ ∧ last = false ∧ tail = _ := by
          simpa using hread.symm.trans hspan'
        exact ⟨Option.some.inj (htext.symm.trans hwrites.cooked), .hole hspan hnil hcode hrest⟩
  · rintro ⟨rfl, h⟩
    cases h with
    | last hspan' htext =>
        obtain ⟨rfl, rfl, rfl⟩ : [] = _ ∧ last = true ∧ tail = [] := by
          simpa using hspan.symm.trans hspan'
        exact .last hread hwrites.cooked
    | hole hspan' htext hcode hrest =>
        obtain ⟨rfl, rfl, rfl⟩ : [] = _ ∧ last = false ∧ tail = _ := by
          simpa using hspan.symm.trans hspan'
        exact .hole hread hwrites.cooked hcode hrest

/-- A hole is read as it was written exactly if nothing is left open in it. -/
theorem readsTemplate_hole_iff {code rest first : List Char} {more : List (List Char × List Char)} :
    ReadsTemplate regex (Segment.written (.hole code) ++ rest) ⟨[], (code, first) :: more⟩ ↔
      Complete regex code ∧ ReadsTemplate regex rest ⟨first, more⟩ := by
  have hspan : templateSpan 0 (Segment.written (.hole code) ++ rest) =
      some ([], false, code ++ '\x7d' :: rest) := by
    simp [Segment.written, templateSpan]
  constructor
  · intro h
    cases h with
    | hole hspan' htext hcode hrest =>
        obtain ⟨rfl, rfl⟩ : [] = _ ∧ code ++ '\x7d' :: rest = _ := by
          simpa using hspan.symm.trans hspan'
        obtain rfl : rest = _ := by
          simpa using readHole_eq hcode
        exact ⟨readHole_iff.mp hcode, hrest⟩
  · rintro ⟨hcode, h⟩
    exact .hole (t := ⟨first, more⟩) hspan rfl (readHole_iff.mpr hcode) h

/-- **Template text reads back** to the texts and holes that were written, with line ends as line
feeds, exactly if nothing is left open in a hole. -/
theorem readsTemplate_written {segments : List Segment} (h : Apart segments) :
    ReadsTemplate regex (segments.flatMap Segment.written ++ ['\x60']) (holed segments).normalized ↔
      ∀ code, .hole code ∈ segments → Complete regex code := by
  induction segments with
  | nil =>
      simp only [List.not_mem_nil, false_implies, implies_true, iff_true]
      exact .last rfl rfl
  | cons s rest ih =>
      obtain ⟨hhead, hrest⟩ := List.isChain_cons.mp h
      rw [List.flatMap_cons, List.append_assoc]
      cases s with
      | text cs =>
          have hnext : ∀ s ∈ rest.head?, s.text? = none := by
            intro s hs
            simpa [Segment.text?] using hhead s hs
          have hfirst : (holed rest).first = [] := first_holed hnext
          have hholed : (holed (.text cs :: rest)).normalized =
              ⟨lineFeeds cs, (holed rest).normalized.more⟩ := by
            simp [holed, Holed.normalized, hfirst]
          have hback : (holed rest).normalized = ⟨[], (holed rest).normalized.more⟩ := by
            simp [Holed.normalized, hfirst, lineFeeds]
          rw [hholed, Segment.written, readsTemplate_text_iff (templateSpan_written hnext), ← hback,
            ih hrest]
          simp
      | hole code =>
          have hholed : (holed (.hole code :: rest)).normalized =
              ⟨[], (code, (holed rest).normalized.first) :: (holed rest).normalized.more⟩ := rfl
          rw [hholed, readsTemplate_hole_iff, ih hrest]
          simp

/-! ### Code -/

/-- The texts of some segments one after another. -/
def textOf (segments : List Segment) : String :=
  String.ofList (segments.filterMap Segment.text?).flatten

/-- Code denotes some segments: a string literal if they are text alone, and otherwise template text
with the codes of the holes in order. -/
inductive Denotes (regex : List Char → Bool) (code : String) (segments : List Segment) : Prop
  | literal (htext : ∀ s ∈ segments, s.text?.isSome = true)
      (hread : Json.parse? code = some (.string (some (textOf segments))))
  | template {cs : List Char} (hhole : ∃ s ∈ segments, s.text?.isNone = true)
      (hcode : code.toList = '\x60' :: cs)
      (hread : ReadsTemplate regex cs (holed segments).normalized)

/-- Code that is written as a literal denotes what it was made from, if nothing is left open in its
holes, and only then. -/
theorem denotes_iff_of_written {code : String} {segments : List Segment} (h : Apart segments)
    (htext : (∀ s ∈ segments, s.text?.isSome = true) → code = quote (textOf segments))
    (hhole : (∃ s ∈ segments, s.text?.isNone = true) →
      code.toList = '\x60' :: (segments.flatMap Segment.written ++ ['\x60'])) :
    Denotes regex code segments ↔ ∀ code, .hole code ∈ segments → Complete regex code := by
  constructor
  · intro hdenotes code hcode
    cases hdenotes with
    | literal htext => exact absurd (htext _ hcode) Bool.false_ne_true
    | template hsome hcs hread =>
        obtain rfl := (List.cons.inj (hcs.symm.trans (hhole hsome))).2
        exact (readsTemplate_written h).mp hread code hcode
  · intro hcomplete
    by_cases hall : ∀ s ∈ segments, s.text?.isSome = true
    · refine .literal hall ?_
      rw [htext hall, Json.parse?_quote]
    · have hsome : ∃ s ∈ segments, s.text?.isNone = true := by
        simpa using hall
      exact .template hsome (hhole hsome) ((readsTemplate_written h).mpr hcomplete)

/-- What a piece of markup is as a segment: the value of an expression is escaped unless it is raw. -/
def Piece.segment : Piece → Segment
  | .html text => .text text.toList
  | .constant code true => .hole code.toList
  | .constant code false => .hole ("$.escape(" ++ code ++ ")").toList

/-- What a part of a value is as a segment. -/
def partSegment : Part → Segment
  | .literal text => .text text.toList
  | .expression e _ => .hole e.code.toList

/-- The markup of a block, piece by piece. -/
def Block.segments (b : Block) : List Segment := b.pieces.map Piece.segment

/-- A piece is written as its segment. -/
theorem toList_templatePiece (p : Piece) :
    (Block.templatePiece p).toList = p.segment.written := by
  rcases p with text | ⟨code, _ | _⟩ <;>
    simp [Block.templatePiece, Piece.segment, Segment.written, toList_templateText]

/-- A part is written as its segment. -/
theorem toList_templatePart (p : Part) :
    (templatePart p).toList = (partSegment p).written := by
  cases p <;> simp [templatePart, partSegment, Segment.written, toList_templateText]

/-- The text of literal pieces, however they are read off. -/
theorem textOf_map {α : Type} {segment : α → Segment} {text? : α → Option String}
    (h : ∀ x, (segment x).text? = (text? x).map String.toList) (xs : List α) :
    textOf (xs.map segment) = String.join (xs.filterMap text?) := by
  rw [← String.toList_inj]
  induction xs with
  | nil => rfl
  | cons x rest ih =>
      cases hx : text? x with
      | none => simpa [textOf, List.filterMap_cons, h, hx] using ih
      | some text => simpa [textOf, List.filterMap_cons, h, hx, String.join_cons] using ih

/-- A piece is a segment of text exactly if it is markup. -/
theorem text?_segment (p : Piece) : p.segment.text? = (Block.htmlOf? p).map String.toList := by
  rcases p with text | ⟨code, _ | _⟩ <;> rfl

/-- A part is a segment of text exactly if it is a literal. -/
theorem text?_partSegment (p : Part) : (partSegment p).text? = (literalOf? p).map String.toList := by
  cases p <;> rfl

/-- Pieces that are added one by one leave no markup directly behind markup. -/
theorem apart_push {b : Block} (h : Apart b.segments) (p : Piece) : Apart (b.push p).segments := by
  obtain ⟨pieces⟩ := b
  rcases List.eq_nil_or_concat pieces with rfl | ⟨front, q, rfl⟩
  · exact .singleton _
  · rw [List.concat_eq_append] at h ⊢
    rw [Block.segments, List.map_append] at h
    obtain ⟨hfront, -, hnext⟩ := List.isChain_append.mp h
    rw [Block.segments, Block.push, Block.pushPiece_concat, List.map_append]
    refine hfront.append ?_ ?_
    · rcases q with _ | ⟨_, _ | _⟩ <;> rcases p with _ | ⟨_, _ | _⟩ <;>
        simp [Block.pushPiece, Piece.segment, Segment.text?]
    · intro s hs t ht
      -- what stands in the place of the last piece is markup exactly if that piece is
      have hkind : t.text?.isNone = q.segment.text?.isNone := by
        rcases q with _ | ⟨_, _ | _⟩ <;> rcases p with _ | ⟨_, _ | _⟩ <;>
          (obtain rfl := Option.some.inj ht; rfl)
      rw [hkind]
      exact hnext s hs q.segment rfl

/-- Pieces that are pushed one after another leave no two texts side by side. -/
theorem apart_foldl_push (pieces : List Piece) :
    Apart (pieces.foldl Block.push {}).segments := by
  induction pieces using List.reverseRecOn with
  | nil => exact .nil
  | append_singleton pieces p ih =>
      rw [List.foldl_concat]
      exact apart_push ih p

/-- **Markup** denotes its pieces if nothing is left open in an expression. -/
theorem Block.denotes_code {b : Block} (h : Apart b.segments) :
    Denotes regex b.code b.segments ↔
      ∀ code, .hole code ∈ b.segments → Complete regex code := by
  have hall : b.pieces.all (Block.htmlOf? · |>.isSome) = true ↔
      ∀ s ∈ b.segments, s.text?.isSome = true := by
    simp [Block.segments, text?_segment]
  refine denotes_iff_of_written h ?_ ?_
  · intro htext
    rw [Block.code, if_pos (hall.mpr htext), Block.segments, textOf_map text?_segment]
  · intro hhole
    have hnot : ¬ ∀ s ∈ b.segments, s.text?.isSome = true := by
      simpa using hhole
    rw [Block.code, if_neg (mt hall.mp hnot)]
    simp [toList_templatePiece, Block.segments, List.flatMap_map]

/-- **A value** that is not a single expression denotes its parts. -/
theorem denotes_partsValue {parts : List Part} (hsingle : ∀ e html, parts ≠ [.expression e html])
    (h : Apart (parts.map partSegment)) :
    Denotes regex (partsValue parts) (parts.map partSegment) ↔
      ∀ code, .hole code ∈ parts.map partSegment → Complete regex code := by
  have hall : parts.all (literalOf? · |>.isSome) = true ↔
      ∀ s ∈ parts.map partSegment, s.text?.isSome = true := by
    simp [text?_partSegment]
  have hvalue : partsValue parts =
      if parts.all (literalOf? · |>.isSome) then quote (String.join (parts.filterMap literalOf?))
      else "\x60" ++ String.join (parts.map templatePart) ++ "\x60" := by
    unfold partsValue
    split
    · rfl
    · next e html => exact absurd rfl (hsingle e html)
    · rfl
  refine denotes_iff_of_written h ?_ ?_
  · intro htext
    rw [hvalue, if_pos (hall.mpr htext), textOf_map text?_partSegment]
  · intro hhole
    have hnot : ¬ ∀ s ∈ parts.map partSegment, s.text?.isSome = true := by
      simpa using hhole
    rw [hvalue, if_neg (mt hall.mp hnot)]
    simp [toList_templatePart, List.flatMap_map]

end Segments

/-- **Literals denote what they are made from.**  A piece of markup, as it is escaped, holds no end of
a stretch of template text, also together with what follows it, and reads back to itself with its line
ends as line feeds.  The code of a block is a string literal for the markup alone; if there are
expressions, it is template text with them as its holes, in order and escaped unless they are raw,
exactly if nothing is left open in an expression.  In a block that pieces are added to one by one, no
markup directly follows markup.  Likewise the code of a value denotes its parts, if it is not a single
expression.  A line comment at the end of an expression is left open. -/
theorem code_denotes (regex : List Char → Bool) :
    (∀ text : String, Writes (templateText text).toList text.toList) ∧
    (∀ b : Block, Apart b.segments → (Denotes regex b.code b.segments ↔
      ∀ code, .hole code ∈ b.segments → Complete regex code)) ∧
    (∀ pieces : List Piece, Apart (pieces.foldl Block.push {}).segments) ∧
    (∀ parts : List Part, (∀ e html, parts ≠ [.expression e html]) → Apart (parts.map partSegment) →
      (Denotes regex (partsValue parts) (parts.map partSegment) ↔
        ∀ code, .hole code ∈ parts.map partSegment → Complete regex code)) ∧
    ∀ front comment, insideAfter regex [] [] (some '/') front = some [] →
      (∀ c ∈ comment, isLineEnd c = false) → ¬ Complete regex (front ++ '/' :: '/' :: comment) := by
  refine ⟨fun text => ?_, fun b hb => Block.denotes_code hb, apart_foldl_push,
    fun parts hsingle hapart => denotes_partsValue hsingle hapart,
    fun front comment hfront hcomment => not_complete_of_lineComment hfront hcomment⟩
  rw [toList_templateText]
  exact writes_templateChars text.toList

/-- Markup that ends with a dollar sign in front of a hole, and begins with a brace behind one. -/
theorem code_denotes_dollars :
    (∃ cs, (Block.code ⟨[.html "a\\\x60$", .constant "1" false, .html "\x7b\r\n$",
        .constant "\x7bk: '\x7d'\x7d.k" true]⟩).toList = '\x60' :: cs ∧
      ReadsTemplate (fun _ => false) cs ⟨"a\\\x60$".toList,
        [("$.escape(1)".toList, "\x7b\n$".toList), ("\x7bk: '\x7d'\x7d.k".toList, [])]⟩) ∧
      Json.parse? (partsValue [.literal "\"$\x7b\r"]) = some (.string (some "\"$\x7b\r")) := by
  constructor
  · have hcomplete := (code_denotes fun _ => false).2.1 ⟨[.html "a\\\x60$", .constant "1" false,
      .html "\x7b\r\n$", .constant "\x7bk: '\x7d'\x7d.k" true]⟩ (by decide)
    cases hcomplete.mpr (by simp [Block.segments, Piece.segment]; decide) with
    | literal htext _ => exact absurd htext (by decide)
    | template _ hcode hread => exact ⟨_, hcode, hread⟩
  · have hcomplete := (code_denotes fun _ => false).2.2.2.1 [.literal "\"$\x7b\r"] (by simp) (by decide)
    cases hcomplete.mpr (by simp [partSegment]) with
    | literal _ hread => exact hread
    | template hhole _ _ => exact absurd hhole (by decide)

/-- The markup of a paragraph with a constant that ends with a comment. -/
def commentedBlock : Block := ⟨[.html "<p>", .constant "1 + 1 // two" false, .html "</p>"]⟩

/-- A template is compiled to this markup, nothing is reported, and its code is no template text with
the constant as its hole. -/
theorem not_denotes_commented :
    let built := ({ options := {} } : Template).addDocument Script.javaScript
      (parseTemplate Script.javaScript {} "<p>\x7b1 + 1 // two\x7d</p>").document
    built.2 = [] ∧ built.1.components.map (·.base.blocks) = [[commentedBlock]] ∧
      ∀ regex, ¬ Denotes regex commentedBlock.code commentedBlock.segments := by
  refine ⟨by decide +kernel, by decide +kernel, fun regex hdenotes => ?_⟩
  have hopen : ¬ Complete regex ("$.escape(1 + 1 ".toList ++ '/' :: '/' :: " two)".toList) :=
    not_complete_of_lineComment rfl (by simp [isLineEnd])
  exact hopen ((Block.denotes_code (by decide)).mp hdenotes _ (by decide))

end Render

end Stencil
