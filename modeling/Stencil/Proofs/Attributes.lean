import Stencil.Proofs.Legible

/-!
# Reading attributes again

Every written piece of a tag that is legible is read again up to its own end: spans in braces, values
in their quotes and attributes, each by a lemma about its scanner.  `scanAttributes_inside` puts them
together.
-/

namespace Stencil.Markup

open Stencil.Text

/-- A closing brace that has been found is found also when more text follows. -/
theorem closing_append {depth : Nat} {inside : Inside} {cs inner rest : List Char} (more : List Char)
    (h : closing depth inside cs = some (inner, rest)) :
    closing depth inside (cs ++ more) = some (inner, rest ++ more) := by
  induction cs generalizing depth inside inner rest with
  | nil => simp [closing] at h
  | cons c tail ih =>
      have step : ∀ d i, (closing d i tail).map (fun p => (c :: p.1, p.2)) = some (inner, rest) →
          (closing d i (tail ++ more)).map (fun p => (c :: p.1, p.2)) =
            some (inner, rest ++ more) := by
        intro d i hm
        obtain ⟨⟨a, b⟩, ha, he⟩ := Option.map_eq_some_iff.mp hm
        simp only [Prod.mk.injEq] at he
        obtain ⟨rfl, rfl⟩ := he
        rw [ih ha]
        rfl
      simp only [List.cons_append, closing] at h ⊢
      split at h
      · exact step _ _ h
      · exact step _ _ h
      · split at h
        · next hc =>
            rw [if_pos hc]
            split at h
            · obtain ⟨rfl, rfl⟩ := Prod.mk.inj (Option.some.inj h)
              rfl
            · exact step _ _ h
        · next hc =>
            rw [if_neg hc]
            split at h
            · next ho =>
                rw [if_pos ho]
                exact step _ _ h
            · next ho =>
                rw [if_neg ho]
                split at h
                · next hq =>
                    rw [if_pos hq]
                    exact step _ _ h
                · next hq =>
                    rw [if_neg hq]
                    exact step _ _ h

/-- Matched braces close at the next closing brace. -/
theorem Matched.closing_eq {inner : List Char} (h : Matched inner) (rest : List Char) :
    closing 0 .code (inner ++ '\x7d' :: rest) = some (inner, rest) := by
  simpa using closing_append rest h

/-- The jump over matched braces is as long as they are. -/
theorem Matched.braceJump_eq {inner : List Char} (h : Matched inner) (rest : List Char) :
    braceJump ('\x7b' :: (inner ++ '\x7d' :: rest)) = inner.length + 1 := by
  simp [braceJump, braceSpan, h.closing_eq rest]

/-- Where no brace closes, there is no jump. -/
theorem braceJump_of_braceSpan {cs : List Char} (h : braceSpan cs = none) : braceJump cs = 0 := by
  simp [braceJump, h]

/-- Characters inside a jump are taken as they are. -/
theorem textSpan_jump (cs rest : List Char) :
    textSpan cs.length (cs ++ rest) =
      (cs ++ (textSpan 0 rest).1, (textSpan 0 rest).2) := by
  induction cs with
  | nil => rfl
  | cons c tail ih => simp [textSpan, nextJump, ih]

/-- A jump over some characters takes them into the value. -/
theorem quotedSpan_jump (quote : Char) (cs rest : List Char) :
    quotedSpan quote cs.length (cs ++ rest) =
      (cs ++ (quotedSpan quote 0 rest).1, (quotedSpan quote 0 rest).2) := by
  induction cs with
  | nil => rfl
  | cons c tail ih => simp [quotedSpan, nextJump, ih]

/-- A value is read up to its closing quote. -/
theorem ReadsQuoted.quotedSpan_eq {quote : Char} (hquote : quote ≠ '\x7b') {text rest : List Char}
    (h : ReadsQuoted quote rest text) :
    quotedSpan quote 0 (text ++ quote :: rest) = (text, some rest) := by
  induction h with
  | nil => simp [quotedSpan]
  | @char c tail hc hopen _ ih =>
      simp [quotedSpan, hc, nextJump, braceJump_of_braceSpan hopen, ih]
  | @span inner tail hinner _ ih =>
      have hjump := quotedSpan_jump quote (inner ++ ['\x7d']) (tail ++ quote :: rest)
      simp only [List.length_append, List.length_singleton, List.append_assoc,
        List.singleton_append, ih] at hjump
      simp [quotedSpan, hquote.symm, nextJump, hinner.braceJump_eq, hjump]

/-- What may stand behind an attribute inside a tag. -/
inductive Delimits : List Char → Prop
  | space {c : Char} {rest : List Char} (hblank : isBlank c = false) (hc : c ≠ '=') :
      Delimits (' ' :: c :: rest)
  | ending (rest : List Char) : Delimits ('>' :: rest)
  | slash (rest : List Char) : Delimits ('/' :: '>' :: rest)

/-- An unquoted value ends where it is delimited. -/
theorem unquotedSpan_eq {text rest : List Char} (hrest : Delimits rest)
    (htext : ∀ c ∈ text, isBlank c = false ∧ c ≠ '>')
    (hlast : rest.head? = some '>' → text.getLast? ≠ some '/') :
    unquotedSpan (text ++ rest) = (text, rest) := by
  induction text with
  | nil =>
      cases hrest with
      | space => rfl
      | ending => rfl
      | slash => rfl
  | cons c tail ih =>
      obtain ⟨hblank, hend⟩ := htext c (by simp)
      have htail : ∀ c ∈ tail, isBlank c = false ∧ c ≠ '>' := fun x hx => htext x (by simp [hx])
      have hslash : ¬ (c = '/' ∧ (tail ++ rest).head? = some '>') := by
        rintro ⟨rfl, hhead⟩
        cases tail with
        | nil => exact hlast hhead rfl
        | cons d more => exact (htail d (by simp)).2 (by simpa using hhead)
      have hlast' : rest.head? = some '>' → tail.getLast? ≠ some '/' := by
        intro hhead
        have hslash := hlast hhead
        cases tail with
        | nil => simp
        | cons d more => simpa [List.getLast?_cons_cons] using hslash
      have hgo : (isBlank c || c == '>' || (c == '/' && (tail ++ rest).head? == some '>')) = false := by
        simpa [hblank, hend] using hslash
      simp only [List.cons_append, unquotedSpan, hgo, ih htail hlast']
      rfl

/-- A value is read as it was written. -/
theorem Quote.scanValue_eq {quote : Quote} {text rest : List Char} (h : quote.Yields text)
    (hlegible : quote.Legible rest text) (hrest : Delimits rest) :
    scanValue (quote.chars text ++ rest) = ⟨text, quote, none, rest⟩ := by
  cases quote with
  | double =>
      have hspan := ReadsQuoted.quotedSpan_eq (by decide) hlegible
      simp [Quote.chars, scanValue, scanQuoted, hspan]
  | single =>
      have hspan := ReadsQuoted.quotedSpan_eq (by decide) hlegible
      simp [Quote.chars, scanValue, scanQuoted, hspan]
  | brace =>
      have hclosing := Matched.closing_eq h rest
      simp [Quote.chars, scanValue, hclosing]
  | unquoted =>
      obtain ⟨hchars, hhead⟩ := h
      have hspan := unquotedSpan_eq hrest hchars hlegible
      have hfirst : ∀ c ∈ (text ++ rest).head?, c ≠ '"' ∧ c ≠ '\'' ∧ c ≠ '\x7b' := by
        cases text with
        | nil => cases hrest <;> simp
        | cons c tail => simpa using hhead
      simp only [Quote.chars, scanValue]
      split
      · next heq => exact absurd rfl (hfirst '"' (by simp [heq])).1
      · next heq => exact absurd rfl (hfirst '\'' (by simp [heq])).2.1
      · next heq => exact absurd rfl (hfirst '\x7b' (by simp [heq])).2.2
      · rw [hspan]

/-- The first character of an attribute separates it from the blank before it and from what could
stand there instead. -/
theorem ScannedAttribute.chars_cons {a : PlainAttribute}
    (h : ScannedAttribute a.name.full a.value) : ∃ c rest, a.chars = c :: rest ∧
      isBlank c = false ∧ c ≠ '=' ∧ c ≠ '>' ∧ c ≠ '/' := by
  cases hname : a.name.full.toList with
  | nil =>
      have hfull : a.name.full = "" := String.toList_inj.mp hname
      obtain ⟨text, hvalue⟩ := h.anonymous hfull
      refine ⟨'\x7b', text.toList ++ ['\x7d'], ?_, by decide⟩
      simp [PlainAttribute.chars, hvalue, hfull, Quote.chars]
  | cons c rest =>
      have hpart := h.part c (by simp [hname])
      simp only [isAttributePart, Bool.not_eq_true', Bool.or_eq_false_iff, beq_eq_false_iff_ne] at hpart
      obtain ⟨⟨⟨⟨⟨hblank, heq⟩, hgt⟩, hslash⟩, -⟩, -⟩ := hpart
      have hne : a.name.full.isEmpty = false := by
        rw [String.isEmpty_eq_false_iff]
        rintro heq
        simp [heq] at hname
      have hchars : ∃ more, a.chars = c :: more := by
        unfold PlainAttribute.chars
        split
        · exact ⟨rest, hname⟩
        · exact ⟨_, by rw [hne, hname]; rfl⟩
      obtain ⟨more, hmore⟩ := hchars
      exact ⟨c, more, hmore, hblank, heq, hgt, hslash⟩

/-- A text that delimits has no part of an attribute in front. -/
theorem Delimits.takeWhile_eq {rest : List Char} (h : Delimits rest) :
    rest.takeWhile isAttributePart = [] ∧ rest.dropWhile isAttributePart = rest := by
  cases h with
  | space => exact ⟨rfl, rfl⟩
  | ending => exact ⟨rfl, rfl⟩
  | slash => exact ⟨rfl, rfl⟩

/-- A text that delimits has no equals sign behind its blanks. -/
theorem Delimits.head_dropWhile {rest : List Char} (h : Delimits rest) (tail : List Char) :
    rest.dropWhile isBlank ≠ '=' :: tail := by
  cases h with
  | space hblank hc =>
      have hspace : isBlank ' ' = true := rfl
      simp [hspace, hblank, hc]
  | ending => simp [show isBlank '>' = false from rfl]
  | slash => simp [show isBlank '/' = false from rfl]

/-- No blank is dropped in front of a value, unless it has no characters at all. -/
theorem Quote.dropWhile_chars {quote : Quote} {text rest : List Char} (h : quote.Yields text)
    (hrest : Delimits rest) (hempty : quote = .unquoted → text = [] → rest.head? ≠ some ' ') :
    (quote.chars text ++ rest).dropWhile isBlank = quote.chars text ++ rest := by
  cases quote with
  | double => rfl
  | single => rfl
  | brace => rfl
  | unquoted =>
      obtain ⟨hchars, -⟩ := h
      cases text with
      | nil =>
          have hspace := hempty rfl rfl
          cases hrest with
          | space => exact absurd rfl hspace
          | ending => rfl
          | slash => rfl
      | cons c tail => simp [Quote.chars, (hchars c (by simp)).1]

/-- A name ends at what stands behind it, and only a value may follow it. -/
theorem scanAttribute_name {name after : List Char} (hne : name ≠ [])
    (hpart : ∀ c ∈ name, isAttributePart c = true) (hstart : name.head? ≠ some '\x7b')
    (hafter : after.takeWhile isAttributePart = [] ∧ after.dropWhile isAttributePart = after) :
    scanAttribute (name ++ after) = some (match after.dropWhile isBlank with
      | '=' :: tail =>
          let v := scanValue (tail.dropWhile isBlank)
          ⟨name, some (v.value, v.quote), v.problem, v.rest⟩
      | _ => ⟨name, none, none, after⟩) := by
  have hhead : ((name ++ after).head? == some '\x7b') = false := by
    rw [List.head?_append_of_ne_nil _ hne]
    simpa using hstart
  have hname : (name ++ after).takeWhile isAttributePart = name := by
    rw [List.takeWhile_append_of_pos hpart, hafter.1, List.append_nil]
  have hrest : (name ++ after).dropWhile isAttributePart = after := by
    rw [List.dropWhile_append_of_pos hpart, hafter.2]
  have hempty : name.isEmpty = false := by simpa using hne
  simp only [scanAttribute, hhead, hname, hrest, hempty, Bool.false_eq_true, if_false]
  split <;> simp_all

/-- An attribute is read as it was written. -/
theorem ScannedAttribute.scanAttribute_eq {a : PlainAttribute}
    (h : ScannedAttribute a.name.full a.value) {rest : List Char} (hrest : Delimits rest)
    (hlegible : ∀ text quote, a.value = some (text, quote) → quote.Legible rest text.toList)
    (hempty : a.value = some ("", .unquoted) → rest.head? ≠ some ' ') :
    scanAttribute (a.chars ++ rest) = some ⟨a.name.full.toList,
      a.value.map fun (text, quote) => (text.toList, quote), none, rest⟩ := by
  by_cases hfull : a.name.full = ""
  · obtain ⟨text, hvalue⟩ := h.anonymous hfull
    have hscan := Quote.scanValue_eq (h.value text .brace hvalue) (hlegible text .brace hvalue) hrest
    have hchars : a.chars = Quote.brace.chars text.toList := by
      simp [PlainAttribute.chars, hvalue, hfull]
    unfold scanAttribute
    rw [hchars, if_pos (by rfl), hscan, hvalue, hfull]
    rfl
  · have hne : a.name.full.toList ≠ [] := fun hnil => hfull (String.toList_eq_nil_iff.mp hnil)
    cases hvalue : a.value with
    | none =>
        have hchars : a.chars = a.name.full.toList := by simp [PlainAttribute.chars, hvalue]
        rw [hchars, scanAttribute_name hne h.part h.start hrest.takeWhile_eq]
        split
        · next tail heq => exact absurd heq (hrest.head_dropWhile tail)
        · rfl
    | some value =>
        obtain ⟨text, quote⟩ := value
        have hyields := h.value text quote hvalue
        have hscan := Quote.scanValue_eq hyields (hlegible text quote hvalue) hrest
        have hfirst := Quote.dropWhile_chars hyields hrest (by
          rintro rfl hnil
          rw [String.toList_eq_nil_iff] at hnil
          exact hempty (by rw [hvalue, hnil]))
        have hchars : a.chars = a.name.full.toList ++ '=' :: quote.chars text.toList := by
          simp [PlainAttribute.chars, hvalue, hfull]
        have hequals : ('=' :: (quote.chars text.toList ++ rest)).dropWhile isBlank =
            '=' :: (quote.chars text.toList ++ rest) := rfl
        rw [hchars, List.append_assoc, List.cons_append,
          scanAttribute_name hne h.part h.start ⟨rfl, rfl⟩, hequals]
        simp only [hfirst, hscan, Option.map_some]

/-- The token of an attribute that is written at an offset. -/
def PlainAttribute.token (offset : Nat) (a : PlainAttribute) : AttributeToken :=
  { name := a.name.full, value := a.value, raw := String.ofList a.chars, start := offset,
    stop := offset + byteSize a.chars }

/-- The tokens of attributes that are written from an offset on, each behind a space. -/
def attributeTokens (offset : Nat) : List PlainAttribute → List AttributeToken
  | [] => []
  | a :: rest => a.token (offset + 1) :: attributeTokens (offset + 1 + byteSize a.chars) rest

/-- The first of the attributes scanned well is so, and so are the others. -/
theorem ScannedAttributes.head {a : PlainAttribute} {more : List PlainAttribute}
    (h : ScannedAttributes ((a :: more).map PlainAttribute.written)) :
    ScannedAttribute a.name.full a.value ∧ (a.value = some ("", .unquoted) → more = []) ∧
      ScannedAttributes (more.map PlainAttribute.written) := by
  obtain ⟨hscanned, hlast, hmore⟩ := h
  exact ⟨hscanned, fun hvalue => List.map_eq_nil_iff.mp (hlast hvalue), hmore⟩

/-- What is inside a tag delimits its name. -/
theorem Tag.inside_delimits {t : Tag} (h : ScannedAttributes (t.attributes.map PlainAttribute.written))
    (rest : List Char) : Delimits (t.inside ++ rest) := by
  unfold Tag.inside
  cases hattributes : t.attributes with
  | nil =>
      unfold Tag.ending
      split
      · exact .slash rest
      · exact .ending rest
  | cons a more =>
      rw [hattributes] at h
      obtain ⟨c, cs, hchars, hblank, heq, -⟩ := h.head.1.chars_cons
      rw [List.flatMap_cons, hchars]
      exact .space hblank heq

/-- The end of a tag has no more attributes. -/
theorem scanAttributes_ending (offset : Nat) (t : Tag) (rest : List Char) :
    scanAttributes offset (t.ending ++ rest) =
      { selfClosing := t.selfClosing, rest, stop := offset + byteSize t.ending } := by
  unfold Tag.ending
  cases t.selfClosing <;> (rw [scanAttributes.eq_def]; rfl)

/-- Reading goes on behind an attribute. -/
theorem ScannedAttribute.scanAttributes_eq {a : PlainAttribute}
    (h : ScannedAttribute a.name.full a.value) (offset : Nat) {rest : List Char}
    (hrest : Delimits rest)
    (hlegible : ∀ text quote, a.value = some (text, quote) → quote.Legible rest text.toList)
    (hempty : a.value = some ("", .unquoted) → rest.head? ≠ some ' ') :
    scanAttributes offset (' ' :: a.chars ++ rest) =
      let more := scanAttributes (offset + 1 + byteSize a.chars) rest
      { more with attributes := a.token (offset + 1) :: more.attributes } := by
  obtain ⟨c, cs, hchars, hblank, -, hgt, hslash⟩ := h.chars_cons
  have hscan := h.scanAttribute_eq hrest hlegible hempty
  have hdrop : (' ' :: a.chars ++ rest).dropWhile isBlank = c :: (cs ++ rest) := by
    simp [hchars, show isBlank ' ' = true from rfl, hblank]
  have htake : (' ' :: a.chars ++ rest).takeWhile isBlank = [' '] := by
    simp [hchars, show isBlank ' ' = true from rfl, hblank]
  have hone : byteSize [' '] = 1 := rfl
  have htoken : ∀ scan : AttributeScan, scan.name = a.name.full.toList →
      scan.value = a.value.map (fun (text, quote) => (text.toList, quote)) → scan.rest = rest →
      scan.token (offset + 1) (c :: (cs ++ rest)) = a.token (offset + 1) := by
    intro scan hname hvalue hscan
    have htaken : (c :: (cs ++ rest)).take ((c :: (cs ++ rest)).length - rest.length) = a.chars := by
      rw [hchars, ← List.cons_append, List.length_append, Nat.add_sub_cancel, List.take_left]
    simp only [AttributeScan.token, PlainAttribute.token, hscan, htaken, hname, hvalue,
      String.ofList_toList, Option.map_map, AttributeToken.mk.injEq, true_and, and_true]
    cases a.value <;> simp
  rw [hchars, List.cons_append] at hscan
  rw [scanAttributes.eq_def]
  simp only [htake, hone]
  split
  · next heq => exact absurd (hdrop.symm.trans heq) (by simp)
  · next heq =>
      rw [hdrop] at heq
      exact absurd (List.cons.inj heq).1 hslash
  · next heq =>
      rw [hdrop] at heq
      exact absurd (List.cons.inj heq).1 hgt
  · next d more _ _ heq =>
      rw [hdrop] at heq
      obtain ⟨rfl, rfl⟩ := List.cons.inj heq
      split
      · next hnone => simp [hscan] at hnone
      · next scan hsome =>
          rw [hscan, Option.some.injEq] at hsome
          subst hsome
          rw [htoken _ rfl rfl rfl]
          simp [PlainAttribute.token]

/-- The inside of an opening tag is read as it was written. -/
theorem scanAttributes_inside (t : Tag) (offset : Nat) (rest : List Char)
    (h : ScannedAttributes (t.attributes.map PlainAttribute.written))
    (hlegible : AttributesLegible (t.ending ++ rest) t.attributes) :
    scanAttributes offset (t.inside ++ rest) =
      { attributes := attributeTokens offset t.attributes, selfClosing := t.selfClosing, rest,
        stop := offset + byteSize t.inside } := by
  obtain ⟨name, empty, selfClosing, attributes, raw⟩ := t
  induction attributes generalizing offset with
  | nil => exact scanAttributes_ending offset _ rest
  | cons a more ih =>
      obtain ⟨hscanned, hlast, hmore⟩ := h.head
      obtain ⟨hvalue, hlater⟩ := hlegible
      have hdelimits := Tag.inside_delimits (t := ⟨name, empty, selfClosing, more, raw⟩) hmore rest
      have hempty : a.value = some ("", .unquoted) →
          (Tag.inside ⟨name, empty, selfClosing, more, raw⟩ ++ rest).head? ≠ some ' ' := by
        intro hnone
        rw [hlast hnone]
        unfold Tag.inside Tag.ending
        cases selfClosing <;> simp
      have hread := hscanned.scanAttributes_eq offset hdelimits
        (by rw [Tag.inside, List.append_assoc]; exact hvalue) hempty
      have hone : Char.utf8Size ' ' = 1 := rfl
      simp only [Tag.inside, Tag.ending, List.flatMap_cons, List.append_assoc] at hread ih ⊢
      rw [hread, ih _ hmore hlater]
      simp [attributeTokens, hone, Nat.add_assoc]

end Stencil.Markup
