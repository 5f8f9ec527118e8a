import Mathlib.Data.List.Infix
import Stencil.Proofs.Attributes
import Stencil.Proofs.Balanced
import Stencil.Proofs.Braceless
import Stencil.Proofs.Folded
import Stencil.Proofs.Header
import Stencil.Proofs.TreeScan

/-!
# Spans seen twice

Braces are matched twice: against the whole source while it is scanned, and later within the text of
one token, when that text is divided.  The scanner takes a span that it finds as a whole, so a span
never runs past the end of its token, and a brace that is open at that end was open in the whole
source (`SpansStay`).  So both look-ups give the same answer at every brace that dividing looks at
(`scan_agrees`).
-/

namespace Stencil.Markup

open Stencil.Text

/-- The offsets of the braces that are looked at when a text is divided: the first one, then the
first one behind each span, up to one that is never closed. -/
inductive Examines : List Char → Nat → Prop
  | first {cs : List Char} (h : '\x7b' ∈ cs) : Examines cs (byteSize (cs.takeWhile (· != '\x7b')))
  | next {cs : List Char} {b : BraceCut} {at' : Nat} (h : cutBrace? cs = some b)
      (tail : Examines b.rest at') :
      Examines cs (byteSize (b.before ++ '\x7b' :: (b.inner ++ ['\x7d'])) + at')

/-- At an offset in a text that starts at another one in the source, the closing brace is the same
in both, or is missing in both, and stands inside the text. -/
structure AgreesAt (source : String) (start : Nat) (text : String) (offset : Nat) : Prop where
  same : closingBrace? source (start + offset) = (closingBrace? text offset).map (start + ·)
  inside : ∀ stop, closingBrace? source (start + offset) = some stop →
    start + offset < stop ∧ stop < start + byteSize text.toList

/-! ### Spans and what stands behind them -/

/-- No span of the text ends elsewhere because of what stands behind it: a brace that is not closed
is not closed there either. -/
inductive SpansStay (after : List Char) : List Char → Prop
  | nil : SpansStay after []
  | plain {c : Char} {rest : List Char} (hc : c ≠ '\x7b') (tail : SpansStay after rest) :
      SpansStay after (c :: rest)
  | stuck {rest : List Char} (hopen : braceSpan ('\x7b' :: (rest ++ after)) = none) :
      SpansStay after ('\x7b' :: rest)
  | span {inner rest : List Char} (hinner : Matched inner) (tail : SpansStay after rest) :
      SpansStay after ('\x7b' :: (inner ++ '\x7d' :: rest))

/-- What is examined behind a character that opens no brace is examined in the rest. -/
theorem examines_cons {c : Char} (hc : c ≠ '\x7b') {cs : List Char} {offset : Nat}
    (h : Examines (c :: cs) offset) : ∃ at', offset = c.utf8Size + at' ∧ Examines cs at' := by
  have hne : (c != '\x7b') = true := by simpa using hc
  cases h with
  | first hmem =>
      refine ⟨_, ?_, .first ((List.mem_cons.mp hmem).resolve_left hc.symm)⟩
      rw [List.takeWhile_cons, if_pos hne, byteSize_cons]
  | next hcut tail =>
      rw [cutBrace?_cons hc] at hcut
      obtain ⟨b, hb, rfl⟩ := Option.map_eq_some_iff.mp hcut
      refine ⟨_, ?_, .next hb tail⟩
      simp only [List.cons_append, byteSize_cons, Nat.add_assoc]

/-- Where nothing moves, the spans at the braces looked at are the same with and without what stands
behind. -/
theorem SpansStay.span_eq {after cs : List Char} (h : SpansStay after cs) {offset : Nat}
    (hlooks : Examines cs offset) : ∃ front rest, cs = front ++ rest ∧ byteSize front = offset ∧
      (braceSpan (rest ++ after)).map Prod.fst = (braceSpan rest).map Prod.fst := by
  -- a span that is found without what stands behind is found with it
  have hshort : ∀ {rest : List Char}, braceSpan ('\x7b' :: (rest ++ after)) = none →
      braceSpan ('\x7b' :: rest) = none := by
    intro rest hopen
    cases hspan : braceSpan ('\x7b' :: rest) with
    | none => rfl
    | some found => simp [braceSpan, closing_append after hspan] at hopen
  induction h generalizing offset with
  | nil =>
      cases hlooks with
      | first hmem => simp at hmem
      | next hcut => simp [cutBrace?, braceSpan] at hcut
  | plain hc tail ih =>
      obtain ⟨at', rfl, hrest⟩ := examines_cons hc hlooks
      obtain ⟨front, rest, rfl, rfl, heq⟩ := ih hrest
      exact ⟨_ :: front, rest, rfl, rfl, heq⟩
  | @stuck rest hopen =>
      cases hlooks with
      | first => exact ⟨[], '\x7b' :: rest, rfl, rfl, by rw [List.cons_append, hopen, hshort hopen]⟩
      | next hcut => simp [cutBrace?, hshort hopen] at hcut
  | @span inner rest hinner tail ih =>
      cases hlooks with
      | first =>
          refine ⟨[], _, rfl, rfl, ?_⟩
          simp [braceSpan, hinner.closing_eq]
      | next hcut hlooks =>
          rw [cutBrace?_span hinner, Option.some.injEq] at hcut
          subst hcut
          obtain ⟨front, more, rfl, rfl, heq⟩ := ih hlooks
          exact ⟨'\x7b' :: (inner ++ '\x7d' :: front), more, by simp, by simp [Nat.add_assoc], heq⟩

/-- Both look-ups agree in a text whose spans stay what they are. -/
theorem SpansStay.agrees {source : String} {before after : List Char} {text : String}
    (hsource : source.toList = before ++ (text.toList ++ after)) (h : SpansStay after text.toList)
    {offset : Nat} (hlooks : Examines text.toList offset) :
    AgreesAt source (byteSize before) text offset := by
  obtain ⟨front, rest, htext, rfl, heq⟩ := h.span_eq hlooks
  have hwhole : closingBrace? source (byteSize before + byteSize front) =
      ((braceSpan (rest ++ after)).map Prod.fst).map fun inner =>
        byteSize before + byteSize front + 1 + byteSize inner := by
    rw [← byteSize_append, closingBrace?_append
      (show source.toList = before ++ front ++ (rest ++ after) by simp [hsource, htext]),
      Option.map_map]
    rfl
  have hpart : closingBrace? text (byteSize front) =
      ((braceSpan rest).map Prod.fst).map fun inner => byteSize front + 1 + byteSize inner := by
    rw [closingBrace?_append htext, Option.map_map]
    rfl
  rw [heq] at hwhole
  refine ⟨?_, fun stop hstop => ?_⟩
  · rw [hwhole, hpart]
    cases braceSpan rest with
    | none => rfl
    | some span => simp only [Option.map_some, Nat.add_assoc]
  · rw [hwhole, Option.map_map] at hstop
    obtain ⟨⟨inner, tail⟩, hspan, rfl⟩ := Option.map_eq_some_iff.mp hstop
    have hone : '\x7b'.utf8Size = 1 ∧ '\x7d'.utf8Size = 1 := by decide
    simp only [Function.comp_apply, htext, braceSpan_eq hspan, byteSize_append, byteSize_cons, hone]
    omega

/-! ### What the scanner takes -/

/-- A reader of texts that takes spans as a whole leaves them as they are: on every text that it takes,
it goes on behind a character that starts no span, and a span that it meets belongs to the text. -/
theorem spansStay_of_reads {after : List Char} (Reads : List Char → Prop)
    (hstep : ∀ c rest, Reads (c :: rest) → braceSpan (c :: (rest ++ after)) = none → Reads rest)
    (hspan : ∀ rest inner tail, Reads ('\x7b' :: rest) → rest ++ after = inner ++ '\x7d' :: tail →
      Matched inner → ∃ more, rest = inner ++ '\x7d' :: more ∧ Reads more)
    {cs : List Char} (h : Reads cs) : SpansStay after cs := by
  induction hsize : cs.length using Nat.strong_induction_on generalizing cs with
  | _ size ih =>
      cases cs with
      | nil => exact .nil
      | cons c rest =>
          by_cases hc : c = '\x7b'
          · subst hc
            cases hbrace : braceSpan ('\x7b' :: (rest ++ after)) with
            | none => exact .stuck hbrace
            | some found =>
                obtain ⟨inner, tail⟩ := found
                have hinner : Matched inner := closing_inner hbrace
                obtain ⟨more, rfl, hmore⟩ := hspan rest inner tail h (closing_eq hbrace) hinner
                refine .span hinner (ih more.length ?_ hmore rfl)
                simp only [← hsize, List.length_cons, List.length_append]
                omega
          · refine .plain hc (ih rest.length ?_ (hstep c rest h (braceSpan_of_ne hc _)) rfl)
            simp only [← hsize, List.length_cons]
            omega

/-- A text up to the next markup keeps its spans. -/
theorem spansStay_of_textSpan {cs after : List Char} (h : textSpan 0 (cs ++ after) = (cs, after)) :
    SpansStay after cs := by
  have hcons : ∀ {c : Char} {rest : List Char}, textSpan 0 (c :: rest ++ after) = (c :: rest, after) →
      textSpan (braceJump (c :: (rest ++ after))) (rest ++ after) = (rest, after) := by
    intro c rest h
    rw [List.cons_append, textSpan] at h
    split at h
    · simp at h
    · simpa [nextJump, Prod.ext_iff] using h
  refine spansStay_of_reads (fun cs => textSpan 0 (cs ++ after) = (cs, after)) ?_ ?_ h
  · intro c rest hread hopen
    simpa [braceJump_of_braceSpan hopen] using hcons hread
  · intro rest inner tail hread htail hinner
    have hjump := textSpan_jump (inner ++ ['\x7d']) tail
    have hspan := hcons hread
    rw [htail, hinner.braceJump_eq, show inner.length + 1 = (inner ++ ['\x7d']).length by simp,
      show inner ++ '\x7d' :: tail = inner ++ ['\x7d'] ++ tail by simp, hjump, Prod.mk.injEq] at hspan
    refine ⟨(textSpan 0 tail).1, by simpa using hspan.1.symm, ?_⟩
    have hcut := textSpan_eq 0 tail
    rw [hspan.2] at hcut
    rw [hcut, ← hspan.2]

/-- A value up to its closing quote keeps its spans. -/
theorem spansStay_of_quotedSpan {mark : Char} {cs after : List Char}
    (h : quotedSpan mark 0 (cs ++ mark :: after) = (cs, some after)) :
    SpansStay (mark :: after) cs := by
  have hcons : ∀ {c : Char} {rest : List Char},
      quotedSpan mark 0 (c :: rest ++ mark :: after) = (c :: rest, some after) →
      quotedSpan mark (braceJump (c :: (rest ++ mark :: after))) (rest ++ mark :: after) =
        (rest, some after) := by
    intro c rest h
    rw [List.cons_append, quotedSpan] at h
    split at h
    · simp at h
    · simpa [nextJump, Prod.ext_iff] using h
  refine spansStay_of_reads
    (fun cs => quotedSpan mark 0 (cs ++ mark :: after) = (cs, some after)) ?_ ?_ h
  · intro c rest hread hopen
    simpa [braceJump_of_braceSpan hopen] using hcons hread
  · intro rest inner tail hread htail hinner
    have hjump := quotedSpan_jump mark (inner ++ ['\x7d']) tail
    have hspan := hcons hread
    rw [htail, hinner.braceJump_eq, show inner.length + 1 = (inner ++ ['\x7d']).length by simp,
      show inner ++ '\x7d' :: tail = inner ++ ['\x7d'] ++ tail by simp, hjump, Prod.mk.injEq] at hspan
    refine ⟨(quotedSpan mark 0 tail).1, by simpa using hspan.1.symm, ?_⟩
    have hcut := quotedSpan_append mark 0 tail
    rw [hspan.2, Option.map_some, Option.getD_some] at hcut
    rw [hcut, ← hspan.2]

/-! ### Tokens where they were scanned -/

/-- Every declaration is a comment. -/
def NoDeclarations (cs : List Char) : Prop :=
  ∀ before after, cs = before ++ '<' :: '!' :: after → ['-', '-'] <+: after

/-- A text has no declarations exactly if every such opening is that of a comment. -/
theorem noDeclarations_iff (cs : List Char) : NoDeclarations cs ↔
    ∀ rest ∈ cs.tails, ['<', '!'] <+: rest → ['<', '!', '-', '-'] <+: rest := by
  refine ⟨fun h rest hrest hbang => ?_, fun h before after hcut => ?_⟩
  · obtain ⟨before, rfl⟩ := (List.mem_tails _ _).mp hrest
    obtain ⟨after, rfl⟩ := hbang
    obtain ⟨more, rfl⟩ := h before after rfl
    exact ⟨more, rfl⟩
  · subst hcut
    have htail := (List.mem_tails ('<' :: '!' :: after) _).mpr (List.suffix_append before _)
    have hrest := h _ htail ⟨after, rfl⟩
    simpa using hrest

instance (cs : List Char) : Decidable (NoDeclarations cs) :=
  decidable_of_iff _ (noDeclarations_iff cs).symm

/-- Every token was scanned somewhere in the text, and what was found there is among the findings. -/
theorem mem_scanFrom {offset : Nat} {cs : List Char} {t : Token} (h : t ∈ (scanFrom offset cs).1) :
    ∃ before c rest, cs = before ++ c :: rest ∧
      t ∈ (scanNext (offset + byteSize before) c rest).tokens ∧
      (scanNext (offset + byteSize before) c rest).findings ⊆ (scanFrom offset cs).2 := by
  fun_induction scanFrom offset cs with
  | case1 => simp at h
  | case2 offset c cs s tokens findings hrest ih =>
      rcases List.mem_append.mp h with hfirst | hmore
      · exact ⟨[], c, cs, rfl, hfirst, List.subset_append_left _ _⟩
      · obtain ⟨-, taken, htaken, hstop⟩ := scanNext_tags offset c cs
        rw [hrest] at ih
        obtain ⟨before, d, rest, hcut, ht, hfound⟩ := ih hmore
        have hplace : offset + byteSize (taken ++ before) = s.stop + byteSize before := by
          rw [byteSize_append, ← Nat.add_assoc, ← hstop]
        refine ⟨taken ++ before, d, rest, ?_, ?_, ?_⟩
        · rw [htaken, hcut, List.append_assoc]
        · rwa [hplace]
        · rw [hplace]
          exact List.subset_append_of_subset_right _ hfound

/-- A text stops where markup starts, or else at the end. -/
theorem startsMarkup_textSpan (jump : Nat) (cs : List Char) :
    (textSpan jump cs).2 = [] ∨ startsMarkup (textSpan jump cs).2 = true := by
  induction cs generalizing jump with
  | nil => exact .inl rfl
  | cons c rest ih =>
      simp only [textSpan]
      split
      · next hstop =>
          rw [Bool.and_eq_true] at hstop
          exact .inr hstop.2
      · exact ih _

/-- Some tokens, none of them a text. -/
def Textless (tokens : List Token) : Prop := tokens ≠ [] ∧ ∀ t ∈ tokens, t.lexeme.isText = false

/-- A closing tag gives no text. -/
theorem scanClosing_textless (offset : Nat) (cs : List Char) :
    Textless (scanClosing offset cs).tokens := by
  unfold scanClosing
  dsimp only
  split <;> exact ⟨by simp, by simp [Lexeme.isText]⟩

/-- A raw body gives no text. -/
theorem scanRaw_textless (name : String) (offset : Nat) (cs : List Char) :
    Textless (scanRaw name offset cs).tokens := by
  unfold scanRaw
  dsimp only
  split
  · exact ⟨by simp, by simp [Lexeme.isText]⟩
  · exact ⟨by simp, List.forall_mem_cons.mpr ⟨rfl, (scanClosing_textless _ _).2⟩⟩

/-- An opening tag gives no text. -/
theorem scanOpening_textless (offset : Nat) (cs : List Char) :
    Textless (scanOpening offset cs).tokens := by
  unfold scanOpening
  dsimp only
  split
  · exact ⟨by simp, List.forall_mem_cons.mpr ⟨rfl, (scanRaw_textless _ _ _).2⟩⟩
  · exact ⟨by simp, by simp [Lexeme.isText]⟩

/-- A comment gives no text. -/
theorem scanComment_textless (offset : Nat) (cs : List Char) :
    Textless (scanComment offset cs).tokens := by
  unfold scanComment
  dsimp only
  split <;> exact ⟨by simp, by simp [Lexeme.isText]⟩

/-- **One step**: without declarations, what stands next is a text up to the next markup, or markup. -/
theorem scanNext_cases (offset : Nat) {c : Char} {cs : List Char} (h : NoDeclarations (c :: cs)) :
    (startsMarkup (c :: cs) = false ∧ ∃ taken after, c :: cs = taken ++ after ∧
        textSpan 0 (taken ++ after) = (taken, after) ∧
          scanNext offset c cs = scanText offset taken after) ∨
      startsMarkup (c :: cs) = true ∧ Textless (scanNext offset c cs).tokens := by
  cases hmarkup : startsMarkup (c :: cs) with
  | false =>
      have hspan : textSpan 0 (c :: cs) = (c :: (textSpan (braceJump (c :: cs)) cs).1,
          (textSpan (braceJump (c :: cs)) cs).2) := by
        simp [textSpan, hmarkup, nextJump]
      have hcut : c :: cs =
          c :: (textSpan (braceJump (c :: cs)) cs).1 ++ (textSpan (braceJump (c :: cs)) cs).2 := by
        rw [List.cons_append, textSpan_eq]
      exact .inl ⟨rfl, _, _, hcut, hcut ▸ hspan, scanNext_text offset hmarkup⟩
  | true =>
      refine .inr ⟨rfl, ?_⟩
      unfold scanNext
      dsimp only
      split
      · exact scanComment_textless _ _
      · next hcomment =>
          split
          · next hbang =>
              obtain ⟨rest, hrest⟩ := List.isPrefixOf_iff_prefix.mp hbang
              obtain ⟨more, rfl⟩ := h [] rest hrest.symm
              exact absurd (List.isPrefixOf_iff_prefix.mpr ⟨more, hrest⟩) hcomment
          · split
            · exact scanClosing_textless _ _
            · exact scanOpening_textless _ _

/-- The end of a text without declarations has none. -/
theorem NoDeclarations.of_append {before after : List Char} (h : NoDeclarations (before ++ after)) :
    NoDeclarations after :=
  fun front back heq => h (before ++ front) back (by rw [heq, List.append_assoc])

/-- Without declarations no two texts follow each other, so there is nothing to join. -/
theorem joinTexts_scanFrom {offset : Nat} {cs : List Char} (h : NoDeclarations cs) :
    joinTexts (scanFrom offset cs).1 = (scanFrom offset cs).1 ∧
      (startsMarkup cs = true → ∀ t ∈ (scanFrom offset cs).1.head?, t.lexeme.isText = false) := by
  fun_induction scanFrom offset cs with
  | case1 => exact ⟨rfl, by simp⟩
  | case2 offset c cs s tokens findings hrest ih =>
      obtain ⟨-, taken, htaken, -⟩ := scanNext_tags offset c cs
      rw [hrest] at ih
      obtain ⟨hjoin, hhead⟩ := ih (htaken ▸ h).of_append
      rcases scanNext_cases offset h with ⟨hplain, text, after, -, hspan, hscan⟩ | ⟨-, hne, htextless⟩
      · have hs : s = scanText offset text after := hscan
        have hstops : ∀ t ∈ tokens.head?, t.lexeme.isText = false := by
          have hafter := startsMarkup_textSpan 0 (text ++ after)
          rw [hspan] at hafter
          rcases hafter with rfl | hmarkup
          · have hnone : tokens = [] := by
              have hempty := congrArg Prod.fst hrest
              simpa [hs, scanText, scanFrom] using hempty.symm
            simp [hnone]
          · exact hhead (by rwa [hs])
        refine ⟨?_, fun hmarkup => ?_⟩
        · rw [hs]
          show joinTexts (tileToken offset text (.text (String.ofList text)) :: tokens) = _ :: tokens
          rw [joinTexts_text, hjoin, leadText_of_head hstops]
          rfl
        · simp [hplain] at hmarkup
      · refine ⟨?_, fun _ t ht => ?_⟩
        · rw [joinTexts_append htextless, hjoin]
        · rw [List.head?_append_of_ne_nil _ hne] at ht
          exact htextless t (List.mem_of_mem_head? ht)

/-- **Texts**: without declarations, the spans of every text stay what they are. -/
theorem spansStay_of_text {source : String} (h : NoDeclarations source.toList) {t : Token}
    (ht : t ∈ (scan source).1) {text : String} (htext : t.lexeme = .text text) :
    ∃ before after, source.toList = before ++ (text.toList ++ after) ∧ byteSize before = t.start ∧
      SpansStay after text.toList := by
  have hscanned : t ∈ (scanFrom 0 source.toList).1 := by
    rw [← (joinTexts_scanFrom h).1]
    exact ht
  obtain ⟨before, c, rest, hsource, hnext, -⟩ := mem_scanFrom hscanned
  rw [hsource] at h
  rcases scanNext_cases (0 + byteSize before) h.of_append with
    ⟨-, taken, after, hcut, hspan, hscan⟩ | ⟨-, -, htextless⟩
  · rw [hscan, scanText, List.mem_singleton] at hnext
    subst hnext
    obtain rfl := Lexeme.text.inj htext
    rw [String.toList_ofList]
    exact ⟨before, after, by rw [hsource, hcut], (Nat.zero_add _).symm, spansStay_of_textSpan hspan⟩
  · have hfalse := htextless t hnext
    simp [htext, Lexeme.isText] at hfalse

/-! ### Values between quotes -/

/-- The attribute was scanned somewhere in the text, and its problem is among the findings. -/
def ScannedIn (offset : Nat) (cs : List Char) (findings : List Finding) (a : AttributeToken) : Prop :=
  ∃ before rest scan, cs = before ++ rest ∧ scanAttribute rest = some scan ∧
    a = scan.token (offset + byteSize before) rest ∧
    ∀ problem ∈ scan.problem, ⟨problem, a.start, a.stop⟩ ∈ findings

/-- An attribute scanned in the end of a text is scanned in the text. -/
theorem ScannedIn.of_suffix {offset start : Nat} {cs rest : List Char} {findings more : List Finding}
    {a : AttributeToken} (h : ScannedIn start rest findings a) (before : List Char)
    (hcs : cs = before ++ rest) (hstart : start = offset + byteSize before)
    (hmore : findings ⊆ more) : ScannedIn offset cs more a := by
  obtain ⟨front, tail, scan, rfl, hscan, rfl, hfound⟩ := h
  refine ⟨before ++ front, tail, scan, by rw [hcs, List.append_assoc], hscan, ?_,
    fun problem hproblem => hmore (hfound problem hproblem)⟩
  rw [hstart, byteSize_append, Nat.add_assoc]

/-- Every attribute was scanned somewhere in its tag. -/
theorem scannedIn_scanAttributes {offset : Nat} {cs : List Char} {a : AttributeToken}
    (h : a ∈ (scanAttributes offset cs).attributes) :
    ScannedIn offset cs (scanAttributes offset cs).findings a := by
  fun_induction scanAttributes offset cs with
  | case1 | case2 | case3 => simp at h
  | case4 offset cs start c rest _ _ hrest hlen ha ih =>
      refine (ih h).of_suffix (cs.takeWhile isBlank ++ [c]) ?_ ?_ (List.Subset.refl _)
      · rw [List.append_assoc]
        exact eq_of_dropWhile hrest
      · simp only [start, byteSize_append, byteSize_cons, byteSize_nil, Nat.add_assoc, Nat.add_zero]
  | case5 offset cs start c rest _ _ hrest hlen scan hscan hlt token more found ih =>
      rcases List.mem_cons.mp h with rfl | hmore
      · refine ⟨cs.takeWhile isBlank, c :: rest, scan, eq_of_dropWhile hrest, hscan, rfl, ?_⟩
        exact fun problem hproblem => List.mem_append_left _
          (List.mem_map_of_mem (Option.mem_toList.mpr hproblem))
      · have hraw := List.suffix_iff_eq_append.mp (scanAttribute_suffix hscan)
        refine (ih hmore).of_suffix (cs.takeWhile isBlank ++
          (c :: rest).take ((c :: rest).length - scan.rest.length)) ?_ ?_
            (List.subset_append_right _ _)
        · rw [List.append_assoc, hraw]
          exact eq_of_dropWhile hrest
        · simp only [token, AttributeScan.token, start, byteSize_append, Nat.add_assoc]

/-- A token without an opening tag is none. -/
theorem not_opening_of_openTag? {t : Token} (h : t.lexeme.openTag? = none) {name : String}
    {attributes : List AttributeToken} {selfClosing : Bool} :
    t.lexeme ≠ .opening name attributes selfClosing := by
  intro hopening
  simp [hopening, Lexeme.openTag?] at h

/-- The attributes of an opening tag are scanned in it. -/
theorem scannedIn_scanOpening {offset : Nat} {cs : List Char} {t : Token}
    (ht : t ∈ (scanOpening offset ('<' :: cs)).tokens) {name : String}
    {attributes : List AttributeToken}
    {selfClosing : Bool} (hopening : t.lexeme = .opening name attributes selfClosing)
    {a : AttributeToken} (ha : a ∈ attributes) :
    ScannedIn offset ('<' :: cs) (scanOpening offset ('<' :: cs)).findings a := by
  have hcut : '<' :: cs = '<' :: cs.takeWhile isTagPart ++ cs.dropWhile isTagPart := by
    rw [List.cons_append, List.takeWhile_append_dropWhile]
  have hwidth : offset + 1 + byteSize (cs.takeWhile isTagPart) =
      offset + byteSize ('<' :: cs.takeWhile isTagPart) := by
    rw [byteSize_cons, ← Nat.add_assoc]
    rfl
  unfold scanOpening at ht ⊢
  simp only [List.drop_succ_cons, List.drop_zero] at ht ⊢
  split at ht
  · next hraw =>
      rw [if_pos hraw]
      rcases List.mem_cons.mp ht with rfl | hmore
      · obtain ⟨-, rfl, -⟩ := Lexeme.opening.inj hopening
        refine (scannedIn_scanAttributes ha).of_suffix _ hcut hwidth ?_
        exact List.subset_append_of_subset_left _ (List.subset_append_left _ _)
      · exact absurd hopening (not_opening_of_openTag? (openTag?_scanRaw _ _ _ t hmore))
  · next hraw =>
      rw [if_neg hraw]
      rw [List.mem_singleton] at ht
      subst ht
      obtain ⟨-, rfl, -⟩ := Lexeme.opening.inj hopening
      exact (scannedIn_scanAttributes ha).of_suffix _ hcut hwidth (List.subset_append_left _ _)

/-- Every attribute of every opening tag was scanned in the source. -/
theorem scannedIn_scan {source : String} {t : Token} (ht : t ∈ (scan source).1) {name : String}
    {attributes : List AttributeToken} {selfClosing : Bool}
    (hopening : t.lexeme = .opening name attributes selfClosing) {a : AttributeToken}
    (ha : a ∈ attributes) : ScannedIn 0 source.toList (scan source).2 a := by
  have hscanned := mem_of_mem_joinTexts ht (by simp [hopening, Lexeme.isText])
  obtain ⟨before, c, cs, hsource, hnext, hfound⟩ := mem_scanFrom hscanned
  suffices hhere : ScannedIn (0 + byteSize before) (c :: cs)
      (scanNext (0 + byteSize before) c cs).findings a from hhere.of_suffix _ hsource rfl hfound
  generalize 0 + byteSize before = offset at hnext ⊢
  have hother : t.lexeme.openTag? ≠ none := fun hnone => not_opening_of_openTag? hnone hopening
  unfold scanNext at hnext ⊢
  dsimp only at hnext ⊢
  split at hnext
  · unfold scanComment at hnext
    dsimp only at hnext
    split at hnext <;> simp_all [Lexeme.openTag?]
  · next hcomment =>
      rw [if_neg hcomment]
      split at hnext
      · unfold scanDeclaration at hnext
        split at hnext <;> simp_all [scanText, Lexeme.openTag?]
      · next hbang =>
          rw [if_neg hbang]
          split at hnext
          · next hmarkup =>
              rw [if_pos hmarkup]
              split at hnext
              · exact absurd (openTag?_scanClosing _ _ t hnext) hother
              · next hslash =>
                  rw [if_neg hslash]
                  obtain rfl : c = '<' := by
                    by_contra hc
                    simp [startsMarkup_of_ne hc] at hmarkup
                  exact scannedIn_scanOpening hnext hopening ha
          · simp_all [scanText, Lexeme.openTag?]

/-- The quote around the values of a kind. -/
def Quote.mark? : Quote → Option Char
  | .double => some '"'
  | .single => some '\''
  | _ => none

/-- A quoted value is written between two of its marks. -/
theorem Quote.chars_of_mark {quote : Quote} {mark : Char} (h : quote.mark? = some mark)
    (value : List Char) : quote.chars value = mark :: (value ++ [mark]) := by
  cases quote <;> simp only [Quote.mark?, Option.some.injEq, reduceCtorEq] at h <;> (subst h; rfl)

/-- A value with a quote around it was scanned between quotes. -/
theorem scanValue_of_mark {cs : List Char} {mark : Char}
    (hmark : (scanValue cs).quote.mark? = some mark) :
    ∃ rest, cs = mark :: rest ∧ scanValue cs = scanQuoted mark (scanValue cs).quote rest := by
  have hquoted : ∀ mark quote rest, (scanQuoted mark quote rest).quote = quote := by
    intro mark quote rest
    unfold scanQuoted
    split <;> rfl
  unfold scanValue at hmark ⊢
  split at hmark
  · next rest =>
      rw [hquoted] at hmark
      obtain rfl := Option.some.inj hmark
      exact ⟨rest, rfl, by simp [hquoted]⟩
  · next rest =>
      rw [hquoted] at hmark
      obtain rfl := Option.some.inj hmark
      exact ⟨rest, rfl, by simp [hquoted]⟩
  · split at hmark <;> cases hmark
  · cases hmark

/-- A value between quotes is read up to the closing one, or that one is found missing. -/
theorem quotedSpan_of_scanAttribute {cs : List Char} {scan : AttributeScan}
    (h : scanAttribute cs = some scan) {value : List Char} {quote : Quote}
    (hvalue : scan.value = some (value, quote)) {mark : Char} (hmark : quote.mark? = some mark) :
    scan.problem = some .unterminatedValue ∨
      ∃ front rest, cs = front ++ mark :: rest ∧ quotedSpan mark 0 rest = (value, some scan.rest) := by
  -- wherever the value stands, it was read as a value
  obtain ⟨front, tail, hcs, hscan⟩ : ∃ front tail, cs = front ++ tail ∧
      (value, quote, scan.problem, scan.rest) =
        ((scanValue tail).value, (scanValue tail).quote, (scanValue tail).problem,
          (scanValue tail).rest) := by
    cases scannedFrom_of_scanAttribute h with
    | value =>
        obtain ⟨rfl, rfl⟩ := Prod.mk.inj (Option.some.inj hvalue)
        exact ⟨[], cs, rfl, rfl⟩
    | @assigned name equals text _ _ _ hcs =>
        obtain ⟨rfl, rfl⟩ := Prod.mk.inj (Option.some.inj hvalue)
        exact ⟨name ++ equals, text, by rw [hcs, List.append_assoc], rfl⟩
    | named => cases hvalue
  simp only [Prod.mk.injEq] at hscan
  obtain ⟨rfl, rfl, hproblem, hrest⟩ := hscan
  obtain ⟨rest, rfl, heq⟩ := scanValue_of_mark hmark
  rw [heq] at hproblem hrest ⊢
  unfold scanQuoted at hproblem hrest ⊢
  cases hspan : quotedSpan mark 0 rest with
  | mk inner tail =>
      cases tail with
      | none => exact .inl (by simp [hproblem, hspan])
      | some tail => exact .inr ⟨front, rest, hcs, by simp [hrest, hspan]⟩

/-- **Values**: the spans of every value between two quotes stay what they are. -/
theorem spansStay_of_value {source : String} {a : AttributeToken}
    (ha : ScannedIn 0 source.toList (scan source).2 a) {value : String} {quote : Quote}
    (hvalue : a.value = some (value, quote)) {mark : Char} (hmark : quote.mark? = some mark)
    (hends : ⟨.unterminatedValue, a.start, a.stop⟩ ∉ (scan source).2) :
    ∃ before front after, source.toList = before ++ (value.toList ++ after) ∧
      a.raw.toList = front ++ (quote.around value).toList ∧
      byteSize before = a.start + byteSize front + 1 ∧ SpansStay after value.toList := by
  obtain ⟨before, rest, scanned, hsource, hscan, rfl, hfound⟩ := ha
  obtain ⟨⟨chars, quote'⟩, hchars, hpair⟩ := Option.map_eq_some_iff.mp hvalue
  obtain ⟨rfl, rfl⟩ := Prod.mk.inj hpair
  rcases quotedSpan_of_scanAttribute hscan hchars hmark with hproblem | ⟨front, more, rfl, hspan⟩
  · exact absurd (hfound _ hproblem) hends
  · have hmore := quotedSpan_append mark 0 more
    simp only [hspan, Option.map_some, Option.getD_some] at hmore
    subst hmore
    have hone : mark.utf8Size = 1 := by
      cases quote' <;> simp only [Quote.mark?, Option.some.injEq, reduceCtorEq] at hmark <;>
        (subst hmark; decide)
    refine ⟨before ++ (front ++ [mark]), front, mark :: scanned.rest, by simp [hsource], ?_, ?_, ?_⟩
    · rw [toList_around, Quote.chars_of_mark hmark]
      have htaken : (front ++ mark :: (chars ++ mark :: scanned.rest)).take
          ((front ++ mark :: (chars ++ mark :: scanned.rest)).length - scanned.rest.length) =
          front ++ mark :: (chars ++ [mark]) := by
        rw [show front ++ mark :: (chars ++ mark :: scanned.rest) =
          front ++ mark :: (chars ++ [mark]) ++ scanned.rest by simp, List.length_append,
          Nat.add_sub_cancel, List.take_left]
      simp only [AttributeScan.token, htaken, String.toList_ofList]
    · simp only [AttributeScan.token, byteSize_append, byteSize_cons, byteSize_nil, hone]
      omega
    · rw [String.toList_ofList]
      exact spansStay_of_quotedSpan hspan

/-- **Spans are seen alike.**  Without declarations, at every brace that is looked at when a text is
divided the closing brace is the one seen in the whole source, and it stands in the text.  The same
holds for every value between quotes that is not found to be unterminated. -/
theorem scan_agrees (source : String) (h : NoDeclarations source.toList) :
    (∀ t ∈ (scan source).1, ∀ text, t.lexeme = .text text →
      ∀ offset, Examines text.toList offset → AgreesAt source t.start text offset) ∧
    ∀ t ∈ (scan source).1, ∀ name attributes selfClosing,
      t.lexeme = .opening name attributes selfClosing →
      ∀ a ∈ attributes, ∀ value quote, a.value = some (value, quote) →
        quote = .double ∨ quote = .single →
        ⟨.unterminatedValue, a.start, a.stop⟩ ∉ (scan source).2 →
        ∃ front, a.raw.toList = front ++ (quote.around value).toList ∧
          ∀ offset, Examines value.toList offset →
            AgreesAt source (a.start + byteSize front + 1) value offset := by
  refine ⟨?_, ?_⟩
  · intro t ht text htext offset hlooks
    obtain ⟨before, after, hsource, hstart, hstay⟩ := spansStay_of_text h ht htext
    exact hstart ▸ hstay.agrees hsource hlooks
  · intro t ht name attributes selfClosing hopening a ha value quote hvalue hquote hends
    obtain ⟨mark, hmark⟩ : ∃ mark, quote.mark? = some mark := by
      rcases hquote with rfl | rfl <;> exact ⟨_, rfl⟩
    obtain ⟨before, front, after, hsource, hraw, hstart, hstay⟩ :=
      spansStay_of_value (scannedIn_scan ht hopening ha) hvalue hmark hends
    exact ⟨front, hraw, fun offset hlooks => hstart ▸ hstay.agrees hsource hlooks⟩

/-- A text with a tag in a span and a brace that is never closed, and a value with its own quote in a
span. -/
def unclosedSample : String := "\x7b'<i>'\x7d \x7b<p title=\"\x7b'\"'\x7d\">\"\x7d</p>"

theorem scan_agrees_unclosed : NoDeclarations unclosedSample.toList ∧
    AgreesAt unclosedSample 0 "\x7b'<i>'\x7d \x7b" 8 ∧
      AgreesAt unclosedSample 19 "\x7b'\"'\x7d" 0 := by
  have hplain : NoDeclarations unclosedSample.toList := by decide +kernel
  obtain ⟨htexts, hvalues⟩ := scan_agrees unclosedSample hplain
  refine ⟨hplain, ?_, ?_⟩
  · have hlast : Examines "\x7b'<i>'\x7d \x7b".toList 8 :=
      .next (b := ⟨[], "'<i>'".toList, [' ', '\x7b']⟩) rfl (.first (by decide +kernel))
    exact htexts ⟨.text "\x7b'<i>'\x7d \x7b", 0, 9⟩ (by decide +kernel) _ rfl 8 hlast
  · obtain ⟨front, hraw, hagrees⟩ := hvalues
      ⟨.opening "p" [⟨"title", some ("\x7b'\"'\x7d", .double), "title=\"\x7b'\"'\x7d\"", 12, 25⟩]
        false, 9, 26⟩
      (by decide +kernel) _ _ _ rfl _ (List.mem_singleton_self _) _ _ rfl (.inl rfl)
        (by decide +kernel)
    have hcut : "title=".toList ++ (Quote.double.around "\x7b'\"'\x7d").toList =
        front ++ (Quote.double.around "\x7b'\"'\x7d").toList := by
      rw [← hraw]
      decide +kernel
    obtain rfl := (List.append_cancel_right hcut).symm
    exact hagrees 0 (.first (by decide +kernel))

end Stencil.Markup
