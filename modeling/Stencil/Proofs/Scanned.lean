import Stencil.Proofs.Legible

/-!
# What scanning finds

Without a finding, every token of a template is one that could have been written: names end where
they should, values in braces are closed, comments do not hold their own end, and only the last
attribute of a tag may have a value of no characters (`scan_scanned`).
-/

namespace Stencil.Markup

open Stencil.Text

/-- The inner characters of braces are matched whatever followed them. -/
theorem closing_inner {depth : Nat} {inside : Inside} {cs inner rest : List Char}
    (h : closing depth inside cs = some (inner, rest)) :
    closing depth inside (inner ++ ['\x7d']) = some (inner, []) := by
  induction cs generalizing depth inside inner rest with
  | nil => simp [closing] at h
  | cons c tail ih =>
      have step : ∀ d i, (closing d i tail).map (fun p => (c :: p.1, p.2)) = some (inner, rest) →
          ∃ more, inner = c :: more ∧ closing d i (more ++ ['\x7d']) = some (more, []) := by
        intro d i hm
        obtain ⟨⟨more, after⟩, hmore, heq⟩ := Option.map_eq_some_iff.mp hm
        simp only [Prod.mk.injEq] at heq
        obtain ⟨rfl, rfl⟩ := heq
        exact ⟨more, rfl, ih hmore⟩
      simp only [closing] at h
      split at h
      · obtain ⟨more, rfl, hmore⟩ := step _ _ h
        simp [closing, hmore]
      · obtain ⟨more, rfl, hmore⟩ := step _ _ h
        simp [closing, hmore]
      · split at h
        · next hc =>
            split at h
            · obtain ⟨rfl, -⟩ := Prod.mk.inj (Option.some.inj h)
              simp [closing]
            · obtain ⟨more, rfl, hmore⟩ := step _ _ h
              simp [closing, hc, hmore]
        · next hc =>
            split at h
            · next hopen =>
                obtain ⟨more, rfl, hmore⟩ := step _ _ h
                simp [closing, hc, hopen, hmore]
            · next hopen =>
                split at h
                · next hquote =>
                    obtain ⟨more, rfl, hmore⟩ := step _ _ h
                    simp [closing, hc, hopen, hquote, hmore]
                · next hquote =>
                    obtain ⟨more, rfl, hmore⟩ := step _ _ h
                    simp [closing, hc, hopen, hquote, hmore]

/-- What may stand behind a value without quotes: nothing, a blank or the end of the tag. -/
def EndsValue (rest : List Char) : Prop :=
  ∀ c ∈ rest.head?, isBlank c = true ∨ c = '>' ∨ (c = '/' ∧ rest.tail.head? = some '>')

/-- An unquoted value has neither blanks nor the end of the tag in it, and one of them follows. -/
theorem unquotedSpan_yields (cs : List Char) :
    (∀ c ∈ (unquotedSpan cs).1, isBlank c = false ∧ c ≠ '>') ∧ EndsValue (unquotedSpan cs).2 := by
  induction cs with
  | nil => simp [unquotedSpan, EndsValue]
  | cons c tail ih =>
      simp only [unquotedSpan]
      split
      · next hend =>
          refine ⟨by simp, ?_⟩
          simpa [EndsValue, or_assoc] using hend
      · next hend =>
          simp only [Bool.or_eq_true, not_or, Bool.not_eq_true, beq_iff_eq] at hend
          exact ⟨List.forall_mem_cons.mpr ⟨hend.1, ih.1⟩, ih.2⟩

/-- An unquoted value and what is behind it are the characters given. -/
theorem unquotedSpan_append (cs : List Char) : (unquotedSpan cs).1 ++ (unquotedSpan cs).2 = cs := by
  induction cs with
  | nil => rfl
  | cons c tail ih =>
      simp only [unquotedSpan]
      split
      · rfl
      · exact congrArg (c :: ·) ih

/-- The name and the value of an attribute as they were scanned. -/
def AttributeToken.written (a : AttributeToken) : String × Option (String × Quote) :=
  (a.name, a.value)

/-- A value without a problem.  If it has no characters, nothing was taken. -/
theorem scanValue_yields {cs : List Char} (h : (scanValue cs).problem = none) :
    (scanValue cs).quote.Yields (scanValue cs).value ∧
      ((scanValue cs).quote = .unquoted → (scanValue cs).value = [] →
        (scanValue cs).rest = cs ∧ EndsValue cs) := by
  unfold scanValue at h ⊢
  split
  · unfold scanQuoted
    split <;> exact ⟨trivial, by simp⟩
  · unfold scanQuoted
    split <;> exact ⟨trivial, by simp⟩
  · split
    · next inner tail hclosing => exact ⟨closing_inner hclosing, by simp⟩
    · next hnone => simp [hnone] at h
  · next hdouble hsingle hbrace =>
      obtain ⟨hchars, hends⟩ := unquotedSpan_yields cs
      have happend := unquotedSpan_append cs
      generalize unquotedSpan cs = span at hchars hends happend ⊢
      obtain ⟨value, rest⟩ := span
      refine ⟨⟨hchars, ?_⟩, ?_⟩
      · intro c hc
        obtain ⟨more, hvalue⟩ : ∃ more, cs = c :: more := by
          obtain ⟨tail, rfl⟩ := List.head?_eq_some_iff.mp hc
          exact ⟨tail ++ rest, happend.symm⟩
        refine ⟨?_, ?_, ?_⟩
        · rintro rfl
          exact hdouble more hvalue
        · rintro rfl
          exact hsingle more hvalue
        · rintro rfl
          exact hbrace more hvalue
      · rintro - hnil
        simp only at hnil happend hends
        rw [hnil, List.nil_append] at happend
        exact ⟨happend, happend ▸ hends⟩

/-- The tag ends here, or else the text does. -/
def EndsTag (rest : List Char) : Prop :=
  rest = [] ∨ (∃ more, rest = '>' :: more) ∨ ∃ more, rest = '/' :: '>' :: more

/-- A value that ends in front of no blank ends the tag. -/
theorem endsTag_of_endsValue {rest : List Char} (h : EndsValue rest)
    (hblank : ∀ c ∈ rest.head?, isBlank c = false) : EndsTag rest := by
  cases rest with
  | nil => exact .inl rfl
  | cons c tail =>
      rcases h c rfl with hc | rfl | ⟨rfl, htail⟩
      · simp [hblank c rfl] at hc
      · exact .inr (.inl ⟨tail, rfl⟩)
      · obtain ⟨more, rfl⟩ := List.head?_eq_some_iff.mp htail
        exact .inr (.inr ⟨more, rfl⟩)

/-- At the end of a tag no attributes are scanned. -/
theorem EndsTag.scanAttributes_eq {rest : List Char} (h : EndsTag rest) (offset : Nat) :
    (scanAttributes offset rest).attributes = [] := by
  rcases h with rfl | ⟨more, rfl⟩ | ⟨more, rfl⟩ <;> (rw [scanAttributes.eq_def]; rfl)

/-- The token of an attribute without a problem.  If its value has no characters, the tag ends. -/
theorem scanAttribute_scanned {cs : List Char} {a : AttributeScan} (h : scanAttribute cs = some a)
    (hproblem : a.problem = none) :
    ScannedAttribute (String.ofList a.name) (a.value.map fun (value, quote) =>
      (String.ofList value, quote)) ∧ (a.value = some ([], .unquoted) → EndsTag a.rest) := by
  cases scannedFrom_of_scanAttribute h with
  | value hbrace =>
      have hquote : (scanValue cs).quote = .brace := by
        obtain ⟨tail, rfl⟩ := List.head?_eq_some_iff.mp hbrace
        simp only [scanValue]
        split <;> rfl
      refine ⟨⟨by simp, by simp, fun _ => ⟨_, by rw [hquote]; rfl⟩, ?_⟩, by simp [hquote]⟩
      intro text quote hvalue
      obtain ⟨rfl, rfl⟩ := Prod.mk.inj (Option.some.inj hvalue)
      simpa using (scanValue_yields hproblem).1
  | @assigned name _ text hne hpart hstart _ htext =>
      obtain ⟨hyields, hempty⟩ := scanValue_yields hproblem
      refine ⟨⟨by simpa using hpart, by simpa using hstart, fun hnil => ?_, ?_⟩, fun hvalue => ?_⟩
      · exact absurd (String.ofList_eq_empty_iff.mp hnil) hne
      · intro text quote hvalue
        obtain ⟨rfl, rfl⟩ := Prod.mk.inj (Option.some.inj hvalue)
        simpa using hyields
      · obtain ⟨hnil, hunquoted⟩ := Prod.mk.inj (Option.some.inj hvalue)
        obtain ⟨hrest, hends⟩ := hempty hunquoted hnil
        simp only [hrest]
        exact endsTag_of_endsValue hends htext
  | named hne hpart hstart =>
      refine ⟨⟨by simpa using hpart, by simpa using hstart, fun hnil => ?_, by simp⟩, by simp⟩
      exact absurd (String.ofList_eq_empty_iff.mp hnil) hne

/-- The attributes of a tag without a problem. -/
theorem scanAttributes_scanned {offset : Nat} {cs : List Char}
    (h : (scanAttributes offset cs).findings = []) :
    ScannedAttributes ((scanAttributes offset cs).attributes.map AttributeToken.written) := by
  fun_induction scanAttributes offset cs with
  | case1 => trivial
  | case2 => trivial
  | case3 => trivial
  | case4 offset cs start c rest _ _ hcs hlen ha ih => exact ih h
  | case5 offset cs start c rest _ _ hcs hlen a ha hlt token more found ih =>
      obtain ⟨hfound, hmore⟩ := List.append_eq_nil_iff.mp h
      have hproblem : a.problem = none := by simpa [found] using hfound
      obtain ⟨hscanned, hends⟩ := scanAttribute_scanned ha hproblem
      refine ⟨hscanned, ?_, ih hmore⟩
      intro hvalue
      have hempty : a.value = some ([], .unquoted) := by
        obtain ⟨⟨value, quote⟩, hsome, heq⟩ := Option.map_eq_some_iff.mp hvalue
        simp only [Prod.mk.injEq, String.ofList_eq_empty_iff] at heq
        rw [hsome, heq.1, heq.2]
      have hnone := (hends hempty).scanAttributes_eq token.stop
      simp only [more, hnone, List.map_nil]

/-- A token that could have been written. -/
def Lexeme.Scanned : Lexeme → Prop
  | .text content => content ≠ ""
  | .comment content => ¬ "-->".toList <:+: content.toList
  | .opening name attributes _ =>
      ScannedName name ∧ ScannedAttributes (attributes.map AttributeToken.written)
  | .closing _ | .raw _ => True

/-- A needle is not there before its first place. -/
theorem not_infix_before {needle text before after : List Char} (hne : needle ≠ [])
    (h : breakOn needle text = some (before, after)) : ¬ needle <:+: before := by
  induction text generalizing before with
  | nil => simp [breakOn, hne] at h
  | cons c rest ih =>
      have hcut := breakOn_eq h
      simp only [breakOn] at h
      split at h
      · obtain ⟨rfl, -⟩ := Prod.mk.inj (Option.some.inj h)
        simpa using hne
      · next hfirst =>
          obtain ⟨⟨more, tail⟩, hmore, heq⟩ := Option.map_eq_some_iff.mp h
          obtain ⟨rfl, rfl⟩ := Prod.mk.inj heq
          intro hin
          rcases List.infix_cons_iff.mp hin with hprefix | hlater
          · apply hfirst
            rw [List.isPrefixOf_iff_prefix, hcut, List.append_assoc]
            exact hprefix.trans (List.prefix_append _ _)
          · exact ih hmore hlater

/-- A comment without findings gives scanned tokens. -/
theorem scanComment_scanned {offset : Nat} {cs : List Char}
    (h : (scanComment offset cs).findings = []) :
    ∀ t ∈ (scanComment offset cs).tokens, t.lexeme.Scanned := by
  unfold scanComment at h ⊢
  dsimp only at h ⊢
  split at h
  · next content rest hbreak =>
      have hfree := not_infix_before (by decide) hbreak
      refine List.forall_mem_singleton.mpr ?_
      simpa [Lexeme.Scanned] using hfree
  · simp at h

/-- A declaration gives scanned tokens. -/
theorem scanDeclaration_scanned (offset : Nat) (c : Char) (cs : List Char) :
    ∀ t ∈ (scanDeclaration offset (c :: cs)).tokens, t.lexeme.Scanned := by
  unfold scanDeclaration
  split <;> simp [scanText, Lexeme.Scanned]

/-- A closing tag gives scanned tokens. -/
theorem scanClosing_scanned (offset : Nat) (cs : List Char) :
    ∀ t ∈ (scanClosing offset cs).tokens, t.lexeme.Scanned := by
  unfold scanClosing
  dsimp only
  split <;> simp [Lexeme.Scanned]

/-- A raw body gives scanned tokens. -/
theorem scanRaw_scanned (name : String) (offset : Nat) (cs : List Char) :
    ∀ t ∈ (scanRaw name offset cs).tokens, t.lexeme.Scanned := by
  unfold scanRaw
  dsimp only
  split
  · simp [Lexeme.Scanned]
  · exact List.forall_mem_cons.mpr ⟨trivial, scanClosing_scanned _ _⟩

/-- An opening tag without findings gives scanned tokens. -/
theorem scanOpening_scanned {offset : Nat} {c : Char} {cs : List Char} (hc : isTagStart c = true)
    (h : (scanOpening offset ('<' :: c :: cs)).findings = []) :
    ∀ t ∈ (scanOpening offset ('<' :: c :: cs)).tokens, t.lexeme.Scanned := by
  have hname : ScannedName (String.ofList ((c :: cs).takeWhile isTagPart)) := by
    refine ⟨c, cs.takeWhile isTagPart, ?_, hc, fun x hx =>
      List.all_eq_true.mp List.all_takeWhile x hx⟩
    rw [String.toList_ofList, List.takeWhile_cons_of_pos (isTagPart_of_isTagStart hc)]
  unfold scanOpening at h ⊢
  simp only [List.drop_succ_cons, List.drop_zero] at h ⊢
  generalize (c :: cs).takeWhile isTagPart = name at *
  generalize (c :: cs).dropWhile isTagPart = after at *
  have hattributes : (scanAttributes (offset + 1 + byteSize name) after).findings = [] →
      Lexeme.Scanned (.opening (String.ofList name)
        (scanAttributes (offset + 1 + byteSize name) after).attributes
        (scanAttributes (offset + 1 + byteSize name) after).selfClosing) := fun hfindings =>
    ⟨hname, scanAttributes_scanned hfindings⟩
  split at h
  · next hraw =>
      rw [if_pos hraw]
      have hfindings := (List.append_eq_nil_iff.mp (List.append_eq_nil_iff.mp h).1).1
      exact List.forall_mem_cons.mpr ⟨hattributes hfindings, scanRaw_scanned _ _ _⟩
  · next hraw =>
      rw [if_neg hraw]
      have hfindings := (List.append_eq_nil_iff.mp h).1
      exact List.forall_mem_singleton.mpr (hattributes hfindings)

/-- A step of the scanner without findings gives scanned tokens. -/
theorem scanNext_scanned {offset : Nat} {c : Char} {cs : List Char}
    (h : (scanNext offset c cs).findings = []) :
    ∀ t ∈ (scanNext offset c cs).tokens, t.lexeme.Scanned := by
  unfold scanNext at h ⊢
  dsimp only at h ⊢
  split at h
  · next hcomment =>
      rw [if_pos hcomment]
      exact scanComment_scanned h
  · next hcomment =>
      rw [if_neg hcomment]
      split at h
      · next hdeclaration =>
          rw [if_pos hdeclaration]
          exact scanDeclaration_scanned offset c cs
      · next hdeclaration =>
          rw [if_neg hdeclaration]
          split at h
          · next hmarkup =>
              rw [if_pos hmarkup]
              rcases startsMarkup_cases hmarkup with ⟨d, rest, heq, hd⟩ | ⟨d, rest, heq, hne, hd⟩
              · obtain ⟨rfl, rfl⟩ := List.cons.inj heq
                exact scanClosing_scanned offset _
              · obtain ⟨rfl, rfl⟩ := List.cons.inj heq
                have hslash : ((d :: rest).head? == some '/') = false := by simpa using hne
                rw [hslash] at h ⊢
                rcases hd with rfl | hd
                · exact absurd rfl hdeclaration
                · exact scanOpening_scanned hd h
          · next hmarkup =>
              rw [if_neg hmarkup]
              simp [scanText, Lexeme.Scanned]

/-- A scan without findings gives scanned tokens. -/
theorem scanFrom_scanned {offset : Nat} {cs : List Char} (h : (scanFrom offset cs).2 = []) :
    ∀ t ∈ (scanFrom offset cs).1, t.lexeme.Scanned := by
  fun_induction scanFrom offset cs with
  | case1 => simp
  | case2 offset c cs s tokens findings hscan ih =>
      obtain ⟨hfirst, hmore⟩ := List.append_eq_nil_iff.mp h
      rw [hscan] at ih
      intro t ht
      rcases List.mem_append.mp ht with ht | ht
      · exact scanNext_scanned hfirst t ht
      · exact ih hmore t ht

/-- Scanned tokens stay so when texts are joined. -/
theorem joinTexts_scanned {tokens : List Token} (h : ∀ t ∈ tokens, t.lexeme.Scanned) :
    ∀ t ∈ joinTexts tokens, t.lexeme.Scanned := by
  induction tokens with
  | nil => simp [joinTexts]
  | cons t rest ih =>
      obtain ⟨ht, hrest⟩ := List.forall_mem_cons.mp h
      have hjoined := ih hrest
      simp only [joinTexts]
      split
      · next a b start stop more hlexeme hjoin =>
          rw [hjoin] at hjoined
          rw [hlexeme] at ht
          refine List.forall_mem_cons.mpr ⟨?_, fun u hu => hjoined u (List.mem_cons_of_mem _ hu)⟩
          intro hnil
          exact ht (String.append_eq_empty_iff.mp hnil).1
      · exact List.forall_mem_cons.mpr ⟨ht, hjoined⟩

/-- **What scanning finds** in a template without a finding could have been written. -/
theorem scan_scanned {source : String} (h : (scan source).2 = []) :
    ∀ t ∈ (scan source).1, t.lexeme.Scanned :=
  joinTexts_scanned (scanFrom_scanned h)

end Stencil.Markup
