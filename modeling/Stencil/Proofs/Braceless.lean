import Stencil.Proofs.Origin
import Stencil.Proofs.Scanned
import Stencil.Proofs.Tiling

/-!
# Sources without opening braces

An attribute is written with the characters of its value, and with a brace if it stands in braces
(`AttributeToken.Faithful`).  So if there is no opening brace in a source, then there is none in the
texts and the values that are read from it, and no value stands in braces (`parse_braceless`).
-/

namespace Stencil.Markup

open Stencil.Text

/-- A value up to its closing quote is the first part of what it was taken from. -/
theorem quotedSpan_append (quote : Char) (jump : Nat) (cs : List Char) :
    (quotedSpan quote jump cs).1 ++ ((quotedSpan quote jump cs).2.map (quote :: ·)).getD [] = cs := by
  induction cs generalizing jump with
  | nil => rfl
  | cons c tail ih =>
      simp only [quotedSpan]
      split
      · next hend =>
          rw [Bool.and_eq_true, beq_iff_eq] at hend
          rw [hend.2]
          rfl
      · exact congrArg (c :: ·) (ih _)

/-- What is written holds the characters of a value, and a brace if the value stands in braces. -/
def Spells (written value : List Char) (quote : Quote) : Prop :=
  value ⊆ written ∧ (quote = .brace → '\x7b' ∈ written)

/-- What spells a value spells it with more characters around. -/
theorem Spells.mono {written more value : List Char} {quote : Quote} (h : Spells written value quote)
    (hmore : written ⊆ more) : Spells more value quote :=
  ⟨List.Subset.trans h.1 hmore, fun hquote => hmore (h.2 hquote)⟩

/-- A quoted value is spelled by the characters that are used for it. -/
theorem scanQuoted_spells (mark : Char) (quote : Quote) (hquote : quote ≠ .brace) (cs : List Char) :
    ∃ used, cs = used ++ (scanQuoted mark quote cs).rest ∧
      Spells used (scanQuoted mark quote cs).value (scanQuoted mark quote cs).quote := by
  have happend := quotedSpan_append mark 0 cs
  unfold scanQuoted
  split
  · next value rest heq =>
      rw [heq] at happend
      exact ⟨value ++ [mark], by simpa using happend.symm, by simp, fun h => absurd h hquote⟩
  · next value heq =>
      rw [heq] at happend
      exact ⟨value, by simpa using happend.symm, List.Subset.refl _, fun h => absurd h hquote⟩

/-- A value is spelled by the characters that are used for it. -/
theorem scanValue_spells (cs : List Char) :
    ∃ used, cs = used ++ (scanValue cs).rest ∧
      Spells used (scanValue cs).value (scanValue cs).quote := by
  unfold scanValue
  split
  · next rest =>
      obtain ⟨used, hrest, hspells⟩ := scanQuoted_spells '"' .double (by simp) rest
      exact ⟨'"' :: used, congrArg ('"' :: ·) hrest, hspells.mono (List.subset_cons_self _ _)⟩
  · next rest =>
      obtain ⟨used, hrest, hspells⟩ := scanQuoted_spells '\'' .single (by simp) rest
      exact ⟨'\'' :: used, congrArg ('\'' :: ·) hrest, hspells.mono (List.subset_cons_self _ _)⟩
  · next rest =>
      split
      · next inner tail h =>
          exact ⟨'\x7b' :: (inner ++ ['\x7d']), by simp [closing_eq h], by simp, by simp⟩
      · exact ⟨'\x7b' :: rest, by simp, by simp, by simp⟩
  · exact ⟨(unquotedSpan cs).1, (unquotedSpan_append cs).symm, List.Subset.refl _, by simp⟩

/-- What an attribute takes holds the characters of its value. -/
theorem scanAttribute_spells {cs : List Char} {a : AttributeScan} (h : scanAttribute cs = some a) :
    ∃ used, cs = used ++ a.rest ∧
      ∀ value quote, a.value = some (value, quote) → Spells used value quote := by
  cases scannedFrom_of_scanAttribute h with
  | value =>
      obtain ⟨used, hrest, hspells⟩ := scanValue_spells cs
      refine ⟨used, hrest, fun value quote hvalue => ?_⟩
      obtain ⟨rfl, rfl⟩ := Prod.mk.inj (Option.some.inj hvalue)
      exact hspells
  | @assigned name equals text _ _ _ hcs =>
      obtain ⟨used, hrest, hspells⟩ := scanValue_spells text
      refine ⟨name ++ (equals ++ used), ?_, fun value quote hvalue => ?_⟩
      · rw [hcs, List.append_assoc, List.append_assoc, ← hrest]
      · obtain ⟨rfl, rfl⟩ := Prod.mk.inj (Option.some.inj hvalue)
        exact hspells.mono fun c hc => by simp [hc]
  | named _ _ _ hcs => exact ⟨_, hcs, by simp⟩

/-- The attribute is written with the characters of its value. -/
def AttributeToken.Faithful (a : AttributeToken) : Prop :=
  ∀ text quote, a.value = some (text, quote) → Spells a.raw.toList text.toList quote

/-- The token of an attribute is faithful to the text. -/
theorem AttributeScan.faithful_token {cs : List Char} {a : AttributeScan}
    (h : scanAttribute cs = some a) (start : Nat) : (a.token start cs).Faithful := by
  obtain ⟨used, hrest, hspells⟩ := scanAttribute_spells h
  have hraw : cs.take (cs.length - a.rest.length) = used := by
    have hlength : cs.length - a.rest.length = used.length := by
      have := congrArg List.length hrest
      rw [List.length_append] at this
      omega
    rw [hlength, hrest]
    simp
  intro text quote hvalue
  obtain ⟨⟨value, quote'⟩, hsome, heq⟩ := Option.map_eq_some_iff.mp hvalue
  obtain ⟨rfl, rfl⟩ := Prod.mk.inj heq
  simpa [AttributeScan.token, hraw] using hspells value quote' hsome

/-- Every attribute of a tag is faithful to the text. -/
theorem scanAttributes_faithful (offset : Nat) (cs : List Char) :
    ∀ a ∈ (scanAttributes offset cs).attributes, a.Faithful := by
  fun_induction scanAttributes offset cs with
  | case1 | case2 | case3 => simp
  | case4 offset cs start c rest _ _ hcs hlen ha ih => exact ih
  | case5 offset cs start c rest _ _ hcs hlen a ha hlt token more found ih =>
      exact List.forall_mem_cons.mpr ⟨AttributeScan.faithful_token ha start, ih⟩

/-- The attributes of the token, if there are any, are written with the characters of their values. -/
def Lexeme.Faithful : Lexeme → Prop
  | .opening _ attributes _ => ∀ a ∈ attributes, a.Faithful
  | _ => True

/-- The tokens of a closing tag are faithful. -/
theorem scanClosing_faithful (offset : Nat) (cs : List Char) :
    ∀ t ∈ (scanClosing offset cs).tokens, t.lexeme.Faithful := by
  unfold scanClosing
  dsimp only
  split <;> exact List.forall_mem_singleton.mpr trivial

/-- The tokens of one step of the scanner are faithful. -/
theorem scanNext_faithful (offset : Nat) (c : Char) (cs : List Char) :
    ∀ t ∈ (scanNext offset c cs).tokens, t.lexeme.Faithful := by
  have htext : ∀ taken rest, ∀ t ∈ (scanText offset taken rest).tokens, t.lexeme.Faithful :=
    fun _ _ => List.forall_mem_singleton.mpr trivial
  unfold scanNext
  dsimp only
  split
  · unfold scanComment
    dsimp only
    split <;> exact List.forall_mem_singleton.mpr trivial
  · split
    · unfold scanDeclaration
      split <;> exact htext _ _
    · split
      · split
        · exact scanClosing_faithful _ _
        · unfold scanOpening
          dsimp only
          split
          · refine List.forall_mem_cons.mpr ⟨scanAttributes_faithful _ _, ?_⟩
            unfold scanRaw
            dsimp only
            split
            · exact List.forall_mem_singleton.mpr trivial
            · exact List.forall_mem_cons.mpr ⟨trivial, scanClosing_faithful _ _⟩
          · exact List.forall_mem_singleton.mpr (scanAttributes_faithful _ _)
      · exact htext _ _

/-- The tokens of a scan are faithful. -/
theorem scanFrom_faithful (offset : Nat) (cs : List Char) :
    ∀ t ∈ (scanFrom offset cs).1, t.lexeme.Faithful := by
  fun_induction scanFrom offset cs with
  | case1 => simp
  | case2 offset c cs s tokens findings hscan ih =>
      rw [hscan] at ih
      intro t ht
      rcases List.mem_append.mp ht with ht | ht
      · exact scanNext_faithful offset c cs t ht
      · exact ih t ht

/-- Faithful tokens stay so when texts are joined. -/
theorem joinTexts_faithful {tokens : List Token} (h : ∀ t ∈ tokens, t.lexeme.Faithful) :
    ∀ t ∈ joinTexts tokens, t.lexeme.Faithful := by
  induction tokens with
  | nil => simp [joinTexts]
  | cons t rest ih =>
      obtain ⟨ht, hrest⟩ := List.forall_mem_cons.mp h
      have hjoined := ih hrest
      simp only [joinTexts]
      split
      · next a b start stop more hlexeme hjoin =>
          rw [hjoin] at hjoined
          exact List.forall_mem_cons.mpr ⟨trivial, fun u hu => hjoined u (List.mem_cons_of_mem _ hu)⟩
      · exact List.forall_mem_cons.mpr ⟨ht, hjoined⟩

/-- The characters of a slice are those of the text. -/
theorem mem_of_slice? {start stop : Nat} {cs part : List Char} (h : slice? start stop cs = some part) :
    part ⊆ cs := by
  unfold slice? at h
  split at h
  · split at h
    · next before after hcut =>
        obtain ⟨⟨inner, tail⟩, hinner, rfl⟩ := Option.map_eq_some_iff.mp h
        rw [(cutAt?_eq hcut).1, (cutAt?_eq hinner).1]
        intro c hc
        simp [hc]
    · simp at h
  · simp at h

/-- Collapsing brings no character but the space. -/
theorem collapseFrom_subset (after : Bool) (cs : List Char) : collapseFrom after cs ⊆ ' ' :: cs := by
  induction cs generalizing after with
  | nil => simp [collapseFrom]
  | cons c rest ih =>
      have hmore : ∀ a, collapseFrom a rest ⊆ ' ' :: c :: rest := fun a d hd => by
        rcases List.mem_cons.mp (ih a hd) with rfl | hd
        · simp
        · simp [hd]
      simp only [collapseFrom]
      split
      · split
        · exact hmore true
        · exact List.cons_subset.mpr ⟨by simp, hmore true⟩
      · exact List.cons_subset.mpr ⟨by simp, hmore false⟩

/-- There is no opening brace in the text of the node or the values of its attributes, and none of
these stands in braces. -/
structure Node.Braceless (n : Node) : Prop where
  text : ∀ text, n.content = .text (.raw text) → '\x7b' ∉ text.toList
  values : ∀ e, n.element? = some e → ∀ a ∈ e.attributes, ∀ text quote,
    a.value = .text text quote → quote ≠ .brace ∧ '\x7b' ∉ text.toList

/-- **A source without opening braces** gives none to the document that is read from it. -/
theorem parse_braceless {s : Settings} {source : String} (h : '\x7b' ∉ source.toList) (i : Nat) :
    ((parse s source).1.node i).Braceless := by
  have hcontent := (trims_parse s source).content i
  constructor
  · intro text htext
    rw [hcontent] at htext
    obtain ⟨text', before, own, after, heq, htokens, hfrom⟩ :=
      (built_drawn s source).texts i _ htext
    have hcarried := hfrom.carried
    obtain rfl := TextContent.raw.inj heq
    have hwritten : '\x7b' ∉ (textOf own).toList := by
      simp only [textOf, String.toList_join, List.mem_flatMap, not_exists, not_and]
      intro piece hpiece hbrace
      obtain ⟨t, hown, hlexeme⟩ := List.mem_filterMap.mp hpiece
      have ht : t ∈ (scan source).1 := by simp [htokens, hown]
      obtain ⟨cs, hslice, hspelled⟩ := (scan_tiling source).spelled t ht
      cases htoken : t.lexeme with
      | text content =>
          obtain rfl : content = piece := by simpa [htoken, Lexeme.text?] using hlexeme
          simp only [Token.Spelled, htoken] at hspelled
          exact h (mem_of_slice? hslice (hspelled.1 ▸ hbrace))
      | comment | opening | closing | raw => simp [htoken, Lexeme.text?] at hlexeme
    by_cases hkept : s.keepBlanks = true ∨ (built s source).document.Sheltered i
    · rw [hcarried.verbatim hkept]
      exact hwritten
    · rw [hcarried.collapsed hkept, collapse, String.toList_ofList]
      intro hbrace
      rcases List.mem_cons.mp (collapseFrom_subset false _ hbrace) with hspace | hbrace
      · simp at hspace
      · exact hwritten hbrace
  · intro e he a ha text quote hvalue
    obtain ⟨t, ht, hopen, -⟩ := parse_element_drawn he
    obtain ⟨cs, -, hspelled⟩ := (scan_tiling source).spelled t ht
    have hfaithful := joinTexts_faithful (scanFrom_faithful 0 source.toList) t ht
    cases htoken : t.lexeme with
    | opening name attributes selfClosing =>
        rw [htoken, Lexeme.openTag?, Option.some.injEq] at hopen
        have hmem : a.spelling ∈ attributes.map AttributeToken.spelling := by
          have hattributes := congrArg OpenTag.attributes hopen
          simp only [Element.openTag] at hattributes
          rw [hattributes]
          exact List.mem_map_of_mem ha
        obtain ⟨token, htoken', heq⟩ := List.mem_map.mp hmem
        simp only [Token.Spelled, htoken] at hspelled
        rw [htoken] at hfaithful
        have hraw := mem_of_slice? (hspelled.2.2.slices token htoken')
        have hsome : token.value = some (text, quote) := by
          have hval := congrArg Spelling.value heq
          simp only [AttributeToken.spelling, Attribute.spelling, hvalue] at hval
          cases htv : token.value with
          | none => simp [htv] at hval
          | some pair => simpa [htv, Prod.ext_iff] using hval
        have hspells := (hfaithful token htoken' text quote hsome).mono hraw
        exact ⟨fun hquote => h (hspells.2 hquote), fun hbrace => h (hspells.1 hbrace)⟩
    | text | comment | closing | raw => simp [htoken, Lexeme.openTag?] at hopen

end Stencil.Markup
