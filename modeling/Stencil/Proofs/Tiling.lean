import Mathlib.Data.List.Chain
import Stencil.Proofs.Tile

/-!
# Tokens tile the source

`Tiling` says what the tokens of a template are: consecutive pieces of it, from its start to its
end, each made of the characters that its kind asks for, with raw content exactly behind the tags
that open it.  `scan_tiling` proves it of every template, well-formed or not.
-/

namespace Stencil.Markup

open Stencil.Text

/-- Tokens from one offset to another, each starting where the one before it stops. -/
def Consecutive : Nat → List Token → Nat → Prop
  | start, [], stop => start = stop
  | start, t :: rest, stop => t.start = start ∧ Consecutive t.stop rest stop

/-- Whether the token is text. -/
def Lexeme.isText : Lexeme → Bool
  | .text _ => true
  | _ => false

/-- Whether the token is raw content. -/
def Lexeme.isRaw : Lexeme → Bool
  | .raw _ => true
  | _ => false

/-- The attributes of a tag are pieces of its text: none is empty, none begins before the one in
front of it has ended, and all of them stand inside the tag. -/
structure AttributesWithin (source : List Char) (start stop : Nat)
    (attributes : List AttributeToken) : Prop where
  slices : ∀ a ∈ attributes, slice? a.start a.stop source = some a.raw.toList
  nonempty : ∀ a ∈ attributes, a.start < a.stop
  inside : ∀ a ∈ attributes, start < a.start ∧ a.stop ≤ stop
  disjoint : attributes.Pairwise fun a b => a.stop ≤ b.start

/-- The characters of a token are those that its kind asks for. -/
def Token.Spelled (source : List Char) (t : Token) (cs : List Char) : Prop :=
  match t.lexeme with
  | .text text => cs = text.toList ∧ cs ≠ []
  | .raw text => cs = text.toList
  | .comment content =>
      cs = "<!--".toList ++ content.toList ++ "-->".toList ∨
        cs = "<!--".toList ++ content.toList ∧ ¬ "-->".toList <:+: content.toList ∧
          t.stop = byteSize source
  | .opening name attributes _ =>
      '<' :: name.toList <+: cs ∧ name ≠ "" ∧ AttributesWithin source t.start t.stop attributes
  | .closing name => '<' :: '/' :: name.toList <+: cs

/-- The tokens of a source text tile it. -/
structure Tiling (source : String) (tokens : List Token) : Prop where
  /-- From the start to the end of the source, without gap or overlap. -/
  consecutive : Consecutive 0 tokens (byteSize source.toList)
  /-- Every token starts and stops at a boundary between characters, and has the ones in between. -/
  spelled : ∀ t ∈ tokens, ∃ cs, slice? t.start t.stop source.toList = some cs ∧
    t.Spelled source.toList cs
  /-- Only raw content may be empty. -/
  nonempty : ∀ t ∈ tokens, t.lexeme.isRaw = false → t.start < t.stop
  /-- A comment without its end is the last token. -/
  unterminated : ∀ before t after content, tokens = before ++ t :: after →
    t.lexeme = .comment content →
    slice? t.start t.stop source.toList = some ("<!--".toList ++ content.toList) → after = []
  /-- No text is cut in two. -/
  texts : ∀ before t u after, tokens = before ++ t :: u :: after →
    ¬ (t.lexeme.isText = true ∧ u.lexeme.isText = true)
  /-- Raw content stands behind a tag that opens it. -/
  opened : ∀ before t after, tokens = before ++ t :: after → t.lexeme.isRaw = true →
    ∃ front opening, before = front ++ [opening] ∧ opening.lexeme.opensRaw = true
  /-- Behind such a tag stands raw content in which the element is not closed; it is the last token
  or the closing tag of the element comes next. -/
  raw : ∀ before t after name attributes, tokens = before ++ t :: after →
    t.lexeme = .opening name attributes false → isRawText name = true →
    ∃ text raw rest, after = raw :: rest ∧ raw.lexeme = .raw text ∧ Unclosed name text.toList ∧
      (rest = [] ∨ ∃ close last more, rest = close :: more ∧ close.lexeme = .closing last ∧
        lower last = lower name)

/-- What a slice holds is as long as the offsets say. -/
theorem byteSize_of_slice? {start stop : Nat} {cs part : List Char}
    (h : slice? start stop cs = some part) : stop = start + byteSize part := by
  unfold slice? at h
  split at h
  · split at h
    · obtain ⟨⟨before, after⟩, hcut, rfl⟩ := Option.map_eq_some_iff.mp h
      have hsize := (cutAt?_eq hcut).2
      simp only at *
      omega
    · simp at h
  · simp at h

/-- Joining texts that stand side by side leaves the pieces of the source as they are. -/
theorem Tiled.joinTexts {offset : Nat} {cs : List Char} {tokens : List Token}
    (h : Tiled offset cs tokens) : Tiled offset cs (joinTexts tokens) := by
  induction h with
  | nil offset => exact .nil offset
  | @cons offset cs rest lexeme tokens tile hraw tail ih =>
      cases tile with
      | text hne =>
          simp only [Markup.joinTexts, tileToken]
          split
          · next a b start stop more hlex hjoin =>
              cases hlex
              rw [hjoin] at ih
              -- the text behind is the next piece of the source
              generalize hat : offset + byteSize cs = next at ih
              generalize hrest : rest = rest' at ih
              generalize hjoined : (⟨.text b, start, stop⟩ :: more : List Token) = joined at ih
              cases ih with
              | @cons _ cs' rest' lexeme' tokens' tile' hraw' tail' =>
                  obtain ⟨htoken, rfl⟩ := List.cons.inj hjoined
                  simp only [tileToken, Token.mk.injEq] at htoken
                  obtain ⟨rfl, rfl, rfl⟩ := htoken
                  subst hat hrest
                  cases tile' with
                  | text hne' =>
                      rw [← List.append_assoc, ← String.ofList_append, Nat.add_assoc,
                        ← byteSize_append]
                      rw [Nat.add_assoc, ← byteSize_append] at tail'
                      exact .cons (.text (by simp [hne])) rfl tail'
              | _ => simp [tileToken] at hjoined
          · exact .cons (.text hne) rfl ih
      | comment content => exact .cons (.comment content) hraw ih
      | opening selfClosing hne hname hranged =>
          exact .cons (.opening selfClosing hne hname hranged) hraw ih
      | closing inside hname => exact .cons (.closing inside hname) hraw ih
  | unterminated hopen => exact .unterminated hopen
  | rawEnd tile hname hraw => exact .rawEnd tile hname hraw
  | raw tile hname hraw hclose hlast tail ih => exact .raw tile hname hraw hclose hlast ih

/-- Not both tokens are texts. -/
def Token.Apart (t u : Token) : Prop := ¬ (t.lexeme.isText = true ∧ u.lexeme.isText = true)

/-- After joining, no text stands behind another one. -/
theorem joinTexts_isChain (tokens : List Token) : (joinTexts tokens).IsChain Token.Apart := by
  induction tokens with
  | nil => exact .nil
  | cons t rest ih =>
      simp only [joinTexts]
      split
      · next a b start stop more hlex hjoin =>
          rw [hjoin] at ih
          cases more with
          | nil => exact .singleton _
          | cons u more =>
              rw [List.isChain_cons_cons] at ih ⊢
              exact ih
      · next hno =>
          cases hjoin : joinTexts rest with
          | nil => exact .singleton _
          | cons u more =>
              rw [hjoin] at ih
              refine List.isChain_cons_cons.mpr ⟨?_, ih⟩
              rintro ⟨ht, hu⟩
              obtain ⟨lexeme, start, stop⟩ := u
              cases hlt : t.lexeme <;> simp [hlt, Lexeme.isText] at ht
              cases lexeme <;> simp [Lexeme.isText] at hu
              exact hno _ _ _ _ _ hlt hjoin

theorem Tiled.consecutive {offset : Nat} {cs : List Char} {tokens : List Token}
    (h : Tiled offset cs tokens) : Consecutive offset tokens (offset + byteSize cs) := by
  induction h with
  | nil => rfl
  | cons tile hraw tail ih =>
      rw [byteSize_append, ← Nat.add_assoc]
      exact ⟨rfl, ih⟩
  | unterminated => exact ⟨rfl, rfl⟩
  | rawEnd =>
      rw [byteSize_append, ← Nat.add_assoc]
      exact ⟨rfl, rfl, rfl⟩
  | raw tile hname hraw hclose hlast tail ih =>
      rw [byteSize_append, byteSize_append, byteSize_append, ← Nat.add_assoc, ← Nat.add_assoc,
        ← Nat.add_assoc]
      exact ⟨rfl, rfl, rfl, ih⟩

/-- Ranges that follow each other inside a text are slices of the source around it. -/
theorem Ranged.within {offset : Nat} {cs : List Char} {attributes : List AttributeToken}
    (h : Ranged offset cs attributes) (front back : List Char) (hfront : byteSize front = offset)
    {start : Nat} (hstart : start < offset) :
    AttributesWithin (front ++ (cs ++ back)) start (offset + byteSize cs) attributes ∧
      ∀ a ∈ attributes, offset ≤ a.start := by
  induction h generalizing front start with
  | nil =>
      exact ⟨⟨by simp, by simp, by simp, .nil⟩, by simp⟩
  | @cons offset gap raw rest a more hne hraw hat hstop tail ih =>
      have hpos := byteSize_pos hne
      have hsize : offset + byteSize (gap ++ (raw ++ rest)) = a.stop + byteSize rest := by
        rw [byteSize_append, byteSize_append, hstop, hat]
        omega
      have hfront' : byteSize (front ++ gap ++ raw) = a.stop := by
        rw [byteSize_append, byteSize_append, hstop, hat, hfront]
      obtain ⟨hmore, hafter⟩ := ih (front ++ gap ++ raw) hfront' (show a.start < a.stop by omega)
      have hsource : front ++ (gap ++ (raw ++ rest) ++ back) =
          front ++ gap ++ raw ++ (rest ++ back) := by simp
      have hslice : slice? a.start a.stop (front ++ (gap ++ (raw ++ rest) ++ back)) =
          some a.raw.toList := by
        have hcut := slice?_append (front ++ gap) raw (rest ++ back)
        rw [byteSize_append, hfront, ← hat, ← hstop] at hcut
        rw [hsource, List.append_assoc, hcut, hraw, String.toList_ofList]
      rw [← hsource, ← hsize] at hmore
      refine ⟨⟨?_, ?_, ?_, ?_⟩, ?_⟩
      · exact List.forall_mem_cons.mpr ⟨hslice, hmore.slices⟩
      · exact List.forall_mem_cons.mpr ⟨by omega, hmore.nonempty⟩
      · refine List.forall_mem_cons.mpr ⟨⟨by omega, by omega⟩, ?_⟩
        intro b hb
        have := hmore.inside b hb
        omega
      · exact List.pairwise_cons.mpr ⟨hafter, hmore.disjoint⟩
      · refine List.forall_mem_cons.mpr ⟨by omega, ?_⟩
        intro b hb
        have := hafter b hb
        omega

/-- Every piece of the source is spelled as its token says. -/
theorem Tile.spelled {offset : Nat} {cs : List Char} {lexeme : Lexeme} (h : Tile offset cs lexeme)
    (front back : List Char) (hfront : byteSize front = offset) :
    (tileToken offset cs lexeme).Spelled (front ++ (cs ++ back)) cs := by
  cases h with
  | text hne => exact ⟨by simp, hne⟩
  | comment content => exact .inl (by simp)
  | @opening name inside attributes selfClosing hne hname hranged =>
      refine ⟨by simp, by simpa using hne, ?_⟩
      have hone : byteSize ['<'] = 1 := rfl
      have hinside : byteSize (front ++ ('<' :: name)) = offset + 1 + byteSize name := by
        rw [byteSize_append, hfront, Nat.add_assoc]
        rfl
      have hstop : offset + byteSize ('<' :: (name ++ inside)) =
          offset + 1 + byteSize name + byteSize inside := by
        rw [← List.singleton_append, byteSize_append, byteSize_append, hone]
        omega
      have hwithin := (hranged.within (front ++ ('<' :: name)) back hinside
        (show offset < offset + 1 + byteSize name by omega)).1
      rw [← hstop] at hwithin
      simpa [tileToken] using hwithin
  | closing inside hname => simp [tileToken, Token.Spelled]

theorem Tiled.spelled {offset : Nat} {cs : List Char} {tokens : List Token}
    (h : Tiled offset cs tokens) (front : List Char) (hfront : byteSize front = offset) :
    ∀ t ∈ tokens, ∃ part, slice? t.start t.stop (front ++ cs) = some part ∧
      t.Spelled (front ++ cs) part := by
  -- a token made of the characters behind `front` is the slice between its offsets
  have hslice : ∀ {offset : Nat} (lexeme : Lexeme) (front part back : List Char),
      byteSize front = offset →
      slice? (tileToken offset part lexeme).start (tileToken offset part lexeme).stop
        (front ++ (part ++ back)) = some part := by
    rintro _ lexeme front part back rfl
    exact slice?_append front part back
  induction h generalizing front with
  | nil => simp
  | @cons offset cs rest lexeme tokens tile hraw tail ih =>
      refine List.forall_mem_cons.mpr ⟨⟨cs, hslice _ _ _ _ hfront, tile.spelled _ _ hfront⟩, ?_⟩
      simpa using ih (front ++ cs) (by rw [byteSize_append, hfront])
  | @unterminated offset content hopen =>
      refine List.forall_mem_singleton.mpr ⟨['<', '!', '-', '-'] ++ content, ?_, .inr ?_⟩
      · simpa using hslice (.comment (String.ofList content)) front
          (['<', '!', '-', '-'] ++ content) [] hfront
      · refine ⟨by simp, by simpa using hopen, ?_⟩
        simp [tileToken, hfront]
  | @rawEnd offset cs raw name attributes tile hname hraw =>
      have hfront' : byteSize (front ++ cs) = offset + byteSize cs := by
        rw [byteSize_append, hfront]
      refine List.forall_mem_cons.mpr ⟨⟨cs, hslice _ _ _ _ hfront, tile.spelled _ _ hfront⟩, ?_⟩
      refine List.forall_mem_singleton.mpr ⟨raw, ?_, by simp [tileToken, Token.Spelled]⟩
      simpa using hslice (.raw (String.ofList raw)) (front ++ cs) raw [] hfront'
  | @raw offset cs raw close rest name last attributes tokens tile hname hraw hclose hlast tail ih =>
      have hcs : byteSize (front ++ cs) = offset + byteSize cs := by
        rw [byteSize_append, hfront]
      have hraw' : byteSize (front ++ cs ++ raw) = offset + byteSize cs + byteSize raw := by
        rw [byteSize_append, hcs]
      refine List.forall_mem_cons.mpr ⟨⟨cs, hslice _ _ _ _ hfront, tile.spelled _ _ hfront⟩, ?_⟩
      refine List.forall_mem_cons.mpr ⟨⟨raw, ?_, by simp [tileToken, Token.Spelled]⟩, ?_⟩
      · simpa using hslice (.raw (String.ofList raw)) (front ++ cs) raw (close ++ rest) hcs
      · refine List.forall_mem_cons.mpr ⟨⟨close, ?_, ?_⟩, ?_⟩
        · simpa using hslice (.closing last) (front ++ cs ++ raw) close rest hraw'
        · simpa using hclose.spelled (front ++ cs ++ raw) rest hraw'
        · simpa using ih (front ++ cs ++ raw ++ close) (by rw [byteSize_append, hraw'])

theorem Tiled.nonempty {offset : Nat} {cs : List Char} {tokens : List Token}
    (h : Tiled offset cs tokens) : ∀ t ∈ tokens, t.lexeme.isRaw = false → t.start < t.stop := by
  have htile : ∀ {offset : Nat} {cs : List Char} {lexeme : Lexeme}, Tile offset cs lexeme →
      (tileToken offset cs lexeme).start < (tileToken offset cs lexeme).stop := by
    intro offset cs lexeme tile
    exact Nat.lt_add_of_pos_right (byteSize_pos tile.ne_nil)
  induction h with
  | nil => simp
  | cons tile hraw tail ih => exact List.forall_mem_cons.mpr ⟨fun _ => htile tile, ih⟩
  | unterminated =>
      exact List.forall_mem_singleton.mpr fun _ => Nat.lt_add_of_pos_right (byteSize_pos (by simp))
  | rawEnd tile hname hraw =>
      exact List.forall_mem_cons.mpr ⟨fun _ => htile tile,
        List.forall_mem_singleton.mpr fun hno => absurd hno (by simp [tileToken, Lexeme.isRaw])⟩
  | raw tile hname hraw hclose hlast tail ih =>
      exact List.forall_mem_cons.mpr ⟨fun _ => htile tile, List.forall_mem_cons.mpr
        ⟨fun hno => absurd hno (by simp [tileToken, Lexeme.isRaw]),
          List.forall_mem_cons.mpr ⟨fun _ => htile hclose, ih⟩⟩⟩

/-- What may stand behind a token. -/
structure Token.Precedes (t : Token) (after : List Token) : Prop where
  unterminated : ∀ content, t.lexeme = .comment content →
    t.stop = t.start + byteSize ("<!--".toList ++ content.toList) → after = []
  plain : t.lexeme.opensRaw = false → ∀ u ∈ after.head?, u.lexeme.isRaw = false
  raw : ∀ name attributes, t.lexeme = .opening name attributes false → isRawText name = true →
    ∃ text raw rest, after = raw :: rest ∧ raw.lexeme = .raw text ∧ Unclosed name text.toList ∧
      (rest = [] ∨ ∃ close last more, rest = close :: more ∧ close.lexeme = .closing last ∧
        lower last = lower name)

theorem Tile.isRaw_eq {offset : Nat} {cs : List Char} {lexeme : Lexeme}
    (h : Tile offset cs lexeme) : lexeme.isRaw = false := by
  cases h <;> rfl

/-- No text starts with raw content. -/
theorem Tiled.head_isRaw {offset : Nat} {cs : List Char} {tokens : List Token}
    (h : Tiled offset cs tokens) : ∀ t ∈ tokens.head?, t.lexeme.isRaw = false := by
  cases h with
  | nil => simp
  | cons tile => simpa [tileToken] using tile.isRaw_eq
  | unterminated => simp [tileToken, Lexeme.isRaw]
  | rawEnd tile => simp [tileToken, Lexeme.isRaw]
  | raw tile => simp [tileToken, Lexeme.isRaw]

/-- A token that opens no raw content. -/
theorem Tile.precedes {offset : Nat} {cs : List Char} {lexeme : Lexeme} (h : Tile offset cs lexeme)
    (hraw : lexeme.opensRaw = false) {after : List Token}
    (hafter : ∀ t ∈ after.head?, t.lexeme.isRaw = false) :
    (tileToken offset cs lexeme).Precedes after := by
  refine ⟨?_, fun _ => hafter, ?_⟩
  · intro content hlex hstop
    cases h with
    | comment content' =>
        cases hlex
        simp [tileToken] at hstop
        have hthree : byteSize ['-', '-', '>'] = 3 := rfl
        simp only [byteSize_cons, byteSize_nil] at hthree
        omega
    | _ => simp [tileToken] at hlex
  · intro name attributes hlex hname
    simp only [tileToken] at hlex
    simp [hlex, Lexeme.opensRaw, hname] at hraw

/-- A token of raw content, behind which no more of it stands. -/
private theorem raw_precedes (offset : Nat) (cs : List Char) (text : String) {after : List Token}
    (hafter : ∀ t ∈ after.head?, t.lexeme.isRaw = false) :
    (tileToken offset cs (.raw text)).Precedes after :=
  ⟨by simp [tileToken], fun _ => hafter, by simp [tileToken]⟩

/-- **Step and run.**  Every token of a tiled text is followed by what may follow it. -/
theorem Tiled.precedes {offset : Nat} {cs : List Char} {tokens : List Token}
    (h : Tiled offset cs tokens) {before : List Token} {t : Token} {after : List Token}
    (heq : tokens = before ++ t :: after) : t.Precedes after := by
  induction h generalizing before with
  | nil => simp at heq
  | cons tile hraw tail ih =>
      cases before with
      | nil =>
          obtain ⟨rfl, rfl⟩ := List.cons.inj heq
          exact tile.precedes hraw tail.head_isRaw
      | cons _ more => exact ih (List.cons.inj heq).2
  | @unterminated offset content hopen =>
      cases before with
      | nil =>
          obtain ⟨rfl, rfl⟩ := List.cons.inj heq
          exact ⟨fun _ _ _ => rfl, by simp, by simp [tileToken]⟩
      | cons _ more => simp at heq
  | @rawEnd offset cs raw name attributes tile hname hraw =>
      rcases before with _ | ⟨_, _ | ⟨_, more⟩⟩
      · obtain ⟨rfl, rfl⟩ := List.cons.inj heq
        refine ⟨by simp [tileToken], by simp [tileToken, Lexeme.opensRaw, hname], ?_⟩
        rintro name' attributes' hlex -
        cases hlex
        exact ⟨_, _, _, rfl, rfl, by simpa using hraw, .inl rfl⟩
      · obtain ⟨rfl, rfl⟩ := List.cons.inj (List.cons.inj heq).2
        exact raw_precedes _ _ _ (by simp)
      · simp at heq
  | @raw offset cs raw close rest name last attributes tokens tile hname hraw hclose hlast tail ih =>
      rcases before with _ | ⟨_, _ | ⟨_, _ | ⟨_, more⟩⟩⟩
      · obtain ⟨rfl, rfl⟩ := List.cons.inj heq
        refine ⟨by simp [tileToken], by simp [tileToken, Lexeme.opensRaw, hname], ?_⟩
        rintro name' attributes' hlex -
        cases hlex
        exact ⟨_, _, _, rfl, rfl, by simpa using hraw, .inr ⟨_, last, _, rfl, rfl, hlast⟩⟩
      · obtain ⟨rfl, rfl⟩ := List.cons.inj (List.cons.inj heq).2
        exact raw_precedes _ _ _ (by simp [tileToken, Lexeme.isRaw])
      · obtain ⟨rfl, rfl⟩ := List.cons.inj (List.cons.inj (List.cons.inj heq).2).2
        exact hclose.precedes rfl tail.head_isRaw
      · exact ih (List.cons.inj (List.cons.inj (List.cons.inj heq).2).2).2

/-- **Tokens tile the source.**  Whatever the text, its tokens are consecutive pieces of it that
cover it, each spelled as it says, with raw content where it belongs. -/
theorem scan_tiling (source : String) : Tiling source (scan source).1 := by
  have htiled : Tiled 0 source.toList (scan source).1 := (scanFrom_tiled 0 source.toList).joinTexts
  refine ⟨?_, htiled.spelled [] rfl, htiled.nonempty, ?_, ?_, ?_, ?_⟩
  · simpa using htiled.consecutive
  · intro before t after content heq hlex hslice
    exact (htiled.precedes heq).unterminated content hlex (byteSize_of_slice? hslice)
  · intro before t u after heq
    have hpair : [t, u] <:+: (scan source).1 := ⟨before, after, by simpa using heq.symm⟩
    have hchain := List.IsChain.infix (joinTexts_isChain (scanFrom 0 source.toList).1) hpair
    exact (List.isChain_cons_cons.mp hchain).1
  · intro before t after heq hraw
    rcases List.eq_nil_or_concat' before with rfl | ⟨front, opening, rfl⟩
    · have hhead := htiled.head_isRaw t (by rw [heq]; rfl)
      rw [hraw] at hhead
      simp at hhead
    · refine ⟨front, opening, rfl, ?_⟩
      by_contra hno
      have hfront : (scan source).1 = front ++ opening :: t :: after := by simpa using heq
      have hplain := (htiled.precedes hfront).plain (by simpa using hno) t rfl
      rw [hraw] at hplain
      simp at hplain
  · intro before t after name attributes heq hlex hname
    exact (htiled.precedes heq).raw name attributes hlex hname

end Stencil.Markup
