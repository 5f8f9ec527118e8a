/-!
# Searching and replacing in character lists

`breakOn` cuts a text around the first occurrence of a needle, and `breakOn_eq` says that the
cut loses nothing.  `splitAt` cuts at every occurrence of a separator.  `replaceChar` and
`replaceText` write something else for every occurrence of a character or a text.
-/

namespace Stencil.Text

/-- The text before and after the first occurrence of `needle`, if there is one. -/
def breakOn (needle : List Char) : List Char → Option (List Char × List Char)
  | [] => if needle.isEmpty then some ([], []) else none
  | c :: rest =>
      if needle.isPrefixOf (c :: rest) then some ([], (c :: rest).drop needle.length)
      else (breakOn needle rest).map fun (before, after) => (c :: before, after)

/-- Nothing is lost around the needle. -/
theorem breakOn_eq {needle text before after : List Char}
    (h : breakOn needle text = some (before, after)) : text = before ++ needle ++ after := by
  induction text generalizing before after with
  | nil =>
      simp only [breakOn] at h
      split at h
      · next hn =>
          obtain ⟨rfl, rfl⟩ := Prod.mk.inj (Option.some.inj h)
          simp [List.isEmpty_iff.mp hn]
      · simp at h
  | cons c rest ih =>
      simp only [breakOn] at h
      split at h
      · next hp =>
          obtain ⟨rfl, rfl⟩ := Prod.mk.inj (Option.some.inj h)
          obtain ⟨tail, ht⟩ := List.isPrefixOf_iff_prefix.mp hp
          rw [← ht]
          simp
      · obtain ⟨⟨b, a⟩, hb, he⟩ := Option.map_eq_some_iff.mp h
        simp only [Prod.mk.injEq] at he
        obtain ⟨rfl, rfl⟩ := he
        simp [ih hb]

/-- What follows the needle is no longer than the text. -/
theorem length_le_of_breakOn {needle text before after : List Char}
    (h : breakOn needle text = some (before, after)) : after.length ≤ text.length := by
  rw [breakOn_eq h]
  simp
  omega

/-- What follows two needles, the first of which is not empty, is shorter than the text. -/
theorem length_lt_of_breakOn_breakOn {first second text before after inner rest : List Char}
    (hne : first ≠ []) (h : breakOn first text = some (before, after))
    (h' : breakOn second after = some (inner, rest)) : rest.length < text.length := by
  have := List.length_pos_iff.mpr hne
  have := length_le_of_breakOn h'
  rw [breakOn_eq h]
  simp only [List.length_append]
  omega

/-- The pieces of the text between the separators. -/
def splitAt (separator : Char) : List Char → List (List Char)
  | [] => [[]]
  | c :: rest =>
      match splitAt separator rest with
      | [] => [[c]]
      | piece :: pieces =>
          if c == separator then [] :: piece :: pieces else (c :: piece) :: pieces

/-- The text with every occurrence of the character written as `replacement`. -/
def replaceChar (old : Char) (replacement : List Char) (text : List Char) : List Char :=
  text.flatMap fun c => if c == old then replacement else [c]

/-- The text with every occurrence of `old` written as `new`, found from left to right; `skip`
characters in front belong to an occurrence. -/
def replaceFrom (old new : List Char) (skip : Nat) : List Char → List Char
  | [] => []
  | c :: rest =>
      if 0 < skip then replaceFrom old new (skip - 1) rest
      else if old.isPrefixOf (c :: rest) then new ++ replaceFrom old new (old.length - 1) rest
      else c :: replaceFrom old new 0 rest

/-- The text with every occurrence of a text that is not empty written as another one. -/
def replaceText (old new text : List Char) : List Char := replaceFrom old new 0 text

/-- The texts one after another with `separator` between them. -/
def joinWith (separator : String) (texts : List String) : String := separator.intercalate texts

end Stencil.Text
