/-!
# Byte offsets

Positions in a text count the bytes of its UTF-8 form.  `byteSize` measures a list of characters,
`cutAt?` cuts one at an offset if a character starts there, and `slice?` takes the text between
two offsets.
-/

namespace Stencil.Text

/-- Number of bytes that the characters take. -/
def byteSize : List Char → Nat
  | [] => 0
  | c :: rest => c.utf8Size + byteSize rest

@[simp] theorem byteSize_nil : byteSize [] = 0 := rfl

@[simp] theorem byteSize_cons (c : Char) (rest : List Char) :
    byteSize (c :: rest) = c.utf8Size + byteSize rest := rfl

@[simp] theorem byteSize_append (a b : List Char) :
    byteSize (a ++ b) = byteSize a + byteSize b := by
  induction a with
  | nil => simp
  | cons c rest ih => simp [ih, Nat.add_assoc]

theorem byteSize_mono {cs ds : List Char} (h : cs <+: ds) : byteSize cs ≤ byteSize ds := by
  obtain ⟨more, rfl⟩ := h
  rw [byteSize_append]
  exact Nat.le_add_right _ _

theorem byteSize_pos {cs : List Char} (h : cs ≠ []) : 0 < byteSize cs := by
  cases cs with
  | nil => exact absurd rfl h
  | cons c rest =>
      have hpos := c.utf8Size_pos
      rw [byteSize_cons]
      omega

/-- The characters before and after a byte offset, if the offset is a character boundary. -/
def cutAt? (offset : Nat) : List Char → Option (List Char × List Char)
  | [] => if offset = 0 then some ([], []) else none
  | c :: rest =>
      if offset = 0 then some ([], c :: rest)
      else if c.utf8Size ≤ offset then
        (cutAt? (offset - c.utf8Size) rest).map fun (before, after) => (c :: before, after)
      else none

/-- A cut loses nothing, and what stands before it has the size of the offset. -/
theorem cutAt?_eq {offset : Nat} {cs before after : List Char}
    (h : cutAt? offset cs = some (before, after)) :
    cs = before ++ after ∧ byteSize before = offset := by
  induction cs generalizing offset before after with
  | nil =>
      simp only [cutAt?] at h
      split at h
      · next h0 => obtain ⟨rfl, rfl⟩ := Prod.mk.inj (Option.some.inj h); simp [h0]
      · simp at h
  | cons c rest ih =>
      simp only [cutAt?] at h
      split at h
      · next h0 => obtain ⟨rfl, rfl⟩ := Prod.mk.inj (Option.some.inj h); simp [h0]
      · split at h
        · obtain ⟨⟨b, a⟩, hb, he⟩ := Option.map_eq_some_iff.mp h
          simp only [Prod.mk.injEq] at he
          obtain ⟨rfl, rfl⟩ := he
          obtain ⟨rfl, hs⟩ := ih hb
          simp [hs]
          omega
        · simp at h

/-- A text is cut between two parts of it. -/
theorem cutAt?_append (a b : List Char) : cutAt? (byteSize a) (a ++ b) = some (a, b) := by
  induction a with
  | nil => cases b <;> simp [cutAt?]
  | cons c rest ih =>
      have hpos := c.utf8Size_pos
      have hne : c.utf8Size + byteSize rest ≠ 0 := by omega
      simp only [byteSize_cons, List.cons_append, cutAt?, if_neg hne, Nat.le_add_right, if_true,
        Nat.add_sub_cancel_left, ih, Option.map_some]

/-- The characters between two byte offsets, if both are boundaries and in order. -/
def slice? (start stop : Nat) (cs : List Char) : Option (List Char) :=
  if start ≤ stop then
    match cutAt? start cs with
    | some (_, after) => (cutAt? (stop - start) after).map Prod.fst
    | none => none
  else none

/-- The slice from the start of a part to its end is that part. -/
theorem slice?_append (a b c : List Char) :
    slice? (byteSize a) (byteSize a + byteSize b) (a ++ (b ++ c)) = some b := by
  have hsub : byteSize a + byteSize b - byteSize a = byteSize b := by omega
  simp [slice?, cutAt?_append, hsub]

end Stencil.Text
