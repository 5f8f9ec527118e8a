import Mathlib.Data.List.Infix
import Stencil.Text.Chars

/-!
# Markers in markup

A reference is marked in static markup by an attribute `data-ref="N"` or by a comment `<!--ref:N-->`.
`markersIn` lists the numbers of all markers that a text holds, in the order in which they start.

The one law that everything else rests on is `markersIn_append`: cutting a text neither makes nor
breaks a marker, unless one lies across the cut.  The lemmas after it say which cuts are safe.
-/

namespace Stencil.Render

open Stencil.Text

/-- What stands before and after the number of a marker. -/
def markerForms : List (List Char × List Char) :=
  [(['d', 'a', 't', 'a', '-', 'r', 'e', 'f', '=', '"'], ['"']),
   (['<', '!', '-', '-', 'r', 'e', 'f', ':'], ['-', '-', '>'])]

/-- The number at the start of a text, if `stop` follows its digits. -/
def numberBefore? (stop cs : List Char) : Option Nat :=
  if !(cs.takeWhile isDigit).isEmpty && stop.isPrefixOf (cs.dropWhile isDigit) then
    some (Nat.ofDigitChars 10 (cs.takeWhile isDigit) 0)
  else none

/-- The number of the marker that stands at the start of a text. -/
def markerAt? (cs : List Char) : Option Nat :=
  markerForms.findSome? fun (before, after) =>
    if before.isPrefixOf cs then numberBefore? after (cs.drop before.length) else none

/-- The numbers of the markers in a text, in the order in which they start. -/
def markersIn : List Char → List Nat
  | [] => []
  | c :: rest => (markerAt? (c :: rest)).toList ++ markersIn rest

/-- The marker of the number `n`, written with any digits that mean it. -/
def IsMarker (n : Nat) (m : List Char) : Prop :=
  ∃ form ∈ markerForms, ∃ digits : List Char, digits ≠ [] ∧ (∀ c ∈ digits, isDigit c = true) ∧
    Nat.ofDigitChars 10 digits 0 = n ∧ m = form.1 ++ digits ++ form.2

/-- A marker that starts in `a` and ends in `b`. -/
def Straddles (a b : List Char) : Prop :=
  ∃ s t n, s ≠ [] ∧ t ≠ [] ∧ s <:+ a ∧ t <+: b ∧ IsMarker n (s ++ t)

/-- A digit is none of the other characters. -/
private theorem isDigit_ne {c d : Char} (h : isDigit c = true) (hd : isDigit d = false) : c ≠ d := by
  rintro rfl
  rw [h] at hd
  exact absurd hd (by decide)

/-- The digits in front are taken up to the first character that is none. -/
private theorem takeWhile_digits {digits rest : List Char} (h : ∀ c ∈ digits, isDigit c = true)
    (hr : ∀ c ∈ rest.head?, isDigit c = false) :
    (digits ++ rest).takeWhile isDigit = digits ∧ (digits ++ rest).dropWhile isDigit = rest := by
  have hnil : rest.takeWhile isDigit = [] ∧ rest.dropWhile isDigit = rest := by
    cases rest with
    | nil => exact ⟨rfl, rfl⟩
    | cons c more =>
        have hc : isDigit c = false := hr c (by simp)
        simp [hc]
  constructor
  · rw [List.takeWhile_append_of_pos h, hnil.1, List.append_nil]
  · rw [List.dropWhile_append_of_pos h, hnil.2]

/-- A number is read up to what has to follow it, whatever comes after that. -/
private theorem numberBefore?_append {digits : List Char} (hne : digits ≠ [])
    (hd : ∀ c ∈ digits, isDigit c = true) {d : Char} (hs : isDigit d = false)
    (stop rest : List Char) :
    numberBefore? (d :: stop) (digits ++ (d :: stop ++ rest)) =
      some (Nat.ofDigitChars 10 digits 0) := by
  have hr : ∀ c ∈ (d :: stop ++ rest).head?, isDigit c = false := by simpa using hs
  obtain ⟨h₁, h₂⟩ := takeWhile_digits hd hr
  have hp : (d :: stop).isPrefixOf (d :: stop ++ rest) = true :=
    List.isPrefixOf_iff_prefix.mpr (List.prefix_append _ _)
  have he : digits.isEmpty = false := by simpa using hne
  rw [numberBefore?, h₁, h₂, he, hp]
  rfl

/-- What a number was read from. -/
private theorem eq_of_numberBefore? {stop cs : List Char} {n : Nat}
    (h : numberBefore? stop cs = some n) :
    ∃ digits rest : List Char, digits ≠ [] ∧ (∀ c ∈ digits, isDigit c = true) ∧
      Nat.ofDigitChars 10 digits 0 = n ∧ cs = digits ++ (stop ++ rest) := by
  unfold numberBefore? at h
  split at h
  · next hc =>
      rw [Bool.and_eq_true] at hc
      obtain ⟨rest, hrest⟩ := List.isPrefixOf_iff_prefix.mp hc.2
      refine ⟨cs.takeWhile isDigit, rest, by simpa using hc.1, ?_, Option.some.inj h, ?_⟩
      · intro c hm
        exact List.all_eq_true.mp List.all_takeWhile c hm
      · rw [hrest]
        exact List.takeWhile_append_dropWhile.symm
  · simp at h

/-- A marker is found where it stands, whatever follows it. -/
theorem markerAt?_append {n : Nat} {m : List Char} (h : IsMarker n m) (rest : List Char) :
    markerAt? (m ++ rest) = some n := by
  obtain ⟨form, hf, digits, hne, hd, rfl, rfl⟩ := h
  simp only [markerForms, List.mem_cons, List.not_mem_nil, or_false] at hf
  rcases hf with rfl | rfl
  · have hn := numberBefore?_append hne hd (d := '"') (by decide) [] rest
    simp only [List.cons_append, List.nil_append] at hn
    simp [markerAt?, markerForms, hn]
  · have hn := numberBefore?_append hne hd (d := '-') (by decide) ['-', '>'] rest
    simp only [List.cons_append, List.nil_append] at hn
    simp [markerAt?, markerForms, hn]

/-- What is found at the start of a text is a marker. -/
theorem eq_of_markerAt? {n : Nat} {cs : List Char} (h : markerAt? cs = some n) :
    ∃ m rest, IsMarker n m ∧ cs = m ++ rest := by
  obtain ⟨form, hf, hn⟩ := List.exists_of_findSome?_eq_some h
  dsimp only at hn
  split at hn
  · next hp =>
      obtain ⟨tail, rfl⟩ := List.isPrefixOf_iff_prefix.mp hp
      rw [List.drop_left] at hn
      obtain ⟨digits, rest, hne, hd, hv, rfl⟩ := eq_of_numberBefore? hn
      exact ⟨form.1 ++ digits ++ form.2, rest, ⟨form, hf, digits, hne, hd, hv, rfl⟩, by simp⟩
  · simp at hn

/-- A character that no form has after its first character is in no marker after the first. -/
private theorem IsMarker.not_mem_tail {n : Nat} {m : List Char} (h : IsMarker n m) {d : Char}
    (hd : isDigit d = false) (hf : ∀ form ∈ markerForms, d ∉ form.1.tail ++ form.2) :
    d ∉ m.tail := by
  obtain ⟨form, hform, digits, _, hdigits, _, rfl⟩ := h
  have hne : form.1 ≠ [] := by revert form; decide
  have hno := hf form hform
  rw [List.append_assoc, List.tail_append_of_ne_nil hne, List.mem_append, List.mem_append]
  rw [List.mem_append] at hno
  rintro (hm | hm | hm)
  · exact hno (.inl hm)
  · exact isDigit_ne (hdigits d hm) hd rfl
  · exact hno (.inr hm)

/-- A character that no form has before its last character is in no marker before the last. -/
private theorem IsMarker.not_mem_dropLast {n : Nat} {m : List Char} (h : IsMarker n m) {d : Char}
    (hd : isDigit d = false) (hf : ∀ form ∈ markerForms, d ∉ form.1 ++ form.2.dropLast) :
    d ∉ m.dropLast := by
  obtain ⟨form, hform, digits, _, hdigits, _, rfl⟩ := h
  have hne : form.2 ≠ [] := by revert form; decide
  have hno := hf form hform
  rw [List.dropLast_append_of_ne_nil hne, List.mem_append, List.mem_append]
  rw [List.mem_append] at hno
  rintro ((hm | hm) | hm)
  · exact hno (.inl hm)
  · exact isDigit_ne (hdigits d hm) hd rfl
  · exact hno (.inr hm)

/-- The texts that a marker starts with. -/
def imitations : List (List Char) :=
  [['d', 'a', 't', 'a', '-', 'r', 'e', 'f'], ['<', '!', '-', '-']]

/-- A text that does not imitate a marker: neither `data-ref` nor the start of a comment is in it. -/
def Plain (t : List Char) : Prop := ∀ w ∈ imitations, ¬ w <:+: t

instance (t : List Char) : Decidable (Plain t) :=
  inferInstanceAs (Decidable (∀ w ∈ imitations, ¬ w <:+: t))

/-- A marker starts with one of the texts that plain text does not hold, and that text ends well
before the marker does. -/
theorem IsMarker.imitation {n : Nat} {m : List Char} (h : IsMarker n m) :
    ∃ w ∈ imitations, w <+: m ∧ w.length + 3 ≤ m.length := by
  obtain ⟨form, hform, digits, hne, _, _, rfl⟩ := h
  have hw : ∀ form ∈ markerForms, ∃ w ∈ imitations, w <+: form.1 ∧
      w.length + 2 ≤ form.1.length + form.2.length := by decide
  obtain ⟨w, hw, hp, hlen⟩ := hw form hform
  have hpos : 0 < digits.length := List.length_pos_iff.mpr hne
  refine ⟨w, hw, hp.trans (by simp), ?_⟩
  simp only [List.length_append]
  omega

/-- A marker in a text is imitated there. -/
private theorem IsMarker.exists_imitation {n : Nat} {m t : List Char} (h : IsMarker n m)
    (hi : m <:+: t) : ∃ w ∈ imitations, w <:+: t := by
  obtain ⟨w, hw, hp, _⟩ := h.imitation
  exact ⟨w, hw, hp.isInfix.trans hi⟩

/-- A marker is not empty. -/
theorem IsMarker.ne_nil {n : Nat} {m : List Char} (h : IsMarker n m) : m ≠ [] := by
  obtain ⟨_, _, digits, hne, _, _, rfl⟩ := h
  simp [hne]

/-- A text without markers. -/
theorem markersIn_eq_nil {t : List Char} (h : ∀ n m, IsMarker n m → ¬ m <:+: t) :
    markersIn t = [] := by
  induction t with
  | nil => rfl
  | cons c rest ih =>
      have hrest : markersIn rest = [] := ih fun n m hm hi => h n m hm (List.infix_cons hi)
      cases hc : markerAt? (c :: rest) with
      | none => simp [markersIn, hc, hrest]
      | some n =>
          obtain ⟨m, after, hm, heq⟩ := eq_of_markerAt? hc
          exact absurd (heq ▸ List.infix_append_left) (h n m hm)

/-- Plain text holds no marker. -/
theorem markersIn_of_plain {t : List Char} (h : Plain t) : markersIn t = [] := by
  apply markersIn_eq_nil
  intro n m hm hi
  obtain ⟨w, hw, hwt⟩ := hm.exists_imitation hi
  exact h w hw hwt

/-- A text in which a marker cannot start holds none. -/
theorem markersIn_of_no_start {t : List Char} (hd : 'd' ∉ t) (hl : '<' ∉ t) : markersIn t = [] := by
  apply markersIn_eq_nil
  intro n m hm hi
  obtain ⟨w, hw, hwt⟩ := hm.exists_imitation hi
  have hstart : ∀ w ∈ imitations, 'd' ∈ w ∨ '<' ∈ w := by decide
  rcases hstart w hw with h | h
  · exact hd (hwt.mem h)
  · exact hl (hwt.mem h)

/-- **Cutting a text.**  The markers of a text are those of its two halves, unless one lies across
the cut. -/
theorem markersIn_append {a b : List Char} (h : ¬ Straddles a b) :
    markersIn (a ++ b) = markersIn a ++ markersIn b := by
  induction a with
  | nil => rfl
  | cons c rest ih =>
      have hrest : ¬ Straddles rest b := by
        rintro ⟨s, t, n, hs, ht, hsuf, hpre, hm⟩
        exact h ⟨s, t, n, hs, ht, hsuf.trans (List.suffix_cons c rest), hpre, hm⟩
      have hhead : markerAt? (c :: rest ++ b) = markerAt? (c :: rest) := by
        cases hc : markerAt? (c :: rest) with
        | some n =>
            obtain ⟨m, after, hm, heq⟩ := eq_of_markerAt? hc
            rw [heq, List.append_assoc]
            exact markerAt?_append hm _
        | none =>
            cases hb : markerAt? (c :: rest ++ b) with
            | none => rfl
            | some n =>
                -- a marker found only with `b` behind it would end in `b`
                exfalso
                obtain ⟨m, after, hm, heq⟩ := eq_of_markerAt? hb
                rcases List.append_eq_append_iff.mp heq with ⟨t, rfl, rfl⟩ | ⟨more, hcr, _⟩
                · refine h ⟨c :: rest, t, n, by simp, ?_, List.suffix_rfl,
                    List.prefix_append _ _, hm⟩
                  rintro rfl
                  rw [List.append_nil] at hm
                  have := markerAt?_append hm []
                  rw [List.append_nil, hc] at this
                  simp at this
                · rw [hcr, markerAt?_append hm] at hc
                  simp at hc
      calc markersIn (c :: rest ++ b)
          = (markerAt? (c :: rest ++ b)).toList ++ markersIn (rest ++ b) := rfl
        _ = (markerAt? (c :: rest)).toList ++ (markersIn rest ++ markersIn b) := by
            rw [hhead, ih hrest]
        _ = markersIn (c :: rest) ++ markersIn b := by rw [← List.append_assoc]; rfl

/-- Nothing that lies across a cut has an angle bracket or a space behind the cut, or a closing
angle bracket before it. -/
private theorem straddle_chars {s t : List Char} {n : Nat} (hs : s ≠ []) (ht : t ≠ [])
    (hm : IsMarker n (s ++ t)) : '<' ∉ t ∧ ' ' ∉ t ∧ '>' ∉ s := by
  have htail : ∀ {d : Char}, d ∉ (s ++ t).tail → d ∉ t := by
    intro d hd hmem
    rw [List.tail_append_of_ne_nil hs, List.mem_append] at hd
    exact hd (.inr hmem)
  have hinit : '>' ∉ (s ++ t).dropLast := hm.not_mem_dropLast (by decide) (by decide)
  rw [List.dropLast_append_of_ne_nil ht, List.mem_append] at hinit
  exact ⟨htail (hm.not_mem_tail (by decide) (by decide)),
    htail (hm.not_mem_tail (by decide) (by decide)), fun h => hinit (.inl h)⟩

/-- Markup that a tag or an attribute starts with is never the end of a marker. -/
theorem not_straddles_of_head {a b : List Char} (h : ∀ c ∈ b.head?, c = '<' ∨ c = ' ') :
    ¬ Straddles a b := by
  rintro ⟨s, t, n, hs, ht, _, hpre, hm⟩
  obtain ⟨hl, hsp, _⟩ := straddle_chars hs ht hm
  cases t with
  | nil => exact ht rfl
  | cons c rest =>
      have hc : b.head? = some c := by
        obtain ⟨more, rfl⟩ := hpre
        rfl
      rcases h c (by simp [hc]) with rfl | rfl
      · exact hl List.mem_cons_self
      · exact hsp List.mem_cons_self

/-- The end of a text that may still turn into a marker: what stands before it has ended with a tag,
or else it starts like a tag or an attribute. -/
def Open (text tail : List Char) : Prop :=
  ∃ before, text = before ++ tail ∧
    ((∀ c ∈ before.getLast?, c = '>') ∨ ∃ c ∈ tail.head?, c = '<' ∨ c = ' ')

/-- Text that ends with a tag has nothing open. -/
theorem open_nil {text : List Char} (h : ∀ c ∈ text.getLast?, c = '>') : Open text [] :=
  ⟨text, by simp, .inl h⟩

/-- A tag or an attribute is the only thing that is open after it. -/
theorem open_of_head {text tail : List Char} {c : Char} (h : tail.head? = some c)
    (hc : c = '<' ∨ c = ' ') : Open (text ++ tail) tail :=
  ⟨text, rfl, .inr ⟨c, by simp [h], hc⟩⟩

/-- More text behind leaves a text open. -/
theorem Open.append {text tail : List Char} (h : Open text tail) (more : List Char) :
    Open (text ++ more) (tail ++ more) := by
  obtain ⟨before, rfl, hb | ⟨c, hc, hh⟩⟩ := h
  · exact ⟨before, by simp, .inl hb⟩
  · refine ⟨before, by simp, .inr ⟨c, ?_, hh⟩⟩
    rw [List.head?_append]
    simp_all

/-- Only what is open can be the start of a marker across a cut. -/
theorem Open.straddles {text tail more : List Char} (h : Open text tail)
    (hs : Straddles text more) : Straddles tail more := by
  obtain ⟨before, rfl, hb⟩ := h
  obtain ⟨s, t, n, hne, ht, ⟨front, hfront⟩, hpre, hm⟩ := hs
  rcases List.append_eq_append_iff.mp hfront with ⟨spill, hbefore, rfl⟩ | ⟨more', _, htail⟩
  · by_cases hspill : spill = []
    · exact ⟨spill ++ tail, t, n, hne, ht, by simp [hspill], hpre, hm⟩
    · -- the marker would start before the open part, which neither way of being open allows
      exfalso
      rcases hb with hb | ⟨c, hc, hh⟩
      · have hlast : before.getLast? = some (spill.getLast hspill) := by
          rw [hbefore, List.getLast?_append_of_ne_nil _ hspill, List.getLast?_eq_some_getLast hspill]
        have hgt : spill.getLast hspill = '>' := hb _ (by simp [hlast])
        refine (straddle_chars hne ht hm).2.2 (List.mem_append_left _ ?_)
        exact hgt ▸ List.getLast_mem hspill
      · have hmem : c ∈ (spill ++ tail ++ t).tail := by
          rw [List.append_assoc, List.tail_append_of_ne_nil hspill]
          exact List.mem_append_right _ (List.mem_append_left _ (List.mem_of_mem_head? hc))
        rcases hh with rfl | rfl
        · exact hm.not_mem_tail (by decide) (by decide) hmem
        · exact hm.not_mem_tail (by decide) (by decide) hmem
  · exact ⟨s, t, n, hne, ht, ⟨more', htail.symm⟩, hpre, hm⟩

/-- What stands in a plain text is plain. -/
theorem Plain.mono {s t : List Char} (h : Plain t) (hi : s <:+: t) : Plain s :=
  fun w hw hs => h w hw (hs.trans hi)

/-- Plain texts with a character between them that is in no marker's start. -/
theorem Plain.separate {a b : List Char} {d : Char} (ha : Plain a) (hb : Plain b)
    (hd : ∀ w ∈ imitations, d ∉ w) : Plain (a ++ d :: b) := by
  intro w hw hi
  rcases List.infix_append_iff.mp hi with h | h | ⟨l, r, rfl, hl, hr⟩
  · exact ha w hw h
  · rcases List.infix_cons_iff.mp h with h | h
    · cases w with
      | nil => revert hw; decide
      | cons c rest =>
          obtain ⟨more, hmore⟩ := h
          rw [List.cons_append, List.cons.injEq] at hmore
          exact hd _ hw (hmore.1 ▸ List.mem_cons_self)
    · exact hb w hw h
  · cases r with
    | nil => exact ha _ hw (by simpa using hl.isInfix)
    | cons c rest =>
        obtain ⟨more, hmore⟩ := hr
        rw [List.cons_append, List.cons.injEq] at hmore
        exact hd _ hw (hmore.1 ▸ by simp)

/-- Plain text after plain text makes no marker, if both together are plain. -/
theorem not_straddles_of_plain {text tail more : List Char} (h : Open text tail)
    (hp : Plain (tail ++ more)) : ¬ Straddles text more := by
  intro hs
  obtain ⟨s, t, n, _, _, ⟨before, rfl⟩, ⟨after, rfl⟩, hm⟩ := h.straddles hs
  obtain ⟨w, hw, hwt⟩ := hm.exists_imitation (t := before ++ s ++ (t ++ after))
    ⟨before, after, by simp⟩
  exact hp w hw hwt

/-- A few characters after plain text make no marker, whatever they are. -/
theorem not_straddles_short {text tail more : List Char} (h : Open text tail) (hp : Plain tail)
    (hlen : more.length ≤ 3) : ¬ Straddles text more := by
  intro hs
  obtain ⟨s, t, n, _, _, hsuf, hpre, hm⟩ := h.straddles hs
  obtain ⟨w, hw, hwm, hwlen⟩ := hm.imitation
  have hws : w <+: s := by
    apply List.prefix_of_prefix_length_le hwm (List.prefix_append s t)
    have := hpre.length_le
    rw [List.length_append] at hwlen
    omega
  exact hp w hw (hws.isInfix.trans hsuf.isInfix)

/-- The end of a tag makes no marker if no exclamation mark stands before it. -/
theorem not_straddles_tag_end {text tail : List Char} (h : Open text tail) (hp : '!' ∉ tail) :
    ¬ Straddles text ['>'] := by
  intro hs
  obtain ⟨s, t, n, _, ht, hsuf, hpre, form, hform, digits, _, _, _, heq⟩ := h.straddles hs
  obtain rfl : t = ['>'] := (List.prefix_cons_iff.mp hpre).resolve_left ht |>.elim (by simp_all)
  simp only [markerForms, List.mem_cons, List.not_mem_nil, or_false] at hform
  rcases hform with rfl | rfl
  · exact absurd (List.append_inj' heq rfl).2 (by decide)
  · have heq' : s ++ ['>'] =
        (['<', '!', '-', '-', 'r', 'e', 'f', ':'] ++ digits ++ ['-', '-']) ++ ['>'] := by
      simpa using heq
    exact hp (hsuf.mem (by simp [(List.append_inj' heq' rfl).1]))

/-- A marker holds no other. -/
theorem IsMarker.markersIn_eq {n : Nat} {m : List Char} (h : IsMarker n m) : markersIn m = [n] := by
  have hat := markerAt?_append h []
  rw [List.append_nil] at hat
  cases m with
  | nil => exact absurd rfl h.ne_nil
  | cons c rest =>
      have hrest : markersIn rest = [] :=
        markersIn_of_no_start (h.not_mem_tail (by decide) (by decide))
          (h.not_mem_tail (by decide) (by decide))
      simp [markersIn, hat, hrest]

/-- A number is written in digits. -/
theorem isDigit_of_toDigits {n : Nat} {c : Char} (h : c ∈ Nat.toDigits 10 n) :
    isDigit c = true := by
  have hc := Nat.isDigit_of_mem_toDigits (by decide) (by decide) h
  simp only [Char.isDigit, Bool.and_eq_true, decide_eq_true_eq] at hc
  simp only [isDigit, Bool.and_eq_true, decide_eq_true_eq]
  exact hc

/-- A space in front brings no marker. -/
private theorem markersIn_space (m : List Char) : markersIn (' ' :: m) = markersIn m := by
  have hnone : markerAt? (' ' :: m) = none := by simp [markerAt?, markerForms]
  simp [markersIn, hnone]

/-- The attribute that marks a reference is its marker. -/
theorem markersIn_reference (n : Nat) :
    markersIn (" data-ref=\"" ++ toString n ++ "\"").toList = [n] := by
  have hm : IsMarker n ("data-ref=\"" ++ toString n ++ "\"").toList :=
    ⟨_, List.mem_cons_self, Nat.toDigits 10 n, Nat.toDigits_ne_nil, fun c => isDigit_of_toDigits,
      Nat.ofDigitChars_ten_toDigits, by simp [Nat.toList_repr]⟩
  have hcut : (" data-ref=\"" ++ toString n ++ "\"").toList =
      ' ' :: ("data-ref=\"" ++ toString n ++ "\"").toList := by
    simp
  rw [hcut, markersIn_space, hm.markersIn_eq]

/-- The comment that marks a reference is its marker. -/
theorem markersIn_anchor (n : Nat) :
    markersIn ("<!--ref:" ++ toString n ++ "-->").toList = [n] := by
  refine IsMarker.markersIn_eq ⟨_, List.mem_cons_of_mem _ List.mem_cons_self, Nat.toDigits 10 n,
    Nat.toDigits_ne_nil, fun c => isDigit_of_toDigits, Nat.ofDigitChars_ten_toDigits, ?_⟩
  simp [Nat.toList_repr]

/-- A comment of the template that does not imitate a marker holds none. -/
theorem markersIn_comment {content : List Char} (hp : Plain content)
    (hr : ¬ ['r', 'e', 'f', ':'] <+: content) :
    markersIn (['<', '!', '-', '-'] ++ content ++ ['-', '-', '>']) = [] := by
  have hcut : ¬ Straddles content ['-', '-', '>'] :=
    not_straddles_short ⟨[], rfl, .inl (by simp)⟩ hp (by simp)
  have href : ¬ ['r', 'e', 'f', ':'] <+: content ++ ['-', '-', '>'] := by
    rintro ⟨more, hmore⟩
    rcases List.append_eq_append_iff.mp hmore with ⟨a, rfl, _⟩ | ⟨b, hb, hstop⟩
    · exact hr (List.prefix_append _ _)
    · cases b with
      | nil => exact hr (by simp [hb])
      | cons c rest =>
          rw [List.cons_append, List.cons.injEq] at hstop
          have hmem : '-' ∈ ['r', 'e', 'f', ':'] := by rw [hb, hstop.1]; simp
          exact absurd hmem (by decide)
  have hrest : markersIn (content ++ ['-', '-', '>']) = [] := by
    rw [markersIn_append hcut, markersIn_of_plain hp]
    exact markersIn_of_no_start (by decide) (by decide)
  simp [markersIn, markerAt?, markerForms, href, hrest]

end Stencil.Render
