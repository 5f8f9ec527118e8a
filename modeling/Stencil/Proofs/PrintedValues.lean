import Stencil.Proofs.Braceless
import Stencil.Proofs.Clauses
import Stencil.Proofs.Folded
import Stencil.Proofs.Verbatim
import Stencil.Proofs.Written

/-!
# Dividing what is printed of divided values

`Attribute.Divides` says what becomes of a value without braces: nothing, the name that the attribute
implies, one expression, or literal text.  The printer writes expressions in braces and everything else
between double quotes, and what it writes is divided into the same parts again
(`Attribute.Divides.returns`).  For an expression between quotes this asks that it be found again in
its braces as the expression it was (`Reopens`).
-/

namespace Stencil.Markup

open Stencil.Text Stencil.Passes
open Stencil.Script (Language Fault Expression ReadsTrimmed)

/-- The value, however it is quoted. -/
def Value.evened : Value → Value
  | .empty => .empty
  | .text t _ => .text t .double
  | .parts ps _ => .parts ps .double

/-- A divided value is evened with double quotes. -/
@[simp] theorem Value.evened_parts (ps : List Part) (quote : Quote) :
    (Value.parts ps quote).evened = .parts ps .double := rfl

/-- The code is read as the same expression where it stands in braces in some text: the braces close
behind it, it does not begin with the marker, and it is no literal, which would become part of the
text. -/
structure Reopens (e : Expression) : Prop where
  matched : Matched e.code.toList
  unmarked : (splitMarker e.code.toList).1 = false
  unfolded : e.literal = none

instance (e : Expression) : Decidable (Reopens e) :=
  decidable_of_iff (closing 0 .code (e.code.toList ++ ['\x7d']) = some (e.code.toList, []) ∧
    (splitMarker e.code.toList).1 = false ∧ e.literal = none)
    ⟨fun h => ⟨h.1, h.2.1, h.2.2⟩, fun h => ⟨h.matched, h.unmarked, h.unfolded⟩⟩

/-- An expression that is printed in braces between quotes is read again as the same one. -/
def Value.Reopens : Value → Prop
  | .parts [.expression e _] quote => quote ≠ .brace → Markup.Reopens e
  | _ => True

instance : (v : Value) → Decidable v.Reopens
  | .parts [.expression e _] quote => inferInstanceAs (Decidable (quote ≠ .brace → Markup.Reopens e))
  | .parts [] _ | .parts (.literal _ :: _) _ | .parts (.expression _ _ :: _ :: _) _ => .isTrue trivial
  | .empty | .text _ _ => .isTrue trivial

/-- What becomes of a value without braces when it is divided. -/
inductive Attribute.Divides (read : String → Except Fault Expression) (a : Attribute) : Value → Prop
  | missing (hvalue : a.value = .empty)
      (hnone : ∀ name, impliedName a = some name → isName name = false) : Divides read a .empty
  | implied {name : String} {e : Expression} (hvalue : a.value = .empty)
      (himplied : impliedName a = some name) (hname : isName name = true)
      (hread : read name = .ok e) : Divides read a (.parts [.expression e false] .brace)
  | code {text : String} {quote : Quote} {e : Expression} (hvalue : a.value = .text text quote)
      (hquote : quote ≠ .brace) (hkind : isExpressionKind a.kind = true)
      (hspaces : isSpaces text = false) (hread : read text = .ok e) :
      Divides read a (.parts [.expression e false] quote)
  | literal {text : String} {quote : Quote} (hvalue : a.value = .text text quote)
      (hquote : quote ≠ .brace) (hbrace : '\x7b' ∉ text.toList)
      (hkind : isExpressionKind a.kind = true → isSpaces text = true) :
      Divides read a (.parts (literalPart text.toList) quote)

/-- The value of the attribute is undivided, does not stand in braces and has no opening brace. -/
structure Attribute.Braceless (a : Attribute) : Prop where
  undivided : ∀ parts quote, a.value ≠ .parts parts quote
  value : ∀ text quote, a.value = .text text quote → quote ≠ .brace ∧ '\x7b' ∉ text.toList

section Values

variable {read : String → Except Fault Expression} {a b : Attribute} {v : Value}

/-- A value without braces is divided as it is. -/
theorem Attribute.Braceless.divides (h : a.Braceless) (hdivided : dividedValue read a = .ok v) :
    a.Divides read v := by
  cases hvalue : a.value with
  | parts parts quote => exact absurd hvalue (h.undivided parts quote)
  | empty =>
      simp only [dividedValue, hvalue] at hdivided
      cases himplied : impliedName a with
      | none =>
          simp only [himplied] at hdivided
          rw [← Except.ok.inj hdivided]
          exact .missing hvalue (by simp [himplied])
      | some name =>
          simp only [himplied] at hdivided
          split at hdivided
          · next hname =>
              obtain ⟨e, hread, hok⟩ := exists_of_bind_eq_ok hdivided
              rw [← Except.ok.inj hok]
              exact .implied hvalue himplied hname hread
          · next hname =>
              rw [← Except.ok.inj hdivided]
              refine .missing hvalue fun name' hname' => ?_
              rw [himplied, Option.some.injEq] at hname'
              simpa [hname'] using hname
  | text text quote =>
      obtain ⟨hquote, hbrace⟩ := h.value text quote hvalue
      have hunfold : dividedValue read a =
          if isExpressionKind a.kind && !hasInterpolation text && !isSpaces text then do
            let e ← read text
            return .parts [.expression e false] quote
          else do
            let parts ← interpolate read text
            return .parts parts quote := by
        cases quote with
        | brace => exact absurd rfl hquote
        | double | single | unquoted => simp [dividedValue, hvalue]
      rw [hunfold, hasInterpolation_of_braceless hbrace, Bool.not_false, Bool.and_true] at hdivided
      split at hdivided
      · next hcode =>
          simp only [Bool.and_eq_true, Bool.not_eq_true'] at hcode
          obtain ⟨e, hread, hok⟩ := exists_of_bind_eq_ok hdivided
          rw [← Except.ok.inj hok]
          exact .code hvalue hquote hcode.1 hcode.2 hread
      · next hcode =>
          rw [interpolate_of_braceless hbrace] at hdivided
          rw [← Except.ok.inj hdivided]
          exact .literal hvalue hquote hbrace fun hkind => by simpa [hkind] using hcode

/-- A name has no braces or quotes. -/
theorem matched_of_isName {name : String} (h : isName name = true) : Matched name.toList := by
  have hparts := (isNamePart_of_isName h).2
  unfold Matched
  generalize name.toList = cs at hparts
  induction cs with
  | nil => rfl
  | cons c rest ih =>
      obtain ⟨hc, hrest⟩ := List.forall_mem_cons.mp hparts
      have hne : ∀ d : Char, isNamePart d = false → (c == d) = false := by
        intro d hd
        rw [beq_eq_false_iff_ne]
        rintro rfl
        rw [hd] at hc
        simp at hc
      have hquote : isQuote c = false := by
        simp [isQuote, hne '\'' (by decide), hne '"' (by decide), hne '\x60' (by decide)]
      simp [closing, hne '\x7d' (by decide), hne '\x7b' (by decide), hquote, ih hrest]

/-- Code in braces is written between them. -/
theorem toList_braced (code : String) :
    ("\x7b" ++ code ++ "\x7d").toList = '\x7b' :: (code.toList ++ ['\x7d']) := by
  simp

/-- Code that can be read again in braces is read as the only part of what is printed. -/
theorem interpolate_braced {e : Expression} (h : Reopens e) (hspaces : isSpaces e.code = false)
    (hread : read e.code = .ok e) :
    interpolate read ("\x7b" ++ e.code ++ "\x7d") = .ok [.expression e false] := by
  have hmarker : splitMarker e.code.toList = (false, e.code.toList) := by
    have hunmarked := h.unmarked
    simp only [splitMarker] at hunmarked ⊢
    split at hunmarked
    · simp at hunmarked
    · next hno => rw [if_neg hno]
  have hend : splitFrom read [] [] = .ok [] := splitFrom_of_none rfl []
  have hblank : e.code.toList.all isSpace = false := hspaces
  rw [interpolate, toList_braced, splitFrom_of_some (cutBrace?_span h.matched [])]
  simp only [hblank, Bool.false_eq_true, if_false, hmarker, String.ofList_toList, hread, h.unfolded,
    hend]
  rfl

/-- Code in braces is an interpolation. -/
theorem hasInterpolation_braced {e : Expression} (h : Matched e.code.toList)
    (hspaces : isSpaces e.code = false) : hasInterpolation ("\x7b" ++ e.code ++ "\x7d") = true := by
  have hblank : e.code.toList.all isSpace = false := hspaces
  rw [hasInterpolation, toList_braced, holdsExpression]
  split
  · next hnone => simp [cutBrace?_span h []] at hnone
  · next hsome =>
      rw [cutBrace?_span h [], Option.some.injEq] at hsome
      simp [← hsome, hblank]

/-- Trimming leaves something of a text that is not all spaces. -/
theorem isSpaces_trim {text : String} (h : isSpaces text = false) : isSpaces (trim text) = false := by
  cases hstart : text.toList.dropWhile isSpace with
  | nil =>
      rw [List.dropWhile_eq_nil_iff] at hstart
      rw [isSpaces, List.all_eq_true.mpr hstart] at h
      simp at h
  | cons c rest =>
      have hc : isSpace c = false := by
        have hhead := List.head?_dropWhile_not isSpace text.toList
        rw [hstart] at hhead
        simpa using hhead
      have htrim : trimList text.toList = c :: trimEndList rest := by
        rw [trimList, trimStartList, hstart]
        exact trimEndList_append (a := [c]) ⟨c, by simp, hc⟩
      rw [isSpaces, trim, String.toList_ofList, htrim, List.all_cons, hc, Bool.false_and]

/-- A name is not blank. -/
theorem isSpaces_of_isName {name : String} (h : isName name = true) : isSpaces name = false := by
  obtain ⟨hne, hparts⟩ := isNamePart_of_isName h
  cases hname : name.toList with
  | nil => exact absurd hname hne
  | cons c rest =>
      have hc := (isSpace_of_isNamePart (hparts c (by simp [hname]))).1
      rw [isSpaces, hname, List.all_cons, hc, Bool.false_and]

/-- A literal part is printed as its text. -/
theorem printParts_literalPart (text : String) : printParts (literalPart text.toList) = text := by
  unfold literalPart
  split
  · next hnil =>
      rw [List.isEmpty_iff, String.toList_eq_nil_iff] at hnil
      rw [hnil]
      rfl
  · simp [printParts, Part.print]

/-- A literal part is written as its text, in double quotes. -/
theorem written_literalPart (text : String) (quote : Quote) :
    (Value.parts (literalPart text.toList) quote).written = .text text .double := by
  have hprint := printParts_literalPart text
  unfold literalPart at hprint ⊢
  split
  · next hnil =>
      rw [if_pos hnil] at hprint
      exact congrArg (Value.text · .double) hprint
  · next hne =>
      rw [if_neg hne] at hprint
      exact congrArg (Value.text · .double) hprint

/-- Dividing what is printed of a divided value gives the same parts. -/
theorem Attribute.Divides.returns (htrims : ReadsTrimmed read) (h : a.Divides read v)
    (hreopens : v.Reopens) (hname : b.name = a.name) (hkind : b.kind = a.kind)
    (hvalue : b.value = v.written) :
    ∃ w, dividedValue read b = .ok w ∧ w.evened = v.evened := by
  have himplied : impliedName b = impliedName a := by simp [impliedName, hname, hkind]
  cases h with
  | missing _ hnone =>
      refine ⟨.empty, ?_, rfl⟩
      have hempty : b.value = .empty := hvalue
      simp only [dividedValue, hempty, himplied]
      cases hsome : impliedName a with
      | none => rfl
      | some name => simp [hnone name hsome]
  | @implied name e _ hsome hisName hread =>
      have heq := htrims.code hread
      have hagain := htrims.again hread
      rw [trim_of_isName hisName] at heq
      have htext : b.value = .text e.code .brace := hvalue
      have hspaces : isSpaces e.code = false := heq ▸ isSpaces_of_isName hisName
      have hkinds : b.kind ≠ .plain := by
        intro hplain
        rw [hkind] at hplain
        simp [impliedName, hplain] at hsome
      refine ⟨.parts [.expression e false] .brace, ?_, by simp⟩
      simp only [dividedValue, htext, hspaces, Bool.false_eq_true, if_false, hagain, bind, Except.bind]
      cases hb : b.kind with
      | plain => exact absurd hb hkinds
      | event | bind | ref | action | modifier => cases e.literal <;> rfl
  | @code text quote e _ hquote hisKind hspaces hread =>
      have heq := htrims.code hread
      have hagain := htrims.again hread
      have hopens := hreopens hquote
      have hspaces' : isSpaces e.code = false := heq ▸ isSpaces_trim hspaces
      have htext : b.value = .text ("\x7b" ++ e.code ++ "\x7d") .double := by
        rw [hvalue]
        cases quote with
        | brace => exact absurd rfl hquote
        | double | single | unquoted => simp [Value.written, printParts, Part.print, String.join]
      refine ⟨.parts [.expression e false] .double, ?_, by simp⟩
      simp only [dividedValue, htext, hasInterpolation_braced hopens.matched hspaces']
      simp [interpolate_braced hopens hspaces' hagain]
  | @literal text quote _ hquote hbrace hliteral =>
      have htext : b.value = .text text .double := hvalue.trans (written_literalPart text quote)
      refine ⟨.parts (literalPart text.toList) .double, ?_, by simp⟩
      have hnot : (isExpressionKind b.kind && !isSpaces text) = false := by
        rw [hkind]
        cases hisKind : isExpressionKind a.kind with
        | false => rfl
        | true => simp [hliteral hisKind]
      simp only [dividedValue, htext, hasInterpolation_of_braceless hbrace, Bool.not_false,
        Bool.and_true, hnot, interpolate_of_braceless hbrace]
      rfl

/-- What is printed of a divided value can be scanned, and has quotes. -/
theorem Attribute.Divides.yields (htrims : ReadsTrimmed read) (h : a.Divides read v)
    {text : String} {quote : Quote} (hvalue : v.written = .text text quote) :
    quote.Yields text.toList ∧ quote ≠ .unquoted := by
  cases h with
  | missing => simp [Value.written] at hvalue
  | implied _ _ hname hread =>
      have hcode := htrims.code hread
      rw [trim_of_isName hname] at hcode
      obtain ⟨rfl, rfl⟩ := Value.text.inj hvalue
      exact ⟨hcode ▸ matched_of_isName hname, by simp⟩
  | @code _ quote' e _ hquote =>
      have hdouble : quote = .double := by
        cases quote' with
        | brace => exact absurd rfl hquote
        | double | single | unquoted => exact (Value.text.inj hvalue).2.symm
      rw [hdouble]
      exact ⟨trivial, by simp⟩
  | literal =>
      rw [written_literalPart] at hvalue
      rw [← (Value.text.inj hvalue).2]
      exact ⟨trivial, by simp⟩

/-- What is written is never a divided value. -/
theorem Value.written_ne_parts (v : Value) (ps : List Part) (quote : Quote) :
    v.written ≠ .parts ps quote := by
  unfold written
  split <;> simp

end Values

/-- The attribute with the kind that its name gives it. -/
def Attribute.kinded (a : Attribute) : Attribute := { a with kind := attributeKind a }

/-- The attribute however it is written: without its source and its quotes. -/
def Attribute.evened (a : Attribute) : Attribute :=
  { a with value := a.value.evened, raw := "", position := none }

section Attributes

variable {read : String → Except Fault Expression} {as bs : List Attribute}

/-- Dividing attributes that have names is dividing the value of each. -/
theorem divide_eq_iff (hnamed : ∀ a ∈ as, a.isAnonymous = false) :
    divide read as = { attributes := bs } ↔
      List.Forall₂ (fun a b => ∃ v, dividedValue read a = .ok v ∧ b = { a with value := v }) as bs := by
  induction as generalizing bs with
  | nil =>
      rw [List.forall₂_nil_left_iff]
      constructor
      · intro h
        exact (congrArg Divided.attributes h).symm
      · rintro rfl
        rfl
  | cons a rest ih =>
      obtain ⟨ha, hrest⟩ := List.forall_mem_cons.mp hnamed
      cases hvalue : dividedValue read a with
      | error f =>
          constructor
          · intro h
            have hfault := congrArg Divided.fault h
            simp [divide, ha, hvalue] at hfault
          · intro h
            cases h with
            | cons hab _ => simp [hvalue] at hab
      | ok v =>
          have hdivide : divide read (a :: rest) =
              { divide read rest with
                attributes := { a with value := v } :: (divide read rest).attributes } := by
            simp [divide, ha, hvalue]
          rw [hdivide]
          constructor
          · intro h
            obtain ⟨hattributes, hdiagnostics, hfault⟩ := Divided.mk.inj h
            rw [← hattributes]
            refine .cons ⟨v, hvalue, rfl⟩ ((ih hrest).mp ?_)
            rw [← hdiagnostics, ← hfault]
          · intro h
            cases h with
            | @cons _ b _ bs hab hmore =>
                obtain ⟨v', hv', rfl⟩ := hab
                rw [hvalue] at hv'
                obtain rfl := Except.ok.inj hv'
                rw [(ih hrest).mpr hmore]

/-- Evening out an attribute does not change whether it needs a reference. -/
theorem Attribute.needsReference_evened (a : Attribute) :
    a.evened.needsReference = a.needsReference := by
  obtain ⟨name, value, kind, raw, position⟩ := a
  cases value <;> rfl

end Attributes

end Stencil.Markup
