import Stencil.Proofs.Operands

/-!
# A small language

A part of the language that is small enough for its parser to be a few lines: some expressions that are
taken as they are, string literals, and what is made of them by parentheses, by arrows and by the node
of a spot in front of a comma.  It has no comments and no `await`.  Its phrasing and its parser are one
function, and obey the productions (`composes_smallParser`).
-/

namespace Stencil.Script

open Stencil.Text Stencil.Render
open Stencil.Decimal (Binary)

/-- The expressions that are taken as they are. -/
def smallAtoms : List (String × Node) :=
  [("n", .ident "n"),
    ("n + 1", .binary "+" (.ident "n") (.literal (.number (.ofRatio 1 1)))),
    ("'x'", .literal (.string "x")),
    ("\x7b sum: a + b \x7d",
      .object [.property (.key "sum") (.binary "+" (.ident "a") (.ident "b"))] false)]

/-- The node of a spot, from its code without the dollar sign in front. -/
def spotNode (name : List Char) : Node :=
  if name = ['n', 'o', 'd', 'e'] then .ident "$node"
  else
    .index (.ident "$refs")
      (.literal (.number (.ofRatio (Nat.ofDigitChars 10 (name.filter isDigit) 0) 1)))

/-- A text without what stands at its end, if that is the given text. -/
def withoutEnd? (back cs : List Char) : Option (List Char) :=
  if back.isSuffixOf cs then some (cs.take (cs.length - back.length)) else none

theorem withoutEnd?_append (cs back : List Char) : withoutEnd? back (cs ++ back) = some cs := by
  simp [withoutEnd?]

theorem length_of_withoutEnd? {back cs body : List Char} (h : withoutEnd? back cs = some body) :
    body.length ≤ cs.length := by
  unfold withoutEnd? at h
  split at h
  · rw [← Option.some.inj h]
    exact List.length_take_le' ..
  · cases h

/-- The operands of a text. -/
def smallOperands (cs : List Char) : Option (List Operand) :=
  match cs with
  | '$' :: rest =>
      match _hmore : rest.dropWhile (· != ',') with
      | ',' :: ' ' :: more =>
          let name := rest.takeWhile (· != ',')
          (smallOperands more).map (⟨String.ofList ('$' :: name), spotNode name⟩ :: ·)
      | _ => none
  | '(' :: rest =>
      if [')', ' ', '=', '>', ' '].isPrefixOf rest then
        match smallOperands (rest.drop 5) with
        | some (o :: os) => some (⟨"() => " ++ o.code, .arrow [] [] .absent [o.node]⟩ :: os)
        | _ => none
      else
        match _hbody : withoutEnd? [')'] rest with
        | some body =>
            (smallOperands body).map fun os => [⟨String.ofList cs, .paren (Operand.together os)⟩]
        | none => none
  | '"' :: _ =>
      match Json.parse? (String.ofList cs) with
      | some (.string (some value)) => some [⟨String.ofList cs, .literal (.string value)⟩]
      | _ => none
  | _ => (smallAtoms.find? (·.1.toList == cs)).map fun (code, n) => [⟨code, n⟩]
termination_by cs.length
decreasing_by
  · have hlength := (rest.dropWhile_suffix (· != ',')).length_le
    rw [_hmore] at hlength
    simp only [List.length_cons] at hlength ⊢
    omega
  · simp only [List.length_drop, List.length_cons]
    omega
  · have hlength := length_of_withoutEnd? _hbody
    simp only [List.length_cons]
    omega

/-- The phrasing of the small language. -/
def smallPhrasing : Phrasing where
  operands? _ _ text := smallOperands text.toList
  commented _ _ := false
  runsOn _ _ := false
  breaks _ _ := false

/-- The parser of the small language: it reads an expression in parentheses on lines of its own, and a
call of a function of the runtime. -/
def smallParser : Parser where
  expression? _ text := (smallOperands text.toList).map Operand.together
  program? _ text :=
    let item (n : Node) : List Item := [⟨.perform n, 0, text.utf8ByteSize⟩]
    match text.toList with
    | '(' :: '\n' :: rest => do
        let body ← withoutEnd? ['\n', ')', ';'] rest
        let os ← smallOperands body
        some (item (.paren (Operand.together os)))
    | '$' :: '.' :: rest => do
        let body ← withoutEnd? [')', ';'] ((rest.dropWhile (· != '(')).drop 1)
        let os ← smallOperands body
        let name := String.ofList (rest.takeWhile (· != '('))
        some (item (.call (.member (.ident "$") name) [] (os.map Operand.node)))
    | _ => none
  bindings := bindings

/-! ### How texts are divided -/

theorem smallOperands_close (rest : List Char) : smallOperands (')' :: rest) = none := by
  rw [smallOperands]
  · have hnone : smallAtoms.find? (·.1.toList == ')' :: rest) = none := by
      simp only [smallAtoms, List.find?_cons]
      rfl
    rw [hnone]
    rfl
  all_goals simp

/-- The node of a spot is an operand in front of a comma. -/
theorem smallOperands_spot {name : List Char} (hname : ',' ∉ name) (more : List Char) :
    smallOperands ('$' :: (name ++ ',' :: ' ' :: more)) =
      (smallOperands more).map (⟨String.ofList ('$' :: name), spotNode name⟩ :: ·) := by
  have hplain : ∀ c ∈ name, (c != ',') = true := fun c hc => by
    simpa using fun heq : c = ',' => hname (heq ▸ hc)
  have htake : (name ++ ',' :: ' ' :: more).takeWhile (· != ',') = name := by
    rw [List.takeWhile_append_of_pos hplain]
    simp
  have hdrop : (name ++ ',' :: ' ' :: more).dropWhile (· != ',') = ',' :: ' ' :: more := by
    rw [List.dropWhile_append_of_pos hplain]
    simp
  rw [smallOperands]
  split
  · next more' heq =>
      rw [hdrop] at heq
      obtain rfl : more = more' := by simpa using heq
      rw [htake]
  · next hnone => exact absurd hdrop (hnone more)

/-- The body of an arrow function is the operand behind the arrow. -/
theorem smallOperands_arrow (rest : List Char) :
    smallOperands ('(' :: ')' :: ' ' :: '=' :: '>' :: ' ' :: rest) =
      match smallOperands rest with
      | some (o :: os) => some (⟨"() => " ++ o.code, .arrow [] [] .absent [o.node]⟩ :: os)
      | _ => none := by
  rw [smallOperands]
  rfl

/-- An expression in parentheses is an operand. -/
theorem smallOperands_paren {cs : List Char} {os : List Operand} (h : smallOperands cs = some os) :
    smallOperands ('(' :: (cs ++ [')'])) =
      some [⟨String.ofList ('(' :: (cs ++ [')'])), .paren (Operand.together os)⟩] := by
  have hplain : [')', ' ', '=', '>', ' '].isPrefixOf (cs ++ [')']) = false := by
    cases cs with
    | nil => rfl
    | cons c rest =>
        have hc : c ≠ ')' := by
          rintro rfl
          rw [smallOperands_close] at h
          cases h
        simp [List.isPrefixOf, Ne.symm hc]
  rw [smallOperands, hplain, if_neg Bool.false_ne_true]
  split
  · next body heq =>
      obtain rfl : cs = body := by simpa [withoutEnd?_append] using heq
      rw [h]
      rfl
  · next hnone => simp [withoutEnd?_append] at hnone

/-- There is an operand, and none is a sequence. -/
theorem smallOperands_single {cs : List Char} {os : List Operand} (h : smallOperands cs = some os) :
    os ≠ [] ∧ ∀ o ∈ os, o.node.isSequence = false := by
  have hspot : ∀ name, (spotNode name).isSequence = false := fun name => by
    unfold spotNode
    split <;> rfl
  have hatom : ∀ a ∈ smallAtoms, a.2.isSequence = false := by decide
  fun_induction smallOperands cs generalizing os with
  | case1 rest more hmore name =>
      rename_i ih
      obtain ⟨os', hos', rfl⟩ := Option.map_eq_some_iff.mp h
      simpa [hspot] using (ih hos').2
  | case2 => cases h
  | case3 rest hprefix o os' hos' ih =>
      obtain rfl := Option.some.inj h
      simpa [Node.isSequence] using (List.forall_mem_cons.mp (ih hos').2).2
  | case4 => cases h
  | case5 rest hprefix body hbody ih =>
      obtain ⟨os', -, rfl⟩ := Option.map_eq_some_iff.mp h
      simp [Node.isSequence]
  | case6 => cases h
  | case7 rest value hvalue =>
      rw [hvalue] at h
      obtain rfl := Option.some.inj h
      simp [Node.isSequence]
  | case8 rest hnone =>
      split at h
      · next value hvalue => exact absurd hvalue (hnone value)
      · cases h
  | case9 cs =>
      obtain ⟨⟨code, n⟩, ha, rfl⟩ := Option.map_eq_some_iff.mp h
      simpa using hatom _ (List.mem_of_find?_eq_some ha)

/-! ### The productions -/

/-- The code of the node of a spot has no comma in it. -/
theorem exists_target_eq (reference : Option Nat) : ∃ name : List Char,
    (Client.target reference).toList = '$' :: name ∧ ',' ∉ name ∧ IsTarget reference (spotNode name) := by
  cases reference with
  | none => exact ⟨['n', 'o', 'd', 'e'], by decide, by decide, rfl⟩
  | some r =>
      refine ⟨'r' :: 'e' :: 'f' :: 's' :: '[' :: (Nat.toDigits 10 r ++ [']']), ?_, ?_, ?_⟩
      · simp [Client.target, Nat.toList_repr]
      · have hdigits : ',' ∉ Nat.toDigits 10 r := fun hmem =>
          absurd (Nat.isDigit_of_mem_toDigits (by decide) (by decide) hmem) (by decide)
        simp [hdigits]
      · exact ⟨_, rfl⟩

/-- **The productions hold** of the small language. -/
theorem composes_smallParser (typed : Bool) : smallPhrasing.Composes smallParser typed where
  enclosed {text n start stop} h := by
    have htext : ("(\n" ++ text ++ "\n);").toList =
        '(' :: '\n' :: (text.toList ++ ['\n', ')', ';']) := by simp
    simp only [smallParser, htext, withoutEnd?_append, Option.bind_eq_bind, Option.bind_some] at h
    obtain ⟨os, hos, hitem⟩ := Option.bind_eq_some_iff.mp h
    refine ⟨os, hos, ?_⟩
    simp only [Option.some.injEq, List.cons.injEq, Item.mk.injEq, Node.perform.injEq,
      Node.paren.injEq] at hitem
    exact hitem.1.1.symm
  whole {text os} h := by
    have hos : smallOperands text.toList = some os := h
    simp [smallParser, hos]
  single h := smallOperands_single h
  awaits h := h
  string {text value} hquoted h awaits := by
    obtain ⟨rest, htext⟩ : ∃ rest, text.toList = '"' :: rest := by
      cases hcs : text.toList with
      | nil => simp [hcs] at hquoted
      | cons c rest => exact ⟨rest, by simpa [hcs] using hquoted⟩
    refine ⟨⟨text, ?_⟩, rfl, rfl⟩
    show smallOperands text.toList = _
    rw [htext, smallOperands, ← htext, String.ofList_toList, h]
  behindTarget {text os} reference h _ := by
    obtain ⟨name, hname, hcomma, hnode⟩ := exists_target_eq reference
    refine ⟨⟨⟨String.ofList ('$' :: name), spotNode name⟩, hnode, ?_⟩, rfl⟩
    have hos : smallOperands text.toList = some os := h
    have htext : (Client.target reference ++ ", " ++ text).toList =
        '$' :: (name ++ ',' :: ' ' :: text.toList) := by simp [hname]
    show smallOperands _ = _
    rw [htext, smallOperands_spot hcomma, hos]
    rfl
  behindArrow {text o os} h _ _ := by
    have hos : smallOperands text.toList = some (o :: os) := h
    refine ⟨?_, rfl⟩
    show smallOperands ("() => " ++ text).toList = _
    have htext : ("() => " ++ text).toList = '(' :: ')' :: ' ' :: '=' :: '>' :: ' ' :: text.toList := by
      simp
    rw [htext, smallOperands_arrow, hos]
  inParentheses {text os _} h _ := by
    have htext : ("(" ++ text ++ ")").toList = '(' :: (text.toList ++ [')']) := by simp
    refine ⟨?_, rfl⟩
    show smallOperands ("(" ++ text ++ ")").toList = _
    rw [htext, smallOperands_paren h, ← htext, String.ofList_toList]
  asArguments {text name os} hname h _ := by
    have hplain : ∀ c ∈ name.toList, (c != '(') = true := fun c hc => by
      have hpart := (isNamePart_of_isName hname).2 c hc
      simp only [bne_iff_ne, ne_eq]
      rintro rfl
      revert hpart
      decide
    have htext : ("$." ++ name ++ "(" ++ text ++ ");").toList =
        '$' :: '.' :: (name.toList ++ '(' :: (text.toList ++ [')', ';'])) := by simp
    have hos : smallOperands text.toList = some os := h
    refine ⟨0, ("$." ++ name ++ "(" ++ text ++ ");").utf8ByteSize, ?_⟩
    simp only [smallParser, htext]
    rw [List.takeWhile_append_of_pos hplain, List.dropWhile_append_of_pos hplain]
    simp [withoutEnd?_append, hos]

/-! ### What is taken as it is -/

theorem smallOperands_atom {a : String × Node} (h : a ∈ smallAtoms) :
    smallOperands a.1.toList = some [⟨a.1, a.2⟩] := by
  revert a
  simp only [smallAtoms, List.forall_mem_cons, List.not_mem_nil, false_implies, implies_true, and_true]
  refine ⟨?_, ?_, ?_, ?_⟩
  all_goals
    rw [smallOperands]
    · rfl
    all_goals simp

/-- A trimmed expression of the small language is read, and its tree is that of its operands. -/
theorem parse_smallParser {typed : Bool} {text : String} {os : List Operand} (hne : text.isEmpty = false)
    (htrim : trim text = text) (h : smallOperands text.toList = some os) :
    let n := Operand.together os
    let found := usesAll bindings {} [.perform (.paren n)]
    let e : Expression := {
      code := text
      dependencies := readNames found
      assigned := assignedNames found
      shape := n.shape
      literal := n.literalText? }
    Expression.parse smallParser typed text = .ok e ∧ e.HasTree smallParser typed n := by
  have htext : ("(\n" ++ text ++ "\n);").toList =
      '(' :: '\n' :: (text.toList ++ ['\n', ')', ';']) := by simp
  have hprogram : smallParser.program? typed ("(\n" ++ text ++ "\n);") =
      some [⟨.perform (.paren (Operand.together os)), 0, ("(\n" ++ text ++ "\n);").utf8ByteSize⟩] := by
    simp only [smallParser, htext, withoutEnd?_append, Option.bind_eq_bind, Option.bind_some, h]
  have hstart : smallParser.expression? typed text = some (Operand.together os) := by
    simp [smallParser, h]
  refine ⟨?_, 0, _, hprogram⟩
  have hbindings : smallParser.bindings = bindings := rfl
  simp [Expression.parse, htrim, hne, hstart, hprogram, hbindings]

end Stencil.Script
