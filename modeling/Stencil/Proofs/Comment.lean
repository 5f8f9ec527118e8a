import Stencil.Proofs.Outline
import Stencil.Proofs.Pasted
import Stencil.Script.Lexer

/-!
# Line comments in pasted code

An expression of a template is accepted if it can be read on lines of its own, so it may end with a
line comment.  In the generated module it does not stand on a line of its own: the line goes on behind
it, in the printed text (`Printed.held_source`), in the code of a component (`Component.held_render`)
and in the whole module.  There the comment takes the rest of the line (`compile_takesLine`), and with
it the parenthesis that should close the call: such a module is compiled without an error and cannot
be read (`not_read_commented`).
-/

namespace Stencil.Render

open Stencil.Markup Stencil.Text
open Stencil.Script (Expression isLineEnd)

variable {code text : String}

section Lines

theorem done_printLine (e : Emitter) (text : String) :
    (e.printLine text).done = (if text.isEmpty then e else e.write text).last :: e.done := by
  unfold Emitter.printLine Emitter.print
  split <;> rfl

/-- A step keeps the lines that were ended before it. -/
theorem done_suffix_step (e : Emitter) (c : Command) : e.done <:+ (e.step c).done := by
  have hindent : ∀ indent, (e.setIndent indent).done = e.done := by
    intro indent
    unfold Emitter.setIndent
    dsimp only
    split <;> rfl
  cases c with
  | line text =>
      rw [Emitter.step, done_printLine]
      exact List.suffix_cons _ _
  | statement text =>
      unfold Emitter.step Emitter.statement
      dsimp only
      split
      · exact List.suffix_rfl
      · next first others _ =>
          refine List.foldlRecOn (motive := fun e' : Emitter => e.done <:+ e'.done) others _ ?_ ?_
          · rw [done_printLine]
            exact List.suffix_cons _ _
          · intro e' h line _
            exact h.trans (List.suffix_cons _ _)
  | deeper => rw [Emitter.step, Emitter.deeper, hindent]
  | shallower => rw [Emitter.step, Emitter.shallower, hindent]

theorem done_suffix_run (e : Emitter) (commands : List Command) :
    e.done <:+ (e.run commands).done := by
  unfold Emitter.run
  induction commands generalizing e with
  | nil => exact List.suffix_rfl
  | cons c commands ih => exact (done_suffix_step e c).trans (ih (e.step c))

/-- A line of code that goes on goes on in the printed text. -/
theorem Printed.held_source {commands : List Command} (h : Printed code commands) (e : Emitter) :
    Held code (e.run commands).source := by
  obtain ⟨text, htext, hheld⟩ := h
  obtain ⟨front, back, rfl⟩ := List.append_of_mem htext
  have hrun : e.run (front ++ .line text :: back) = ((e.run front).step (.line text)).run back := by
    simp [Emitter.run]
  obtain ⟨l, hl, before, hbefore⟩ : ∃ l ∈ ((e.run front).step (.line text)).done, ∃ before,
      l.text = some (before ++ text) := by
    rw [Emitter.step, done_printLine, hheld.isEmpty_eq_false]
    exact ⟨_, .head _, _, rfl⟩
  have hlast : l ∈ (e.run (front ++ .line text :: back)).lines := by
    rw [hrun, Emitter.lines, List.mem_reverse]
    exact .tail _ ((done_suffix_run _ back).subset hl)
  have hlineText : ∃ indent, Emitter.lineText l = some (indent ++ (before ++ text)) :=
    ⟨_, by rw [Emitter.lineText, hbefore]; rfl⟩
  obtain ⟨indent, hindent⟩ := hlineText
  exact ((hheld.prepend before).prepend indent).joinWith "\n"
    (List.mem_filterMap.mpr ⟨l, hlast, hindent⟩)

end Lines

end Stencil.Render

namespace Stencil

open Stencil.Render Stencil.Source
open Stencil.Script (Language gap isLineEnd)

variable {code : String}

/-- Every expression of a component, at any depth, is printed with something behind it on its
line. -/
theorem Component.held_render (c : Component) (t : Target) {f : Frame} (hf : f ∈ c.base.frames)
    (h : code ∈ f.codes t) : Held code (c.render t) := by
  obtain ⟨names, hinside⟩ := frameCommands_subset t c.updated c.base hf
  have hbody : frameCommands t c.updated c.base ⊆ c.renderBody t := by
    cases t with
    | client =>
        rw [Component.renderBody_client]
        exact fun _ hc => hc
    | server =>
        rw [Component.renderBody_server]
        exact subset_withHtml _
  have hcommands : c.renderBody t ⊆ c.commands t := by
    intro command hcommand
    have hinner := indented_subset _
      (List.mem_append_right ((c.script.getD []).map .statement) hcommand)
    exact List.mem_append_left _ (List.mem_append_right _ (.tail _ hinner))
  exact ((((printed_frame t names h).mono hinside).mono hbody).mono hcommands).held_source _

theorem Template.held_renderCode {o : Options} {t : Template} (hfresh : t.Fresh o) {c : Component}
    (hc : c ∈ t.components) {f : Frame} (hf : f ∈ c.base.frames) (h : code ∈ f.codes o.target) :
    Held code t.renderCode := by
  have hbody : Held code ("\n\n" ++ (c.generate t.options.target).1) := by
    simp only [Component.generate, hfresh.generated c hc, hfresh.options]
    exact (c.held_render o.target hf h).prepend _
  have hbodies := hbody.join (List.mem_map_of_mem
    (f := fun c : Component => "\n\n" ++ (c.generate t.options.target).1) hc)
  exact ((hbodies.prepend _).append _).append "\n"

/-- The template that is made of a source text. -/
def filledTemplate (lang : Language) (o : Options) (source : String) : Template :=
  (({ options := o } : Template).addDocument lang (parseTemplate lang o source).document).1

theorem fresh_filledTemplate (lang : Language) (o : Options) (source : String) :
    (filledTemplate lang o source).Fresh o := by
  have hempty : Template.Fresh o { options := o } := ⟨rfl, rfl, by simp⟩
  exact hempty.addDocument lang _

/-- What is compiled is the code of the template. -/
theorem compile_js {lang : Language} {o : Options} {source : String} {r : Compiled}
    (h : compile lang o source = .ok r) : r.js = (filledTemplate lang o source).renderCode := by
  unfold compile at h
  split at h
  · cases h
  · dsimp only at h
    split at h
    · cases h
    · cases h
      have houtput := (fresh_filledTemplate lang o source).output
      unfold filledTemplate at houtput ⊢
      simp only [Template.generate, houtput, Template.render]

section Reader

theorem rest_gap_eq (state : Script.GapState) (size size' : Nat) (newline newline' : Bool)
    (cs : List Char) :
    (gap state size newline cs).rest = (gap state size' newline' cs).rest := by
  induction cs generalizing state size size' newline newline' with
  | nil => rfl
  | cons c rest ih =>
      cases state with
      | blank =>
          simp only [gap]
          repeat' split
          all_goals first | rfl | exact ih _ _ _ _ _
      | lineComment =>
          simp only [gap]
          split <;> exact ih _ _ _ _ _
      | openMark => exact ih _ _ _ _ _
      | blockComment =>
          simp only [gap]
          split <;> exact ih _ _ _ _ _
      | closeMark => exact ih _ _ _ _ _

/-- A line comment goes to the end of its line. -/
theorem rest_gap_lineComment (size : Nat) (newline : Bool) (cs : List Char) :
    (gap .lineComment size newline cs).rest =
      (gap .blank 0 false (cs.dropWhile (!isLineEnd ·))).rest := by
  induction cs generalizing size newline with
  | nil => rfl
  | cons c rest ih =>
      cases hend : isLineEnd c with
      | false => simp only [gap, hend, List.dropWhile_cons, Bool.not_false, if_true,
          Bool.false_eq_true, if_false, ih]
      | true =>
          simp only [gap, hend, List.dropWhile_cons, Bool.not_true, Bool.false_eq_true, if_false,
            if_true]
          split <;> exact rest_gap_eq _ _ _ _ _ _

/-- Behind the marks of a line comment, the rest of the line is not read. -/
theorem rest_gap_comment (size : Nat) (newline : Bool) {comment after : String}
    (hcomment : ∀ c ∈ comment.toList, isLineEnd c = false) :
    (gap .blank size newline ("//" ++ comment ++ after).toList).rest =
      (gap .blank 0 false (after.toList.dropWhile (!isLineEnd ·))).rest := by
  have htext : ("//" ++ comment ++ after).toList =
      '/' :: '/' :: (comment.toList ++ after.toList) := by
    simp
  have hskip : ('/' :: (comment.toList ++ after.toList)).dropWhile (!isLineEnd ·) =
      after.toList.dropWhile (!isLineEnd ·) := by
    rw [← List.cons_append, List.dropWhile_append_of_pos]
    intro c hc
    rcases List.mem_cons.mp hc with rfl | hmem
    · rfl
    · rw [hcomment c hmem]
      rfl
  rw [htext, ← hskip, ← rest_gap_lineComment (size + ('/').utf8Size) newline]
  rfl

end Reader

/-- **A line comment takes the line.**  In every module that is compiled, every expression of the
template is followed by something on its line.  If the expression ends with a line comment, what
follows is read as part of the comment: behind it, reading goes on at the end of the line. -/
theorem compile_takesLine {lang : Language} {o : Options} {source : String} {r : Compiled}
    (h : compile lang o source = .ok r) {c : Component}
    (hc : c ∈ (filledTemplate lang o source).components) {f : Frame} (hf : f ∈ c.base.frames)
    {code : String} (hcode : code ∈ f.codes o.target) :
    ∃ before after, r.js = before ++ code ++ after ∧ goesOn after = true ∧
      ∀ front comment, code = front ++ "//" ++ comment →
        (∀ c ∈ comment.toList, isLineEnd c = false) →
          r.js = before ++ front ++ ("//" ++ comment ++ after) ∧ ∀ size newline,
            (gap .blank size newline ("//" ++ comment ++ after).toList).rest =
              (gap .blank 0 false (after.toList.dropWhile (!isLineEnd ·))).rest := by
  obtain ⟨before, after, hjs, hafter⟩ :=
    Template.held_renderCode (fresh_filledTemplate lang o source) hc hf hcode
  rw [← compile_js h] at hjs
  refine ⟨before, after, hjs, hafter, ?_⟩
  intro front comment heq hcomment
  constructor
  · rw [hjs, heq]
    simp only [String.append_assoc]
  · exact fun size newline => rest_gap_comment size newline hcomment

/-- A text that is no program has no parts. -/
theorem Script.Parts.parse_ne_ok {p : Script.Parser} {typescript : Bool} {text : String}
    (h : p.program? typescript text = none) (parts : Script.Parts) :
    Script.Parts.parse p typescript text ≠ .ok parts := by
  simp [Script.Parts.parse, h]

/-- A paragraph with a comment behind the name that it shows. -/
def commented : String := "<p>\x7ba // c\x7d</p>"

/-- The module that is compiled from it. -/
def commentedModule : Compiled where
  js := "import * as $ from \"tessera/runtime\";\n\n" ++
    "export function Component($props = \x7b\x7d) \x7b\n" ++
    "  const $node = $.template(\"<p data-ref=\\\"0\\\"><!--ref:1--></p>\");\n" ++
    "  const $refs = $.refs($node);\n  $.text($refs[1], a // c);\n  return $node;\n\x7d\n\n" ++
    "export default Component;\n"
  css := ""
  diagnostics := []

theorem compile_commented : compile Script.javaScript {} commented = .ok commentedModule := by
  have hsome : (compile Script.javaScript {} commented).toOption = some commentedModule := by
    decide +kernel
  cases hcompiled : compile Script.javaScript {} commented with
  | error e => simp [hcompiled, Except.toOption] at hsome
  | ok r =>
      rw [hcompiled, Except.toOption, Option.some.injEq] at hsome
      rw [hsome]

/-- In that module, the parenthesis and the semicolon are part of the comment. -/
theorem compile_takesLine_commented :
    ∃ before after, commentedModule.js = before ++ "a // c" ++ after ∧ goesOn after = true ∧
      commentedModule.js = before ++ "a " ++ ("//" ++ " c" ++ after) ∧ ∀ size newline,
        (gap .blank size newline ("//" ++ " c" ++ after).toList).rest =
          (gap .blank 0 false (after.toList.dropWhile (!isLineEnd ·))).rest := by
  have hfound : ((filledTemplate Script.javaScript {} commented).components.any fun c =>
      c.base.frames.any fun f => (f.codes .client).contains "a // c") = true := by
    decide +kernel
  simp only [List.any_eq_true, List.contains_iff_mem] at hfound
  obtain ⟨c, hc, f, hf, hcode⟩ := hfound
  obtain ⟨before, after, hjs, hafter, hcomment⟩ := compile_takesLine compile_commented hc hf hcode
  have hinLine : ∀ c ∈ " c".toList, isLineEnd c = false := by
    have hall : " c".toList.all (!isLineEnd ·) = true := by decide
    simpa only [List.all_eq_true, Bool.not_eq_true'] using hall
  exact ⟨before, after, hjs, hafter, hcomment "a " " c" rfl hinLine⟩

/-- A module is read from its characters. -/
theorem program?_ofList (typescript : Bool) (cs : List Char) :
    Script.program? typescript (String.ofList cs) =
      match Script.items (Script.grammar (Text.byteSize cs)) { typescript, size := Text.byteSize cs }
        (Script.Cursor.firstOfModule cs) with
      | some (found, c) =>
          if c.accepts && (typescript || !(Script.repeats (found.flatMap Script.Item.exported))) then
            some (found.dropWhile Script.Item.isDirective)
          else none
      | none => none := by
  unfold Script.program?
  rewrite [String.toList_ofList]
  rfl

/-- The module is compiled without an error, and it cannot be read. -/
theorem not_read_commented : ∃ r, compile Script.javaScript {} commented = .ok r ∧
    r.hasErrors = false ∧ ∀ parts, Script.javaScript.script false r.js ≠ .ok parts := by
  have hnone : (Script.program? false commentedModule.js).isNone = true := by
    -- The characters are put in by rewriting: evaluating `toList` is quadratic in the length.
    rw [← @String.ofList_toList commentedModule.js]
    delta commentedModule
    dsimp only
    simp only [String.toList_append]
    repeat rw [String.toList_ofList]
    rw [program?_ofList]
    decide +kernel
  rw [Option.isNone_iff_eq_none] at hnone
  refine ⟨commentedModule, compile_commented, rfl, ?_⟩
  generalize commentedModule.js = text at hnone ⊢
  exact Script.Parts.parse_ne_ok (p := Script.ecmaScript) hnone

end Stencil
