import Stencil.Proofs.Texts
import Stencil.Render.Emitter

/-!
# What is printed, step by step

Between two steps of printing there is a last line on which nothing stands, and its indent is the
current one (`Emitter.Ready`).  So a step prints at the indent of its own time, whatever is printed
before and after it, and the printed text is what the steps print one after another (`source_run`).
A statement may take several lines.  It is cut at its line feeds and put together again at the same
places, with nothing between the lines.
-/

namespace Stencil.Render

open Stencil.Text

/-! ### What a step prints -/

/-- The indent behind a step, given the indent before it. -/
def Command.indent (level : Nat) : Command → Nat
  | .line _ => level
  | .statement _ => level
  | .deeper => level + 1
  | .shallower => level - 1

/-- A statement as it is printed: its trimmed text.  Of the first line the carriage returns at the end
are left out, and all that follows it is as it was. -/
def keptStatement (text : String) : String :=
  let cs := trimList text.toList
  String.ofList ((cs.takeWhile (· != '\n')).rdropWhile (· == '\r') ++ cs.dropWhile (· != '\n'))

/-- What a step prints behind the indent, if it prints anything. -/
def Command.printed? : Command → Option String
  | .line text => if text.isEmpty then none else some text
  | .statement text => if isSpaces text then none else some (keptStatement text)
  | .deeper => none
  | .shallower => none

/-- An indent: two spaces for each level. -/
def indentText (level : Nat) : String := String.ofList (List.replicate (2 * level) ' ')

/-- What some steps print, each of them behind the indent of its time. -/
def printedFrom (level : Nat) : List Command → List String
  | [] => []
  | c :: rest => (c.printed?.map (indentText level ++ ·)).toList ++ printedFrom (c.indent level) rest

/-! ### Lines -/

/-- Texts one after another, each of them behind a line feed. -/
def onLines (texts : List String) : List Char := texts.flatMap fun text => '\n' :: text.toList

/-- Lines joined are on lines one behind another. -/
theorem onLines_append (a b : List String) : onLines (a ++ b) = onLines a ++ onLines b :=
  List.flatMap_append

/-- The first line is in front of the others. -/
theorem onLines_cons (text : String) (texts : List String) :
    onLines (text :: texts) = '\n' :: text.toList ++ onLines texts := rfl

/-- Joined texts have a line feed in front of all of them but the first. -/
theorem toList_joinWith (texts : List String) :
    (joinWith "\n" texts).toList = (onLines texts).drop 1 := by
  cases texts with
  | nil => rfl
  | cons text rest =>
      rw [onLines_cons, List.cons_append, List.drop_one, List.tail_cons]
      induction rest generalizing text with
      | nil => simp [joinWith, onLines]
      | cons next rest ih =>
          have hjoined := ih next
          simp only [joinWith] at hjoined ⊢
          rw [String.intercalate_cons_cons, String.toList_append, String.toList_append, hjoined,
            onLines_cons]
          simp

/-- A text is cut at its line feeds, and all line feeds are where it was cut. -/
theorem splitAt_eq (cs : List Char) : ∃ others, splitAt '\n' cs = cs.takeWhile (· != '\n') :: others ∧
    onLines (others.map String.ofList) = cs.dropWhile (· != '\n') := by
  induction cs with
  | nil => exact ⟨[], rfl, rfl⟩
  | cons c rest ih =>
      obtain ⟨others, hsplit, hothers⟩ := ih
      by_cases hc : c = '\n'
      · subst hc
        refine ⟨rest.takeWhile (· != '\n') :: others, by simp [splitAt, hsplit], ?_⟩
        rw [List.map_cons, onLines_cons, hothers, String.toList_ofList, List.cons_append,
          List.takeWhile_append_dropWhile]
        simp
      · exact ⟨others, by simp [splitAt, hsplit, hc], by simpa [hc] using hothers⟩

/-! ### One step -/

namespace Emitter

/-- Nothing stands on the last line, and it is at the current indent. -/
def Ready (e : Emitter) : Prop := e.last = { indent := e.indent }

/-- The printed texts of the lines before the last. -/
def texts (e : Emitter) : List String := e.done.reverse.filterMap lineText

variable {e : Emitter}

/-- An emitter that starts is ready. -/
theorem ready_start (level : Nat) : (start level).Ready := rfl

/-- A line that is done adds what it prints to the texts. -/
theorem texts_of_done {done : List Line} {last : Line} {indent : Nat} (l : Line) :
    ({ done := l :: done, last, indent } : Emitter).texts =
      ({ done, last, indent } : Emitter).texts ++ (lineText l).toList := by
  simp only [texts, List.reverse_cons, List.filterMap_append]
  cases h : lineText l <;> simp [h]

/-- The lines of a ready emitter are its texts. -/
theorem Ready.lines (h : e.Ready) : e.lines.filterMap lineText = e.texts := by
  have hlast : lineText e.last = none := by
    rw [h]
    rfl
  simp [Emitter.lines, texts, hlast]

/-- **A line** goes behind the lines before it, at the current indent. -/
theorem Ready.printLine (h : e.Ready) (text : String) :
    (e.printLine text).Ready ∧ (e.printLine text).indent = e.indent ∧
      (e.printLine text).texts =
        e.texts ++ if text.isEmpty then [] else [indentText e.indent ++ text] := by
  obtain ⟨done, last, indent⟩ := e
  obtain rfl : last = { indent } := h
  unfold Emitter.printLine Emitter.print
  by_cases hempty : text.isEmpty = true
  · simp only [if_pos hempty, if_true]
    exact ⟨rfl, rfl, texts_of_done _⟩
  · simp only [if_neg hempty, if_true]
    refine ⟨rfl, rfl, (texts_of_done _).trans ?_⟩
    simp [write, lineText, indentText, texts]

/-- **A line that is kept** goes behind the lines before it, without indent. -/
theorem Ready.keepLine (h : e.Ready) (text : String) :
    (e.keepLine text).Ready ∧ (e.keepLine text).indent = e.indent ∧
      (e.keepLine text).texts = e.texts ++ [text] := by
  obtain ⟨done, last, indent⟩ := e
  obtain rfl : last = { indent } := h
  refine ⟨rfl, rfl, (texts_of_done _).trans ?_⟩
  simp [write, lineText, texts]

/-- Keeping lines adds them to the texts and leaves the emitter ready. -/
theorem Ready.keepLines (h : e.Ready) (lines : List (List Char)) :
    let e' := lines.foldl (fun e line => e.keepLine (String.ofList line)) e
    e'.Ready ∧ e'.indent = e.indent ∧ e'.texts = e.texts ++ lines.map String.ofList := by
  induction lines generalizing e with
  | nil => exact ⟨h, rfl, (List.append_nil _).symm⟩
  | cons line rest ih =>
      obtain ⟨hready, hindent, htexts⟩ := h.keepLine (String.ofList line)
      obtain ⟨hready', hindent', htexts'⟩ := ih hready
      refine ⟨hready', hindent'.trans hindent, htexts'.trans ?_⟩
      rw [htexts, List.append_assoc]
      rfl

/-- A statement that is not blank starts with a character that is printed. -/
theorem firstLine_ne_nil {text : String} (h : isSpaces text = false) :
    ((trimList text.toList).takeWhile (· != '\n')).rdropWhile (· == '\r') ≠ [] := by
  obtain ⟨c, hc, hspace⟩ : ∃ c ∈ text.toList, isSpace c = false := by
    simpa [isSpaces] using h
  have hmem := mem_trimList hc hspace
  obtain ⟨first, rest, htrim⟩ := List.exists_cons_of_ne_nil (List.ne_nil_of_mem hmem)
  have hfirst : isSpace first = false :=
    (trimList_eq_self_iff.mp (trimList_trimList text.toList)).1 first (by rw [htrim]; rfl)
  have hfeed : first ≠ '\n' := by
    rintro rfl
    exact absurd hfirst (by decide)
  rw [htrim, List.takeWhile_cons_of_pos (by simpa using hfeed), ne_eq, List.rdropWhile_eq_nil_iff]
  intro hall
  obtain rfl : first = '\r' := by simpa using hall first List.mem_cons_self
  exact absurd hfirst (by decide)

/-- A blank text trims to nothing. -/
theorem trimList_of_isSpaces {text : String} (h : isSpaces text = true) :
    trimList text.toList = [] := by
  rw [List.eq_nil_iff_forall_not_mem]
  intro c hc
  have hnone : trimStartList text.toList = [] :=
    List.dropWhile_eq_nil_iff.mpr (List.all_eq_true.mp h)
  rw [trimList, hnone] at hc
  simp [trimEndList] at hc

/-- A statement is its first line, as one that is printed, and the others, as they are. -/
theorem statement_eq (e : Emitter) {text : String} {others : List (List Char)}
    (h : splitAt '\n' (trimList text.toList) =
      (trimList text.toList).takeWhile (· != '\n') :: others) :
    e.statement text = others.foldl (fun e line => e.keepLine (String.ofList line))
      (e.printLine (String.ofList
        (((trimList text.toList).takeWhile (· != '\n')).rdropWhile (· == '\r')))) := by
  rw [Emitter.statement, h]
  rfl

/-- **A statement** is printed line by line, and the lines make up its text. -/
theorem Ready.statement (h : e.Ready) (text : String) :
    (e.statement text).Ready ∧ (e.statement text).indent = e.indent ∧
      onLines (e.statement text).texts = onLines e.texts ++
        onLines (if isSpaces text then [] else [indentText e.indent ++ keptStatement text]) := by
  obtain ⟨others, hsplit, hothers⟩ := splitAt_eq (trimList text.toList)
  obtain ⟨hready, hindent, htexts⟩ := h.printLine
    (String.ofList (((trimList text.toList).takeWhile (· != '\n')).rdropWhile (· == '\r')))
  obtain ⟨hready', hindent', htexts'⟩ := hready.keepLines others
  rw [statement_eq e hsplit]
  refine ⟨hready', hindent'.trans hindent, ?_⟩
  rw [htexts', htexts, onLines_append, onLines_append, hothers, List.append_assoc,
    List.append_right_inj]
  by_cases hblank : isSpaces text = true
  · simp [hblank, trimList_of_isSpaces hblank, onLines]
  · have hsome := firstLine_ne_nil (Bool.eq_false_iff.mpr hblank)
    simp [hblank, hsome, onLines, keptStatement]

/-- Setting the indentation changes nothing else. -/
theorem Ready.setIndent (h : e.Ready) (level : Nat) :
    (e.setIndent level).Ready ∧ (e.setIndent level).indent = level ∧
      (e.setIndent level).texts = e.texts := by
  obtain ⟨done, last, indent⟩ := e
  obtain rfl : last = { indent } := h
  exact ⟨rfl, rfl, rfl⟩

/-- **One step.**  It prints its text behind the current indent, and behind all that was printed
before. -/
theorem Ready.step (h : e.Ready) (c : Command) :
    (e.step c).Ready ∧ (e.step c).indent = c.indent e.indent ∧
      onLines (e.step c).texts = onLines e.texts ++
        onLines (c.printed?.map (indentText e.indent ++ ·)).toList := by
  cases c with
  | line text =>
      obtain ⟨hready, hindent, htexts⟩ := h.printLine text
      refine ⟨hready, hindent, ?_⟩
      rw [Emitter.step, htexts, onLines_append, Command.printed?]
      by_cases hempty : text.isEmpty = true
      · simp only [if_pos hempty, Option.map_none, Option.toList_none]
      · simp only [if_neg hempty, Option.map_some, Option.toList_some]
  | statement text =>
      obtain ⟨hready, hindent, htexts⟩ := h.statement text
      refine ⟨hready, hindent, ?_⟩
      rw [Emitter.step, htexts, Command.printed?]
      by_cases hblank : isSpaces text = true
      · simp only [if_pos hblank, Option.map_none, Option.toList_none]
      · simp only [if_neg hblank, Option.map_some, Option.toList_some]
  | deeper =>
      obtain ⟨hready, hindent, htexts⟩ := h.setIndent (e.indent + 1)
      refine ⟨hready, hindent, ?_⟩
      rw [Emitter.step, Emitter.deeper, htexts]
      exact (List.append_nil _).symm
  | shallower =>
      obtain ⟨hready, hindent, htexts⟩ := h.setIndent (e.indent - 1)
      refine ⟨hready, hindent, ?_⟩
      rw [Emitter.step, Emitter.shallower, htexts]
      exact (List.append_nil _).symm

/-- **A run** prints what its steps print, one behind the other. -/
theorem Ready.run (h : e.Ready) (commands : List Command) :
    (e.run commands).Ready ∧ onLines (e.run commands).texts =
      onLines e.texts ++ onLines (printedFrom e.indent commands) := by
  induction commands generalizing e with
  | nil => exact ⟨h, (List.append_nil _).symm⟩
  | cons c rest ih =>
      obtain ⟨hready, hindent, htexts⟩ := h.step c
      obtain ⟨hready', htexts'⟩ := ih hready
      refine ⟨hready', htexts'.trans ?_⟩
      rw [htexts, hindent, printedFrom, onLines_append, List.append_assoc]

end Emitter

/-- **Printing keeps what is printed.**  Whatever lines and statements are printed at whatever
indents, the printed text is these lines and statements in order, without the empty lines and the blank
statements, each of them behind the indent of its time and with a line feed between them.  A statement
is its trimmed text up to the carriage returns at the end of its first line, byte for byte. -/
theorem source_run (level : Nat) (commands : List Command) :
    ((Emitter.start level).run commands).source = joinWith "\n" (printedFrom level commands) := by
  obtain ⟨hready, htexts⟩ := (Emitter.ready_start level).run commands
  rw [← String.toList_inj, Emitter.source, hready.lines, toList_joinWith, toList_joinWith, htexts]
  rfl

end Stencil.Render
