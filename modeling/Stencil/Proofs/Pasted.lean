import Stencil.Proofs.Reactivity
import Stencil.Script.Literal

/-!
# Where the code of an expression is pasted

The code of an expression is written into a line of the generated code, and the line goes on behind
it: with a comma, a parenthesis, a brace or a bracket.  `Held` says so of a text.  It holds of every
expression of a spot, in the browser and on the server (`printed_spot`), of those in static markup
(`Block.held_code`), and so of every frame (`printed_frame`).  The code of a frame holds that of all
frames inside it (`frameCommands_subset`).
-/

namespace Stencil.Render

open Stencil.Markup Stencil.Text
open Stencil.Script (Expression isLineEnd)

/-- Whether a text starts with a character that ends no line. -/
def goesOn (text : String) : Bool := text.toList.head?.any (!isLineEnd ·)

/-- A text goes on if its beginning does. -/
theorem goesOn_append {text : String} (h : goesOn text = true) (more : String) :
    goesOn (text ++ more) = true := by
  unfold goesOn at h ⊢
  cases htext : text.toList with
  | nil => simp [htext] at h
  | cons c rest => simpa [htext] using h

/-- The code stands in a text, and something follows it on the same line. -/
def Held (code text : String) : Prop :=
  ∃ before after, text = before ++ code ++ after ∧ goesOn after = true

/-- The code stands in a text, and if anything follows it, it does on the same line. -/
def Pasted (code text : String) : Prop :=
  ∃ before after, text = before ++ code ++ after ∧ (after = "" ∨ goesOn after = true)

variable {code text : String}

/-- Text in front of a line changes nothing about the code in it. -/
theorem Held.prepend (h : Held code text) (front : String) : Held code (front ++ text) := by
  obtain ⟨before, after, rfl, hafter⟩ := h
  exact ⟨front ++ before, after, by simp only [String.append_assoc], hafter⟩

/-- Text behind a line changes nothing about the code in it. -/
theorem Held.append (h : Held code text) (more : String) : Held code (text ++ more) := by
  obtain ⟨before, after, rfl, hafter⟩ := h
  exact ⟨before, after ++ more, by simp only [String.append_assoc], goesOn_append hafter more⟩

/-- A line with code in it is not empty. -/
theorem Held.isEmpty_eq_false (h : Held code text) : text.isEmpty = false := by
  obtain ⟨before, after, rfl, hafter⟩ := h
  have hne : after ≠ "" := by
    rintro rfl
    exact absurd hafter (by decide)
  simp [hne]

/-- Code with something behind it is pasted. -/
theorem Held.pasted (h : Held code text) : Pasted code text := by
  obtain ⟨before, after, htext, hafter⟩ := h
  exact ⟨before, after, htext, .inr hafter⟩

/-- Code alone is pasted. -/
theorem Pasted.refl (code : String) : Pasted code code := ⟨"", "", by simp, .inl rfl⟩

/-- Text in front of pasted code leaves it pasted. -/
theorem Pasted.prepend (h : Pasted code text) (front : String) : Pasted code (front ++ text) := by
  obtain ⟨before, after, rfl, hafter⟩ := h
  exact ⟨front ++ before, after, by simp only [String.append_assoc], hafter⟩

/-- Behind the code, more text goes on on the same line. -/
theorem Pasted.close (h : Pasted code text) {more : String} (hmore : goesOn more = true) :
    Held code (text ++ more) := by
  obtain ⟨before, after, rfl, rfl | hafter⟩ := h
  · exact ⟨before, more, by simp, hmore⟩
  · exact ⟨before, after ++ more, by simp only [String.append_assoc], goesOn_append hafter more⟩

/-- What stands around one of some texts that are joined. -/
theorem exists_joinWith_eq (sep : String) {texts : List String} (htext : text ∈ texts) :
    ∃ before after, Text.joinWith sep texts = before ++ (text ++ after) ∧
      (after = "" ∨ ∃ more, after = sep ++ more) := by
  unfold Text.joinWith
  induction texts with
  | nil => simp at htext
  | cons first rest ih =>
      cases rest with
      | nil =>
          rw [List.mem_singleton] at htext
          exact ⟨"", "", by simp [htext], .inl rfl⟩
      | cons next rest =>
          rw [String.intercalate_cons_cons]
          rcases List.mem_cons.mp htext with rfl | hrest
          · exact ⟨"", sep ++ sep.intercalate (next :: rest), by simp [String.append_assoc],
              .inr ⟨_, rfl⟩⟩
          · obtain ⟨before, after, heq, hafter⟩ := ih hrest
            refine ⟨first ++ sep ++ before, after, ?_, hafter⟩
            rw [heq]
            simp only [String.append_assoc]

/-- Code in one of some texts stands in all of them joined, with something behind it. -/
theorem Held.joinWith (h : Held code text) (sep : String) {texts : List String}
    (htext : text ∈ texts) : Held code (Text.joinWith sep texts) := by
  obtain ⟨before, after, heq, -⟩ := exists_joinWith_eq sep htext
  rw [heq]
  exact (h.append after).prepend before

/-- Pasted code stays pasted when its text is joined with others, since a comma follows or nothing.
-/
theorem Pasted.joinWith (h : Pasted code text) {texts : List String} (htext : text ∈ texts) :
    Pasted code (Text.joinWith ", " texts) := by
  obtain ⟨before, after, heq, rfl | ⟨more, rfl⟩⟩ := exists_joinWith_eq ", " htext
  · rw [heq, String.append_empty]
    exact h.prepend before
  · rw [heq]
    exact ((h.close (goesOn_append (by decide) more)).prepend before).pasted

/-- Behind an entry that is not the last, the line goes on with a comma. -/
theorem Pasted.joinWith_append (h : Pasted code text) {texts more : List String}
    (htext : text ∈ texts) (hmore : more ≠ []) :
    Held code (Text.joinWith ", " (texts ++ more)) := by
  unfold Text.joinWith
  induction texts with
  | nil => simp at htext
  | cons first rest ih =>
      have hrest : ∃ next others, rest ++ more = next :: others :=
        List.exists_cons_of_ne_nil (by simp [hmore])
      obtain ⟨next, others, hnext⟩ := hrest
      rw [List.cons_append, hnext, String.intercalate_cons_cons, ← hnext]
      rcases List.mem_cons.mp htext with rfl | hmem
      · exact (h.close (by decide)).append _
      · exact (ih hmem).prepend _

/-- Code in one of some texts stands in them one behind another. -/
theorem Held.join (h : Held code text) {texts : List String} (htext : text ∈ texts) :
    Held code (String.join texts) := by
  obtain ⟨front, back, rfl⟩ := List.append_of_mem htext
  rw [String.join_append, String.join_cons]
  exact (h.append _).prepend _

/-- The expressions of a property. -/
def Property.expressions : Property → List Expression
  | .value _ parts => partExpressions parts
  | .event _ handler => [handler]
  | .bind _ target => [target]

/-- The expressions that the code of a spot is made of, apart from those of the frames inside it. -/
def SpotKind.expressions (t : Target) : SpotKind → List Expression
  | .text e _ => [e]
  | .script _ => []
  | .classes value toggles => partExpressions value ++ toggles.map (·.2)
  | .styles value properties => partExpressions value ++ properties.map (·.2)
  | .attribute _ value => partExpressions value
  | .event _ handler _ => if t = .client then [handler] else []
  | .bind _ target => [target]
  | .ref target => if t = .client then [target] else []
  | .action _ params => if t = .client then params.toList else []
  | .conditional branches => branches.filterMap Branch.condition
  | .each header _ =>
      header.iterable :: (if t = .client then header.key.toList else []) ++ header.guard.toList
  | .slot _ _ => []
  | .invoke _ props _ => props.flatMap Property.expressions

/-- The code of a spot. -/
def spotCommands (t : Target) (names : Reactive) (reference : Option Nat) (kind : SpotKind) :
    List Command :=
  match t with
  | .client => Client.binding names (Client.target reference) kind
  | .server => Server.binding names kind

section Values

variable {e : Expression}

/-- The expressions of some parts are in the parts. -/
theorem exists_part_of_mem {parts : List Part} (h : e ∈ partExpressions parts) :
    ∃ html, Part.expression e html ∈ parts := by
  obtain ⟨part, hpart, he⟩ := List.mem_filterMap.mp h
  cases part with
  | literal text => simp at he
  | expression e' html =>
      rw [Option.some.injEq] at he
      exact ⟨html, he ▸ hpart⟩

/-- The expressions of a value are pasted into its code. -/
theorem pasted_partsValue {value : List Part} (h : e ∈ partExpressions value) :
    Pasted e.code (partsValue value) := by
  obtain ⟨html, hpart⟩ := exists_part_of_mem h
  unfold partsValue
  split
  · simp at hpart
  · rw [List.mem_singleton, Part.expression.injEq] at hpart
    rw [hpart.1]
    exact .refl _
  · split
    · next hliteral =>
        have hnone := List.all_eq_true.mp hliteral _ hpart
        simp [literalOf?] at hnone
    · have hheld : Held e.code (templatePart (.expression e html)) :=
        ((Pasted.refl e.code).prepend _).close (by decide)
      exact (((hheld.join (List.mem_map_of_mem hpart)).prepend _).append _).pasted

/-- Code in an entry stands in the object, with the closing brace behind it. -/
theorem held_objectLiteral {entry : String} (h : Pasted code entry) {entries : List String}
    (hentry : entry ∈ entries) : Held code (objectLiteral entries) := by
  unfold objectLiteral
  split
  · next hempty => simp [List.isEmpty_iff.mp hempty] at hentry
  · exact ((h.joinWith hentry).prepend _).close (by decide)

/-- The expressions of a list of classes or styles are pasted into it. -/
theorem held_combinedList {value : List Part} {entries : List (String × Expression)}
    (h : e ∈ partExpressions value ++ entries.map (·.2)) :
    Held e.code (combinedList value entries) := by
  suffices hlist : ∃ entry, Pasted e.code entry ∧
      entry ∈ (if value.isEmpty then [] else [partsValue value]) ++
        if entries.isEmpty then []
        else [objectLiteral (entries.map fun p => quote p.1 ++ ": " ++ p.2.code)] by
    obtain ⟨entry, hentry, hmem⟩ := hlist
    exact ((hentry.joinWith hmem).prepend _).close (by decide)
  rcases List.mem_append.mp h with hvalue | hentry
  · have hne : value.isEmpty = false := by
      cases value with
      | nil => simp [partExpressions] at hvalue
      | cons => rfl
    exact ⟨_, pasted_partsValue hvalue, List.mem_append_left _ (by simp [hne])⟩
  · obtain ⟨⟨key, e'⟩, hmem, rfl⟩ := List.mem_map.mp hentry
    have hne : entries.isEmpty = false := by
      cases entries with
      | nil => simp at hmem
      | cons => rfl
    have hpasted : quote key ++ ": " ++ e'.code ∈
        entries.map fun p => quote p.1 ++ ": " ++ p.2.code :=
      List.mem_map.mpr ⟨(key, e'), hmem, rfl⟩
    have hpair : Held e'.code
        (objectLiteral (entries.map fun p => quote p.1 ++ ": " ++ p.2.code)) :=
      held_objectLiteral ((Pasted.refl e'.code).prepend (quote key ++ ": ")) hpasted
    exact ⟨_, hpair.pasted, List.mem_append_right _ (by simp [hne])⟩

/-- Parentheses leave code pasted. -/
theorem pasted_wrapObject (h : Pasted code text) : Pasted code (wrapObject text) := by
  unfold wrapObject
  split
  · exact ((h.prepend _).close (by decide)).pasted
  · exact h

/-- So does a function that gives the code. -/
theorem pasted_thunk (h : Pasted code text) (reactive : Bool) :
    Pasted code (thunk text reactive) := by
  unfold thunk
  split
  · exact (pasted_wrapObject h).prepend _
  · exact h

/-- A handler is pasted as it is or with a semicolon behind it. -/
theorem pasted_eventHandler (e : Expression) : Pasted e.code (eventHandler e) := by
  unfold eventHandler
  split
  · exact .refl _
  · exact (((Pasted.refl e.code).prepend _).close (by decide)).pasted

/-- The expressions of a property are pasted into its entry. -/
theorem pasted_propertyEntry (names : Reactive) {p : Property} (h : e ∈ p.expressions) :
    Pasted e.code (propertyEntry names p) := by
  cases p with
  | value name parts =>
      have hvalue := pasted_partsValue h
      have hne : parts.isEmpty = false := by
        cases parts with
        | nil => simp [Property.expressions, partExpressions] at h
        | cons => rfl
      unfold propertyEntry
      simp only [hne, Bool.false_eq_true, if_false]
      split
      · exact ((hvalue.prepend _).close (by decide)).pasted
      · exact hvalue.prepend _
  | event name handler =>
      rw [Property.expressions, List.mem_singleton] at h
      subst h
      exact (pasted_eventHandler e).prepend _
  | bind name target =>
      rw [Property.expressions, List.mem_singleton] at h
      subst h
      exact (((Pasted.refl e.code).prepend _).close (by decide)).pasted

/-- So an expression of some properties is pasted into the entry of one of them. -/
theorem exists_pasted_entry (names : Reactive) {props : List Property}
    (h : e ∈ props.flatMap Property.expressions) :
    ∃ entry ∈ props.map (propertyEntry names), Pasted e.code entry := by
  obtain ⟨p, hp, he⟩ := List.mem_flatMap.mp h
  exact ⟨_, List.mem_map_of_mem hp, pasted_propertyEntry names he⟩

end Values

/-- The code stands in a line that is printed, and the line goes on behind it. -/
def Printed (code : String) (commands : List Command) : Prop :=
  ∃ line, Command.line line ∈ commands ∧ Held code line

/-- What is printed among some commands is printed among more. -/
theorem Printed.mono {commands commands' : List Command} (h : Printed code commands)
    (hsub : commands ⊆ commands') : Printed code commands' := by
  obtain ⟨line, hline, hheld⟩ := h
  exact ⟨line, hsub hline, hheld⟩

/-- Code in a line is printed with the line. -/
theorem Held.printed (h : Held code text) {commands : List Command}
    (hline : Command.line text ∈ commands) : Printed code commands :=
  ⟨text, hline, h⟩

/-- Indented commands are all there. -/
theorem indented_subset (commands : List Command) : commands ⊆ indented commands := by
  intro c hc
  simp [indented, hc]

/-- What is printed inside a function. -/
theorem subset_function (first : Command) (commands back : List Command) :
    commands ⊆ first :: indented commands ++ back :=
  fun _ hc => .tail _ (List.mem_append_left _ (indented_subset _ hc))

section Client

variable {e : Expression}

/-- Code in an argument is printed with the call. -/
theorem printed_call (name : String) {arguments : List String} (h : Pasted code text)
    (htext : text ∈ arguments) : Printed code [Client.call name arguments] :=
  (((h.joinWith htext).prepend _).close (by decide)).printed (.head _)

/-- The key and the guard of a loop are printed at its end. -/
theorem printed_loopEnd {l : Loop} (h : e ∈ l.key.toList ++ l.guard.toList) :
    Printed e.code [Client.loopEnd l] := by
  have hoption : ∃ option ∈ Client.loopOptions l, Pasted e.code option := by
    have harrow : ∀ name : String,
        Pasted e.code (name ++ ": (" ++ loopParams l ++ ") => " ++ wrapObject e.code) :=
      fun name => (pasted_wrapObject (.refl e.code)).prepend _
    rcases List.mem_append.mp h with hkey | hguard
    · rw [Option.mem_toList] at hkey
      exact ⟨_, by simp [Client.loopOptions, hkey], harrow "key"⟩
    · rw [Option.mem_toList] at hguard
      exact ⟨_, by simp [Client.loopOptions, hguard], harrow "filter"⟩
  obtain ⟨option, hmem, hpasted⟩ := hoption
  unfold Client.loopEnd
  split
  · next hnone => simp [hnone] at hmem
  · exact (((held_objectLiteral hpasted hmem).prepend _).append _).printed (.head _)

/-- The conditions of branches are printed for the browser. -/
theorem printed_clientBranch (names : Reactive) (reactive : Bool) {branches : List Branch}
    (h : e ∈ branches.filterMap Branch.condition) :
    Printed e.code (Client.branchList names reactive branches) := by
  induction branches with
  | nil => simp at h
  | cons branch rest ih =>
      obtain ⟨condition, frame⟩ := branch
      simp only [Client.branchList]
      rw [List.filterMap_cons] at h
      cases condition with
      | none => exact (ih h).mono (fun c hc => by simp [hc])
      | some e' =>
          rcases List.mem_cons.mp h with rfl | hrest
          · have hheld := (pasted_thunk (.refl e.code) reactive).prepend "["
            exact (hheld.close (by decide)).printed (.head _)
          · exact (ih hrest).mono (fun c hc => by simp [hc])

/-- In the browser, every expression of a spot is written into a line that goes on behind it. -/
theorem printed_clientBinding (names : Reactive) (target : String) {kind : SpotKind}
    (h : e ∈ kind.expressions .client) : Printed e.code (Client.binding names target kind) := by
  match kind with
  | .text e' html =>
      rw [SpotKind.expressions, List.mem_singleton] at h
      subst h
      exact printed_call _ (pasted_thunk (.refl e.code) _) (.tail _ (.head _))
  | .script statements => simp [SpotKind.expressions] at h
  | .classes value toggles | .styles value toggles =>
      exact printed_call _ (pasted_thunk (held_combinedList h).pasted _) (.tail _ (.head _))
  | .attribute name value =>
      exact printed_call _ (pasted_thunk (pasted_partsValue h) _) (.tail _ (.tail _ (.head _)))
  | .event name handler modifiers =>
      rw [SpotKind.expressions, if_pos rfl, List.mem_singleton] at h
      subst h
      exact printed_call _ (pasted_eventHandler e) (.tail _ (.tail _ (.head _)))
  | .bind property bound =>
      rw [SpotKind.expressions, List.mem_singleton] at h
      subst h
      exact printed_call _ ((Pasted.refl e.code).prepend "() => ") (.tail _ (.tail _ (.head _)))
  | .ref bound =>
      rw [SpotKind.expressions, if_pos rfl, List.mem_singleton] at h
      subst h
      exact printed_call _ (((Pasted.refl e.code).prepend _).close (by decide)).pasted
        (.tail _ (.head _))
  | .action name params =>
      rw [SpotKind.expressions, if_pos rfl, Option.mem_toList] at h
      subst h
      exact printed_call _ ((pasted_wrapObject (.refl e.code)).prepend "() => ")
        (.tail _ (.tail _ (.head _)))
  | .conditional branches =>
      exact (printed_clientBranch names _ h).mono (subset_function _ _ _)
  | .each header body =>
      rw [SpotKind.expressions, if_pos rfl, List.cons_append, List.mem_cons] at h
      rcases h with rfl | hoptions
      · refine Held.printed ?_ (.head _)
        exact ((((pasted_thunk (.refl header.iterable.code) _).prepend _).close
          (by decide)).append _).append _
      · exact (printed_loopEnd hoptions).mono (List.subset_append_right _ _)
  | .slot name fallback => simp [SpotKind.expressions] at h
  | .invoke component props slots =>
      obtain ⟨entry, hmem, hentry⟩ := exists_pasted_entry names h
      have hheld := ((held_objectLiteral hentry hmem).prepend
        ("$.component(" ++ target ++ ", " ++ component ++ ", ")).append ", \x7b"
      simp only [Client.binding]
      split
      · exact (hheld.append _).printed (.head _)
      · exact hheld.printed (.head _)

end Client

section Server

variable {e : Expression}

/-- Code that is added to the markup is printed. -/
theorem printed_add (h : Pasted code text) : Printed code [Server.add text] :=
  ((h.prepend _).close (by decide)).printed (.head _)

/-- The conditions of branches are printed for the server. -/
theorem printed_serverBranch (names : Reactive) (first : Bool) {branches : List Branch}
    (h : e ∈ branches.filterMap Branch.condition) :
    Printed e.code (Server.branchList names first branches) := by
  induction branches generalizing first with
  | nil => simp at h
  | cons branch rest ih =>
      obtain ⟨condition, frame⟩ := branch
      simp only [Server.branchList]
      rw [List.filterMap_cons] at h
      cases condition with
      | none => exact (ih false h).mono (List.subset_append_right _ _)
      | some e' =>
          rcases List.mem_cons.mp h with rfl | hrest
          · exact (((Pasted.refl e.code).prepend _).close (by decide)).printed (.head _)
          · exact (ih false hrest).mono (List.subset_append_right _ _)

/-- On the server, every expression of a spot is written into a line that goes on behind it. -/
theorem printed_serverBinding (names : Reactive) {kind : SpotKind}
    (h : e ∈ kind.expressions .server) : Printed e.code (Server.binding names kind) := by
  have hparen : ∀ {text : String}, Pasted e.code text → ∀ front : String,
      Pasted e.code (front ++ text ++ ")") :=
    fun htext front => ((htext.prepend front).close (by decide)).pasted
  match kind with
  | .text e' html =>
      rw [SpotKind.expressions, List.mem_singleton] at h
      subst h
      exact printed_add (hparen (.refl e.code) _)
  | .script statements => simp [SpotKind.expressions] at h
  | .classes value toggles | .styles value toggles =>
      exact printed_add (hparen (held_combinedList h).pasted _)
  | .attribute name value => exact printed_add (hparen (pasted_partsValue h) _)
  | .event name handler modifiers => simp [SpotKind.expressions] at h
  | .bind property bound =>
      rw [SpotKind.expressions, List.mem_singleton] at h
      subst h
      exact printed_add (hparen (.refl e.code) _)
  | .ref bound => simp [SpotKind.expressions] at h
  | .action name params => simp [SpotKind.expressions] at h
  | .conditional branches =>
      exact (printed_serverBranch names true h).mono (List.subset_append_left _ _)
  | .each header body =>
      rw [SpotKind.expressions, if_neg (by decide), List.cons_append, List.nil_append,
        List.mem_cons, Option.mem_toList] at h
      rcases h with rfl | hguard
      · refine Held.printed ?_ (.head _)
        exact ((Pasted.refl header.iterable.code).prepend _).close (by decide)
      · have hheld := ((Pasted.refl e.code).prepend "if (!(").close
          (show goesOn ")) continue;" = true by decide)
        refine hheld.printed (.tail _ (List.mem_append_left _ (indented_subset _ ?_)))
        simp [hguard]
  | .slot name fallback => simp [SpotKind.expressions] at h
  | .invoke component props slots =>
      obtain ⟨entry, hmem, hentry⟩ := exists_pasted_entry names h
      simp only [Server.binding]
      split
      · exact printed_add (hparen (held_objectLiteral hentry hmem).pasted _)
      · exact ((hentry.joinWith_append hmem (by simp)).prepend _).printed (.head _)

end Server

/-- Every expression of a spot is written into a line that goes on behind it. -/
theorem printed_spot (t : Target) (names : Reactive) (reference : Option Nat) {kind : SpotKind}
    {e : Expression} (h : e ∈ kind.expressions t) :
    Printed e.code (spotCommands t names reference kind) := by
  cases t with
  | client => exact printed_clientBinding names _ h
  | server => exact printed_serverBinding names h

/-- The expression that a piece of static markup is. -/
def Piece.code? : Piece → Option String
  | .constant code _ => some code
  | .html _ => none

/-- The expressions in a block of static markup. -/
def Block.codes (b : Block) : List String := b.pieces.filterMap Piece.code?

/-- The code of a constant stands in that of its block. -/
theorem Block.held_code {b : Block} (h : code ∈ b.codes) : Held code b.code := by
  obtain ⟨piece, hpiece, hcode⟩ := List.mem_filterMap.mp h
  cases piece with
  | html text => simp [Piece.code?] at hcode
  | constant code' raw =>
      rw [Piece.code?, Option.some.injEq] at hcode
      subst hcode
      have hheld : Held code' (templatePiece (.constant code' raw)) := by
        cases raw <;> exact ((Pasted.refl code').prepend _).close (by decide)
      unfold Block.code
      split
      · next hhtml =>
          have hnone := List.all_eq_true.mp hhtml _ hpiece
          simp [htmlOf?] at hnone
      · exact ((hheld.join (List.mem_map_of_mem hpiece)).prepend _).append _

/-- A block keeps its expressions when a piece is added. -/
theorem Block.codes_push (b : Block) (p : Piece) :
    (b.push p).codes = b.codes ++ p.code?.toList := by
  simp only [codes, push]
  fun_induction pushPiece b.pieces p with
  | case1 p => cases p <;> rfl
  | case2 a b => rfl
  | case3 q rest p hne ih =>
      rw [List.filterMap_cons, List.filterMap_cons, ih]
      cases q.code? <;> rfl

/-- The markup of a frame keeps the expressions of its blocks. -/
theorem Frame.codes_markup (f : Frame) : f.markup.codes = f.blocks.flatMap Block.codes := by
  have hfold : ∀ (ps : List Piece) (b : Block),
      (ps.foldl Block.push b).codes = b.codes ++ ps.filterMap Piece.code? := by
    intro ps
    induction ps with
    | nil => simp
    | cons p ps ih =>
        intro b
        rw [List.foldl_cons, ih, Block.codes_push, List.filterMap_cons]
        cases p.code? <;> simp
  rw [Frame.markup, hfold, List.filterMap_flatMap]
  rfl

/-- The expressions of a frame, apart from those of the frames inside it. -/
def Frame.codes (t : Target) (f : Frame) : List String :=
  f.blocks.flatMap Block.codes ++ f.spots.flatMap fun s => (s.kind.expressions t).map (·.code)

/-- The code of a frame. -/
def frameCommands (t : Target) (names : Reactive) (f : Frame) : List Command :=
  match t with
  | .client => Client.body names f
  | .server => Server.statements names f

/-- The code of some spots. -/
def spotsCommands (t : Target) (names : Reactive) (spots : List Spot) : List Command :=
  spots.flatMap fun s => spotCommands t names s.reference s.kind

/-- The bindings for the browser are those of one spot after another. -/
theorem clientSpotList_eq (names : Reactive) (spots : List Spot) :
    Client.spotList names spots = spotsCommands .client names spots := by
  induction spots with
  | nil => rfl
  | cons s rest ih =>
      obtain ⟨reference, position, kind⟩ := s
      rw [Client.spotList, ih]
      rfl

/-- The statements for the server are those of one spot after another. -/
theorem serverSpotList_eq (names : Reactive) (spots : List Spot) :
    (Server.spotList names spots).flatMap Prod.snd = spotsCommands .server names spots := by
  induction spots with
  | nil => rfl
  | cons s rest ih =>
      obtain ⟨reference, position, kind⟩ := s
      rw [Server.spotList, List.flatMap_cons, ih]
      rfl

/-- Between the blocks stands the code of all spots. -/
theorem subset_interleave (index : Nat) (blocks : List Block) (spots : List (Nat × List Command)) :
    spots.flatMap Prod.snd ⊆ Server.interleave index blocks spots := by
  induction blocks generalizing index spots with
  | nil => exact fun _ h => h
  | cons b blocks ih =>
      have hsplit := congrArg (List.flatMap Prod.snd)
        (List.takeWhile_append_dropWhile (p := (·.1 ≤ index)) (l := spots))
      rw [List.flatMap_append] at hsplit
      rw [← hsplit]
      intro c hc
      rcases List.mem_append.mp hc with hhere | hlater
      · exact List.mem_append_left _ hhere
      · exact List.mem_append_right _ (.tail _ (ih _ _ hlater))

/-- Every block is added to the markup, wherever the spots are. -/
theorem add_mem_interleave (index : Nat) {blocks : List Block} (spots : List (Nat × List Command))
    {b : Block} (h : b ∈ blocks) : Server.add b.code ∈ Server.interleave index blocks spots := by
  induction blocks generalizing index spots with
  | nil => simp at h
  | cons b' blocks ih =>
      rcases List.mem_cons.mp h with rfl | hrest
      · exact List.mem_append_right _ (.head _)
      · exact List.mem_append_right _ (.tail _ (ih _ _ hrest))

/-- The code of the spots of a frame is part of the code of the frame. -/
theorem spotsCommands_subset (t : Target) (names : Reactive) (f : Frame) :
    spotsCommands t names f.spots ⊆ frameCommands t names f := by
  obtain ⟨blocks, spots, isSealed⟩ := f
  cases t with
  | client =>
      intro c hc
      rw [Frame.spots, ← clientSpotList_eq] at hc
      exact List.mem_append_left _ (List.mem_append_right _ hc)
  | server =>
      rw [Frame.spots, ← serverSpotList_eq]
      exact subset_interleave 0 blocks _

/-- Every expression of a frame is written into a line that goes on behind it. -/
theorem printed_frame (t : Target) (names : Reactive) {f : Frame} (h : code ∈ f.codes t) :
    Printed code (frameCommands t names f) := by
  rcases List.mem_append.mp h with hblocks | hspots
  · obtain ⟨b, hb, hcode⟩ := List.mem_flatMap.mp hblocks
    cases t with
    | client =>
        rw [← Frame.codes_markup] at hblocks
        obtain ⟨blocks, spots, isSealed⟩ := f
        exact (((Block.held_code hblocks).prepend _).append _).printed (.head _)
    | server =>
        obtain ⟨blocks, spots, isSealed⟩ := f
        have hadd := add_mem_interleave 0 (Server.spotList names spots) hb
        exact (printed_add (Block.held_code hcode).pasted).mono (List.cons_subset.mpr
          ⟨hadd, List.nil_subset _⟩)
  · obtain ⟨s, hs, hcode⟩ := List.mem_flatMap.mp hspots
    obtain ⟨e, he, rfl⟩ := List.mem_map.mp hcode
    refine ((printed_spot t names s.reference he).mono ?_).mono (spotsCommands_subset t names f)
    exact fun c hc => List.mem_flatMap.mpr ⟨s, hs, hc⟩

/-- The code of some branches; `flag` is what the target passes along. -/
def branchCommands (t : Target) (names : Reactive) (flag : Bool) (branches : List Branch) :
    List Command :=
  match t with
  | .client => Client.branchList names flag branches
  | .server => Server.branchList names flag branches

/-- The code of the content of some slots. -/
def slotCommands (t : Target) (names : Reactive) (slots : List SlotBody) : List Command :=
  match t with
  | .client => Client.slotList names slots
  | .server => Server.slotList names slots

/-- The statements of a function are between those that begin and end its markup. -/
theorem subset_withHtml (commands : List Command) : commands ⊆ Server.withHtml commands :=
  fun _ hc => .tail _ (List.mem_append_left _ hc)

mutual

/-- The code of a frame holds that of all frames inside it. -/
theorem frameCommands_subset (t : Target) (names : Reactive) (f : Frame) {g : Frame}
    (hg : g ∈ f.frames) : ∃ names', frameCommands t names' g ⊆ frameCommands t names f := by
  match f with
  | .mk blocks spots isSealed =>
      rw [Frame.frames, List.mem_cons] at hg
      rcases hg with rfl | hinside
      · exact ⟨names, fun _ h => h⟩
      · obtain ⟨names', h⟩ := frameCommands_subset_spots t names spots hinside
        exact ⟨names', fun _ hc => spotsCommands_subset t names _ (h hc)⟩

/-- The code of a frame inside some spots is part of theirs. -/
theorem frameCommands_subset_spots (t : Target) (names : Reactive) (spots : List Spot) {g : Frame}
    (hg : g ∈ spotFrames spots) :
    ∃ names', frameCommands t names' g ⊆ spotsCommands t names spots := by
  match spots with
  | [] => simp [spotFrames] at hg
  | .mk reference position kind :: rest =>
      rw [spotFrames, List.mem_append] at hg
      rcases hg with hkind | hrest
      · obtain ⟨names', h⟩ := frameCommands_subset_kind t names reference kind hkind
        exact ⟨names', fun _ hc => List.mem_append_left _ (h hc)⟩
      · obtain ⟨names', h⟩ := frameCommands_subset_spots t names rest hrest
        exact ⟨names', fun _ hc => List.mem_append_right _ (h hc)⟩

/-- The code of a frame inside a spot is part of that of the spot. -/
theorem frameCommands_subset_kind (t : Target) (names : Reactive) (reference : Option Nat)
    (kind : SpotKind) {g : Frame} (hg : g ∈ kind.frames) :
    ∃ names', frameCommands t names' g ⊆ spotCommands t names reference kind := by
  match kind with
  | .text _ _ | .classes _ _ | .styles _ _ | .attribute _ _ | .event _ _ _ | .bind _ _ | .ref _
  | .action _ _ | .script _ | .slot _ none => simp [SpotKind.frames] at hg
  | .conditional branches =>
      cases t with
      | client =>
          obtain ⟨names', h⟩ := frameCommands_subset_branches .client names _ branches hg
          exact ⟨names', List.Subset.trans h (subset_function _ _ _)⟩
      | server =>
          obtain ⟨names', h⟩ := frameCommands_subset_branches .server names true branches hg
          exact ⟨names', List.Subset.trans h (List.subset_append_left _ _)⟩
  | .each header body =>
      obtain ⟨names', h⟩ := frameCommands_subset t (loopNames names header) body hg
      refine ⟨names', List.Subset.trans h ?_⟩
      cases t with
      | client => exact subset_function _ _ _
      | server => exact List.Subset.trans (List.subset_append_right _ _) (subset_function _ _ _)
  | .slot name (some fallback) =>
      obtain ⟨names', h⟩ := frameCommands_subset t names fallback hg
      refine ⟨names', List.Subset.trans h ?_⟩
      cases t with
      | client => exact subset_function _ _ _
      | server => exact List.Subset.trans (subset_withHtml _) (subset_function _ _ _)
  | .invoke component props [] => simp [SpotKind.frames, slotFrames] at hg
  | .invoke component props (slot :: rest) =>
      obtain ⟨names', h⟩ := frameCommands_subset_slots t names (slot :: rest) hg
      refine ⟨names', List.Subset.trans h ?_⟩
      cases t with
      | client => exact subset_function _ _ _
      | server => exact subset_function _ _ _

/-- The code of a frame inside a branch is part of that of the branches. -/
theorem frameCommands_subset_branches (t : Target) (names : Reactive) (flag : Bool)
    (branches : List Branch) {g : Frame} (hg : g ∈ branchFrames branches) :
    ∃ names', frameCommands t names' g ⊆ branchCommands t names flag branches := by
  match branches with
  | [] => simp [branchFrames] at hg
  | .mk condition body :: rest =>
      rw [branchFrames, List.mem_append] at hg
      rcases hg with hbody | hrest
      · obtain ⟨names', h⟩ := frameCommands_subset t names body hbody
        refine ⟨names', List.Subset.trans h ?_⟩
        cases t with
        | client => exact subset_function _ _ _
        | server => exact subset_function _ _ _
      · cases t with
        | client =>
            obtain ⟨names', h⟩ := frameCommands_subset_branches .client names flag rest hrest
            exact ⟨names', fun _ hc => List.mem_append_right _ (.tail _ (h hc))⟩
        | server =>
            obtain ⟨names', h⟩ := frameCommands_subset_branches .server names false rest hrest
            exact ⟨names', fun _ hc => List.mem_append_right _ (h hc)⟩

/-- The code of a frame inside a slot is part of that of the slots. -/
theorem frameCommands_subset_slots (t : Target) (names : Reactive) (slots : List SlotBody)
    {g : Frame} (hg : g ∈ slotFrames slots) :
    ∃ names', frameCommands t names' g ⊆ slotCommands t names slots := by
  match slots with
  | [] => simp [slotFrames] at hg
  | .mk name body :: rest =>
      rw [slotFrames, List.mem_append] at hg
      rcases hg with hbody | hrest
      · obtain ⟨names', h⟩ := frameCommands_subset t names body hbody
        refine ⟨names', List.Subset.trans h ?_⟩
        cases t with
        | client => exact subset_function _ _ _
        | server => exact List.Subset.trans (subset_withHtml _) (subset_function _ _ _)
      · obtain ⟨names', h⟩ := frameCommands_subset_slots t names rest hrest
        refine ⟨names', List.Subset.trans h ?_⟩
        cases t with
        | client => exact fun _ hc => List.mem_append_right _ (.tail _ hc)
        | server => exact fun _ hc => List.mem_append_right _ (.tail _ hc)

end

end Stencil.Render
