import Stencil.Proofs.Bare
import Stencil.Proofs.Positions

/-!
# Where texts and tags are written

If offsets are asked for, an element starts where its opening tag does, and a text takes the place
from the first to the last of the texts it was joined from.  Other settings make the same document
but for its positions (`parse_bare`), so these places tell for all settings which tag an element is
made from (`parse_element_tag`), and which texts of the source a text is made from
(`parse_text_between`).
-/

namespace Stencil.Markup

open Stencil.Text

/-- The settings with offsets asked for. -/
def Settings.indexed (s : Settings) : Settings := { s with index := true }

/-- The node takes the place between two offsets. -/
structure Node.Takes (n : Node) (start stop : Nat) : Prop where
  start : n.position.bind (·.start) = some start
  stop : n.position.bind (·.stop) = some stop

/-- What is written as text between two offsets. -/
def textBetween (tokens : List Token) (start stop : Nat) : String :=
  textOf (tokens.filter fun t => start ≤ t.start ∧ t.stop ≤ stop)

section Between

variable {before own after : List Token} {first last : Token}

/-- Tokens that are somewhere else hold no text between two offsets. -/
theorem textOf_filter_of_not {tokens : List Token} {within : Token → Bool}
    (h : ∀ t ∈ tokens, t.lexeme.isText = true → within t = false) :
    textOf (tokens.filter within) = "" := by
  refine textOf_of_not_isText fun t ht => ?_
  obtain ⟨hmem, hwithin⟩ := List.mem_filter.mp ht
  rw [Bool.eq_false_iff]
  intro htext
  rw [h t hmem htext] at hwithin
  cases hwithin

/-- Between the start of the first and the end of the last of some tokens in a row stands the text of
these tokens. -/
theorem textBetween_of_run
    (hordered : (before ++ own ++ after).Pairwise fun t u => t.stop ≤ u.start)
    (hforward : ∀ t ∈ before ++ own ++ after, t.start ≤ t.stop)
    (hnonempty : ∀ t ∈ before ++ own ++ after, t.lexeme.isText = true → t.start < t.stop)
    (hfirst : own.head? = some first) (hlast : own.getLast? = some last) :
    textBetween (before ++ own ++ after) first.start last.stop = textOf own := by
  obtain ⟨hfront, -, hafter⟩ := List.pairwise_append.mp hordered
  obtain ⟨-, hown, hbefore⟩ := List.pairwise_append.mp hfront
  have hfirst' : first ∈ own := List.mem_of_head? hfirst
  have hlast' : last ∈ own := List.mem_of_getLast? hlast
  have hbetween : ∀ t ∈ own, first.start ≤ t.start ∧ t.stop ≤ last.stop := by
    intro t ht
    have hforward' : ∀ u ∈ own, u.start ≤ u.stop := fun u hu => hforward u (by simp [hu])
    constructor
    · cases own with
      | nil => cases ht
      | cons u more =>
          obtain rfl := Option.some.inj hfirst
          rcases List.mem_cons.mp ht with rfl | hmore
          · exact Nat.le_refl _
          · exact Nat.le_trans (hforward' u (by simp)) ((List.pairwise_cons.mp hown).1 t hmore)
    · rcases List.eq_nil_or_concat' own with rfl | ⟨front, u, rfl⟩
      · cases ht
      · obtain rfl : u = last := by simpa using hlast
        rcases List.mem_append.mp ht with hfront | hu
        · have hbehind := (List.pairwise_append.mp hown).2.2 t hfront u (by simp)
          exact Nat.le_trans hbehind (hforward' u (by simp))
        · rw [List.mem_singleton.mp hu]
  have hahead : ∀ t ∈ before, t.lexeme.isText = true →
      decide (first.start ≤ t.start ∧ t.stop ≤ last.stop) = false := by
    intro t ht htext
    have hpos := hnonempty t (by simp [ht]) htext
    have hstop := hbefore t ht first hfirst'
    rw [decide_eq_false_iff_not]
    omega
  have hbehind : ∀ t ∈ after, t.lexeme.isText = true →
      decide (first.start ≤ t.start ∧ t.stop ≤ last.stop) = false := by
    intro t ht htext
    have hpos := hnonempty t (by simp [ht]) htext
    have hstart := hafter last (List.mem_append_right _ hlast') t ht
    rw [decide_eq_false_iff_not]
    omega
  have hall : own.filter (fun t => first.start ≤ t.start ∧ t.stop ≤ last.stop) = own :=
    List.filter_eq_self.mpr (by simpa using hbetween)
  rw [textBetween, List.filter_append, List.filter_append, textOf_append, textOf_append, hall,
    textOf_filter_of_not hahead, textOf_filter_of_not hbehind, String.empty_append,
    String.append_empty]

end Between

/-! ### The same place for all settings -/

variable {s : Settings} {source : String} {id : Nat}

/-- Asking for offsets changes positions alone. -/
theorem bare_parse_indexed (s : Settings) (source : String) :
    (parse s.indexed source).1.bare = (parse s source).1.bare := by
  have hindexed := congrArg Prod.fst (parse_bare s.indexed source)
  exact hindexed.trans (congrArg Prod.fst (parse_bare s source)).symm

/-- Positions shelter no node. -/
theorem Document.sheltered_bare (d : Document) (id : Nat) : d.bare.Sheltered id ↔ d.Sheltered id := by
  refine sheltered_congr (fun _ => True) (fun i _ => parent?_bare d i) (fun _ _ _ _ => trivial) ?_
    trivial
  intro i _
  rw [node_bare, Node.isPreformatted_bare]

theorem node_parse_indexed (s : Settings) (source : String) (id : Nat) :
    ((parse s.indexed source).1.node id).bare = ((parse s source).1.node id).bare := by
  rw [← Document.node_bare, ← Document.node_bare, bare_parse_indexed]

/-- Taking off positions changes no tag. -/
theorem Element.openTag_bare (e : Element) : e.bare.openTag = e.openTag := by
  simp only [Element.openTag, attributes_bare, List.map_map]
  rfl

/-- **Elements are made from the opening tags that they start with.** -/
theorem parse_element_tag {e : Element} (he : ((parse s source).1.node id).element? = some e) :
    ∃ t ∈ (scan source).1, t.lexeme.openTag? = some e.openTag ∧
      ((parse s.indexed source).1.node id).position.bind (·.start) = some t.start := by
  have hbare := congrArg Node.element? (node_parse_indexed s source id)
  rw [Node.element?_bare, Node.element?_bare, he, Option.map_some] at hbare
  obtain ⟨e', he', hsame⟩ := Option.map_eq_some_iff.mp hbare
  obtain ⟨t, ht, htag, hstart⟩ := parse_element_drawn he'
  refine ⟨t, ht, ?_, hstart rfl⟩
  rw [htag, ← e'.openTag_bare, hsame, e.openTag_bare]

/-- **Texts are made from the texts at their place**, as they were written where blanks are kept and
collapsed elsewhere.  Of blank text, which may be cut off from what is around it, only one of the two
is said. -/
theorem parse_text_between {content : TextContent}
    (hcontent : ((parse s source).1.node id).content = .text content) :
    ∃ text start stop, content = .raw text ∧
      ((parse s.indexed source).1.node id).Takes start stop ∧
      ∃ kept, Carried kept (textBetween (scan source).1 start stop) text ∧
        (((parse s source).1.node id).isBlankText = false →
          (kept ↔ s.keepBlanks = true ∨ (parse s source).1.Sheltered id)) := by
  have hnode := node_parse_indexed s source id
  have hcontent' : ((parse s.indexed source).1.node id).content = .text content := by
    have hbare := congrArg Node.content hnode
    rw [Node.content_bare, Node.content_bare, hcontent] at hbare
    cases hfound : ((parse s.indexed source).1.node id).content <;>
      simp_all [Content.bare]
  have hblank : ((parse s.indexed source).1.node id).isBlankText =
      ((parse s source).1.node id).isBlankText := by
    rw [← Node.isBlankText_bare, hnode, Node.isBlankText_bare]
  have hsheltered : (parse s.indexed source).1.Sheltered id ↔ (parse s source).1.Sheltered id := by
    rw [← Document.sheltered_bare, bare_parse_indexed, Document.sheltered_bare]
  obtain ⟨text, before, own, after, rfl, htokens, hmade, kept, hcarried, hkept⟩ :=
    parse_text_drawn hcontent'
  obtain ⟨first, hfirst, -, hstart⟩ := hmade.first
  obtain ⟨last, hlast, -, hstop⟩ := hmade.last
  refine ⟨text, first.start, last.stop, rfl, ⟨hstart rfl, hstop rfl⟩, kept, ?_, fun hid => ?_⟩
  · have hordered := scan_pairwise source
    have hforward : ∀ t ∈ (scan source).1, t.start ≤ t.stop := fun t ht => (scan_boundary ht).2.2
    have hnonempty : ∀ t ∈ (scan source).1, t.lexeme.isText = true → t.start < t.stop := by
      intro t ht htext
      refine (scan_tiling source).nonempty t ht ?_
      cases hlexeme : t.lexeme <;> simp_all [Lexeme.isText, Lexeme.isRaw]
    rw [htokens] at hordered hforward hnonempty ⊢
    rwa [textBetween_of_run hordered hforward hnonempty hfirst hlast]
  · rw [hkept (hblank.trans hid), hsheltered]
    rfl

end Stencil.Markup
