import Stencil.Proofs.Ruled
import Stencil.Proofs.Scanned

/-!
# Regular documents

In a document that was read from a source without a finding, every node is one that could have been
written, nothing stands below texts, comments, empty elements and elements with raw content, and no
text stands beside another one (`Document.Regular`).  This is a rule that tokens keep
(`Node.scanned_rule`), so the whole source keeps it (`Tiled.regular`), and so does trimming.
-/

namespace Stencil.Markup

open Stencil.Text

/-- The attribute that a token of a tag gives. -/
def AttributeToken.plain (affix : Bool) (a : AttributeToken) : PlainAttribute :=
  ⟨if affix then .split a.name else { base := a.name }, a.value⟩

theorem AttributeToken.full_plain (affix : Bool) (a : AttributeToken) :
    (a.plain affix).name.full = a.name := by
  cases affix with
  | true => exact AttributeName.full_split a.name
  | false =>
      apply String.toList_injective
      simp [plain, AttributeName.full]

theorem AttributeToken.written_plain (affix : Bool) (a : AttributeToken) :
    (a.plain affix).written = a.written := by
  rw [PlainAttribute.written, a.full_plain affix]
  rfl

/-- The tag of an opening tag and the raw content behind it. -/
def tagOf (affix : Bool) (name : String) (attributes : List AttributeToken) (selfClosing : Bool)
    (raw : Option String) : Tag :=
  ⟨name, selfClosing || isVoid name, selfClosing, attributes.map (AttributeToken.plain affix), raw⟩

/-- What is scanned as an opening tag, with the raw content that it asks for, is a proper tag. -/
theorem tagOf_scanned {affix : Bool} {name : String} {attributes : List AttributeToken}
    {selfClosing : Bool} {raw : Option String}
    (h : Lexeme.Scanned (.opening name attributes selfClosing))
    (hraw : !selfClosing && isRawText name → ∃ body, raw = some body ∧ Unclosed name body.toList)
    (hplain : (!selfClosing && isRawText name) = false → raw = none) :
    (tagOf affix name attributes selfClosing raw).Scanned affix where
  name := h.1
  empty := rfl
  divided := by
    intro a ha
    obtain ⟨token, -, rfl⟩ := List.mem_map.mp ha
    rw [token.full_plain affix]
    rfl
  attributes := by
    have hwritten : (attributes.map (AttributeToken.plain affix)).map PlainAttribute.written =
        attributes.map AttributeToken.written := by
      rw [List.map_map]
      exact List.map_congr_left fun a _ => a.written_plain affix
    rw [tagOf, hwritten]
    exact h.2
  raw := hraw
  plain := hplain

theorem elementOf_shows (c : Context) (name : String) (attributes : List AttributeToken)
    (selfClosing : Bool) (raw : Option String) :
    (elementOf c name attributes selfClosing raw).Shows
      (tagOf c.settings.affix name attributes selfClosing raw) where
  name := rfl
  empty := rfl
  selfClosing := rfl
  attributes := by
    simp only [elementOf, tagOf, List.map_map]
    apply List.map_congr_left
    intro a _
    simp only [Function.comp_apply, Builder.attributeOf, AttributeToken.plain,
      PlainAttribute.content]
    cases a.value <;> rfl
  raw := rfl

/-- The node could have been written, its children apart, and it has none if it cannot. -/
def Node.Scanned (s : Settings) (n : Node) : Prop :=
  match n.content with
  | .document => True
  | .text content => n.children = [] ∧ ∃ text, content = .raw text ∧ text ≠ ""
  | .comment content =>
      n.children = [] ∧ s.comments = true ∧ ¬ "-->".toList <:+: content.toList
  | .element e => ∃ tag : Tag, e.Shows tag ∧ tag.Scanned s.affix ∧
      (tag.empty = true ∨ tag.holdsRaw = true → n.children = [])

theorem Node.Scanned.congr {s : Settings} {n m : Node} (h : n.Scanned s)
    (hcontent : m.content = n.content) (hchildren : n.children = [] → m.children = []) :
    m.Scanned s := by
  unfold Scanned at h ⊢
  rw [hcontent]
  split at h
  · trivial
  · exact ⟨hchildren h.1, h.2⟩
  · exact ⟨hchildren h.1, h.2⟩
  · obtain ⟨tag, hshows, hscanned, hleaf⟩ := h
    exact ⟨tag, hshows, hscanned, fun hempty => hchildren (hleaf hempty)⟩

/-- A node that can have children may have any. -/
theorem Node.Scanned.host {s : Settings} {n : Node} (h : n.Scanned s) (hhosts : n.Hosts)
    (children : List Nat) : ({ n with children } : Node).Scanned s := by
  obtain ⟨htype, hopen⟩ := hhosts
  unfold Scanned at h ⊢
  split at h
  · next heq => simp [heq]
  · next heq => simp [heq, Content.type] at htype
  · next heq => simp [heq, Content.type] at htype
  · next e heq =>
      obtain ⟨tag, hshows, hscanned, -⟩ := h
      obtain ⟨hempty, hraw⟩ := hopen e heq
      rw [hshows.empty] at hempty
      rw [hshows.name] at hraw
      simp only [heq]
      refine ⟨tag, hshows, hscanned, ?_⟩
      rintro (hyes | hyes)
      · simp [hempty] at hyes
      · simp [Tag.holdsRaw, hraw] at hyes

namespace Document

/-- A document as it is read: all nodes could have been written, only the first is no proper node, and
no text stands beside another one. -/
structure Regular (s : Settings) (d : Document) : Prop where
  nodes : ∀ i, (d.node i).Scanned s
  inner : ∀ i, 0 < i → i < d.size → (d.node i).content.type ≠ .document
  beside : ∀ p, (d.children p).IsChain d.Apart

variable {s : Settings} {d : Document}

theorem regular_empty (s : Settings) : empty.Regular s where
  nodes := by
    intro i
    rw [node_empty]
    trivial
  inner := by
    intro i hpos hlt
    have hsize : empty.size = 1 := rfl
    omega
  beside := by
    intro p
    rw [children, node_empty]
    exact .nil

/-- What a regular document is, said as a rule for its nodes. -/
theorem regular_iff_ruled : d.Regular s ↔ d.Ruled (Node.Scanned s) :=
  ⟨fun h => ⟨h.nodes, h.inner, h.beside⟩, fun h => ⟨h.nodes, h.inner, h.beside⟩⟩

theorem Regular.spaced (h : d.Regular s) : d.Spaced := h.beside

end Document

namespace Builder

/-- A builder with a regular document. -/
structure Regular (c : Context) (b : Builder) : Prop where
  ordered : b.Ordered
  document : b.document.Regular c.settings

end Builder

theorem named_of_scanned {lexeme : Lexeme} (h : lexeme.Scanned) : lexeme.Named := by
  cases lexeme with
  | opening name attributes selfClosing => exact h.1.forall_isTagPart
  | _ => trivial

/-- **A rule.**  Tokens without a finding make nodes that could have been written. -/
theorem Node.scanned_rule (c : Context) :
    Builder.Rule c Lexeme.Scanned (Node.Scanned c.settings) where
  root := trivial
  congr := Node.Scanned.congr
  host := Node.Scanned.host
  text_iff := by
    intro n content hcontent
    simp only [Node.Scanned, hcontent]
  named := named_of_scanned
  nonempty := fun hscanned => hscanned
  comment := fun hscanned hcomments _ _ => ⟨rfl, hcomments, hscanned⟩
  opened := by
    intro name attributes selfClosing hscanned hraw start stop
    have htag : (tagOf c.settings.affix name attributes selfClosing none).Scanned
        c.settings.affix :=
      tagOf_scanned hscanned (fun hyes => absurd hyes (by simpa [Lexeme.opensRaw] using hraw))
        fun _ => rfl
    exact ⟨_, elementOf_shows c name attributes selfClosing none, htag, fun _ => rfl⟩
  filled := by
    intro name attributes text hscanned hname hraw start stop
    have htag : (tagOf c.settings.affix name attributes false (some text)).Scanned
        c.settings.affix :=
      tagOf_scanned hscanned (fun _ => ⟨text, rfl, hraw⟩) fun hno => by simp [hname] at hno
    exact ⟨_, elementOf_shows c name attributes false (some text), htag, fun _ => rfl⟩

/-- **The whole run.**  What the tokens of a source make is regular. -/
theorem Tiled.regular {c : Context} {offset : Nat} {cs : List Char} {tokens : List Token}
    (h : Tiled offset cs tokens) (hscanned : ∀ t ∈ tokens, t.lexeme.Scanned) {b : Builder}
    (hb : b.Regular c) (hhosting : b.Hosting) : (tokens.foldl (Builder.step c) b).Regular c := by
  obtain ⟨hordered, hdocument⟩ := h.ruled (Node.scanned_rule c) hscanned
    ⟨hb.ordered, Document.regular_iff_ruled.mp hb.document⟩ hhosting
  exact ⟨hordered, Document.regular_iff_ruled.mpr hdocument⟩

/-- Trimming keeps a document regular. -/
theorem Document.Regular.trimBlanks {s : Settings} {d : Document} (h : d.Regular s) :
    d.trimBlanks.Regular s :=
  regular_iff_ruled.mpr ((regular_iff_ruled.mp h).trimBlanks (Node.scanned_rule ⟨s, .of ""⟩))

end Stencil.Markup
