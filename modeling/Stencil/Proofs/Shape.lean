import Stencil.Passes.Transform
import Stencil.Proofs.Nodes
import Stencil.Proofs.Tiling

/-!
# The shape of a document

In a document that was read from a text, children come after their parents and tags are named by
characters of tag names.  Most changes of a document keep this because they change no name and add
no child (`Document.Keeps`); only a new node needs an argument of its own
(`Document.WellFormed.append`).  So every template has this shape after all passes
(`parseTemplate_wellFormed`).
-/

namespace Stencil.Markup

open Stencil.Text

/-- The name of the element that a node holds. -/
def Node.tag? (n : Node) : Option String := n.element?.map Element.name

/-- A document whose children come after their parents and whose tags have proper names. -/
structure Document.WellFormed (d : Document) : Prop where
  forward : ∀ id, ∀ child ∈ d.children id, id < child ∧ child < d.size
  named : ∀ id, ∀ name ∈ (d.node id).tag?, ∀ c ∈ name.toList, isTagPart c = true

/-- The second document has the nodes of the first, with the same names and no other children. -/
structure Document.Keeps (d d' : Document) : Prop where
  size : d'.size = d.size
  children : ∀ id, d'.children id ⊆ d.children id
  tags : ∀ id, (d'.node id).tag? = (d.node id).tag?

namespace Document

theorem Keeps.refl (d : Document) : d.Keeps d := ⟨rfl, fun _ => List.Subset.refl _, fun _ => rfl⟩

theorem Keeps.trans {a b c : Document} (h : a.Keeps b) (h' : b.Keeps c) : a.Keeps c :=
  ⟨h'.size.trans h.size, fun id => List.Subset.trans (h'.children id) (h.children id),
    fun id => (h'.tags id).trans (h.tags id)⟩

/-- A document keeps its shape under a change that keeps its links and tags. -/
theorem WellFormed.keep {d d' : Document} (h : d.WellFormed) (hk : d.Keeps d') : d'.WellFormed where
  forward := by
    intro id child hchild
    rw [hk.size]
    exact h.forward id child (hk.children id hchild)
  named := by
    intro id name hname
    rw [hk.tags] at hname
    exact h.named id name hname

/-- Changing a node but for its name, without new children. -/
theorem keeps_update {d : Document} {id : Nat} {f : Node → Node}
    (hchildren : (f (d.node id)).children ⊆ (d.node id).children)
    (htag : (f (d.node id)).tag? = (d.node id).tag?) : d.Keeps (d.update id f) where
  size := size_update d id f
  children := by
    intro i
    unfold children
    rcases node_update_cases d id f i with hnode | ⟨rfl, hnode⟩
    · rw [hnode]
      exact List.Subset.refl _
    · rw [hnode]
      exact hchildren
  tags := by
    intro i
    rcases node_update_cases d id f i with hnode | ⟨rfl, hnode⟩
    · rw [hnode]
    · rw [hnode]
      exact htag

/-- Taking a node from its parent keeps the others as they are. -/
theorem keeps_detach (d : Document) (id : Nat) : d.Keeps (d.detach id) := by
  unfold detach
  split
  · exact .refl d
  · next parent _ =>
      -- the table of parents is of no matter here
      have hupdate : d.Keeps (d.update parent fun p =>
          { p with children := p.children.filter (· != id) }) :=
        keeps_update (List.filter_subset_self _) rfl
      obtain ⟨hsize, hchildren, htags⟩ := hupdate
      exact ⟨hsize, hchildren, htags⟩

/-- Dropping a blank text keeps the nodes as they are. -/
theorem keeps_dropBlank (d : Document) (id : Option Nat) : d.Keeps (d.dropBlank id) := by
  unfold dropBlank
  split
  · split
    · exact keeps_detach d _
    · exact .refl d
  · exact .refl d

/-- So does a sequence of changes that each do. -/
theorem keeps_foldl {α : Type} {f : Document → α → Document} (h : ∀ d a, Keeps d (f d a))
    (as : List α) (d : Document) : d.Keeps (as.foldl f d) := by
  induction as generalizing d with
  | nil => exact .refl d
  | cons a rest ih => exact (h d a).trans (ih (f d a))

/-- So does trimming the blanks. -/
theorem keeps_trimBlanks (d : Document) : d.Keeps d.trimBlanks := by
  unfold trimBlanks
  refine (keeps_foldl (fun d id => keeps_dropBlank d (some id)) _ d).trans (keeps_foldl ?_ _ _)
  intro d id
  exact (keeps_dropBlank d _).trans (keeps_dropBlank _ _)

/-- A node that is added comes after all others. -/
theorem WellFormed.append {d : Document} (h : d.WellFormed) {parent : Nat}
    (hparent : parent < d.size) {n : Node} (hn : n.children = [])
    (hname : ∀ name ∈ n.tag?, ∀ c ∈ name.toList, isTagPart c = true) :
    (d.append parent n).WellFormed where
  forward := by
    intro id child hchild
    rw [size_append]
    unfold children at hchild
    rcases Nat.lt_trichotomy id d.size with hlt | rfl | hgt
    · by_cases hid : id = parent
      · subst hid
        rw [node_append_parent hparent] at hchild
        rcases List.mem_append.mp hchild with hold | hnew
        · have := h.forward id child hold
          omega
        · rw [List.mem_singleton.mp hnew]
          omega
      · rw [node_append_of_ne n hlt hid] at hchild
        have := h.forward id child hchild
        omega
    · rw [node_append_self hparent, hn] at hchild
      simp at hchild
    · rw [node_of_size_le (by rw [size_append]; omega)] at hchild
      simp [Node.document] at hchild
  named := by
    intro id name hmem
    obtain ⟨children, hnode | hnode⟩ := node_append_cases d parent n id
    · rw [hnode] at hmem
      exact h.named id name hmem
    · rw [hnode] at hmem
      exact hname name hmem

end Document

/-- A builder whose document has the right shape and whose open elements are in it. -/
structure Builder.WellFormed (b : Builder) : Prop where
  document : b.document.WellFormed
  pos : 0 < b.document.size
  stack : ∀ id ∈ b.stack, id < b.document.size

namespace Builder

/-- Reporting unclosed elements does not touch the document. -/
theorem reportUnclosed_document (b : Builder) (ids : List Nat) :
    (b.reportUnclosed ids).document = b.document := by
  unfold reportUnclosed
  induction ids generalizing b with
  | nil => rfl
  | cons id rest ih => rw [List.foldl_cons, ih]; rfl

/-- Text is joined only to undivided text. -/
theorem content_of_lastText? {b : Builder} {id : Nat} {text : String}
    (h : b.lastText? = some (id, text)) : (b.document.node id).content = .text (.raw text) := by
  simp only [lastText?] at h
  split at h
  · split at h
    · next hcontent =>
        obtain ⟨rfl, rfl⟩ := Prod.mk.inj (Option.some.inj h)
        exact hcontent
    · simp at h
  · simp at h

theorem WellFormed.parent_lt {b : Builder} (h : b.WellFormed) : b.parent < b.document.size := by
  unfold parent
  cases hstack : b.stack with
  | nil => exact h.pos
  | cons id rest => exact h.stack id (by simp [hstack])

/-- Adding a node without children keeps a builder well-formed. -/
theorem WellFormed.add {b : Builder} (h : b.WellFormed) {n : Node} (hn : n.children = [])
    (hname : ∀ name ∈ n.tag?, ∀ c ∈ name.toList, isTagPart c = true) : (b.add n).WellFormed where
  document := h.document.append h.parent_lt hn hname
  pos := by simp [Builder.add]
  stack := by
    intro id hid
    have := h.stack id hid
    simp only [Builder.add, Document.size_append]
    omega

/-- A builder after a change that keeps the document's shape and opens nothing. -/
theorem WellFormed.keep {b b' : Builder} (h : b.WellFormed) (hd : b.document.Keeps b'.document)
    (hs : b'.stack ⊆ b.stack) : b'.WellFormed where
  document := h.document.keep hd
  pos := by rw [hd.size]; exact h.pos
  stack := by
    intro id hid
    rw [hd.size]
    exact h.stack id (hs hid)

/-- So does adding a text. -/
theorem WellFormed.addText {b : Builder} (h : b.WellFormed) (c : Context) (text : String)
    (start stop : Nat) : (b.addText c text start stop).WellFormed := by
  simp only [Builder.addText]
  split
  · next last before hlast =>
      have htext : (b.document.node last).tag? = none := by
        simp [Node.tag?, Node.element?, content_of_lastText? hlast]
      refine h.keep (Document.keeps_update (List.Subset.refl _) ?_) (List.Subset.refl _)
      rw [htext]
      rfl
  · exact h.add rfl (by simp [Node.tag?, Node.element?, Node.ofText])

end Builder

/-- A tag that is opened has a proper name. -/
def Lexeme.Named : Lexeme → Prop
  | .opening name _ _ => ∀ c ∈ name.toList, isTagPart c = true
  | _ => True

/-- A tile has a name where its lexeme needs one. -/
theorem Tile.named {offset : Nat} {cs : List Char} {lexeme : Lexeme} (h : Tile offset cs lexeme) :
    lexeme.Named := by
  cases h with
  | opening selfClosing hne hname hranged => simpa [Lexeme.Named] using hname
  | text hne => trivial
  | comment content => trivial
  | closing inside hname => trivial

/-- So every token of a tiling has one. -/
theorem Tiled.named {offset : Nat} {cs : List Char} {tokens : List Token}
    (h : Tiled offset cs tokens) : ∀ t ∈ tokens, t.lexeme.Named := by
  induction h with
  | nil => simp
  | cons tile hraw tail ih => exact List.forall_mem_cons.mpr ⟨tile.named, ih⟩
  | unterminated => exact List.forall_mem_singleton.mpr trivial
  | rawEnd tile hname hraw =>
      exact List.forall_mem_cons.mpr ⟨tile.named, List.forall_mem_singleton.mpr trivial⟩
  | raw tile hname hraw hclose hlast tail ih =>
      exact List.forall_mem_cons.mpr ⟨tile.named,
        List.forall_mem_cons.mpr ⟨trivial, List.forall_mem_cons.mpr ⟨hclose.named, ih⟩⟩⟩

/-- A change to an element that keeps its name keeps the tag of its node. -/
theorem Node.tag?_mapElement (n : Node) {f : Element → Element} (hf : ∀ e, (f e).name = e.name) :
    (n.mapElement f).tag? = n.tag? := by
  unfold mapElement
  split
  · next e he => simp [tag?, element?, he, hf]
  · rfl

/-- A change to an element keeps the children of its node. -/
theorem Node.children_mapElement (n : Node) (f : Element → Element) :
    (n.mapElement f).children = n.children := by
  unfold mapElement
  split <;> rfl

/-- **A token keeps the shape.** -/
theorem Builder.WellFormed.step {b : Builder} (h : b.WellFormed) (c : Context) {t : Token}
    (ht : t.lexeme.Named) : (b.step c t).WellFormed := by
  obtain ⟨lexeme, start, stop⟩ := t
  cases lexeme with
  | text text => exact h.addText c text start stop
  | comment content =>
      simp only [Builder.step, Builder.addComment]
      split
      · exact h.add rfl (by simp [Node.tag?, Node.element?, Node.ofComment])
      · exact h.keep (.refl _) (List.Subset.refl _)
  | opening name attributes selfClosing =>
      simp only [Builder.step, Builder.openElement]
      have hadd := h.add (n := { Node.ofElement ⟨name, selfClosing || isVoid name, selfClosing,
        attributes.map (Builder.attributeOf c), none⟩ with position := c.position start stop })
        rfl (by simpa [Node.tag?, Node.element?, Node.ofElement, Lexeme.Named] using ht)
      split
      · exact hadd
      · refine ⟨hadd.document, hadd.pos, List.forall_mem_cons.mpr ⟨?_, hadd.stack⟩⟩
        simp [Builder.add]
  | closing name =>
      simp only [Builder.step, Builder.closeElement]
      split
      · split
        · exact h
        · exact h.keep (.refl _) (List.Subset.refl _)
      · next id outer hdrop =>
          apply h.keep
          · rw [Builder.reportUnclosed_document]
            exact Document.keeps_update (List.Subset.refl _) rfl
          · have hsuf := List.dropWhile_suffix (l := b.stack) fun id => !(closes (b.nameOf id) name)
            rw [hdrop] at hsuf
            exact fun i hi => hsuf.subset (List.mem_cons_of_mem _ hi)
  | raw text =>
      refine h.keep (Document.keeps_update ?_ ?_) (List.Subset.refl _)
      · rw [Node.children_mapElement]
        exact List.Subset.refl _
      · exact Node.tag?_mapElement _ fun _ => rfl

/-- So do all tokens. -/
theorem Builder.WellFormed.run {b : Builder} (h : b.WellFormed) (c : Context) {tokens : List Token}
    (ht : ∀ t ∈ tokens, t.lexeme.Named) : (tokens.foldl (Builder.step c) b).WellFormed := by
  induction tokens generalizing b with
  | nil => exact h
  | cons t rest ih =>
      obtain ⟨hfirst, hrest⟩ := List.forall_mem_cons.mp ht
      exact ih (h.step c hfirst) hrest

/-- A builder starts well-formed. -/
theorem Builder.wellFormed_empty (diagnostics : List Source.Diagnostic) :
    ({ diagnostics := diagnostics } : Builder).WellFormed := by
  refine ⟨⟨?_, ?_⟩, Nat.zero_lt_one, by simp⟩
  · intro id child hchild
    rw [Document.children, Document.node_empty] at hchild
    simp [Node.document] at hchild
  · intro id name hname
    rw [Document.node_empty] at hname
    simp [Node.document, Node.tag?, Node.element?] at hname

/-- The builder once all tokens of a source have been taken in. -/
def built (s : Settings) (source : String) : Builder :=
  (scan source).1.foldl (Builder.step ⟨s, .of source⟩)
    { diagnostics := (scan source).2.map (Context.diagnostic ⟨s, .of source⟩) }

/-- Only trimming comes after that. -/
theorem parse_document (s : Settings) (source : String) :
    (parse s source).1 =
      if s.trim then (built s source).document.trimBlanks else (built s source).document := by
  simp only [parse, Builder.finish, Builder.reportUnclosed_document, built]

/-- The tokens of a scan have names where they need them. -/
theorem scan_named (source : String) : ∀ t ∈ (scan source).1, t.lexeme.Named :=
  ((scanFrom_tiled 0 source.toList).joinTexts).named

/-- What is read from a text has the right shape, whatever the text. -/
theorem parse_wellFormed (s : Settings) (source : String) : (parse s source).1.WellFormed := by
  have hbuilt : (built s source).WellFormed :=
    (Builder.wellFormed_empty _).run _ (scan_named source)
  rw [parse_document]
  split
  · exact hbuilt.document.keep (Document.keeps_trimBlanks _)
  · exact hbuilt.document

end Stencil.Markup

namespace Stencil

open Stencil.Markup Stencil.Passes

/-- A pass keeps the shape of a document if each of its steps does. -/
theorem Passes.keeps_visit {step : Document → Nat → Outcome}
    (h : ∀ (d : Document) id, d.Keeps (step d id).document) (ids : List Nat) (d : Document) :
    d.Keeps (visit step ids d).document := by
  induction ids generalizing d with
  | nil => exact .refl d
  | cons id rest ih =>
      simp only [visit]
      split
      · exact h d id
      · exact (h d id).trans (ih _)

theorem Passes.tag?_of_element? {n : Node} {e : Element} (h : n.element? = some e) :
    n.tag? = some e.name := by
  simp [Node.tag?, h]

/-- Typing a node keeps the shape. -/
theorem Passes.keeps_typeStep (d : Document) (id : Nat) : d.Keeps (typeStep d id).document := by
  simp only [typeStep]
  split
  · exact .refl d
  · split
    · exact .refl d
    · next e he =>
        refine Document.keeps_update (List.Subset.refl _) ?_
        rw [tag?_of_element? he]
        simp only [typeElement, takeFragment, Node.tag?, Node.element?]
        split <;> rfl

/-- Reading an embedded script or style keeps the shape. -/
theorem Passes.keeps_embeddedStep (lang : Script.Language) (d : Document) (id : Nat) :
    d.Keeps (embeddedStep lang d id).document := by
  simp only [embeddedStep]
  repeat' split
  all_goals first
    | exact .refl d
    | exact Document.keeps_update (List.Subset.refl _) rfl

/-- Reading the header of a block keeps the shape. -/
theorem Passes.keeps_blockStep (read : String → Except Script.Fault Script.Expression)
    (d : Document) (id : Nat) : d.Keeps (blockStep read d id).document := by
  simp only [blockStep]
  split
  · next kind e _ he =>
      split
      · exact .refl d
      · split
        · exact .refl d
        · refine Document.keeps_update (List.Subset.refl _) ?_
          rw [tag?_of_element? he]
          rfl
  · exact .refl d

/-- Dividing attributes keeps the shape. -/
theorem Passes.keeps_attributeStep (read : String → Except Script.Fault Script.Expression)
    (d : Document) (id : Nat) : d.Keeps (attributeStep read d id).document := by
  simp only [attributeStep]
  split
  -- elements, components and fragments are treated alike
  iterate 3
    · next e _ he =>
        split
        · apply Document.keeps_update
          · rw [Node.children_mapElement]
            exact List.Subset.refl _
          · exact Node.tag?_mapElement _ fun _ => rfl
        · refine Document.keeps_update (List.Subset.refl _) ?_
          rw [tag?_of_element? he]
          rfl
  · exact .refl d

/-- Dividing a text keeps the shape. -/
theorem Passes.keeps_textStep (read : String → Except Script.Fault Script.Expression)
    (d : Document) (id : Nat) : d.Keeps (textStep read d id).document := by
  have hmark : ∀ d : Document, d.Keeps (markAbove d id) := by
    intro d
    unfold markAbove
    split
    · exact Document.keeps_update (List.Subset.refl _) rfl
    · exact .refl d
  simp only [textStep]
  split
  · next text _ hcontent =>
      split
      · exact .refl d
      · next parts _ =>
          have hupdate : d.Keeps
              (d.update id fun n => { n with content := .text (.parts parts) }) := by
            refine Document.keeps_update (List.Subset.refl _) ?_
            simp [Node.tag?, Node.element?, hcontent]
          split
          · exact hupdate.trans (hmark _)
          · exact hupdate
  · exact .refl d

/-- **A pass keeps the shape**, also where it stops with an error. -/
theorem Pass.keeps_run (lang : Script.Language) (typed : Bool) (d : Document) (p : Pass) :
    d.Keeps (p.run lang typed d).document := by
  cases p with
  | types => exact keeps_visit keeps_typeStep _ d
  | embedded => exact keeps_visit (keeps_embeddedStep lang) _ d
  | blocks => exact keeps_visit (keeps_blockStep _) _ d
  | attributes => exact keeps_visit (keeps_attributeStep _) _ d
  | texts => exact keeps_visit (keeps_textStep _) _ d

/-- So a run of passes keeps the shape of a document. -/
theorem keeps_runPasses (lang : Script.Language) (typed : Bool) (passes : List Pass) (d : Document) :
    d.Keeps (runPasses lang typed passes d).document := by
  induction passes generalizing typed d with
  | nil => exact .refl d
  | cons p rest ih =>
      have hrun := p.keeps_run lang typed d
      simp only [runPasses]
      split
      · exact hrun
      · exact hrun.trans (ih _ _)

/-- **The shape of a template** after all passes, whatever its source. -/
theorem parseTemplate_wellFormed (lang : Script.Language) (o : Options) (source : String) :
    (parseTemplate lang o source).document.WellFormed :=
  (parse_wellFormed o.markup source).keep (keeps_runPasses lang false Pass.all _)

end Stencil
