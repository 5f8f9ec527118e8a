import Stencil.Proofs.Order
import Stencil.Proofs.Settled

/-!
# Templates without positions

Nodes and attributes carry positions in the source if the options ask for them, and diagnostics copy
them.  `bare` takes all positions off.  Reading a template and taking the positions off the result
gives what is read if no positions are asked for (`parse_bare`), and every pass does to a document
without positions what it does to the document (`Pass.bare_run`), so the same holds after all passes
(`parseTemplate_bare`).
-/

namespace Stencil.Source

/-- The diagnostic without its span. -/
def Diagnostic.bare (d : Diagnostic) : Diagnostic := { d with span := none }

end Stencil.Source

namespace Stencil.Markup

open Stencil.Source

/-- The attribute without its position. -/
def Attribute.bare (a : Attribute) : Attribute := { a with position := none }

/-- The element with attributes without positions. -/
def Element.bare (e : Element) : Element := { e with attributes := e.attributes.map Attribute.bare }

/-- The content without the positions of attributes. -/
def Content.bare : Content → Content
  | .element e => .element e.bare
  | .document => .document
  | .text t => .text t
  | .comment written => .comment written

/-- The node without its position and those of its attributes. -/
def Node.bare (n : Node) : Node := { n with content := n.content.bare, position := none }

/-- The document without any positions. -/
def Document.bare (d : Document) : Document := { d with nodes := d.nodes.map Node.bare }

namespace Attribute

variable (a : Attribute)

/-- An attribute without its position has the same name. -/
@[simp] theorem name_bare : a.bare.name = a.name := rfl

@[simp] theorem kind_bare : a.bare.kind = a.kind := rfl

/-- What has no position has no span. -/
@[simp] theorem span_bare : a.bare.span = none := rfl

@[simp] theorem fullName_bare : a.bare.fullName = a.fullName := rfl

@[simp] theorem text?_bare : a.bare.text? = a.text? := rfl

/-- An attribute without its position gives the same expression. -/
@[simp] theorem expression?_bare : a.bare.expression? = a.expression? := rfl

@[simp] theorem isAnonymous_bare : a.bare.isAnonymous = a.isAnonymous := rfl

/-- Whether a node is needed because of an attribute does not depend on positions. -/
@[simp] theorem needsReference_bare : a.bare.needsReference = a.needsReference := rfl

end Attribute

namespace Element

variable (e : Element)

@[simp] theorem name_bare : e.bare.name = e.name := rfl

@[simp] theorem raw_bare : e.bare.raw = e.raw := rfl

@[simp] theorem attributes_bare : e.bare.attributes = e.attributes.map Attribute.bare := rfl

/-- Looking up an attribute by its name finds the same one, without its position. -/
theorem attribute?_bare (name : String) :
    e.bare.attribute? name = (e.attribute? name).map Attribute.bare := by
  simp [attribute?, List.find?_map, Function.comp_def]

/-- The text of the attribute with a name is the same without positions. -/
@[simp] theorem text?_attribute?_bare (name : String) :
    (e.bare.attribute? name).bind Attribute.text? = (e.attribute? name).bind Attribute.text? := by
  rw [attribute?_bare]
  cases e.attribute? name with
  | none => rfl
  | some a => rfl

end Element

namespace Node

variable (n : Node)

/-- A node without its position has the same type. -/
@[simp] theorem type_bare : n.bare.type = n.type := rfl

/-- A node without its position has the same children. -/
@[simp] theorem children_bare : n.bare.children = n.children := rfl

@[simp] theorem params_bare : n.bare.params = n.params := rfl

@[simp] theorem content_bare : n.bare.content = n.content.bare := rfl

@[simp] theorem span_bare : n.bare.span = none := rfl

/-- Taking positions away twice is taking them away once. -/
@[simp] theorem bare_bare : n.bare.bare = n.bare := by
  obtain ⟨type, content, children, params, position⟩ := n
  cases content with
  | element e => simp [bare, Content.bare, Element.bare, Function.comp_def, Attribute.bare]
  | document | text | comment => rfl

/-- The element of a node, without positions. -/
@[simp] theorem element?_bare : n.bare.element? = n.element?.map Element.bare := by
  unfold element?
  rw [content_bare]
  cases n.content with
  | document | element | text | comment => rfl

@[simp] theorem isTag_bare : n.bare.isTag = n.isTag := by
  simp [isTag]

/-- Whether a text is blank does not depend on its position. -/
@[simp] theorem isBlankText_bare : n.bare.isBlankText = n.isBlankText := by
  unfold isBlankText
  rw [content_bare]
  cases n.content with
  | document | element | text | comment => rfl

@[simp] theorem isPreformatted_bare : n.bare.isPreformatted = n.isPreformatted := by
  unfold isPreformatted
  rw [element?_bare]
  cases n.element? with
  | none | some => rfl

/-- Changing the element of a node and taking positions away can be done in either order, if that
holds of the change. -/
theorem bare_mapElement {f : Element → Element} (hf : ∀ e, (f e).bare = f e.bare) :
    (n.mapElement f).bare = n.bare.mapElement f := by
  obtain ⟨type, content, children, params, position⟩ := n
  cases content with
  | document | text | comment => rfl
  | element e => simp [mapElement, Node.bare, Content.bare, hf]

end Node

namespace Document

variable (d : Document) (id : Nat)

/-- A document without positions stays as it is when they are taken away again. -/
@[simp] theorem bare_bare : d.bare.bare = d.bare := by
  simp [bare, Function.comp_def]

theorem bare_empty : Document.empty.bare = Document.empty := by
  simp [bare, empty]
  rfl

/-- A document without positions has as many nodes. -/
@[simp] theorem size_bare : d.bare.size = d.size := by
  simp [size, bare]

/-- A document without positions has the same parents. -/
@[simp] theorem parent?_bare : d.bare.parent? id = d.parent? id := rfl

/-- A node of a document without positions is the node of the document, without its position. -/
@[simp] theorem node_bare : d.bare.node id = (d.node id).bare := by
  by_cases hlt : id < d.nodes.size
  · simp [node, bare, Array.getD, hlt]
  · have hge : d.size ≤ id := Nat.not_lt.mp hlt
    rw [node_of_size_le hge, node_of_size_le (by rw [size_bare]; exact hge)]
    rfl

@[simp] theorem children_bare : d.bare.children id = d.children id := by
  simp [children]

/-- Changing a node and taking positions away can be done in either order, if that holds of the
change. -/
theorem bare_update {f g : Node → Node} (h : (f (d.node id)).bare = g (d.node id).bare) :
    (d.update id f).bare = d.bare.update id g := by
  have hnodes : (d.nodes.modify id f).map Node.bare = (d.nodes.map Node.bare).modify id g := by
    apply Array.ext (by simp)
    intro i hi hi'
    have hlt : i < d.nodes.size := by simpa using hi
    simp only [Array.getElem_map, Array.getElem_modify]
    split
    · next heq =>
        subst heq
        simpa [node, Array.getD, hlt] using h
    · rfl
  simp only [bare, update, hnodes]

/-- A node is appended in the same way without positions. -/
theorem bare_append (n : Node) : (d.append id n).bare = d.bare.append id n.bare := by
  have hpush : (Document.mk (d.nodes.push n) (d.parents.push (some id))).bare =
      ⟨d.bare.nodes.push n.bare, d.parents.push (some id)⟩ := by
    simp [bare]
  have hupdate := bare_update (Document.mk (d.nodes.push n) (d.parents.push (some id))) id
    (f := fun p => { p with children := p.children ++ [d.size] })
    (g := fun p => { p with children := p.children ++ [d.size] }) rfl
  rw [hpush] at hupdate
  simp only [append, size_bare]
  exact hupdate

/-- A node is detached in the same way without positions. -/
theorem bare_detach : (d.detach id).bare = d.bare.detach id := by
  unfold detach
  rw [parent?_bare]
  cases d.parent? id with
  | none => rfl
  | some parent =>
      have hupdate := bare_update d parent
        (f := fun p => { p with children := p.children.filter (· != id) })
        (g := fun p => { p with children := p.children.filter (· != id) }) rfl
      simp only [bare, update, Document.mk.injEq] at hupdate ⊢
      exact ⟨hupdate.1, trivial⟩

/-- The walk through a document does not depend on positions. -/
@[simp] theorem walk_bare : d.bare.walk = d.walk := by
  rw [walk, walk, descendants, descendants, size_bare,
    below_congr _ _ (children_bare d 0) fun i _ => children_bare d i]

/-- The tag above a node does not depend on positions. -/
@[simp] theorem tagAbove?_bare (steps : Nat) :
    d.bare.tagAbove? steps id = d.tagAbove? steps id := by
  induction steps generalizing id with
  | zero => rfl
  | succ steps ih => simp only [tagAbove?, parent?_bare, node_bare, Node.isTag_bare, ih]

/-- The element a node is in does not depend on positions. -/
@[simp] theorem elementParent?_bare : d.bare.elementParent? id = d.elementParent? id := by
  simp [elementParent?]

/-- Blank texts are dropped in the same way without positions. -/
theorem bare_dropBlank (id : Option Nat) : (d.dropBlank id).bare = d.bare.dropBlank id := by
  cases id with
  | none => rfl
  | some id =>
      simp only [dropBlank, node_bare, Node.isBlankText_bare]
      split
      · exact bare_detach d id
      · rfl

/-- The edges of a text are trimmed in the same way without positions. -/
theorem bare_trimEdges : (d.trimEdges id).bare = d.bare.trimEdges id := by
  simp only [trimEdges, children_bare, ← bare_dropBlank]

/-- Which nodes flow with their neighbours does not depend on positions. -/
@[simp] theorem flowing_bare (levels : Nat) : d.bare.flowing levels id = d.flowing levels id := by
  induction levels generalizing id with
  | zero => rfl
  | succ levels ih =>
      simp only [flowing, children_bare, node_bare, Node.isTag_bare, Node.isPreformatted_bare, ih]

/-- A change that positions do not matter for, made for one number after another. -/
theorem bare_foldl {f : Document → Nat → Document} (hf : ∀ d id, (f d id).bare = f d.bare id)
    (ids : List Nat) : (ids.foldl f d).bare = ids.foldl f d.bare := by
  induction ids generalizing d with
  | nil => rfl
  | cons id rest ih => rw [List.foldl_cons, List.foldl_cons, ih, hf]

/-- Blanks are trimmed in the same way without positions. -/
theorem bare_trimBlanks : d.trimBlanks.bare = d.bare.trimBlanks := by
  simp only [trimBlanks, children_bare]
  rw [bare_foldl _ bare_trimEdges, bare_foldl _ fun d id => bare_dropBlank d (some id),
    ← bare_foldl _ fun d id => bare_dropBlank d (some id), flowing_bare, size_bare]

end Document

/-- The settings that ask for no positions. -/
def Settings.bare (s : Settings) : Settings := { s with index := false, loc := false }

/-- The context in which no positions are asked for. -/
def Context.bare (c : Context) : Context := { c with settings := c.settings.bare }

/-- Where no positions are asked for, none is made. -/
@[simp] theorem Context.position_bare (c : Context) (start stop : Nat) :
    c.bare.position start stop = none := rfl

namespace Builder

/-- The builder with a document without positions. -/
def bare (b : Builder) : Builder := { b with document := b.document.bare }

variable (c : Context) (b : Builder)

/-- The builder adds a node in the same way without positions. -/
theorem bare_add (n : Node) : (b.add n).bare = b.bare.add n.bare := by
  simp only [add, bare, Document.bare_append]
  rfl

/-- Whether the builder is inside a preformatted element does not depend on positions. -/
@[simp] theorem isPreformatted_bare : b.bare.isPreformatted = b.isPreformatted := by
  simp [isPreformatted, bare]

/-- The text that the builder would go on with is the same without positions. -/
@[simp] theorem lastText?_bare : b.bare.lastText? = b.lastText? := by
  have hparent : b.bare.parent = b.parent := rfl
  simp only [lastText?, hparent]
  simp only [bare, Document.children_bare, Document.node_bare, Node.content_bare]
  cases (b.document.children b.parent).getLast? with
  | none => rfl
  | some id =>
      cases hcontent : (b.document.node id).content with
      | document | element | comment => simp [hcontent, Content.bare]
      | text text => simp only [hcontent, Content.bare]

@[simp] theorem nameOf_bare (id : Nat) : b.bare.nameOf id = b.nameOf id := by
  simp only [nameOf, bare, Document.node_bare, Node.element?_bare]
  cases (b.document.node id).element? with
  | none => rfl
  | some e => rfl

/-- Elements that are left open are reported in the same way without positions. -/
theorem bare_reportUnclosed (ids : List Nat) :
    (b.reportUnclosed ids).bare = b.bare.reportUnclosed ids := by
  unfold reportUnclosed
  induction ids generalizing b with
  | nil => rfl
  | cons id rest ih =>
      rw [List.foldl_cons, List.foldl_cons, ih, nameOf_bare]
      rfl

/-- A text is added in the same way without positions. -/
theorem bare_addText (text : String) (start stop : Nat) :
    (b.addText c text start stop).bare = b.bare.addText c.bare text start stop := by
  have hsettings : c.bare.settings.keepBlanks = c.settings.keepBlanks := rfl
  simp only [addText, lastText?_bare, isPreformatted_bare, hsettings]
  cases b.lastText? with
  | none => exact bare_add b _
  | some found =>
      obtain ⟨last, before⟩ := found
      simp only [bare, Builder.mk.injEq, and_true]
      exact Document.bare_update _ _ rfl

/-- An attribute is made of its token in the same way without positions. -/
theorem bare_attributeOf (t : AttributeToken) : (attributeOf c t).bare = attributeOf c.bare t := rfl

/-- The node of an opened element is the same without positions. -/
theorem bare_opened (name : String) (attributes : List AttributeToken) (selfClosing : Bool)
    (start stop : Nat) : (opened c name attributes selfClosing start stop).bare =
      opened c.bare name attributes selfClosing start stop := by
  simp [opened, Node.bare, Node.ofElement, Content.bare, Element.bare, bare_attributeOf]

/-- An element is opened in the same way without positions. -/
theorem bare_openElement (name : String) (attributes : List AttributeToken) (selfClosing : Bool)
    (start stop : Nat) : (b.openElement c name attributes selfClosing start stop).bare =
      b.bare.openElement c.bare name attributes selfClosing start stop := by
  rw [openElement_eq, openElement_eq, ← bare_opened]
  split
  · exact bare_add b _
  · simp only [inside, ← bare_add]
    simp [bare]

/-- An element is closed in the same way without positions. -/
theorem bare_closeElement (name : String) (start stop : Nat) :
    (b.closeElement c name start stop).bare = b.bare.closeElement c.bare name start stop := by
  have hstack : b.bare.stack = b.stack := rfl
  simp only [closeElement, nameOf_bare, hstack]
  split
  · split
    · rfl
    · rfl
  · simp only [← bare_reportUnclosed]
    simp only [bare, Builder.mk.injEq, and_true]
    exact Document.bare_update _ _ rfl

/-- **One step.**  Tokens are taken in the same way without positions. -/
theorem bare_step (t : Token) : (b.step c t).bare = b.bare.step c.bare t := by
  obtain ⟨lexeme, start, stop⟩ := t
  cases lexeme with
  | text text => exact bare_addText c b text start stop
  | comment content =>
      have hsettings : c.bare.settings.comments = c.settings.comments := rfl
      simp only [step, addComment, hsettings]
      split
      · exact bare_add b _
      · rfl
  | opening name attributes selfClosing =>
      exact bare_openElement c b name attributes selfClosing start stop
  | closing name => exact bare_closeElement c b name start stop
  | raw text =>
      have hchange := Document.bare_update b.document b.parent
        ((b.document.node b.parent).bare_mapElement (f := fun e => { e with raw := some text })
          fun _ => rfl)
      simp only [step, bare, hchange]
      rfl

/-- A document is finished in the same way without positions, with the same problems. -/
theorem bare_finish (source : String) :
    ((b.finish c source).1.bare, (b.finish c source).2) = b.bare.finish c.bare source := by
  have hstack : b.bare.stack = b.stack := rfl
  have htrim : c.bare.settings.trim = c.settings.trim := rfl
  have hproduced : ∀ b : Builder, b.bare.produced = b.produced := fun _ => rfl
  simp only [finish, hstack, htrim, ← bare_reportUnclosed, hproduced]
  refine Prod.ext ?_ ?_
  · dsimp only
    split
    · exact Document.bare_trimBlanks _
    · rfl
  · dsimp only
    split
    · rfl
    · rfl

end Builder

/-- **Positions are only added.**  Reading markup gives the document that is read without positions
with positions put on, and the same problems. -/
theorem parse_bare (s : Settings) (source : String) :
    ((parse s source).1.bare, (parse s source).2) = parse s.bare source := by
  have hrun : ∀ (c : Context) (tokens : List Token) (b : Builder),
      (tokens.foldl (Builder.step c) b).bare = tokens.foldl (Builder.step c.bare) b.bare := by
    intro c tokens
    induction tokens with
    | nil => intro b; rfl
    | cons t rest ih =>
        intro b
        rw [List.foldl_cons, List.foldl_cons, ih, Builder.bare_step]
  have hstart : ∀ found, ({ diagnostics := found } : Builder).bare = { diagnostics := found } := by
    intro found
    simp only [Builder.bare, Document.bare_empty]
  simp only [parse]
  rw [Builder.bare_finish, hrun, hstart]
  rfl

example : ((parse ⟨true, false, true, true, true, false⟩ "a<b/>").1.node 2).position =
    some { start := some 1, stop := some 5 } := by
  decide +kernel

/-- No node carries a position unless positions of some kind are asked for. -/
theorem parse_of_not_enabled {o : Options} (h : o.position.enabled = false) (source : String) :
    (parse o.markup source).1.bare = (parse o.markup source).1 := by
  have hbare : o.markup.bare = o.markup := by
    rw [PositionOptions.enabled, Bool.or_eq_false_iff] at h
    simp [Settings.bare, Options.markup, h]
  have hread := congrArg Prod.fst (parse_bare o.markup source)
  rwa [hbare] at hread

end Stencil.Markup

namespace Stencil.Passes

open Stencil.Markup Stencil.Source
open Stencil.Script (Language Fault Expression)

/-- What a pass leaves behind, without positions. -/
def Outcome.bare (o : Outcome) : Outcome :=
  { o with document := o.document.bare, diagnostics := o.diagnostics.map Diagnostic.bare }

/-- Taking positions away from an outcome twice is taking them away once. -/
theorem Outcome.bare_bare (o : Outcome) : o.bare.bare = o.bare := by
  simp [bare, Diagnostic.bare, Function.comp_def]

/-- A node is changed in the same way without positions. -/
theorem Outcome.bare_update {d : Document} {id : Nat} {f g : Node → Node}
    (h : (f (d.node id)).bare = g (d.node id).bare) (found : List Diagnostic)
    (error : Option Error) :
    (Outcome.mk (d.update id f) found error).bare =
      ⟨d.bare.update id g, found.map Diagnostic.bare, error⟩ := by
  rw [bare, Document.bare_update d id h]

section Types

theorem attributeTarget?_bare (a : Attribute) : attributeTarget? a.bare = attributeTarget? a := rfl

/-- The name of a fragment is taken from an element in the same way without positions. -/
theorem takeFragment_bare (e : Element) :
    takeFragment e.bare = ((takeFragment e).1.map Attribute.bare, (takeFragment e).2.bare) := by
  have hindex : e.bare.attributes.findIdx? (·.fullName == fragmentName) =
      e.attributes.findIdx? (·.fullName == fragmentName) := by
    simp [List.findIdx?_map, Function.comp_def]
  simp only [takeFragment, hindex]
  split
  · simp [Element.bare, List.eraseIdx_map]
  · rfl

/-- An element gets the same type without positions. -/
theorem typeElement_bare (n : Node) (e : Element) :
    typeElement n.bare e.bare = ((typeElement n e).1.bare, (typeElement n e).2.map .bare) := by
  simp only [typeElement, takeFragment_bare]
  generalize takeFragment e = taken
  obtain ⟨named, e⟩ := taken
  have hnamed : (named.map Attribute.bare).bind fragmentOf = named.bind fragmentOf := by
    cases named <;> rfl
  have hkinds : e.bare.attributes.map (fun a => { a with kind := attributeKind a }) =
      (e.attributes.map fun a => { a with kind := attributeKind a }).map Attribute.bare := by
    rw [Element.attributes_bare, List.map_map, List.map_map]
    rfl
  simp only [hkinds, hnamed]
  generalize e.attributes.map (fun a => { a with kind := attributeKind a }) = as
  have htarget : (as.map Attribute.bare).findSome? attributeTarget? =
      as.findSome? attributeTarget? := by
    simp [List.findSome?_map, Function.comp_def, attributeTarget?_bare]
  have hlang := Element.text?_attribute?_bare { e with attributes := as } "lang"
  simp only [Element.bare] at hlang
  refine Prod.ext ?_ ?_
  · simp only [Element.bare, htarget, hlang]
    rfl
  · cases named with
    | none => rfl
    | some a =>
        simp only [Option.map_some]
        split
        · rfl
        · rfl

/-- A node is typed in the same way without positions. -/
theorem typeStep_bare (d : Document) (id : Nat) : (typeStep d id).bare = typeStep d.bare id := by
  simp only [typeStep, Document.node_bare, Node.type_bare, Node.params_bare, Node.element?_bare]
  split
  · rfl
  · cases (d.node id).element? with
    | none => rfl
    | some e =>
        simp only [Option.map_some, typeElement_bare]
        refine Outcome.bare_update ?_ _ none
        rfl

end Types

/-- The raw text of a script or style is the same without positions. -/
theorem rawContent_bare (n : Node) : rawContent n.bare = rawContent n := by
  simp only [rawContent, Node.element?_bare]
  cases n.element? with
  | none => rfl
  | some e => rfl

/-- Scripts and styles are read in the same way without positions. -/
theorem embeddedStep_bare (lang : Language) (d : Document) (id : Nat) :
    (embeddedStep lang d id).bare = embeddedStep lang d.bare id := by
  simp only [embeddedStep, Document.node_bare, Node.type_bare, Node.params_bare, rawContent_bare]
  cases (d.node id).type with
  | script =>
      dsimp only
      split
      · rfl
      · cases lang.script (d.node id).params.typescript (rawContent (d.node id)) with
        | error f => rfl
        | ok parts =>
            refine Outcome.bare_update ?_ [] none
            rfl
  | style =>
      dsimp only
      split
      · rfl
      · cases Style.Sheet.parse (rawContent (d.node id)) with
        | error f => rfl
        | ok sheet =>
            refine Outcome.bare_update ?_ [] none
            rfl
  | _ => rfl

section Blocks

theorem headerToken_bare (a : Attribute) : headerToken a.bare = headerToken a := rfl

/-- The header of a block does not depend on positions. -/
theorem blockHeader_bare (e : Element) : blockHeader e.bare = blockHeader e := by
  have htokens : (e.bare.attributes.filter (·.fullName != "value")).map headerToken =
      (e.attributes.filter (·.fullName != "value")).map headerToken := by
    simp [List.filter_map, Function.comp_def, headerToken_bare]
  simp only [blockHeader, Element.text?_attribute?_bare, htokens]

theorem slotName_bare (e : Element) : slotName e.bare = slotName e := by
  simp only [slotName, Element.text?_attribute?_bare]

variable {read : String → Except Fault Expression}

/-- The parameters of a block do not depend on positions. -/
theorem blockParams_bare (kind : BlockKind) (e : Element) :
    blockParams read kind e.bare = blockParams read kind e := by
  simp only [blockParams, blockHeader_bare, slotName_bare]

/-- A block is read in the same way without positions. -/
theorem blockStep_bare (d : Document) (id : Nat) :
    (blockStep read d id).bare = blockStep read d.bare id := by
  simp only [blockStep, Document.node_bare, Node.type_bare, Node.params_bare, Node.element?_bare]
  cases htype : (d.node id).type with
  | block kind =>
      cases (d.node id).element? with
      | none => rfl
      | some e =>
          simp only [Option.map_some, blockParams_bare]
          split
          · rfl
          · cases blockParams read kind e with
            | error f => rfl
            | ok block =>
                refine Outcome.bare_update ?_ [] none
                rfl
  | _ => rfl

end Blocks

section Attributes

variable {read : String → Except Fault Expression}

/-- A value is divided in the same way without positions. -/
theorem dividedValue_bare (a : Attribute) : dividedValue read a.bare = dividedValue read a := rfl

/-- A name alone in braces is read in the same way without positions. -/
theorem named?_bare (a : Attribute) :
    named? read a.bare = (named? read a).map (Option.map Attribute.bare) := by
  simp only [named?, Attribute.text?_bare]
  cases a.text? with
  | none => rfl
  | some text =>
      dsimp only
      split
      · cases read (Text.trim text) with
        | error f => rfl
        | ok e => rfl
      · rfl

/-- Divided attributes without positions. -/
def Divided.bare (s : Divided) : Divided :=
  { s with attributes := s.attributes.map .bare, diagnostics := s.diagnostics.map .bare }

/-- Attributes are divided in the same way without positions. -/
theorem divide_bare (as : List Attribute) :
    divide read (as.map Attribute.bare) = (divide read as).bare := by
  induction as with
  | nil => rfl
  | cons a rest ih =>
      simp only [List.map_cons, divide, Attribute.isAnonymous_bare, named?_bare,
        dividedValue_bare, ih]
      by_cases hanonymous : a.isAnonymous = true
      · simp only [if_pos hanonymous]
        cases named? read a with
        | error f => rfl
        | ok named =>
            cases named with
            | none => rfl
            | some a => rfl
      · simp only [if_neg hanonymous]
        cases dividedValue read a with
        | error f => rfl
        | ok value => rfl

/-- The attributes of a node are divided in the same way without positions. -/
theorem attributeStep_bare (d : Document) (id : Nat) :
    (attributeStep read d id).bare = attributeStep read d.bare id := by
  simp only [attributeStep, Document.node_bare, Node.type_bare, Node.params_bare,
    Node.element?_bare]
  cases (d.node id).element? with
  | none => cases (d.node id).type <;> rfl
  | some e =>
      have hfault : (divide read e.attributes).bare.fault = (divide read e.attributes).fault := rfl
      have hneeds : (divide read e.attributes).bare.attributes.any Attribute.needsReference =
          (divide read e.attributes).attributes.any Attribute.needsReference := by
        simp [Divided.bare, Function.comp_def]
      cases (d.node id).type with
      | element | component | fragment =>
          simp only [Option.map_some, Element.attributes_bare, divide_bare, hfault, hneeds]
          cases (divide read e.attributes).fault with
          | some f =>
              refine Outcome.bare_update ?_ _ _
              exact Node.bare_mapElement _ fun _ => rfl
          | none =>
              refine Outcome.bare_update ?_ _ none
              rfl
      | _ => rfl

end Attributes

section Texts

variable {read : String → Except Fault Expression}

/-- The element above a text is marked in the same way without positions. -/
theorem markAbove_bare (d : Document) (id : Nat) : (markAbove d id).bare = markAbove d.bare id := by
  simp only [markAbove, Document.elementParent?_bare]
  split
  · exact Document.bare_update _ _ rfl
  · rfl

/-- A text is divided in the same way without positions. -/
theorem textStep_bare (d : Document) (id : Nat) :
    (textStep read d id).bare = textStep read d.bare id := by
  simp only [textStep, Document.node_bare, Node.type_bare, Node.content_bare]
  cases (d.node id).type with
  | text =>
      cases (d.node id).content with
      | text content =>
          cases content with
          | parts parts => rfl
          | raw text =>
              have hdivide : ∀ parts,
                  (d.update id fun n => { n with content := .text (.parts parts) }).bare =
                    d.bare.update id fun n => { n with content := .text (.parts parts) } :=
                fun parts => Document.bare_update d id rfl
              simp only [Content.bare]
              cases interpolate read text with
              | error f => rfl
              | ok parts =>
                  simp only [← hdivide, ← markAbove_bare]
                  split
                  · rfl
                  · rfl
      | document | element | comment => rfl
  | _ => rfl

end Texts

/-- Findings from before are taken in without their spans. -/
theorem Outcome.bare_after (found : List Diagnostic) (more : Outcome) :
    ({ more with diagnostics := found ++ more.diagnostics } : Outcome).bare =
      { more.bare with diagnostics := found.map Diagnostic.bare ++ more.bare.diagnostics } := by
  simp [bare]

/-- Visiting some nodes is the same without positions if each step is. -/
theorem visit_bare {step : Document → Nat → Outcome}
    (hstep : ∀ d id, (step d id).bare = step d.bare id) (ids : List Nat) (d : Document) :
    (visit step ids d).bare = visit step ids d.bare := by
  induction ids generalizing d with
  | nil => rfl
  | cons id rest ih =>
      have herror : (step d.bare id).error = (step d id).error := by rw [← hstep]; rfl
      simp only [visit, herror]
      cases (step d id).error with
      | some e => exact hstep d id
      | none =>
          simp only [Outcome.bare_after, ih, ← hstep]
          rfl

end Stencil.Passes

namespace Stencil

open Stencil.Markup Stencil.Passes Stencil.Source
open Stencil.Script (Language)

variable (lang : Language) (typed : Bool) (d : Document)

/-- **Passes do not read positions.** -/
theorem Pass.bare_run (p : Pass) : (p.run lang typed d).bare = p.run lang typed d.bare := by
  have hstep : ∀ d id, (p.step lang typed d id).bare = p.step lang typed d.bare id := by
    cases p with
    | types => exact typeStep_bare
    | embedded => exact embeddedStep_bare lang
    | blocks => exact blockStep_bare
    | attributes => exact attributeStep_bare
    | texts => exact textStep_bare
  simp only [Pass.run_eq, Passes.run, visit_bare hstep, Document.walk_bare]

/-- The dialect behind a pass does not depend on positions. -/
theorem Pass.dialect_bare (p : Pass) : p.dialect typed d.bare = p.dialect typed d := by
  cases p with
  | embedded => simp [dialect, isTyped]
  | types | blocks | attributes | texts => rfl

/-- Some passes do the same without positions, one after another. -/
theorem runPasses_bare (passes : List Pass) :
    (runPasses lang typed passes d).bare = runPasses lang typed passes d.bare := by
  induction passes generalizing typed d with
  | nil => rfl
  | cons p rest ih =>
      have hrun := p.bare_run lang typed d
      have herror : (p.run lang typed d.bare).error = (p.run lang typed d).error := by
        rw [← hrun]
        rfl
      simp only [runPasses, herror]
      cases (p.run lang typed d).error with
      | some e => exact hrun
      | none =>
          have hdocument : (p.run lang typed d.bare).document =
              (p.run lang typed d).document.bare := by
            rw [← hrun]
            rfl
          have hfound : (p.run lang typed d.bare).diagnostics =
              (p.run lang typed d).diagnostics.map Diagnostic.bare := by
            rw [← hrun]
            rfl
          simp only [Outcome.bare_after, ih, hdocument, hfound, Pass.dialect_bare]

/-- **A template does not depend on its positions.**  All passes together give the document that
they give without positions, with positions put on, and the same problems. -/
theorem parseTemplate_bare (o : Options) (source : String) :
    (parseTemplate lang o source).bare =
      (parseTemplate lang { o with position := {} } source).bare := by
  have hparse := parse_bare o.markup source
  have hmarkup : ({ o with position := {} } : Options).markup = o.markup.bare := rfl
  simp only [parseTemplate, Outcome.bare_after, hmarkup, ← hparse, transform, ← runPasses_bare,
    Outcome.bare_bare]

end Stencil
