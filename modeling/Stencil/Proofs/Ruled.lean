import Stencil.Proofs.Attached
import Stencil.Proofs.TreeScan

/-!
# Rules that tokens keep

Whatever the tokens of a source are, no text stands beside another one in the document that they make
(`Document.Spaced`): text is joined to text before it.  And nodes that cannot have children have none
(`Node.Hosts`): while tokens are taken in, all open elements can have them (`Builder.Hosting`), raw
content apart, which is read together with the tag in front of it.

So a rule for nodes is kept by all tokens if the nodes that tokens make keep it, and if it asks of
texts no more than that they are undivided and not empty (`Builder.Rule`): each token keeps it
(`Builder.Ruled.step`), an opening tag with the raw content behind it does (`Builder.Ruled.fill`), and
so does the whole source (`Tiled.ruled`).  Cutting off blank text keeps it too (`Ruled.trimBlanks`),
for what stood on either side of a text is no text.
-/

namespace Stencil.Markup

open Stencil.Text

/-- The element of an opening tag. -/
def elementOf (c : Context) (name : String) (attributes : List AttributeToken) (selfClosing : Bool)
    (raw : Option String) : Element :=
  ⟨name, selfClosing || isVoid name, selfClosing, attributes.map (Builder.attributeOf c), raw⟩

/-- The node can have children: if it holds an element, that is neither empty nor raw. -/
def Node.Hosts (n : Node) : Prop :=
  (n.content.type = .document ∨ n.content.type = .element) ∧
    ∀ e, n.content = .element e → e.empty = false ∧ isRawText e.name = false

/-- Whether the node is a text. -/
def Node.isText (n : Node) : Bool := n.content.type == .text

/-- Whether a node is a text depends on its content only. -/
theorem Node.isText_congr {n m : Node} (h : n.content = m.content) : n.isText = m.isText := by
  rw [isText, isText, h]

namespace Document

/-- Not both nodes are texts. -/
def Apart (d : Document) (i j : Nat) : Prop :=
  ¬ ((d.node i).isText = true ∧ (d.node j).isText = true)

/-- No text stands beside another one. -/
def Spaced (d : Document) : Prop := ∀ p, (d.children p).IsChain d.Apart

/-- All nodes keep a rule, only the first is no proper node, and no text stands beside another one. -/
structure Ruled (Proper : Node → Prop) (d : Document) : Prop where
  nodes : ∀ i, Proper (d.node i)
  inner : ∀ i, 0 < i → i < d.size → (d.node i).content.type ≠ .document
  beside : d.Spaced

variable {Proper : Node → Prop} {d d' : Document}

/-- Changing the node that has just been added is adding another one. -/
theorem update_append_self {p : Nat} (hp : p < d.size) (n : Node) (f : Node → Node) :
    (d.append p n).update d.size f = d.append p (f n) := by
  have hne : p ≠ d.nodes.size := Nat.ne_of_lt hp
  simp only [Document.append, update, size, Document.mk.injEq, and_true]
  apply Array.ext (by simp)
  intro i hi _
  simp only [Array.size_modify, Array.size_push] at hi
  by_cases hlast : i = d.nodes.size
  · subst hlast
    simp [Array.getElem_modify, hne]
  · have hlt : i < d.nodes.size := by omega
    simp [Array.getElem_modify, Array.getElem_push, Ne.symm hlast, hlt]

/-- Nodes stand apart where their texts do. -/
theorem isChain_apart_congr {ids : List Nat} (h : ids.IsChain d.Apart)
    (hsame : ∀ i ∈ ids, (d'.node i).isText = (d.node i).isText) : ids.IsChain d'.Apart := by
  induction ids with
  | nil => exact .nil
  | cons i rest ih =>
      obtain ⟨hi, hrest⟩ := List.forall_mem_cons.mp hsame
      obtain ⟨hhead, htail⟩ := List.isChain_cons.mp h
      refine List.isChain_cons.mpr ⟨fun j hj => ?_, ih htail hrest⟩
      rw [Apart, hi, hrest j (List.mem_of_head? hj)]
      exact hhead j hj

/-- Leaving out a text brings no other two together. -/
theorem isChain_apart_filter {ids : List Nat} {id : Nat} (h : ids.IsChain d.Apart)
    (hid : (d.node id).isText = true) : (ids.filter (· != id)).IsChain d.Apart := by
  induction ids with
  | nil => exact .nil
  | cons i rest ih =>
      obtain ⟨hhead, htail⟩ := List.isChain_cons.mp h
      by_cases hi : i = id
      · rw [hi, List.filter_cons_of_neg (by simp)]
        exact ih htail
      · rw [List.filter_cons_of_pos (by simpa using hi)]
        refine List.isChain_cons.mpr ⟨fun j hj => ?_, ih htail⟩
        cases rest with
        | nil => simp at hj
        | cons k more =>
            by_cases hk : k = id
            · -- what stands before the text is no text
              rintro ⟨htext, -⟩
              exact hhead k rfl ⟨htext, by rw [hk, hid]⟩
            · rw [List.filter_cons_of_pos (by simpa using hk)] at hj
              exact hhead j hj

/-- Adding a node at the end of one that can have children, unless both are texts. -/
theorem Spaced.append (h : d.Spaced) (hforward : d.Forward) {p : Nat} (hp : p < d.size) {n : Node}
    (hchildren : n.children = [])
    (hlast : n.isText = true → ∀ i ∈ (d.children p).getLast?, (d.node i).isText = false) :
    (d.append p n).Spaced := by
  have hsame : ∀ i, i < d.size → ((d.append p n).node i).isText = (d.node i).isText := by
    intro i hi
    apply Node.isText_congr
    rw [content_append hp, if_neg (by omega)]
  intro q
  rcases Nat.lt_trichotomy q d.size with hlt | rfl | hgt
  · have hold : (d.children q).IsChain (d.append p n).Apart :=
      isChain_apart_congr (h q) fun i hi => hsame i (hforward q i hi).2
    by_cases hq : q = p
    · subst hq
      rw [children_append_parent hp]
      refine List.isChain_append.mpr ⟨hold, .singleton _, ?_⟩
      rintro i hi j hj ⟨hitext, hjtext⟩
      simp only [List.head?_cons, Option.mem_def, Option.some.injEq] at hj
      rw [← hj, node_append_self hp] at hjtext
      have hno := hlast hjtext i hi
      rw [hsame i (hforward q i (List.mem_of_getLast? hi)).2, hno] at hitext
      simp at hitext
    · rw [children_append_of_ne hlt hq]
      exact hold
  · rw [children_append_self hp hchildren]
    exact .nil
  · rw [children, node_of_size_le (by rw [size_append]; omega)]
    exact .nil

/-- Cutting off a text. -/
theorem Spaced.detach (h : d.Spaced) {id : Nat} (hid : (d.node id).isText = true) :
    (d.detach id).Spaced := by
  cases hp : d.parent? id with
  | none =>
      rw [show d.detach id = d by simp only [Document.detach, hp]]
      exact h
  | some p =>
      have hsame : ∀ ids : List Nat, ids.IsChain d.Apart → ids.IsChain (d.detach id).Apart :=
        fun ids hids => isChain_apart_congr hids fun i _ => Node.isText_congr (content_detach hp i)
      intro q
      rw [children_detach hp]
      split
      · exact hsame _ (isChain_apart_filter (h q) hid)
      · exact hsame _ (h q)

/-- A blank text is a text. -/
theorem isText_of_isBlankText {n : Node} (h : n.isBlankText = true) : n.isText = true := by
  unfold Node.isBlankText at h
  split at h
  · next heq => simp [Node.isText, heq, Content.type]
  · simp at h

/-- Dropping a blank text keeps texts spaced. -/
theorem Spaced.dropBlank (h : d.Spaced) (id : Option Nat) : (d.dropBlank id).Spaced := by
  unfold Document.dropBlank
  split
  · split
    · next hblank => exact h.detach (isText_of_isBlankText hblank)
    · exact h
  · exact h

/-- A sequence of changes that each keep texts spaced keeps them spaced. -/
theorem Spaced.foldl {f : Document → Nat → Document} (hf : ∀ d id, Spaced d → Spaced (f d id))
    (ids : List Nat) (h : d.Spaced) : (ids.foldl f d).Spaced := by
  induction ids generalizing d with
  | nil => exact h
  | cons id rest ih => exact ih (hf d id h)

/-- Trimming the blanks keeps texts spaced. -/
theorem Spaced.trimBlanks (h : d.Spaced) : d.trimBlanks.Spaced := by
  unfold Document.trimBlanks
  have htop := h.foldl (fun d id hd => hd.dropBlank (some id)) (d.children 0)
  exact htop.foldl (fun d id hd => (hd.dropBlank _).dropBlank _) _

end Document

namespace Builder

variable {b : Builder} {c : Context}

/-- A rule for nodes that the tokens with some lexemes keep.  It depends on the content of a node and
on whether it has children, and asks of a text that it has none, is undivided and not empty. -/
structure Rule (c : Context) (Allowed : Lexeme → Prop) (Proper : Node → Prop) : Prop where
  root : Proper .document
  congr : ∀ {n m : Node}, Proper n → m.content = n.content →
    (n.children = [] → m.children = []) → Proper m
  /-- A node that can have children may have any. -/
  host : ∀ {n : Node}, Proper n → n.Hosts → ∀ children, Proper { n with children }
  text_iff : ∀ {n : Node} {content : TextContent}, n.content = .text content →
    (Proper n ↔ n.children = [] ∧ ∃ text, content = .raw text ∧ text ≠ "")
  named : ∀ {lexeme : Lexeme}, Allowed lexeme → lexeme.Named
  nonempty : ∀ {text : String}, Allowed (.text text) → text ≠ ""
  comment : ∀ {content : String}, Allowed (.comment content) → c.settings.comments = true →
    ∀ start stop, Proper { Node.ofComment content with position := c.position start stop }
  opened : ∀ {name : String} {attributes : List AttributeToken} {selfClosing : Bool},
    Allowed (.opening name attributes selfClosing) →
    Lexeme.opensRaw (.opening name attributes selfClosing) = false →
    ∀ start stop, Proper (opened c name attributes selfClosing start stop)
  /-- An opening tag with the raw content behind it. -/
  filled : ∀ {name : String} {attributes : List AttributeToken} {text : String},
    Allowed (.opening name attributes false) → isRawText name = true → Unclosed name text.toList →
    ∀ start stop, Proper
      { Node.ofElement (elementOf c name attributes false (some text)) with
        position := c.position start stop }

/-- A builder with a document that keeps a rule. -/
structure Ruled (Proper : Node → Prop) (b : Builder) : Prop where
  ordered : b.Ordered
  document : b.document.Ruled Proper

/-- The innermost open element, or the root, can have children. -/
def Hosting (b : Builder) : Prop := ∀ id ∈ b.stack, (b.document.node id).Hosts

/-- The root hosts other nodes. -/
theorem Ordered.root_hosts (h : b.Ordered) : (b.document.node 0).Hosts := by
  refine ⟨.inl h.root, ?_⟩
  intro e he
  have hroot := h.root
  rw [he] at hroot
  simp [Content.type] at hroot

/-- The node that is open hosts other nodes. -/
theorem Hosting.parent (h : b.Hosting) (ho : b.Ordered) : (b.document.node b.parent).Hosts := by
  unfold Builder.parent
  cases hstack : b.stack with
  | nil => exact ho.root_hosts
  | cons id rest => exact h id (by simp [hstack])

/-- A smaller stack and the same content keep a builder hosting. -/
theorem Hosting.congr {b' : Builder} (h : b.Hosting) (hstack : b'.stack ⊆ b.stack)
    (hcontent : ∀ id ∈ b.stack,
      (b'.document.node id).content = (b.document.node id).content) : b'.Hosting := by
  intro id hid
  have hold := h id (hstack hid)
  unfold Node.Hosts at hold ⊢
  rw [hcontent id (hstack hid)]
  exact hold

/-- A new node keeps a builder hosting. -/
theorem Hosting.add (h : b.Hosting) (ho : b.Ordered) (n : Node) : (b.add n).Hosting :=
  h.congr (List.Subset.refl _) fun id hid => content_add_of_lt ho (ho.shape.stack id hid)

/-- Opening a node that can have children. -/
theorem Hosting.inside (h : b.Hosting) (ho : b.Ordered) {n : Node} (hn : n.Hosts) :
    (b.inside n).Hosting := by
  refine List.forall_mem_cons.mpr ⟨?_, h.add ho n⟩
  have hnode : (b.inside n).document.node b.document.size = n :=
    Document.node_append_self ho.shape.parent_lt n
  rw [hnode]
  exact hn

section Rule

variable {Allowed : Lexeme → Prop} {Proper : Node → Prop}

/-- Adding a node, unless it is a text behind a text. -/
theorem Ruled.add (h : b.Ruled Proper) (rule : Rule c Allowed Proper) (hhosting : b.Hosting)
    {n : Node} (hn : Proper n) (hchildren : n.children = []) (htype : n.content.type ≠ .document)
    (hlast : n.isText = true → b.lastText? = none) : (b.add n).document.Ruled Proper := by
  have hparent := h.ordered.shape.parent_lt
  refine ⟨?_, ?_, ?_⟩
  · intro i
    rw [Builder.add]
    rcases Nat.lt_trichotomy i b.document.size with hlt | rfl | hgt
    · by_cases hi : i = b.parent
      · rw [hi, Document.node_append_parent hparent]
        exact rule.host (h.document.nodes _) (hhosting.parent h.ordered) _
      · rw [Document.node_append_of_ne n hlt hi]
        exact h.document.nodes i
    · rw [Document.node_append_self hparent]
      exact hn
    · rw [Document.node_of_size_le (by rw [Document.size_append]; omega)]
      exact rule.root
  · intro i hpos hlt
    rw [Builder.add, Document.size_append] at hlt
    rw [Builder.add, Document.content_append hparent]
    split
    · exact htype
    · exact h.document.inner i hpos (by omega)
  · refine h.document.beside.append h.ordered.shape.document.forward hparent hchildren ?_
    intro htext i hi
    -- a text at the end would be undivided, and so the text would have been joined to it
    have hnone := hlast htext
    rw [Option.mem_def] at hi
    simp only [lastText?, hi] at hnone
    rw [Bool.eq_false_iff]
    intro hi'
    cases hcontent : (b.document.node i).content with
    | text content =>
        obtain ⟨-, text, rfl, -⟩ := (rule.text_iff hcontent).mp (h.document.nodes i)
        simp [hcontent] at hnone
    | document | element | comment => simp [Node.isText, hcontent, Content.type] at hi'

/-- Changing a node but for its children and what kind of node it is. -/
theorem Ruled.update (h : b.Ruled Proper) {id : Nat} {f : Node → Node}
    (hf : Proper (f (b.document.node id)))
    (hchildren : (f (b.document.node id)).children = (b.document.node id).children)
    (htype : (f (b.document.node id)).content.type = (b.document.node id).content.type) :
    (b.document.update id f).Ruled Proper := by
  have hkind := Document.content_update htype
  refine ⟨?_, ?_, ?_⟩
  · intro i
    rcases Document.node_update_cases b.document id f i with hnode | ⟨rfl, hnode⟩
    · rw [hnode]
      exact h.document.nodes i
    · rw [hnode]
      exact hf
  · intro i hpos hlt
    rw [Document.size_update] at hlt
    rw [hkind]
    exact h.document.inner i hpos hlt
  · intro p
    rw [Document.children_update hchildren]
    refine Document.isChain_apart_congr (h.document.beside p) fun i _ => ?_
    rw [Node.isText, hkind]
    rfl

/-- Collapsing leaves something of a text. -/
theorem collapse_ne {text : String} (h : text ≠ "") : collapse text ≠ "" := by
  intro hnil
  rw [collapse, String.ofList_eq_empty_iff] at hnil
  cases htext : text.toList with
  | nil => exact h (String.toList_eq_nil_iff.mp htext)
  | cons c rest =>
      rw [htext, collapseFrom] at hnil
      split at hnil <;> simp at hnil

/-- Tidying leaves something of a text. -/
theorem tidy_ne {text : String} (h : text ≠ "") (keep : Bool) :
    (if keep then id else collapse) text ≠ "" := by
  cases keep with
  | true => exact h
  | false => exact collapse_ne h

/-- Adding a text keeps the rule. -/
theorem Ruled.addText (h : b.Ruled Proper) (rule : Rule c Allowed Proper) (hhosting : b.Hosting)
    {text : String} (htext : text ≠ "") (start stop : Nat) :
    (b.addText c text start stop).document.Ruled Proper ∧
      (b.addText c text start stop).Hosting := by
  have htidy := tidy_ne htext (c.settings.keepBlanks || b.isPreformatted)
  simp only [Builder.addText]
  split
  · next last before hlast =>
      have hcontent := content_of_lastText? hlast
      have hold := (rule.text_iff hcontent).mp (h.document.nodes last)
      refine ⟨h.update ((rule.text_iff rfl).mpr ⟨hold.1, _, rfl, tidy_ne ?_ _⟩) rfl
        (by rw [hcontent]; rfl), ?_⟩
      · intro hnil
        exact htidy (String.append_eq_empty_iff.mp hnil).2
      · refine hhosting.congr (List.Subset.refl _) fun id hid => ?_
        rcases Document.node_update_cases b.document last _ id with hnode | ⟨rfl, -⟩
        · rw [hnode]
        · -- an open element is no text
          have htag := h.ordered.tags id hid
          rw [hcontent] at htag
          simp [Content.type] at htag
  · next hnone =>
      refine ⟨h.add rule hhosting ((rule.text_iff rfl).mpr ⟨rfl, _, rfl, htidy⟩) rfl ?_
        fun _ => hnone, hhosting.add h.ordered _⟩
      simp [Node.ofText, Content.type]

/-- Adding a comment keeps the rule. -/
theorem Ruled.addComment (h : b.Ruled Proper) (rule : Rule c Allowed Proper) (hhosting : b.Hosting)
    {content : String} (hcontent : Allowed (.comment content)) (start stop : Nat) :
    (b.addComment c content start stop).document.Ruled Proper ∧
      (b.addComment c content start stop).Hosting := by
  simp only [Builder.addComment]
  split
  · next hcomments =>
      refine ⟨h.add rule hhosting (rule.comment hcontent hcomments start stop) rfl ?_ ?_,
        hhosting.add h.ordered _⟩
      · simp [Node.ofComment, Content.type]
      · simp [Node.isText, Node.ofComment, Content.type]
  · exact ⟨h.document, hhosting⟩

/-- An opening tag keeps the rule. -/
theorem Ruled.openElement (h : b.Ruled Proper) (rule : Rule c Allowed Proper)
    (hhosting : b.Hosting) {name : String} {attributes : List AttributeToken} {selfClosing : Bool}
    (hallowed : Allowed (.opening name attributes selfClosing))
    (hraw : Lexeme.opensRaw (.opening name attributes selfClosing) = false) (start stop : Nat) :
    (b.openElement c name attributes selfClosing start stop).document.Ruled Proper ∧
      (b.openElement c name attributes selfClosing start stop).Hosting := by
  have hadd := h.add rule hhosting (rule.opened hallowed hraw start stop) rfl
    (by simp [Builder.opened, Node.ofElement, Content.type])
    (by simp [Node.isText, Builder.opened, Node.ofElement, Content.type])
  rw [openElement_eq]
  split
  · exact ⟨hadd, hhosting.add h.ordered _⟩
  · next hopen =>
      refine ⟨hadd, hhosting.inside h.ordered ⟨.inr rfl, ?_⟩⟩
      rintro _ ⟨rfl⟩
      simp only [Bool.or_eq_true, not_or, Bool.not_eq_true] at hopen
      simp only [Lexeme.opensRaw, hopen.1, Bool.not_false, Bool.true_and] at hraw
      exact ⟨by simp [hopen], hraw⟩

/-- A closing tag keeps the rule. -/
theorem Ruled.closeElement (h : b.Ruled Proper) (rule : Rule c Allowed Proper) (name : String)
    (start stop : Nat) : (b.closeElement c name start stop).document.Ruled Proper := by
  simp only [Builder.closeElement]
  split
  · split
    · exact h.document
    · exact h.document
  · rw [reportUnclosed_document]
    exact h.update (rule.congr (h.document.nodes _) rfl fun hnil => hnil) rfl rfl

/-- A closing tag keeps the builder hosting. -/
theorem Hosting.closeElement (h : b.Hosting) (name : String) (start stop : Nat) :
    (b.closeElement c name start stop).Hosting := by
  simp only [Builder.closeElement]
  split
  · split
    · exact h
    · exact h
  · next id outer hdrop =>
      have hsuffix := List.dropWhile_suffix (l := b.stack) fun id => !(closes (b.nameOf id) name)
      rw [hdrop] at hsuffix
      refine h.congr ((List.suffix_cons id outer).trans hsuffix).subset fun i _ => ?_
      rw [reportUnclosed_document]
      exact Document.content_update (d := b.document) (g := fun content => content)
        (f := fun n => { n with position := n.position.map (endAt c stop) }) rfl i

/-- **One step.**  A token keeps the rule, unless raw content belongs to it. -/
theorem Ruled.step (h : b.Ruled Proper) (rule : Rule c Allowed Proper) (hhosting : b.Hosting)
    {t : Token} (hallowed : Allowed t.lexeme) (hopens : t.lexeme.opensRaw = false)
    (hraw : t.lexeme.isRaw = false) : (b.step c t).Ruled Proper ∧ (b.step c t).Hosting := by
  have hordered := h.ordered.step c (rule.named hallowed)
  obtain ⟨lexeme, start, stop⟩ := t
  cases lexeme with
  | text text =>
      obtain ⟨hdocument, hhosts⟩ := h.addText rule hhosting (rule.nonempty hallowed) start stop
      exact ⟨⟨hordered, hdocument⟩, hhosts⟩
  | comment content =>
      obtain ⟨hdocument, hhosts⟩ := h.addComment rule hhosting hallowed start stop
      exact ⟨⟨hordered, hdocument⟩, hhosts⟩
  | opening name attributes selfClosing =>
      obtain ⟨hdocument, hhosts⟩ := h.openElement rule hhosting hallowed hopens start stop
      exact ⟨⟨hordered, hdocument⟩, hhosts⟩
  | closing name =>
      exact ⟨⟨hordered, h.closeElement rule name start stop⟩,
        hhosting.closeElement name start stop⟩
  | raw text => simp [Lexeme.isRaw] at hraw

/-- An opening tag and the raw content behind it open one node. -/
theorem step_raw (ho : b.Ordered) {name text : String} (hname : isRawText name = true)
    (attributes : List AttributeToken) (start stop next last : Nat) :
    (b.step c ⟨.opening name attributes false, start, stop⟩).step c ⟨.raw text, next, last⟩ =
      b.inside { Node.ofElement (elementOf c name attributes false (some text)) with
        position := c.position start stop } := by
  have hopen : b.step c ⟨.opening name attributes false, start, stop⟩ =
      b.inside (opened c name attributes false start stop) := by
    simp only [Builder.step]
    rw [openElement_eq, isVoid_of_isRawText hname]
    rfl
  have hfill := Document.update_append_self ho.shape.parent_lt
    (opened c name attributes false start stop)
    (Node.mapElement fun e => { e with raw := some text })
  rw [hopen]
  simp only [Builder.step, Builder.inside, Builder.add, Builder.parent, List.headD_cons] at hfill ⊢
  rw [hfill]
  rfl

/-- An opening tag and the raw content behind it keep the rule. -/
theorem Ruled.fill (h : b.Ruled Proper) (rule : Rule c Allowed Proper) (hhosting : b.Hosting)
    {name : String} {attributes : List AttributeToken} (hname : isRawText name = true)
    (hallowed : Allowed (.opening name attributes false)) (text : String)
    (hraw : Unclosed name text.toList) (start stop next last : Nat) :
    ((b.step c ⟨.opening name attributes false, start, stop⟩).step c ⟨.raw text, next, last⟩).Ruled
      Proper := by
  have hordered := (h.ordered.step c (t := ⟨.opening name attributes false, start, stop⟩)
    (rule.named hallowed)).step c (t := ⟨.raw text, next, last⟩) trivial
  refine ⟨hordered, ?_⟩
  rw [step_raw h.ordered hname]
  exact h.add rule hhosting (rule.filled hallowed hname hraw start stop) rfl
    (by simp [Node.ofElement, Content.type]) (by simp [Node.isText, Node.ofElement, Content.type])

end Rule

/-- With the closing tag behind them, everything is as before. -/
theorem Hosting.fill (h : b.Hosting) (ho : b.Ordered) {name close : String}
    (hname : isRawText name = true) (hclose : lower close = lower name)
    (attributes : List AttributeToken) (start stop : Nat) (text : String)
    (next last before after : Nat) :
    (((b.step c ⟨.opening name attributes false, start, stop⟩).step c ⟨.raw text, next, last⟩).step c
      ⟨.closing close, before, after⟩).Hosting := by
  rw [step_raw ho hname]
  generalize hn : ({ Node.ofElement (elementOf c name attributes false (some text)) with
    position := c.position start stop } : Node) = n
  have hnode : (b.inside n).document.node b.document.size = n :=
    Document.node_append_self ho.shape.parent_lt n
  have hcloses : closes ((b.inside n).nameOf b.document.size) close = true := by
    rw [nameOf, hnode, ← hn]
    simp [Node.element?, Node.ofElement, elementOf, closes, hname, hclose]
  have hstep : (b.inside n).step c ⟨.closing close, before, after⟩ =
      (b.inside n).closeElement c close before after := rfl
  rw [hstep, closeElement_of_closes rfl hcloses]
  refine h.congr (List.Subset.refl _) fun id hid => ?_
  have hlt := ho.shape.stack id hid
  have hne : id ≠ b.document.size := Nat.ne_of_lt hlt
  rw [Document.node_update_of_ne (by simp [Builder.inside, Builder.add]) _ hne]
  exact content_add_of_lt ho hlt

end Builder

/-- **The whole run.**  What the tokens of a source make keeps the rule. -/
theorem Tiled.ruled {c : Context} {Allowed : Lexeme → Prop} {Proper : Node → Prop}
    (rule : Builder.Rule c Allowed Proper) {offset : Nat} {cs : List Char} {tokens : List Token}
    (h : Tiled offset cs tokens) (hallowed : ∀ t ∈ tokens, Allowed t.lexeme) {b : Builder}
    (hb : b.Ruled Proper) (hhosting : b.Hosting) :
    (tokens.foldl (Builder.step c) b).Ruled Proper := by
  induction h generalizing b with
  | nil => exact hb
  | @cons offset cs rest lexeme tokens tile hraw tail ih =>
      obtain ⟨hfirst, hmore⟩ := List.forall_mem_cons.mp hallowed
      obtain ⟨hstep, hhosts⟩ := hb.step rule hhosting hfirst hraw tile.isRaw_eq
      exact ih hmore hstep hhosts
  | @unterminated offset content hopen =>
      exact (hb.step rule hhosting (hallowed _ List.mem_cons_self) rfl rfl).1
  | @rawEnd offset cs raw name attributes tile hname hraw =>
      obtain ⟨hfirst, -⟩ := List.forall_mem_cons.mp hallowed
      exact hb.fill rule hhosting hname hfirst (String.ofList raw) (by simpa using hraw) offset
        (offset + byteSize cs) (offset + byteSize cs) (offset + byteSize cs + byteSize raw)
  | @raw offset cs raw close rest name last attributes tokens tile hname hraw hclose hlast tail ih =>
      obtain ⟨hfirst, hmore⟩ := List.forall_mem_cons.mp hallowed
      obtain ⟨-, hmore⟩ := List.forall_mem_cons.mp hmore
      obtain ⟨-, hmore⟩ := List.forall_mem_cons.mp hmore
      have hfill := hb.fill rule hhosting hname hfirst (String.ofList raw) (by simpa using hraw)
        offset (offset + byteSize cs) (offset + byteSize cs) (offset + byteSize cs + byteSize raw)
      have hhosts := hhosting.fill (c := c) hb.ordered hname hlast attributes offset
        (offset + byteSize cs) (String.ofList raw) (offset + byteSize cs)
        (offset + byteSize cs + byteSize raw) (offset + byteSize cs + byteSize raw)
        (offset + byteSize cs + byteSize raw + byteSize close)
      have hordered := hfill.ordered.step c
        (t := tileToken (offset + byteSize cs + byteSize raw) close (.closing last)) hclose.named
      rw [List.foldl_cons, List.foldl_cons, List.foldl_cons]
      exact ih hmore ⟨hordered, hfill.closeElement rule last _ _⟩ hhosts

/-- Trimming keeps a rule. -/
theorem Document.Ruled.trimBlanks {c : Context} {Allowed : Lexeme → Prop} {Proper : Node → Prop}
    (rule : Builder.Rule c Allowed Proper) {d : Document} (h : d.Ruled Proper) :
    d.trimBlanks.Ruled Proper := by
  have hprunes := prunes_trimBlanks d
  have hkeeps := keeps_trimBlanks d
  refine ⟨?_, ?_, h.beside.trimBlanks⟩
  · intro i
    obtain ⟨children, hnode⟩ := hprunes.node i
    refine rule.congr (h.nodes i) (by rw [hnode]) fun hnil => ?_
    have hsub : (d.trimBlanks.node i).children ⊆ (d.node i).children := hkeeps.children i
    rw [hnil] at hsub
    exact List.subset_nil.mp hsub
  · intro i hpos hlt
    obtain ⟨children, hnode⟩ := hprunes.node i
    rw [hkeeps.size] at hlt
    rw [hnode]
    exact h.inner i hpos hlt

end Stencil.Markup
