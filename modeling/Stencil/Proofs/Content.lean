import Stencil.Proofs.Order

/-!
# A document holds what its tokens hold

Whatever the source, the walk over the document that is read from it meets the content of the tokens
in their order: each opening tag as an element, each raw content behind it, each comment, and each
character of text.  Closing tags decide only where a node stands.

`Grain` is a unit of content.  A token adds its grains at the end of the walk
(`Builder.Ordered.grains_step`), and so do all tokens one after another (`Tiled.grains_foldl`).
`parse_mirrors` reads off what this means for elements, comments, texts and raw content.
-/

namespace Stencil.Markup

open Stencil.Text

/-- An attribute as it is spelled: its name, its value and its text. -/
structure Spelling where
  name : String
  value : Value
  raw : String
  deriving DecidableEq, Repr

/-- The spelling of an attribute in a tag. -/
def AttributeToken.spelling (t : AttributeToken) : Spelling :=
  { name := t.name
    value := match t.value with
      | some (text, quote) => .text text quote
      | none => .empty
    raw := t.raw }

/-- The spelling of an attribute of an element. -/
def Attribute.spelling (a : Attribute) : Spelling := ⟨a.fullName, a.value, a.raw⟩

/-- An opening tag: its name, whether it closes itself, and its attributes. -/
structure OpenTag where
  name : String
  selfClosing : Bool
  attributes : List Spelling
  deriving DecidableEq, Repr

/-- The opening tag of an element. -/
def Element.openTag (e : Element) : OpenTag :=
  ⟨e.name, e.selfClosing, e.attributes.map Attribute.spelling⟩

/-- A unit of content. -/
inductive Grain where
  | char (c : Char)
  | comment (content : String)
  | opening (tag : OpenTag)
  | raw (text : String)
  deriving DecidableEq, Repr

/-- The content of a node that has not been divided into parts. -/
def Content.grains : Content → List Grain
  | .text (.raw t) => t.toList.map .char
  | .comment content => [.comment content]
  | .element e => .opening e.openTag :: e.raw.toList.map .raw
  | _ => []

/-- The content of a token. -/
def Lexeme.grains : Lexeme → List Grain
  | .text t => t.toList.map .char
  | .comment content => [.comment content]
  | .opening name attributes selfClosing =>
      [.opening ⟨name, selfClosing, attributes.map AttributeToken.spelling⟩]
  | .raw t => [.raw t]
  | .closing _ => []

/-- The content of a document, in document order. -/
def Document.grains (d : Document) : List Grain :=
  d.walk.flatMap fun id => (d.node id).content.grains

/-- The content of some tokens. -/
def grainsOf (tokens : List Token) : List Grain := tokens.flatMap (·.lexeme.grains)

/-- An attribute's name without its mark is full with it. -/
theorem AttributeName.full_unmarked (mark : Option Char) (cs : List Char) :
    (AttributeName.unmarked mark cs).full.toList = mark.toList ++ cs := by
  have hsplit : (splitSuffix cs).1 ++ (splitSuffix cs).2 = cs := by
    cases cs <;> simp [splitSuffix, List.takeWhile_append_dropWhile]
  have hsuffix : ((if (splitSuffix cs).2.isEmpty then none
      else some (String.ofList (splitSuffix cs).2)).getD "").toList = (splitSuffix cs).2 := by
    split <;> simp_all
  simp only [unmarked, full, String.toList_append, String.toList_ofList, hsuffix]
  rw [List.append_assoc, hsplit]
  cases mark <;> simp

/-- Dividing a name loses nothing of it. -/
theorem AttributeName.full_split (name : String) : (AttributeName.split name).full = name := by
  apply String.toList_injective
  unfold split
  split
  · next c d rest hname =>
      split <;> rw [full_unmarked, hname] <;> simp
  · rw [full_unmarked]
    simp

/-- The attribute of a token is spelled as the token is. -/
theorem spelling_attributeOf (c : Context) (t : AttributeToken) :
    (Builder.attributeOf c t).spelling = t.spelling := by
  have hname : (if c.settings.affix then AttributeName.split t.name else { base := t.name }).full =
      t.name := by
    split
    · exact AttributeName.full_split t.name
    · simp [AttributeName.full]
  exact congrArg (Spelling.mk · t.spelling.value t.raw) hname

namespace Document

variable {d : Document}

/-- A node added at the right edge adds its content at the end. -/
theorem grains_append {p : Nat} {n : Node} (hp : p < d.size)
    (hwalk : (d.append p n).walk = d.walk ++ [d.size]) (hsize : ∀ id ∈ d.walk, id < d.size) :
    (d.append p n).grains = d.grains ++ n.content.grains := by
  rw [grains, hwalk, List.flatMap_append, List.flatMap_singleton, content_append hp, if_pos rfl]
  congr 1
  apply List.flatMap_congr
  intro id hid
  have hlt := hsize id hid
  rw [content_append hp, if_neg (by omega)]

/-- Changing a node but for its content and its children. -/
theorem grains_update {id : Nat} {f : Node → Node}
    (hchildren : (f (d.node id)).children = (d.node id).children)
    (hcontent : (f (d.node id)).content.grains = (d.node id).content.grains) :
    (d.update id f).grains = d.grains := by
  rw [grains, grains, walk_update hchildren]
  exact List.flatMap_congr fun i _ => content_update hcontent i

/-- Changing the content of the last node on the walk changes the end of the content. -/
theorem grains_update_last {id : Nat} {f : Node → Node} {more : List Grain}
    (hwalk : d.walk = List.range d.size) (hid : d.size = id + 1)
    (hchildren : (f (d.node id)).children = (d.node id).children)
    (hcontent : (f (d.node id)).content.grains = (d.node id).content.grains ++ more) :
    (d.update id f).grains = d.grains ++ more := by
  have hfront : (List.range id).flatMap (fun i => ((d.update id f).node i).content.grains) =
      (List.range id).flatMap fun i => (d.node i).content.grains := by
    apply List.flatMap_congr
    intro i hi
    have hlt := List.mem_range.mp hi
    rw [node_update_of_ne (by omega) f (by omega)]
  rw [grains, grains, walk_update hchildren, hwalk, hid, List.range_succ, List.flatMap_append,
    List.flatMap_append, List.flatMap_singleton, List.flatMap_singleton,
    node_update_self (by omega), hcontent, hfront, List.append_assoc]

end Document

namespace Builder

variable {b : Builder} {c : Context}

/-- A node without children brings its own grains when it is added. -/
theorem Ordered.grains_add (h : b.Ordered) {n : Node} (hn : n.children = []) :
    (b.add n).document.grains = b.document.grains ++ n.content.grains := by
  refine Document.grains_append h.shape.parent_lt (h.walk_add hn) ?_
  intro id hid
  rw [h.walk] at hid
  exact List.mem_range.mp hid

/-- Text is added behind the content, whether it is joined to other text or not. -/
theorem Ordered.grains_addText (h : b.Ordered) (hblanks : c.settings.keepBlanks = true)
    (text : String) (start stop : Nat) :
    (b.addText c text start stop).document.grains = b.document.grains ++ text.toList.map .char := by
  simp only [Builder.addText, hblanks, Bool.true_or, if_true, id]
  split
  · next last before hlast =>
      apply Document.grains_update_last h.walk (h.size_of_lastText? hlast) rfl
      rw [content_of_lastText? hlast]
      simp [Content.grains]
  · exact h.grains_add rfl

/-- The grains of an opened element are those of the opening tag. -/
theorem grains_opened (name : String) (attributes : List AttributeToken) (selfClosing : Bool)
    (start stop : Nat) : (opened c name attributes selfClosing start stop).content.grains =
      (Lexeme.opening name attributes selfClosing).grains := by
  simp [opened, Node.ofElement, Content.grains, Lexeme.grains, Element.openTag,
    spelling_attributeOf]

/-- An opening tag brings its grains to the document. -/
theorem Ordered.grains_openElement (h : b.Ordered) (name : String)
    (attributes : List AttributeToken) (selfClosing : Bool) (start stop : Nat) :
    (b.openElement c name attributes selfClosing start stop).document.grains =
      b.document.grains ++ (Lexeme.opening name attributes selfClosing).grains := by
  have hadd := h.grains_add
    (show (opened c name attributes selfClosing start stop).children = [] from rfl)
  rw [grains_opened] at hadd
  rw [openElement_eq]
  split
  · exact hadd
  · exact hadd

/-- A closing tag changes no more than the position of the element that it closes. -/
theorem grains_closeElement (name : String) (start stop : Nat) :
    (b.closeElement c name start stop).document.grains = b.document.grains := by
  simp only [closeElement]
  split
  · split
    · rfl
    · rfl
  · rw [reportUnclosed_document]
    exact Document.grains_update rfl rfl

/-- **One step.**  A token other than raw content adds its content at the end. -/
theorem Ordered.grains_step (h : b.Ordered) (hblanks : c.settings.keepBlanks = true)
    (hcomments : c.settings.comments = true) (t : Token) (hraw : t.lexeme.isRaw = false) :
    (b.step c t).document.grains = b.document.grains ++ t.lexeme.grains := by
  obtain ⟨lexeme, start, stop⟩ := t
  cases lexeme with
  | text text => exact h.grains_addText hblanks text start stop
  | comment content =>
      simp only [Builder.step, Builder.addComment, if_pos hcomments]
      exact h.grains_add rfl
  | opening name attributes selfClosing =>
      exact h.grains_openElement name attributes selfClosing start stop
  | closing name =>
      rw [Lexeme.grains, List.append_nil]
      exact grains_closeElement name start stop
  | raw text => simp [Lexeme.isRaw] at hraw

end Builder

/-- Raw content goes to the element that has just been opened. -/
theorem Builder.Ordered.grains_raw {b : Builder} (h : b.Ordered) (c : Context) {t u : Token}
    {name text : String} {attributes : List AttributeToken}
    (ht : t.lexeme = .opening name attributes false) (hname : t.lexeme.Named)
    (hraw : isRawText name = true) (hu : u.lexeme = .raw text) :
    ((b.step c t).step c u).document.grains =
      b.document.grains ++ (t.lexeme.grains ++ u.lexeme.grains) := by
  have hopen : b.step c t = b.inside (opened c name attributes false t.start t.stop) := by
    simp only [Builder.step, ht]
    rw [openElement_eq, isVoid_of_isRawText hraw]
    rfl
  have hordered := h.step c hname
  have hgrains := h.grains_openElement (c := c) name attributes false t.start t.stop
  rw [openElement_eq, isVoid_of_isRawText hraw, if_neg (by decide)] at hgrains
  rw [hopen] at hordered ⊢
  generalize hn : opened c name attributes false t.start t.stop = n at hordered hgrains ⊢
  have hnode : (b.inside n).document.node (b.inside n).parent = n :=
    Document.node_append_self h.shape.parent_lt n
  have hsize : (b.inside n).document.size = (b.inside n).parent + 1 := Document.size_append _ _ _
  rw [ht, ← List.append_assoc, ← hgrains]
  simp only [Builder.step, hu]
  apply Document.grains_update_last hordered.walk hsize (Node.children_mapElement _ _)
  rw [hnode, ← hn]
  rfl

/-- **The whole run.**  The tokens of a source add their content in their order. -/
theorem Tiled.grains_foldl {c : Context} (hblanks : c.settings.keepBlanks = true)
    (hcomments : c.settings.comments = true) {offset : Nat} {cs : List Char} {tokens : List Token}
    (h : Tiled offset cs tokens) {b : Builder} (hb : b.Ordered) :
    (tokens.foldl (Builder.step c) b).document.grains = b.document.grains ++ grainsOf tokens := by
  induction h generalizing b with
  | nil => simp [grainsOf]
  | @cons offset cs rest lexeme tokens tile hraw tail ih =>
      rw [List.foldl_cons, ih (hb.step c tile.named),
        hb.grains_step hblanks hcomments _ tile.isRaw_eq]
      simp [grainsOf, tileToken]
  | @unterminated offset content hopen =>
      rw [List.foldl_cons, List.foldl_nil, hb.grains_step hblanks hcomments _ rfl]
      simp [grainsOf, tileToken]
  | @rawEnd offset cs raw name attributes tile hname hraw =>
      rw [List.foldl_cons, List.foldl_cons, List.foldl_nil,
        hb.grains_raw c rfl tile.named hname rfl]
      simp [grainsOf, tileToken]
  | @raw offset cs raw close rest name last attributes tokens tile hname hraw hclose hlast tail ih =>
      have hopened := hb.step c (t := tileToken offset cs (.opening name attributes false)) tile.named
      have hfilled := hopened.step c
        (t := tileToken (offset + byteSize cs) raw (.raw (String.ofList raw))) trivial
      rw [List.foldl_cons, List.foldl_cons, List.foldl_cons, ih (hfilled.step c hclose.named),
        hfilled.grains_step hblanks hcomments _ rfl, hb.grains_raw c rfl tile.named hname rfl]
      simp [grainsOf, tileToken]

/-- The document that is read from a source lists its nodes in the order of their numbers and has
the content of its tokens. -/
theorem parse_grains {s : Settings} (hblanks : s.keepBlanks = true) (hcomments : s.comments = true)
    (htrim : s.trim = false) (source : String) :
    (parse s source).1.walk = List.range (parse s source).1.size ∧
      (parse s source).1.grains = grainsOf (scan source).1 := by
  have htiled : Tiled 0 source.toList (scan source).1 := (scanFrom_tiled 0 source.toList).joinTexts
  rw [parse_document, htrim]
  exact ⟨(built_ordered s source).walk,
    htiled.grains_foldl hblanks hcomments (Builder.ordered_empty _)⟩

/-- The opening tag that a token is. -/
def Lexeme.openTag? : Lexeme → Option OpenTag
  | .opening name attributes selfClosing =>
      some ⟨name, selfClosing, attributes.map AttributeToken.spelling⟩
  | _ => none

/-- The content of a token that is a comment. -/
def Lexeme.comment? : Lexeme → Option String
  | .comment content => some content
  | _ => none

/-- The text of a token that is text. -/
def Lexeme.text? : Lexeme → Option String
  | .text t => some t
  | _ => none

/-- The content of a node that is a comment. -/
def Node.comment? (n : Node) : Option String :=
  match n.content with
  | .comment content => some content
  | _ => none

/-- The text of a node that is undivided text. -/
def Node.text? (n : Node) : Option String :=
  match n.content with
  | .text (.raw text) => some text
  | _ => none

namespace Document

/-- The elements of a document, in document order. -/
def elements (d : Document) : List Element := d.walk.filterMap fun id => (d.node id).element?

/-- The comments of a document, in document order. -/
def comments (d : Document) : List String := d.walk.filterMap fun id => (d.node id).comment?

/-- The undivided texts of a document, in document order. -/
def texts (d : Document) : List String := d.walk.filterMap fun id => (d.node id).text?

/-- The document holds what the tokens hold, in the same order. -/
structure Mirrors (d : Document) (tokens : List Token) : Prop where
  /-- Later nodes have greater numbers. -/
  increasing : d.walk.Pairwise (· < ·)
  /-- There is an element for each opening tag. -/
  elements : d.elements.map Element.openTag = tokens.filterMap (·.lexeme.openTag?)
  /-- There is a comment for each comment. -/
  comments : d.comments = tokens.filterMap (·.lexeme.comment?)
  /-- No character of text is lost or moved. -/
  texts : String.join d.texts = String.join (tokens.filterMap (·.lexeme.text?))
  /-- Raw content belongs to the last element that was opened before it. -/
  raw : ∀ before t after text, tokens = before ++ t :: after → t.lexeme = .raw text →
    ∃ front e more, d.elements = front ++ e :: more ∧ e.raw = some text ∧
      (front ++ [e]).map Element.openTag = before.filterMap (·.lexeme.openTag?)
  /-- All of this is met in the same order. -/
  content : d.grains = grainsOf tokens

end Document

/-- The opening tag that a grain is. -/
def Grain.openTag? : Grain → Option OpenTag
  | .opening tag => some tag
  | _ => none

/-- The content of a grain that is a comment. -/
def Grain.comment? : Grain → Option String
  | .comment content => some content
  | _ => none

/-- The character that a grain is. -/
def Grain.char? : Grain → Option Char
  | .char c => some c
  | _ => none

/-- What is read off the content can be read off the nodes and off the tokens. -/
theorem Document.flatMap_eq_of_grains {d : Document} {tokens : List Token} {α : Type}
    {f : Grain → Option α} {g : Node → List α} {h : Lexeme → List α}
    (hgrains : d.grains = grainsOf tokens) (hnode : ∀ n : Node, n.content.grains.filterMap f = g n)
    (htoken : ∀ l : Lexeme, l.grains.filterMap f = h l) :
    d.walk.flatMap (fun id => g (d.node id)) = tokens.flatMap fun t => h t.lexeme := by
  have hview := congrArg (List.filterMap f) hgrains
  simpa only [Document.grains, grainsOf, List.filterMap_flatMap, hnode, htoken] using hview

/-- The opening tag among the grains of a node is that of its element. -/
theorem Node.filterMap_openTag? (n : Node) :
    n.content.grains.filterMap Grain.openTag? = (n.element?.map Element.openTag).toList := by
  unfold Node.element?
  cases n.content with
  | text t => cases t <;> simp [Content.grains, Grain.openTag?, Function.comp_def]
  | element e => cases h : e.raw <;> simp [Content.grains, Grain.openTag?, h]
  | _ => simp [Content.grains, Grain.openTag?]

/-- The opening tag among the grains of a lexeme is its own. -/
theorem Lexeme.filterMap_openTag? (l : Lexeme) :
    l.grains.filterMap Grain.openTag? = l.openTag?.toList := by
  cases l <;> simp [Lexeme.grains, Grain.openTag?, Lexeme.openTag?, Function.comp_def]

/-- The comment among the grains of a node is its own. -/
theorem Node.filterMap_comment? (n : Node) :
    n.content.grains.filterMap Grain.comment? = n.comment?.toList := by
  unfold Node.comment?
  cases n.content with
  | text t => cases t <;> simp [Content.grains, Grain.comment?, Function.comp_def]
  | element e => cases h : e.raw <;> simp [Content.grains, Grain.comment?, h]
  | _ => simp [Content.grains, Grain.comment?]

/-- The comment among the grains of a lexeme is its own. -/
theorem Lexeme.filterMap_comment? (l : Lexeme) :
    l.grains.filterMap Grain.comment? = l.comment?.toList := by
  cases l <;> simp [Lexeme.grains, Grain.comment?, Lexeme.comment?, Function.comp_def]

/-- The characters among the grains of a node are those of its text. -/
theorem Node.filterMap_char? (n : Node) :
    n.content.grains.filterMap Grain.char? = n.text?.toList.flatMap String.toList := by
  unfold Node.text?
  cases n.content with
  | text t => cases t <;> simp [Content.grains, Grain.char?, Function.comp_def]
  | element e => cases h : e.raw <;> simp [Content.grains, Grain.char?, h]
  | _ => simp [Content.grains, Grain.char?]

/-- The characters among the grains of a lexeme are those of its text. -/
theorem Lexeme.filterMap_char? (l : Lexeme) :
    l.grains.filterMap Grain.char? = l.text?.toList.flatMap String.toList := by
  cases l <;> simp [Lexeme.grains, Grain.char?, Lexeme.text?, Function.comp_def]

/-- Raw content of a node is that of an element, behind its opening tag. -/
theorem Node.element?_of_raw {n : Node} {before after : List Grain} {text : String}
    (h : n.content.grains = before ++ .raw text :: after) :
    ∃ e, n.element? = some e ∧ e.raw = some text ∧ before = [.opening e.openTag] := by
  have hmem : Grain.raw text ∈ n.content.grains := by simp [h]
  unfold Node.element?
  cases hcontent : n.content with
  | text t => cases t <;> simp [hcontent, Content.grains] at hmem
  | element e =>
      simp only [hcontent, Content.grains] at h hmem
      cases hraw : e.raw with
      | none => simp [hraw] at hmem
      | some t =>
          rw [hraw] at h
          cases before with
          | nil => simp at h
          | cons first before => cases before <;> simp_all
  | document => simp [hcontent, Content.grains] at hmem
  | comment => simp [hcontent, Content.grains] at hmem

/-- Raw content among the content of some nodes is that of an element whose opening tag stands
right before it. -/
theorem exists_element_of_raw {nodes : List Node} {before after : List Grain} {text : String}
    (h : nodes.flatMap (·.content.grains) = before ++ .raw text :: after) :
    ∃ front n more e, nodes = front ++ n :: more ∧ n.element? = some e ∧ e.raw = some text ∧
      before = front.flatMap (·.content.grains) ++ [.opening e.openTag] := by
  induction nodes generalizing before with
  | nil => simp at h
  | cons n nodes ih =>
      rw [List.flatMap_cons] at h
      rcases List.append_eq_append_iff.mp h with ⟨skipped, rfl, hrest⟩ | ⟨held, hgrains, hrest⟩
      · obtain ⟨front, m, more, e, rfl, he, hraw, rfl⟩ := ih hrest
        exact ⟨n :: front, m, more, e, rfl, he, hraw, by simp⟩
      · cases held with
        | nil =>
            -- Raw content cannot come first.
            have hfirst : nodes.flatMap (·.content.grains) = [] ++ Grain.raw text :: after := hrest.symm
            obtain ⟨front, m, more, e, -, -, -, hnil⟩ := ih hfirst
            simp at hnil
        | cons first held =>
            rw [List.cons_append, List.cons.injEq] at hrest
            rw [← hrest.1] at hgrains
            obtain ⟨e, he, hraw, hbefore⟩ := Node.element?_of_raw hgrains
            exact ⟨[], n, nodes, e, rfl, he, hraw, hbefore⟩

/-- **A document holds what its tokens hold.**  Whatever the source, also where tags are left open
or are closed that were not opened: with blanks and comments kept and nothing trimmed, elements,
comments, text and raw content are those of the tokens, each in the order of the source. -/
theorem parse_mirrors {s : Settings} (hblanks : s.keepBlanks = true) (hcomments : s.comments = true)
    (htrim : s.trim = false) (source : String) : (parse s source).1.Mirrors (scan source).1 := by
  obtain ⟨hwalk, hgrains⟩ := parse_grains hblanks hcomments htrim source
  generalize (parse s source).1 = d at hwalk hgrains ⊢
  generalize (scan source).1 = tokens at hgrains ⊢
  have helements := Document.flatMap_eq_of_grains hgrains Node.filterMap_openTag?
    Lexeme.filterMap_openTag?
  have hcommented := Document.flatMap_eq_of_grains hgrains Node.filterMap_comment?
    Lexeme.filterMap_comment?
  have htexts := Document.flatMap_eq_of_grains hgrains Node.filterMap_char? Lexeme.filterMap_char?
  refine ⟨?_, ?_, ?_, ?_, ?_, hgrains⟩
  · rw [hwalk]
    exact List.pairwise_lt_range
  · rw [Document.elements, List.map_filterMap, List.filterMap_eq_flatMap_toList,
      List.filterMap_eq_flatMap_toList]
    exact helements
  · rw [Document.comments, List.filterMap_eq_flatMap_toList, List.filterMap_eq_flatMap_toList]
    exact hcommented
  · apply String.toList_injective
    rw [String.toList_join, String.toList_join, Document.texts, List.filterMap_eq_flatMap_toList,
      List.filterMap_eq_flatMap_toList, List.flatMap_assoc, List.flatMap_assoc]
    exact htexts
  · rintro before t after text rfl htext
    have hsplit : (d.walk.map d.node).flatMap (·.content.grains) =
        grainsOf before ++ .raw text :: grainsOf after := by
      rw [List.flatMap_map]
      exact hgrains.trans (by simp [grainsOf, htext, Lexeme.grains])
    obtain ⟨front, n, more, e, hnodes, he, hraw, hbefore⟩ := exists_element_of_raw hsplit
    refine ⟨front.filterMap Node.element?, e, more.filterMap Node.element?, ?_, hraw, ?_⟩
    · have hmap := congrArg (List.filterMap Node.element?) hnodes
      simpa [Document.elements, List.filterMap_map, he, Function.comp_def] using hmap
    · have htags := congrArg (List.filterMap Grain.openTag?) hbefore
      simp only [grainsOf, List.filterMap_append, List.filterMap_flatMap, Node.filterMap_openTag?,
        Lexeme.filterMap_openTag?] at htags
      rw [List.map_append, List.map_filterMap, List.filterMap_eq_flatMap_toList,
        List.filterMap_eq_flatMap_toList, htags]
      rfl

/-- The same for a source with elements left open, a closing tag that closes nothing and one that
closes two elements at once. -/
theorem parse_mirrors_unbalanced :
    let s : Settings := ⟨true, true, false, true, false, false⟩
    let source := "a</i>b<ul><li x=1>c</ul>d<!--e--><script>f</script><p>g"
    (parse s source).1.texts = ["ab", "c", "d", "g"] ∧
      (parse s source).1.elements.map (·.name) = ["ul", "li", "script", "p"] ∧
      (parse s source).1.Mirrors (scan source).1 := by
  refine ⟨by decide +kernel, by decide +kernel, ?_⟩
  exact parse_mirrors rfl rfl rfl _

end Stencil.Markup
