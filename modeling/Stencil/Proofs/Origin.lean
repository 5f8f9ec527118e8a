import Stencil.Proofs.Collapse
import Stencil.Proofs.Content

/-!
# Where the nodes of a document come from

Every element of a document that was read from a source is made from one of its opening tags, where it
starts (`parse_element_drawn`), and every text from a run of its tokens, from the start of the first to
the end of the last (`Node.MadeOf`).  Where blanks are kept, by the settings or by an element around
the text, the text is that of the run; elsewhere it is that text collapsed (`parse_text_drawn`).  Each
token that is taken in extends this (`Builder.Linked.drawn_step`).

`Builder.Linked` says that the table of parents agrees with the children and with the open elements,
so that the elements around a text are known from the document alone.
-/

namespace Stencil.Markup

open Stencil.Text

namespace Document

variable {d d' : Document}

/-- A node that is appended gets its parent, and the others keep theirs. -/
theorem parent?_append (htable : d.parents.size = d.size) (p : Nat) (n : Node) (i : Nat) :
    (d.append p n).parent? i = if i = d.size then some p else d.parent? i := by
  unfold parent? append
  rcases Nat.lt_trichotomy i d.size with hlt | rfl | hgt
  · simp [Array.getD, Array.getElem_push, htable, hlt, Nat.lt_succ_of_lt hlt, Nat.ne_of_lt hlt]
  · rw [if_pos rfl, ← htable]
    simp [Array.getD]
  · have hne : i ≠ d.size := by omega
    simp [Array.getD, htable, hne, show ¬ i < d.size + 1 by omega, show ¬ i < d.size by omega]

/-- The second node is above the first. -/
inductive Above (d : Document) : Nat → Nat → Prop
  | parent {id p : Nat} (h : d.parent? id = some p) : Above d id p
  | step {id q p : Nat} (h : d.parent? id = some q) (tail : Above d q p) : Above d id p

/-- Blanks are significant in some element around the node. -/
def Sheltered (d : Document) (id : Nat) : Prop := ∃ p, d.Above id p ∧ (d.node p).isPreformatted = true

/-- What is above a node is its parent and what is above that. -/
theorem above_iff {id p : Nat} :
    d.Above id p ↔ ∃ q, d.parent? id = some q ∧ (p = q ∨ d.Above q p) := by
  constructor
  · intro h
    cases h with
    | parent h => exact ⟨p, h, .inl rfl⟩
    | step h tail => exact ⟨_, h, .inr tail⟩
  · rintro ⟨q, hq, rfl | htail⟩
    · exact .parent hq
    · exact .step hq htail

/-- What is above a node depends on the parents of nodes that a set of nodes is closed under. -/
theorem Above.congr {within : Nat → Prop} (hparent : ∀ i, within i → d'.parent? i = d.parent? i)
    (hclosed : ∀ i p, within i → d.parent? i = some p → within p) {id p : Nat} (hid : within id)
    (h : d.Above id p) : d'.Above id p ∧ within p := by
  induction h with
  | parent h => exact ⟨.parent (by rw [hparent _ hid, h]), hclosed _ _ hid h⟩
  | step h tail ih =>
      obtain ⟨habove, hp⟩ := ih (hclosed _ _ hid h)
      exact ⟨.step (by rw [hparent _ hid, h]) habove, hp⟩

/-- Whether blanks are significant around a node depends on the nodes above it. -/
theorem sheltered_congr (within : Nat → Prop)
    (hparent : ∀ i, within i → d'.parent? i = d.parent? i)
    (hclosed : ∀ i p, within i → d.parent? i = some p → within p)
    (hnode : ∀ i, within i → (d'.node i).isPreformatted = (d.node i).isPreformatted) {id : Nat}
    (hid : within id) : d'.Sheltered id ↔ d.Sheltered id := by
  constructor
  · rintro ⟨p, habove, hp⟩
    have hback : ∀ i p, within i → d'.parent? i = some p → within p := by
      intro i q hi hq
      rw [hparent i hi] at hq
      exact hclosed i q hi hq
    obtain ⟨habove, hwithin⟩ := habove.congr (fun i hi => (hparent i hi).symm) hback hid
    exact ⟨p, habove, by rw [← hnode p hwithin, hp]⟩
  · rintro ⟨p, habove, hp⟩
    obtain ⟨habove, hwithin⟩ := habove.congr hparent hclosed hid
    exact ⟨p, habove, by rw [hnode p hwithin, hp]⟩

/-- Changing a node but for whether blanks are significant in it shelters no other. -/
theorem sheltered_update {id : Nat} {f : Node → Node}
    (hpre : (f (d.node id)).isPreformatted = (d.node id).isPreformatted) (i : Nat) :
    (d.update id f).Sheltered i ↔ d.Sheltered i := by
  have hparent : ∀ j, True → (d.update id f).parent? j = d.parent? j := fun _ _ => rfl
  refine sheltered_congr (fun _ => True) hparent (fun _ _ _ _ => trivial) ?_ trivial
  intro j _
  rcases node_update_cases d id f j with hnode | ⟨rfl, hnode⟩
  · rw [hnode]
  · rw [hnode, hpre]

end Document

/-- A builder whose table of parents agrees with the children and with the open elements. -/
structure Builder.Linked (b : Builder) : Prop where
  table : b.document.parents.size = b.document.size
  child : ∀ p, ∀ id ∈ b.document.children p, b.document.parent? id = some p
  /-- Texts have nothing below them. -/
  host : ∀ id p, b.document.parent? id = some p →
    p < b.document.size ∧ (b.document.node p).content.type ≠ .text
  root : b.document.parent? 0 = none
  chain : ∀ inner id outer, b.stack = inner ++ id :: outer →
    b.document.parent? id = some (outer.headD 0)

namespace Builder

variable {b b' : Builder}

/-- A builder starts linked. -/
theorem linked_empty (diagnostics : List Source.Diagnostic) :
    ({ diagnostics := diagnostics } : Builder).Linked where
  table := rfl
  child := by
    intro p id hid
    rw [Document.children, Document.node_empty] at hid
    simp [Node.document] at hid
  host := by
    intro id p hp
    have hnone : Document.empty.parent? id = none := by
      cases id <;> simp [Document.parent?, Document.empty]
    rw [hnone] at hp
    simp at hp
  root := rfl
  chain := by simp

/-- Adding a node keeps the links. -/
theorem Linked.add (h : b.Linked) (ho : b.Ordered) {n : Node} (hn : n.children = []) :
    (b.add n).Linked := by
  have hparent := ho.shape.parent_lt
  have hold : ∀ i, i < b.document.size →
      (b.document.append b.parent n).parent? i = b.document.parent? i := by
    intro i hi
    rw [Document.parent?_append h.table, if_neg (by omega)]
  refine ⟨?_, ?_, ?_, ?_, ?_⟩
  · simp [Builder.add, Document.append, Document.size, h.table]
  · intro p id hid
    rw [Builder.add] at hid ⊢
    rcases Nat.lt_trichotomy p b.document.size with hlt | rfl | hgt
    · have hbound := ho.shape.document.forward p id
      by_cases hp : p = b.parent
      · subst hp
        rw [Document.children_append_parent hparent] at hid
        rcases List.mem_append.mp hid with hid | hid
        · rw [hold id (hbound hid).2]
          exact h.child _ id hid
        · rw [List.mem_singleton.mp hid, Document.parent?_append h.table, if_pos rfl]
      · rw [Document.children_append_of_ne hlt hp] at hid
        rw [hold id (hbound hid).2]
        exact h.child p id hid
    · rw [Document.children_append_self hparent hn] at hid
      simp at hid
    · rw [Document.children, Document.node_of_size_le (by rw [Document.size_append]; omega)] at hid
      simp [Node.document] at hid
  · intro id p hp
    rw [Builder.add] at hp ⊢
    rw [Document.parent?_append h.table] at hp
    have hhost : p < b.document.size ∧ (b.document.node p).content.type ≠ .text := by
      split at hp
      · rw [← Option.some.inj hp]
        exact ⟨hparent, ho.type_parent⟩
      · exact h.host id p hp
    rw [Document.size_append, Document.content_append hparent, if_neg (by omega)]
    exact ⟨by omega, hhost.2⟩
  · rw [Builder.add, hold 0 ho.shape.pos]
    exact h.root
  · intro inner id outer hstack
    have hid : id ∈ b.stack := by
      have hstack : b.stack = inner ++ id :: outer := hstack
      simp [hstack]
    rw [Builder.add, hold id (ho.shape.stack id hid)]
    exact h.chain inner id outer hstack

/-- Opening the node that was added last keeps the links. -/
theorem Linked.push (h : b.Linked) (ho : b.Ordered) {n : Node} (hn : n.children = []) :
    ({ b.add n with stack := b.document.size :: b.stack } : Builder).Linked := by
  have hadd := h.add ho hn
  refine ⟨hadd.table, hadd.child, hadd.host, hadd.root, ?_⟩
  intro inner id outer hstack
  cases inner with
  | nil =>
      obtain ⟨rfl, rfl⟩ := List.cons.inj hstack
      show (b.document.append b.parent n).parent? b.document.size = some b.parent
      rw [Document.parent?_append h.table, if_pos rfl]
  | cons _ inner => exact hadd.chain inner id outer (List.cons.inj hstack).2

/-- Changing a node but for its children and what kind of node it is, and closing elements, keeps the
links. -/
theorem Linked.change (h : b.Linked) {id : Nat} {f : Node → Node}
    (hdocument : b'.document = b.document.update id f)
    (hchildren : (f (b.document.node id)).children = (b.document.node id).children)
    (htype : (f (b.document.node id)).content.type = (b.document.node id).content.type)
    (hstack : b'.stack <:+ b.stack) : b'.Linked := by
  have hparent : ∀ i, b'.document.parent? i = b.document.parent? i := by
    intro i
    rw [hdocument]
    rfl
  refine ⟨?_, ?_, ?_, ?_, ?_⟩
  · rw [hdocument, Document.size_update]
    exact h.table
  · intro p i hi
    rw [hdocument, Document.children_update hchildren] at hi
    rw [hparent]
    exact h.child p i hi
  · intro i p hp
    rw [hparent] at hp
    rw [hdocument, Document.size_update, Document.content_update htype]
    exact h.host i p hp
  · rw [hparent]
    exact h.root
  · intro inner i outer hi
    obtain ⟨closed, hclosed⟩ := hstack
    rw [hparent]
    exact h.chain (closed ++ inner) i outer (by rw [← hclosed, hi, List.append_assoc])

/-- A step that touches neither document nor stack keeps a builder linked. -/
theorem Linked.same (h : b.Linked) (hdocument : b'.document = b.document)
    (hstack : b'.stack = b.stack) : b'.Linked := by
  obtain ⟨htable, hchild, hhost, hroot, hchain⟩ := h
  rw [← hdocument] at htable hchild hhost hroot
  simp only [← hdocument, ← hstack] at hchain
  exact ⟨htable, hchild, hhost, hroot, hchain⟩

/-- Above a child of the innermost open element are the open elements. -/
theorem Linked.above_iff (h : b.Linked) {id : Nat} (hid : b.document.parent? id = some b.parent)
    (p : Nat) : b.document.Above id p ↔ p ∈ b.stack ∨ p = 0 := by
  have habove : ∀ (stack inner : List Nat) (id : Nat), b.stack = inner ++ stack →
      b.document.parent? id = some (stack.headD 0) →
      (b.document.Above id p ↔ p ∈ stack ∨ p = 0) := by
    intro stack
    induction stack with
    | nil =>
        intro inner id _ hid
        have hroot : ¬ b.document.Above 0 p := by
          intro hup
          obtain ⟨q, hq, -⟩ := Document.above_iff.mp hup
          rw [h.root] at hq
          simp at hq
        rw [Document.above_iff, hid]
        simp [hroot]
    | cons first outer ih =>
        intro inner id hstack hid
        have hfirst := ih (inner ++ [first]) first (by simpa using hstack)
          (h.chain inner first outer hstack)
        rw [Document.above_iff, hid]
        simp [hfirst, or_assoc]
  exact habove b.stack [] id rfl hid

/-- Whether blanks are significant around a child of the innermost open element. -/
theorem Linked.sheltered_iff (h : b.Linked)
    (htype : (b.document.node 0).content.type = .document) {id : Nat}
    (hid : b.document.parent? id = some b.parent) :
    b.document.Sheltered id ↔ b.isPreformatted = true := by
  have hroot : (b.document.node 0).isPreformatted = false := by
    unfold Node.isPreformatted Node.element?
    split
    · next e he =>
        rw [he] at htype
        simp [Content.type] at htype
    · rfl
  rw [isPreformatted, List.any_eq_true]
  constructor
  · rintro ⟨p, habove, hp⟩
    rcases (h.above_iff hid p).mp habove with hmem | rfl
    · exact ⟨p, hmem, hp⟩
    · rw [hroot] at hp
      simp at hp
  · rintro ⟨p, hmem, hp⟩
    exact ⟨p, (h.above_iff hid p).mpr (.inl hmem), hp⟩

end Builder

/-- What some tokens hold as text. -/
def textOf (tokens : List Token) : String := String.join (tokens.filterMap (·.lexeme.text?))

/-- The text of tokens is joined like the tokens. -/
theorem textOf_append (tokens more : List Token) :
    textOf (tokens ++ more) = textOf tokens ++ textOf more := by
  simp [textOf, List.filterMap_append]

/-- The text of a single text is that text. -/
theorem textOf_of_text {t : Token} {text : String} (ht : t.lexeme = .text text) :
    textOf [t] = text := by
  simp [textOf, ht, Lexeme.text?]

/-- Tokens of other kinds hold no text. -/
theorem textOf_of_not_isText {tokens : List Token} (h : ∀ t ∈ tokens, t.lexeme.isText = false) :
    textOf tokens = "" := by
  have hnone : tokens.filterMap (·.lexeme.text?) = [] := by
    rw [List.filterMap_eq_nil_iff]
    intro t ht
    have hkind := h t ht
    cases hlexeme : t.lexeme <;> simp_all [Lexeme.isText, Lexeme.text?]
  rw [textOf, hnone]
  rfl

/-- A text is what was written if blanks are kept, and else what was written collapsed. -/
structure Carried (kept : Prop) (written text : String) : Prop where
  verbatim : kept → text = written
  collapsed : ¬ kept → text = collapse written

/-- What is carried does not depend on how the condition is put. -/
theorem Carried.congr {kept kept' : Prop} {written text : String} (h : Carried kept written text)
    (hiff : kept' ↔ kept) : Carried kept' written text :=
  ⟨fun hkept => h.verbatim (hiff.mp hkept), fun hkept => h.collapsed fun hk => hkept (hiff.mpr hk)⟩

/-- What the builder does to text. -/
theorem carried_tidy (keep pre : Bool) (written : String) :
    Carried (keep = true ∨ pre = true) written ((if keep || pre then id else collapse) written) := by
  cases keep <;> cases pre <;> exact ⟨by simp, by simp⟩

/-- What the builder does to text that it joins to other text. -/
theorem Carried.join {keep pre : Bool} {written text : String}
    (h : Carried (keep = true ∨ pre = true) written text) (more : String) :
    Carried (keep = true ∨ pre = true) (written ++ more)
      ((if keep || pre then id else collapse)
        (text ++ (if keep || pre then id else collapse) more)) := by
  by_cases hkept : keep = true ∨ pre = true
  · refine ⟨fun _ => ?_, fun hno => absurd hkept hno⟩
    simp [hkept, h.verbatim hkept]
  · refine ⟨fun hyes => absurd hyes hkept, fun _ => ?_⟩
    simp [hkept, h.collapsed hkept, collapse_append]

/-- The node starts at the offset, if offsets are asked for. -/
def Node.StartsAt (s : Settings) (n : Node) (start : Nat) : Prop :=
  s.index = true → n.position.bind (·.start) = some start

/-- The node stops at the offset, if offsets are asked for. -/
def Node.StopsAt (s : Settings) (n : Node) (stop : Nat) : Prop :=
  s.index = true → n.position.bind (·.stop) = some stop

/-- The node is made of the text among a run of tokens that starts and stops with text. -/
structure Node.MadeOf (s : Settings) (n : Node) (own : List Token) : Prop where
  first : ∃ t, own.head? = some t ∧ t.lexeme.isText = true ∧ n.StartsAt s t.start
  last : ∃ t, own.getLast? = some t ∧ t.lexeme.isText = true ∧ n.StopsAt s t.stop

/-- A text of a document, and where it stands among the tokens. -/
structure Document.TextFrom (s : Settings) (d : Document) (id : Nat) (before own after : List Token)
    (text : String) : Prop where
  content : (d.node id).content = .text (.raw text)
  made : (d.node id).MadeOf s own
  carried : Carried (s.keepBlanks = true ∨ d.Sheltered id) (textOf own) text
  /-- Further text is read only once there is another node. -/
  newest : id + 1 = d.size → ∀ t ∈ after, t.lexeme.isText = false

/-- The elements and texts of a document come from tokens. -/
structure Document.Drawn (s : Settings) (tokens : List Token) (d : Document) : Prop where
  /-- Every element comes from the opening tag that it starts with. -/
  elements : ∀ id e, (d.node id).element? = some e →
    ∃ t ∈ tokens, t.lexeme.openTag? = some e.openTag ∧ (d.node id).StartsAt s t.start
  /-- Every text is undivided and comes from a run of tokens. -/
  texts : ∀ id content, (d.node id).content = .text content → ∃ text before own after,
    content = .raw text ∧ tokens = before ++ own ++ after ∧ d.TextFrom s id before own after text

/-- The element of a node depends on its content only. -/
theorem Node.element?_congr {n m : Node} (h : n.content = m.content) : n.element? = m.element? := by
  unfold element?
  rw [h]

/-- Whether the text of a node is preformatted depends on its content only. -/
theorem Node.isPreformatted_congr {n m : Node} (h : n.content = m.content) :
    n.isPreformatted = m.isPreformatted := by
  rw [isPreformatted, isPreformatted, element?_congr h]

/-- Whether a node is a blank text depends on its content only. -/
theorem Node.isBlankText_congr {n m : Node} (h : n.content = m.content) :
    n.isBlankText = m.isBlankText := by
  unfold isBlankText
  rw [h]

section Drawn

variable {s : Settings} {d d' : Document} {tokens own before after : List Token} {t : Token} {id : Nat}

/-- What a node is made of can be seen from its position. -/
theorem Node.MadeOf.congr {n n' : Node} (h : n.MadeOf s own) (hposition : n'.position = n.position) :
    n'.MadeOf s own := by
  obtain ⟨⟨first, hfirst, hone, hstart⟩, last, hlast, hother, hstop⟩ := h
  exact ⟨⟨first, hfirst, hone, fun hindex => by rw [hposition, hstart hindex]⟩,
    last, hlast, hother, fun hindex => by rw [hposition, hstop hindex]⟩

/-- Further text behind tokens without text goes on with a node. -/
theorem Node.MadeOf.extend {n n' : Node} (h : n.MadeOf s own) (ht : t.lexeme.isText = true)
    (hposition : s.index = true →
      n'.position = n.position.map fun p => { p with stop := some t.stop }) :
    n'.MadeOf s (own ++ after ++ [t]) := by
  obtain ⟨⟨first, hfirst, hone, hstart⟩, last, -, -, hstop⟩ := h
  refine ⟨⟨first, by simp [hfirst], hone, fun hindex => ?_⟩, t, by simp, ht, fun hindex => ?_⟩
  · have hfound := hstart hindex
    rw [hposition hindex]
    cases hn : n.position with
    | none => simp [hn] at hfound
    | some p => simpa [hn] using hfound
  · have hfound := hstop hindex
    rw [hposition hindex]
    cases hn : n.position with
    | none => simp [hn] at hfound
    | some p => simp

/-- Reading on leaves a text where it is. -/
theorem Document.TextFrom.later {text : String} (h : d.TextFrom s id before own after text)
    (hcontent : (d'.node id).content = (d.node id).content)
    (hposition : (d'.node id).position = (d.node id).position)
    (hsheltered : d'.Sheltered id ↔ d.Sheltered id)
    (hnewest : id + 1 = d'.size → id + 1 = d.size ∧ t.lexeme.isText = false) :
    d'.TextFrom s id before own (after ++ [t]) text := by
  refine ⟨hcontent.trans h.content, h.made.congr hposition, ?_, fun hsize => ?_⟩
  · rw [hsheltered]
    exact h.carried
  · obtain ⟨hbefore, ht⟩ := hnewest hsize
    exact List.forall_mem_append.mpr ⟨h.newest hbefore, List.forall_mem_singleton.mpr ht⟩

/-- A token without text that is only noted. -/
theorem Document.Drawn.skip (h : d.Drawn s tokens) (ht : t.lexeme.isText = false) :
    d.Drawn s (tokens ++ [t]) := by
  refine ⟨fun i e he => ?_, fun i content hcontent => ?_⟩
  · obtain ⟨u, hu, hfrom⟩ := h.elements i e he
    exact ⟨u, List.mem_append_left _ hu, hfrom⟩
  · obtain ⟨text, before, own, after, hraw, htokens, hfrom⟩ := h.texts i content hcontent
    exact ⟨text, before, own, after ++ [t], hraw, by simp [htokens],
      hfrom.later rfl rfl Iff.rfl fun hsize => ⟨hsize, ht⟩⟩

/-- A token without text that changes a node other than a text, but for its kind, its tag and where
it starts. -/
theorem Document.Drawn.update (h : d.Drawn s tokens) (ht : t.lexeme.isText = false) {f : Node → Node}
    (htype : (d.node id).content.type ≠ .text)
    (hsame : (f (d.node id)).content.type = (d.node id).content.type)
    (htag : ∀ e', (f (d.node id)).element? = some e' →
      ∃ e, (d.node id).element? = some e ∧ e.openTag = e'.openTag)
    (hpre : (f (d.node id)).isPreformatted = (d.node id).isPreformatted)
    (hstart : (f (d.node id)).position.bind (·.start) = (d.node id).position.bind (·.start)) :
    (d.update id f).Drawn s (tokens ++ [t]) := by
  refine ⟨fun i e he => ?_, fun i content hcontent => ?_⟩
  · rcases Document.node_update_cases d id f i with hnode | ⟨rfl, hnode⟩
    · rw [hnode] at he ⊢
      exact (h.skip ht).elements i e he
    · rw [hnode] at he ⊢
      obtain ⟨e', he', hopen⟩ := htag e he
      obtain ⟨u, hu, htagged, hstarts⟩ := (h.skip ht).elements _ e' he'
      exact ⟨u, hu, hopen ▸ htagged, fun hindex => hstart.trans (hstarts hindex)⟩
  · rcases Document.node_update_cases d id f i with hnode | ⟨rfl, hnode⟩
    · rw [hnode] at hcontent
      obtain ⟨text, before, own, after, hraw, htokens, hfrom⟩ := h.texts i content hcontent
      refine ⟨text, before, own, after ++ [t], hraw, by simp [htokens], ?_⟩
      exact hfrom.later (by rw [hnode]) (by rw [hnode]) (Document.sheltered_update hpre i)
        fun hsize => ⟨by rwa [Document.size_update] at hsize, ht⟩
    · rw [hnode] at hcontent
      rw [hcontent] at hsame
      exact absurd hsame.symm htype

end Drawn

namespace Builder

variable {b : Builder} {c : Context} {tokens more : List Token} {t : Token}

/-- Adding a node leaves the content of the others. -/
theorem content_add_of_lt (ho : b.Ordered) {n : Node} {i : Nat} (hi : i < b.document.size) :
    ((b.add n).document.node i).content = (b.document.node i).content := by
  rw [Builder.add, Document.content_append ho.shape.parent_lt, if_neg (by omega)]

/-- Adding a node leaves the positions of the others. -/
theorem position_add_of_lt (ho : b.Ordered) {n : Node} {i : Nat} (hi : i < b.document.size) :
    ((b.add n).document.node i).position = (b.document.node i).position := by
  rw [Builder.add]
  by_cases hparent : i = b.parent
  · rw [hparent, Document.node_append_parent ho.shape.parent_lt]
  · rw [Document.node_append_of_ne n hi hparent]

/-- The node added is the one at the end. -/
theorem node_add_self (ho : b.Ordered) {n : Node} :
    (b.add n).document.node b.document.size = n := by
  rw [Builder.add, Document.node_append_self ho.shape.parent_lt]

/-- Adding a node shelters no other. -/
theorem Linked.sheltered_add_of_lt (h : b.Linked) (ho : b.Ordered) {n : Node} {i : Nat}
    (hi : i < b.document.size) : (b.add n).document.Sheltered i ↔ b.document.Sheltered i := by
  refine Document.sheltered_congr (· < b.document.size) ?_ (fun i p _ hp => (h.host i p hp).1)
    (fun i hi => Node.isPreformatted_congr (content_add_of_lt ho hi)) hi
  intro j hj
  rw [Builder.add, Document.parent?_append h.table, if_neg (Nat.ne_of_lt hj)]

/-- The added node is sheltered by the open elements. -/
theorem Linked.sheltered_add_self (h : b.Linked) (ho : b.Ordered) {n : Node}
    (hn : n.children = []) :
    (b.add n).document.Sheltered b.document.size ↔ b.isPreformatted = true := by
  have hlink : (b.add n).document.parent? b.document.size = some (b.add n).parent := by
    rw [Builder.add, Document.parent?_append h.table, if_pos rfl]
    rfl
  have hroot : ((b.add n).document.node 0).content.type = .document := by
    rw [content_add_of_lt ho ho.shape.pos]
    exact ho.root
  rw [(h.add ho hn).sheltered_iff hroot hlink, isPreformatted, isPreformatted, List.any_eq_true,
    List.any_eq_true]
  refine exists_congr fun id => and_congr_right fun hid => ?_
  rw [Node.isPreformatted_congr (content_add_of_lt ho (ho.shape.stack id hid))]

/-- Adding a node that comes from the token. -/
theorem Linked.drawn_add (h : b.Linked) (ho : b.Ordered) (hd : b.document.Drawn c.settings tokens)
    {n : Node} (hn : n.children = [])
    (helement : ∀ e, n.element? = some e →
      t.lexeme.openTag? = some e.openTag ∧ n.StartsAt c.settings t.start)
    (htext : ∀ content, n.content = .text content → ∃ text, content = .raw text ∧
      n.MadeOf c.settings [t] ∧
        Carried (c.settings.keepBlanks = true ∨ b.isPreformatted = true) (textOf [t]) text) :
    (b.add n).document.Drawn c.settings (tokens ++ [t]) := by
  have hsize : (b.add n).document.size = b.document.size + 1 := Document.size_append ..
  have hbeyond : ∀ i, b.document.size < i → (b.add n).document.node i = Node.document :=
    fun i hi => Document.node_of_size_le (by omega)
  refine ⟨fun i e he => ?_, fun i content hi => ?_⟩
  · rcases Nat.lt_trichotomy i b.document.size with hlt | rfl | hgt
    · rw [Node.element?_congr (content_add_of_lt ho hlt)] at he
      obtain ⟨u, hu, htag, hstarts⟩ := hd.elements i e he
      refine ⟨u, List.mem_append_left _ hu, htag, fun hindex => ?_⟩
      rw [position_add_of_lt ho hlt]
      exact hstarts hindex
    · rw [node_add_self ho] at he ⊢
      exact ⟨t, List.mem_append_right _ List.mem_cons_self, helement e he⟩
    · simp [hbeyond i hgt, Node.document, Node.element?] at he
  · rcases Nat.lt_trichotomy i b.document.size with hlt | rfl | hgt
    · rw [content_add_of_lt ho hlt] at hi
      obtain ⟨text, before, own, after, hraw, htokens, hfrom⟩ := hd.texts i content hi
      refine ⟨text, before, own, after ++ [t], hraw, by simp [htokens], ?_⟩
      exact hfrom.later (content_add_of_lt ho hlt) (position_add_of_lt ho hlt)
        (h.sheltered_add_of_lt ho hlt) fun hnewest => by omega
    · rw [node_add_self ho] at hi
      obtain ⟨text, rfl, hmade, hcarried⟩ := htext content hi
      refine ⟨text, tokens, [t], [], rfl, by simp, ?_, ?_, ?_, by simp⟩
      · rw [node_add_self ho, hi]
      · rwa [node_add_self ho]
      · rwa [h.sheltered_add_self ho hn]
    · simp [hbeyond i hgt, Node.document] at hi

/-- The position of a new node starts and stops with its token. -/
theorem startsAt_position {n : Node} {start stop : Nat} (hn : n.position = c.position start stop) :
    n.StartsAt c.settings start ∧ n.StopsAt c.settings stop := by
  constructor <;>
    · intro hindex
      simp [hn, Context.position, hindex]

/-- Text that is joined to the text that was read last. -/
theorem Linked.drawn_join (h : b.Linked) (ho : b.Ordered) (hd : b.document.Drawn c.settings tokens)
    {text before : String} {last : Nat} (ht : t.lexeme = .text text)
    (hlast : b.lastText? = some (last, before)) {f : Node → Node}
    (hcontent : (f (b.document.node last)).content = .text (.raw
      ((if c.settings.keepBlanks || b.isPreformatted then id else collapse)
        (before ++ (if c.settings.keepBlanks || b.isPreformatted then id else collapse) text))))
    (hposition : c.settings.index = true → (f (b.document.node last)).position =
      (b.document.node last).position.map fun p => { p with stop := some t.stop }) :
    (b.document.update last f).Drawn c.settings (tokens ++ [t]) := by
  have hwas := content_of_lastText? hlast
  have hsize := ho.size_of_lastText? hlast
  have hlink : b.document.parent? last = some b.parent :=
    h.child _ _ (List.mem_of_getLast? (getLast?_of_lastText? hlast))
  have hbound : last < b.document.size := by omega
  have hnode := Document.node_update_self hbound f
  have hpre : (f (b.document.node last)).isPreformatted = (b.document.node last).isPreformatted := by
    simp [Node.isPreformatted, Node.element?, hcontent, hwas]
  have hsheltered := Document.sheltered_update hpre
  refine ⟨fun i e he => ?_, fun i content hi => ?_⟩
  · have hne : i ≠ last := by
      rintro rfl
      simp [hnode, Node.element?, hcontent] at he
    rw [Document.node_update_of_ne hbound f hne] at he ⊢
    obtain ⟨u, hu, hfrom⟩ := hd.elements i e he
    exact ⟨u, List.mem_append_left _ hu, hfrom⟩
  · by_cases hne : i = last
    · subst hne
      obtain ⟨_, front, own, after, hraw, htokens, hfrom⟩ := hd.texts i _ hwas
      cases hraw
      rw [hnode, hcontent, Content.text.injEq] at hi
      subst hi
      refine ⟨_, front, own ++ after ++ [t], [], rfl, by simp [htokens], ?_, ?_, ?_, by simp⟩
      · rw [hnode, hcontent]
      · rw [hnode]
        exact hfrom.made.extend (by simp [ht, Lexeme.isText]) hposition
      · have hcarried := hfrom.carried
        rw [h.sheltered_iff ho.root hlink] at hcarried
        rw [hsheltered, h.sheltered_iff ho.root hlink, textOf_append, textOf_append,
          textOf_of_not_isText (hfrom.newest hsize.symm), textOf_of_text ht, String.append_empty]
        exact hcarried.join text
    · rw [Document.node_update_of_ne hbound f hne] at hi
      obtain ⟨text', front, own, after, hraw, htokens, hfrom⟩ := hd.texts i content hi
      refine ⟨text', front, own, after ++ [t], hraw, by simp [htokens], ?_⟩
      refine hfrom.later (by rw [Document.node_update_of_ne hbound f hne])
        (by rw [Document.node_update_of_ne hbound f hne]) (hsheltered i) fun hnewest => ?_
      rw [Document.size_update] at hnewest
      omega

/-- What a text adds comes from the tokens. -/
theorem Linked.drawn_addText (h : b.Linked) (ho : b.Ordered)
    (hd : b.document.Drawn c.settings tokens) {text : String} (ht : t.lexeme = .text text) :
    (b.addText c text t.start t.stop).document.Drawn c.settings (tokens ++ [t]) := by
  simp only [addText]
  split
  · next last before hlast =>
      exact h.drawn_join ho hd ht hlast rfl fun hindex => by simp [hindex]
  · refine h.drawn_add ho hd rfl (by simp [Node.element?, Node.ofText]) ?_
    rintro _ ⟨rfl⟩
    have hposition : ({ Node.ofText ((if c.settings.keepBlanks || b.isPreformatted then id
        else collapse) text) with position := c.position t.start t.stop } : Node).position =
          c.position t.start t.stop := rfl
    obtain ⟨hstart, hstop⟩ := startsAt_position hposition
    refine ⟨_, rfl, ⟨⟨t, rfl, by simp [ht, Lexeme.isText], hstart⟩, t, rfl,
      by simp [ht, Lexeme.isText], hstop⟩, ?_⟩
    rw [textOf_of_text ht]
    exact carried_tidy _ _ text

/-- What an opening tag adds comes from the tokens. -/
theorem Linked.drawn_openElement (h : b.Linked) (ho : b.Ordered)
    (hd : b.document.Drawn c.settings tokens) {name : String} {attributes : List AttributeToken}
    {selfClosing : Bool} (ht : t.lexeme = .opening name attributes selfClosing) :
    (b.openElement c name attributes selfClosing t.start t.stop).document.Drawn c.settings
      (tokens ++ [t]) := by
  have hadd : (b.add (opened c name attributes selfClosing t.start t.stop)).document.Drawn
      c.settings (tokens ++ [t]) := by
    refine h.drawn_add ho hd rfl ?_ (by simp [opened, Node.ofElement])
    rintro _ ⟨rfl⟩
    refine ⟨?_, (startsAt_position rfl).1⟩
    simp [ht, Lexeme.openTag?, Element.openTag, spelling_attributeOf]
  rw [openElement_eq]
  split <;> exact hadd

/-- A closing tag adds nothing. -/
theorem Ordered.drawn_closeElement (ho : b.Ordered) (hd : b.document.Drawn c.settings tokens)
    (ht : t.lexeme.isText = false) (name : String) (start stop : Nat) :
    (b.closeElement c name start stop).document.Drawn c.settings (tokens ++ [t]) := by
  simp only [closeElement]
  split
  · split <;> exact hd.skip ht
  · next id outer hdrop =>
      have hsuffix := List.dropWhile_suffix (l := b.stack)
        fun id => !(closes (b.nameOf id) name)
      have htype := ho.tags id (hsuffix.subset (hdrop ▸ List.mem_cons_self))
      rw [reportUnclosed_document]
      refine hd.update ht (by rw [htype]; decide) rfl (fun e he => ⟨e, he, rfl⟩) rfl ?_
      cases (b.document.node id).position with
      | none | some => rfl

/-- A raw body changes the open element only. -/
theorem Ordered.drawn_raw (ho : b.Ordered) (hd : b.document.Drawn c.settings tokens)
    (ht : t.lexeme.isText = false) (text : String) :
    (b.document.update b.parent (Node.mapElement fun e => { e with raw := some text })).Drawn
      c.settings (tokens ++ [t]) := by
  refine hd.update ht ho.type_parent ?_ ?_ ?_ ?_
  · cases hcontent : (b.document.node b.parent).content <;>
      simp [Node.mapElement, hcontent, Content.type]
  · intro e' he'
    cases hcontent : (b.document.node b.parent).content with
    | element e =>
        simp only [Node.mapElement, hcontent, Node.element?, Option.some.injEq] at he' ⊢
        exact ⟨e, rfl, by rw [← he']; rfl⟩
    | document | text | comment =>
        simp [Node.mapElement, hcontent, Node.element?] at he'
  · cases hcontent : (b.document.node b.parent).content <;>
      simp [Node.mapElement, hcontent, Node.isPreformatted, Node.element?]
  · cases hcontent : (b.document.node b.parent).content <;> simp [Node.mapElement, hcontent]

/-- **One step.**  What a token adds comes from the tokens. -/
theorem Linked.drawn_step (h : b.Linked) (ho : b.Ordered)
    (hd : b.document.Drawn c.settings tokens) (t : Token) :
    (b.step c t).document.Drawn c.settings (tokens ++ [t]) := by
  have hplain : ∀ {l : Lexeme}, t.lexeme = l → l.isText = false → t.lexeme.isText = false :=
    fun hl hfalse => hl ▸ hfalse
  cases hlexeme : t.lexeme with
  | text text =>
      simp only [step, hlexeme]
      exact h.drawn_addText ho hd hlexeme
  | comment content =>
      simp only [step, addComment, hlexeme]
      split
      · exact h.drawn_add ho hd rfl (by simp [Node.element?, Node.ofComment])
          (by simp [Node.ofComment])
      · exact hd.skip (hplain hlexeme rfl)
  | opening name attributes selfClosing =>
      simp only [step, hlexeme]
      exact h.drawn_openElement ho hd hlexeme
  | closing name =>
      simp only [step, hlexeme]
      exact ho.drawn_closeElement hd (hplain hlexeme rfl) ..
  | raw text =>
      simp only [step, hlexeme]
      exact ho.drawn_raw hd (hplain hlexeme rfl) text

/-- A step keeps a builder linked. -/
theorem Linked.step (h : b.Linked) (ho : b.Ordered) (c : Context) {t : Token}
    (ht : t.lexeme.Named) : (b.step c t).Linked := by
  have hmoves := b.step_moves c ht
  generalize b.step c t = b' at hmoves ⊢
  cases hmoves with
  | add hn hname => exact h.add ho hn
  | push hn hname htype => exact h.push ho hn
  | change hdocument hchildren htype hstack => exact h.change hdocument hchildren htype hstack
  | same hdocument hstack => exact h.same hdocument hstack

/-- **The whole run.**  What the tokens of a source make comes from them. -/
theorem Linked.run (h : b.Linked) (ho : b.Ordered)
    (hd : b.document.Drawn c.settings tokens)
    (hmore : ∀ t ∈ more, t.lexeme.Named) :
    (more.foldl (Builder.step c) b).Linked ∧
      (more.foldl (Builder.step c) b).document.Drawn c.settings (tokens ++ more) := by
  induction more generalizing b tokens with
  | nil => exact ⟨h, by simpa using hd⟩
  | cons t rest ih =>
      obtain ⟨ht, hrest⟩ := List.forall_mem_cons.mp hmore
      have hstep := ih (h.step ho c ht) (ho.step c ht) (h.drawn_step ho hd t) hrest
      simpa using hstep

end Builder

namespace Document

/-- The second document has the nodes of the first, and only blank text may have lost its parent. -/
structure Trims (d d' : Document) : Prop where
  content : ∀ id, (d'.node id).content = (d.node id).content
  position : ∀ id, (d'.node id).position = (d.node id).position
  parent : ∀ id, (d.node id).isBlankText = false → d'.parent? id = d.parent? id

theorem Trims.refl (d : Document) : d.Trims d := ⟨fun _ => rfl, fun _ => rfl, fun _ _ => rfl⟩

theorem Trims.trans {a b c : Document} (h : a.Trims b) (h' : b.Trims c) : a.Trims c := by
  refine ⟨fun id => (h'.content id).trans (h.content id),
    fun id => (h'.position id).trans (h.position id), ?_⟩
  intro id hid
  rw [h'.parent id (by rw [Node.isBlankText_congr (h.content id), hid]), h.parent id hid]

/-- Dropping a blank text only takes text away. -/
theorem trims_dropBlank (d : Document) (id : Option Nat) : d.Trims (d.dropBlank id) := by
  unfold dropBlank
  split
  · next id =>
      split
      · next hblank =>
          unfold detach
          split
          · exact .refl d
          · next p hp =>
              refine ⟨?_, ?_, ?_⟩
              · intro i
                exact content_update (d := d) (g := fun content => content)
                  (f := fun n => { n with children := n.children.filter (· != id) }) rfl i
              · intro i
                rcases node_update_cases d p
                  (fun n => { n with children := n.children.filter (· != id) }) i with
                    hnode | ⟨-, hnode⟩
                · exact congrArg (·.position) hnode
                · exact (congrArg (·.position) hnode).trans rfl
              · intro i hi
                have hne : i ≠ id := by
                  rintro rfl
                  rw [hblank] at hi
                  simp at hi
                simp [parent?, Array.getD, Array.getElem_modify, hne.symm]
      · exact .refl d
  · exact .refl d

/-- A sequence of changes that each take text away takes text away. -/
theorem trims_foldl {α : Type} {f : Document → α → Document} (h : ∀ d a, Trims d (f d a))
    (as : List α) (d : Document) : d.Trims (as.foldl f d) := by
  induction as generalizing d with
  | nil => exact .refl d
  | cons a rest ih => exact (h d a).trans (ih (f d a))

/-- Trimming cuts off blank text only. -/
theorem trims_trimBlanks (d : Document) : d.Trims d.trimBlanks := by
  unfold trimBlanks
  refine (trims_foldl (fun d id => trims_dropBlank d (some id)) _ d).trans (trims_foldl ?_ _ _)
  intro d id
  exact (trims_dropBlank d _).trans (trims_dropBlank _ _)

end Document

/-- Only texts without anything below them are blank. -/
theorem Builder.Linked.isBlankText_host {b : Builder} (h : b.Linked) {id p : Nat}
    (hp : b.document.parent? id = some p) : (b.document.node p).isBlankText = false := by
  have htype := (h.host id p hp).2
  unfold Node.isBlankText
  split
  · next text htext =>
      rw [htext] at htype
      simp [Content.type] at htype
  · rfl

/-- Cutting off blank text leaves the surroundings of the other nodes as they are. -/
theorem Builder.Linked.sheltered_trims {b : Builder} {d : Document} (h : b.Linked)
    (htrims : b.document.Trims d) {id : Nat} (hid : (b.document.node id).isBlankText = false) :
    d.Sheltered id ↔ b.document.Sheltered id :=
  Document.sheltered_congr (fun i => (b.document.node i).isBlankText = false)
    (fun i hi => htrims.parent i hi) (fun _ _ _ hp => h.isBlankText_host hp)
    (fun i _ => Node.isPreformatted_congr (htrims.content i)) hid

/-- The tokens of a source make a linked document that comes from them. -/
theorem built_linked_drawn (s : Settings) (source : String) :
    (built s source).Linked ∧ (built s source).document.Drawn s (scan source).1 := by
  have hempty : Document.empty.Drawn s [] := by
    refine ⟨?_, ?_⟩
    · intro id e he
      simp [Document.node_empty, Node.document, Node.element?] at he
    · intro id content hcontent
      simp [Document.node_empty, Node.document] at hcontent
  exact (Builder.linked_empty _).run (c := ⟨s, .of source⟩) (Builder.ordered_empty _) hempty
    (scan_named source)

/-- A built document is linked. -/
theorem built_linked (s : Settings) (source : String) : (built s source).Linked :=
  (built_linked_drawn s source).1

/-- A built document is drawn from the tokens of its source. -/
theorem built_drawn (s : Settings) (source : String) :
    (built s source).document.Drawn s (scan source).1 :=
  (built_linked_drawn s source).2

/-- A document is what the tokens of its source make, but for blank text that is cut off. -/
theorem trims_parse (s : Settings) (source : String) :
    (built s source).document.Trims (parse s source).1 := by
  rw [parse_document]
  split
  · exact Document.trims_trimBlanks _
  · exact .refl _

/-- **Elements come from opening tags**, which they start with. -/
theorem parse_element_drawn {s : Settings} {source : String} {id : Nat} {e : Element}
    (he : ((parse s source).1.node id).element? = some e) :
    ∃ t ∈ (scan source).1, t.lexeme.openTag? = some e.openTag ∧
      ((parse s source).1.node id).StartsAt s t.start := by
  have htrims := trims_parse s source
  rw [Node.element?_congr (htrims.content id)] at he
  obtain ⟨t, ht, htag, hstart⟩ := (built_drawn s source).elements id e he
  exact ⟨t, ht, htag, fun hindex => by rw [htrims.position, hstart hindex]⟩

/-- **Texts come from runs of tokens**, and are carried over as the settings and the elements around
them say.  Of blank text, which may be cut off, only the first is said. -/
theorem parse_text_drawn {s : Settings} {source : String} {id : Nat} {content : TextContent}
    (hcontent : ((parse s source).1.node id).content = .text content) :
    ∃ text before own after, content = .raw text ∧ (scan source).1 = before ++ own ++ after ∧
      ((parse s source).1.node id).MadeOf s own ∧
      ∃ kept, Carried kept (textOf own) text ∧
        (((parse s source).1.node id).isBlankText = false →
          (kept ↔ s.keepBlanks = true ∨ (parse s source).1.Sheltered id)) := by
  have htrims := trims_parse s source
  rw [htrims.content id] at hcontent
  obtain ⟨text, before, own, after, rfl, htokens, hfrom⟩ :=
    (built_drawn s source).texts id content hcontent
  refine ⟨text, before, own, after, rfl, htokens, hfrom.made.congr (htrims.position id), _,
    hfrom.carried, fun hid => ?_⟩
  rw [Node.isBlankText_congr (htrims.content id)] at hid
  rw [(built_linked s source).sheltered_trims htrims hid]

end Stencil.Markup
