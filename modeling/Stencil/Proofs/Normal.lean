import Stencil.Proofs.PrintedDocument

/-!
# Documents in normal form

A document that was read is in a normal form, whatever the source is (`Document.Normal`): texts are not
empty and stand apart, an element without content has nothing below it, runs of blanks are single
spaces unless they are kept, and where blank text is trimmed, none is left at an edge.  So there is
nothing left to trim (`parse_normal`).

What is said of single nodes is a rule that tokens keep (`Node.proper_rule`).  Trimming drops no more
than one text at each edge, and that is enough because texts stand apart.
-/

namespace Stencil.Markup

open Stencil.Text

/-! ### A rule for all sources -/

/-- The node is as any source makes it, its children apart, and it has none if it cannot. -/
def Node.Proper (n : Node) : Prop :=
  match n.content with
  | .document => True
  | .text content => n.children = [] ∧ ∃ text, content = .raw text ∧ text ≠ ""
  | .comment _ => n.children = []
  | .element e =>
      e.empty = (e.selfClosing || isVoid e.name) ∧
        (e.raw.isSome = true → e.selfClosing = false ∧ isRawText e.name = true) ∧
          (e.empty = true ∨ e.raw.isSome = true → n.children = [])

/-- Texts are not empty, and tags have proper names. -/
def Lexeme.Proper (lexeme : Lexeme) : Prop :=
  lexeme.Named ∧ ∀ text, lexeme = .text text → text ≠ ""

/-- Whether a node is proper depends on its content and on having children. -/
theorem Node.Proper.congr {n m : Node} (h : n.Proper) (hcontent : m.content = n.content)
    (hchildren : n.children = [] → m.children = []) : m.Proper := by
  unfold Proper at h ⊢
  rw [hcontent]
  split at h
  · trivial
  · exact ⟨hchildren h.1, h.2⟩
  · exact hchildren h
  · exact ⟨h.1, h.2.1, fun hempty => hchildren (h.2.2 hempty)⟩

/-- A proper node that hosts others is proper with any children. -/
theorem Node.Proper.host {n : Node} (h : n.Proper) (hhosts : n.Hosts) (children : List Nat) :
    ({ n with children } : Node).Proper := by
  obtain ⟨htype, hopen⟩ := hhosts
  cases hcontent : n.content with
  | document => simp only [Proper]
  | text content => simp [hcontent, Content.type] at htype
  | comment content => simp [hcontent, Content.type] at htype
  | element e =>
      obtain ⟨hempty, hraw⟩ := hopen e hcontent
      simp only [Proper, hcontent] at h ⊢
      refine ⟨h.1, h.2.1, ?_⟩
      rintro (hyes | hyes)
      · rw [hempty] at hyes
        cases hyes
      · rw [(h.2.1 hyes).2] at hraw
        cases hraw

/-- **A rule.**  All tokens make proper nodes. -/
theorem Node.proper_rule (c : Context) : Builder.Rule c Lexeme.Proper Node.Proper where
  root := trivial
  congr := Node.Proper.congr
  host := Node.Proper.host
  text_iff := by
    intro n content hcontent
    simp only [Node.Proper, hcontent]
  named := fun h => h.1
  nonempty := fun h => h.2 _ rfl
  comment := fun _ _ _ _ => rfl
  opened := by
    intro name attributes selfClosing _ _ start stop
    exact ⟨rfl, by simp, fun _ => rfl⟩
  filled := fun _ hname _ _ _ => ⟨rfl, fun _ => ⟨rfl, hname⟩, fun _ => rfl⟩

/-- The tokens of a scan are proper. -/
theorem scan_proper (source : String) : ∀ t ∈ (scan source).1, t.lexeme.Proper := by
  intro t ht
  refine ⟨scan_named source t ht, ?_⟩
  rintro text htext rfl
  obtain ⟨cs, -, hspelled⟩ := (scan_tiling source).spelled t ht
  simp only [Token.Spelled, htext] at hspelled
  exact hspelled.2 (by simpa using hspelled.1)

/-- A built document keeps the rules of the normal form. -/
theorem built_ruled (s : Settings) (source : String) :
    (built s source).document.Ruled Node.Proper := by
  have hempty : Document.empty.Ruled Node.Proper := by
    have hregular := Document.regular_empty s
    refine ⟨fun i => ?_, hregular.inner, hregular.beside⟩
    rw [Document.node_empty]
    trivial
  have hstart : ({ diagnostics := (scan source).2.map (Context.diagnostic ⟨s, .of source⟩) } :
      Builder).Ruled Node.Proper := ⟨Builder.ordered_empty _, hempty⟩
  exact (((scanFrom_tiled 0 source.toList).joinTexts).ruled
    (Node.proper_rule ⟨s, .of source⟩) (scan_proper source) hstart
    (by simp [Builder.Hosting])).document

/-- All nodes that are read are proper, and texts stand apart. -/
theorem parse_ruled (s : Settings) (source : String) :
    (parse s source).1.Ruled Node.Proper := by
  have hbuilt := built_ruled s source
  rw [parse_document]
  split
  · exact hbuilt.trimBlanks (Node.proper_rule ⟨s, .of source⟩)
  · exact hbuilt

/-! ### Blanks -/

/-- Blanks are spaces, each alone. -/
def Collapsed (text : String) : Prop :=
  (∀ c ∈ text.toList, isBlank c = true → c = ' ') ∧ ¬ [' ', ' '] <:+: text.toList

/-- What is left of a text has no two spaces in a row, and none at its start behind a blank. -/
theorem collapseFrom_collapsed (after : Bool) (cs : List Char) :
    (∀ c ∈ collapseFrom after cs, isBlank c = true → c = ' ') ∧
      ((if after then [' '] else []) ++ collapseFrom after cs).IsChain
        fun c d => ¬ (c = ' ' ∧ d = ' ') := by
  induction cs generalizing after with
  | nil => cases after <;> simp [collapseFrom]
  | cons c rest ih =>
      by_cases hc : isBlank c = true
      · obtain ⟨hspaces, hchain⟩ := ih true
        rw [collapseFrom, if_pos hc]
        cases after with
        | true => exact ⟨hspaces, hchain⟩
        | false => exact ⟨List.forall_mem_cons.mpr ⟨fun _ => rfl, hspaces⟩, hchain⟩
      · obtain ⟨hspaces, hchain⟩ := ih false
        have hne : c ≠ ' ' := by
          rintro rfl
          exact hc rfl
        have hhere : (c :: collapseFrom false rest).IsChain fun c d => ¬ (c = ' ' ∧ d = ' ') :=
          List.isChain_cons.mpr ⟨fun _ _ hboth => hne hboth.1, hchain⟩
        rw [collapseFrom, if_neg hc]
        refine ⟨List.forall_mem_cons.mpr ⟨fun hyes => absurd hyes hc, hspaces⟩, ?_⟩
        cases after with
        | true => exact List.isChain_cons_cons.mpr ⟨fun hboth => hne hboth.2, hhere⟩
        | false => exact hhere

/-- A text that collapses into itself is collapsed. -/
theorem collapsed_of_collapse {text : String} (h : collapse text = text) : Collapsed text := by
  obtain ⟨hspaces, hchain⟩ := collapseFrom_collapsed false text.toList
  have heq : collapseFrom false text.toList = text.toList := by
    have htext := congrArg String.toList h
    rwa [collapse, String.toList_ofList] at htext
  rw [heq] at hspaces hchain
  refine ⟨hspaces, fun hinfix => ?_⟩
  have htwo := List.IsChain.infix hchain hinfix
  exact (List.isChain_cons_cons.mp htwo).1 ⟨rfl, rfl⟩

/-! ### Trimming twice -/

namespace Document

variable {d : Document}

/-- The parent of what is above a node is above it. -/
theorem Above.snoc {id p q : Nat} (h : d.Above id p) (hq : d.parent? p = some q) : d.Above id q := by
  induction h with
  | parent hp => exact .step hp (.parent hq)
  | step hp _ ih => exact .step hp (ih hq)

/-- A node is above all that is below it. -/
theorem Linked.above_of_mem_below (h : d.Linked) {levels id i : Nat}
    (hi : i ∈ d.below levels id) : d.Above i id := by
  induction levels generalizing id with
  | zero => simp [below] at hi
  | succ levels ih =>
      simp only [below, List.mem_flatMap, List.mem_cons] at hi
      obtain ⟨child, hchild, rfl | hi⟩ := hi
      · exact .parent (h.child id i hchild)
      · exact (ih hi).snoc (h.child id child hchild)

/-- The way down to a tag leads through no preformatted element unless it is inside of one. -/
theorem Linked.mem_flowing (h : d.Linked) {levels id p : Nat} (hp : p ∈ d.below levels id)
    (htag : (d.node p).isTag = true) (hpre : (d.node p).isPreformatted = false)
    (hsheltered : ¬ d.Sheltered p) : p ∈ d.flowing levels id := by
  induction levels generalizing id with
  | zero => simp [below] at hp
  | succ levels ih =>
      simp only [below, List.mem_flatMap, List.mem_cons] at hp
      simp only [flowing, List.mem_flatMap]
      obtain ⟨child, hchild, rfl | hp⟩ := hp
      · exact ⟨p, hchild, by simp [htag, hpre]⟩
      · have habove := h.above_of_mem_below hp
        have hchildpre : (d.node child).isPreformatted = false := by
          rw [Bool.eq_false_iff]
          exact fun hyes => hsheltered ⟨child, habove, hyes⟩
        have hchildtag : (d.node child).isTag = true := by
          refine (h.host child ?_).resolve_left ?_
          · intro hnil
            cases levels <;> simp [below, hnil] at hp
          · rintro rfl
            have hroot := h.child id 0 hchild
            rw [h.root] at hroot
            cases hroot
        exact ⟨child, hchild, by simp [hchildtag, hchildpre, ih hp]⟩

/-- Without blank text at the edges of a node there is nothing to trim there. -/
theorem Clipped.trimEdges_eq {p : Nat} (h : d.Clipped p) : d.trimEdges p = d := by
  have hhead : d.dropBlank (d.children p).head? = d := by
    cases hfirst : (d.children p).head? with
    | none => rfl
    | some i => exact dropBlank_eq_self (h.head i hfirst)
  have hlast : d.dropBlank (d.children p).getLast? = d := by
    cases hfinal : (d.children p).getLast? with
    | none => rfl
    | some i => exact dropBlank_eq_self (h.last i hfinal)
  rw [Document.trimEdges, hhead]
  exact hlast

/-- **Trimming twice.**  Without blank text at the top and at the edges of elements outside of
preformatted ones, there is nothing to trim. -/
theorem trimBlanks_eq_self (htop : ∀ i ∈ d.children 0, (d.node i).isBlankText = false)
    (hedges : ∀ p ∈ d.flowing d.size 0, d.Clipped p) : d.trimBlanks = d := by
  have hdrop : (d.children 0).foldl (fun d id => d.dropBlank (some id)) d = d :=
    foldl_eq_self fun i hi => dropBlank_eq_self (htop i hi)
  rw [trimBlanks, hdrop]
  exact foldl_eq_self fun p hp => (hedges p hp).trimEdges_eq

/-! ### The normal form -/

/-- What is said of a document that was read. -/
structure Normal (s : Settings) (d : Document) : Prop where
  /-- Texts are undivided and not empty. -/
  texts : ∀ i content, (d.node i).content = .text content →
    ∃ text, content = .raw text ∧ text ≠ ""
  /-- No text is the next sibling of another one. -/
  apart : ∀ p, (d.children p).IsChain fun i j =>
    ¬ ((d.node i).isText = true ∧ (d.node j).isText = true)
  empty : ∀ i e, (d.node i).element? = some e →
    (e.empty = true ↔ e.selfClosing = true ∨ isVoid e.name = true)
  raw : ∀ i e, (d.node i).element? = some e → e.raw.isSome = true →
    e.selfClosing = false ∧ isRawText e.name = true
  leaf : ∀ i e, (d.node i).element? = some e → e.empty = true ∨ e.raw.isSome = true →
    d.children i = []
  /-- Unless blanks are kept, they are single spaces, but for preformatted elements. -/
  collapsed : s.keepBlanks = false → ∀ p, ∀ i ∈ d.children p, ∀ text,
    (d.node i).content = .text (.raw text) → ¬ d.Sheltered i → Collapsed text
  /-- Where blank text is trimmed, none is at the top. -/
  top : s.trim = true → ∀ i ∈ d.children 0, (d.node i).isBlankText = false
  /-- Nor is any at an edge of an element that is not preformatted or inside one that is. -/
  edges : s.trim = true → ∀ p, (d.node p).isTag = true → (d.node p).isPreformatted = false →
    ¬ d.Sheltered p → d.Clipped p

end Document

/-- With trimming on, the nodes that flow are clipped. -/
theorem parse_clipped {s : Settings} {source : String} (htrim : s.trim = true) :
    ∀ p ∈ (parse s source).1.flowing (parse s source).1.size 0, (parse s source).1.Clipped p := by
  intro p hp
  rw [parse_document, if_pos htrim] at hp ⊢
  exact (built_ruled s source).beside.trimBlanks_clipped (built_document_linked s source) hp

/-- With trimming on, no text at the top is blank. -/
theorem parse_top {s : Settings} {source : String} (htrim : s.trim = true) :
    ∀ i ∈ (parse s source).1.children 0, ((parse s source).1.node i).isBlankText = false := by
  intro i hi
  rw [parse_document, if_pos htrim] at hi ⊢
  exact (built_document_linked s source).trimBlanks_top hi

/-- All tags outside of preformatted elements are found from the top. -/
theorem mem_flowing_parse {s : Settings} {source : String} {p : Nat}
    (htag : ((parse s source).1.node p).isTag = true)
    (hpre : ((parse s source).1.node p).isPreformatted = false)
    (hsheltered : ¬ (parse s source).1.Sheltered p) :
    p ∈ (parse s source).1.flowing (parse s source).1.size 0 := by
  obtain ⟨e, he⟩ := Option.isSome_iff_exists.mp htag
  have hcontent := Node.content_of_element? he
  have hlt : p < (parse s source).1.size := by
    by_contra hge
    rw [Document.node_of_size_le (Nat.not_lt.mp hge)] at hcontent
    cases hcontent
  have hblank : ((parse s source).1.node p).isBlankText = false := by
    simp [Node.isBlankText, hcontent]
  have hwalk := (parse_hung s source).mem_walk (parse_wellFormed s source).forward hlt hblank
  rcases List.mem_cons.mp hwalk with rfl | hbelow
  · have hroot := (built_ordered s source).root
    rw [← (trims_parse s source).content 0, hcontent] at hroot
    cases hroot
  · exact (parse_linked s source).mem_flowing hbelow htag hpre hsheltered

/-- **The normal form.**  Whatever the source and the settings are, the document that is read is in
normal form, and if blank text was trimmed, trimming again changes nothing. -/
theorem parse_normal (s : Settings) (source : String) :
    (parse s source).1.Normal s ∧
      (s.trim = true → (parse s source).1.trimBlanks = (parse s source).1) := by
  have hruled := parse_ruled s source
  have helement : ∀ i e, ((parse s source).1.node i).element? = some e →
      e.empty = (e.selfClosing || isVoid e.name) ∧
        (e.raw.isSome = true → e.selfClosing = false ∧ isRawText e.name = true) ∧
          (e.empty = true ∨ e.raw.isSome = true → (parse s source).1.children i = []) := by
    intro i e he
    have hnode := hruled.nodes i
    rw [Node.Proper, Node.content_of_element? he] at hnode
    exact hnode
  refine ⟨?_, fun htrim => Document.trimBlanks_eq_self (parse_top htrim) (parse_clipped htrim)⟩
  refine ⟨?_, hruled.beside, ?_, fun i e he => (helement i e he).2.1,
    fun i e he => (helement i e he).2.2, ?_, parse_top, fun htrim p htag hpre hsheltered =>
      parse_clipped htrim p (mem_flowing_parse htag hpre hsheltered)⟩
  · intro i content hcontent
    have hnode := hruled.nodes i
    rw [Node.Proper, hcontent] at hnode
    exact hnode.2
  · intro i e he
    rw [(helement i e he).1, Bool.or_eq_true]
  · intro hkeep p i hi text htext hsheltered
    refine collapsed_of_collapse ((parse_tidy s source p i hi text htext).resolve_left ?_)
    rintro (hyes | hyes)
    · rw [hkeep] at hyes
      cases hyes
    · exact hsheltered hyes

end Stencil.Markup
