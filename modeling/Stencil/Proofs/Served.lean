import Stencil.Proofs.Outline
import Stencil.Proofs.References
import Stencil.Proofs.Static

/-!
# Static markup as it is served

The markup that the code of a static template is given is the template itself, but for how values and
ends are written: `Tree.served` has the values of attributes in double quotes, with the double quotes
in them written out, and no element closes itself.  Served trees can be read again
(`TreesWellFormed.served`), and walking static trees adds just their served form to the frame that is
being filled (`walkNode_serves`).
-/

namespace Stencil.Markup

open Stencil.Text

/-- The attribute as it is served: its value in double quotes. -/
def PlainAttribute.served (a : PlainAttribute) : PlainAttribute :=
  { a with value := a.value.map fun pair => (attributeText pair.1, .double) }

/-- The element as it is served: with a closing tag unless it is empty by its name. -/
def Tag.served (t : Tag) : Tag :=
  { name := t.name
    empty := isVoid t.name
    selfClosing := false
    attributes := t.attributes.map PlainAttribute.served
    raw := if isRawText t.name then some (t.raw.getD "") else none }

mutual

/-- The tree as it is served. -/
def Tree.served : Tree → Tree
  | .text text => .text text
  | .comment content => .comment content
  | .element tag children => .element tag.served (treesServed children)

/-- The trees as they are served. -/
def treesServed : List Tree → List Tree
  | [] => []
  | t :: rest => t.served :: treesServed rest

end

section WellFormed

variable {affix : Bool}

/-- A text with no opening brace in it is closed. -/
theorem closed_of_forall {p : Char → Prop} {cs : List Char} (h : ∀ c ∈ cs, c ≠ '\x7b' ∧ p c) :
    Closed p cs := by
  induction cs with
  | nil => exact .nil
  | cons c rest ih =>
      obtain ⟨hc, hrest⟩ := List.forall_mem_cons.mp h
      exact .char hc.1 hc.2 (ih hrest)

/-- A served value ends at its quote. -/
theorem closed_attributeText {text : String} (h : '\x7b' ∉ text.toList) :
    Closed (· ≠ '"') (attributeText text).toList := by
  apply closed_of_forall
  intro c hc
  simp only [attributeText, String.toList_ofList, List.mem_flatMap] at hc
  obtain ⟨x, hx, hc⟩ := hc
  unfold attributeChar at hc
  split at hc
  · have hsafe : ∀ c ∈ "&quot;".toList, c ≠ '\x7b' ∧ c ≠ '"' := by simp
    exact hsafe c hc
  · next hquote =>
      rw [List.mem_singleton.mp hc]
      refine ⟨?_, by simpa using hquote⟩
      rintro rfl
      exact h hx

/-- An empty raw body is unclosed. -/
theorem unclosed_nil (name : String) : Unclosed name [] := by
  intro before tag c after heq
  simp at heq

/-- A static attribute stays well-formed when it is served. -/
theorem PlainAttribute.WellFormed.served {a : PlainAttribute} (h : a.WellFormed affix)
    (hstatic : a.Static) : a.served.WellFormed affix where
  divided := h.divided
  part := h.part
  start := h.start
  anonymous hname := absurd hname hstatic.named
  value text quote hvalue := by
    simp only [PlainAttribute.served, Option.map_eq_some_iff, Prod.mk.injEq] at hvalue
    obtain ⟨⟨written, mark⟩, hwritten, rfl, rfl⟩ := hvalue
    exact closed_attributeText (hstatic.value written mark hwritten).2

/-- A static tag stays well-formed when it is served. -/
theorem Tag.WellFormed.served {t : Tag} (h : t.WellFormed affix) (hstatic : t.Static) :
    t.served.WellFormed affix where
  name := h.name
  empty := by simp [Tag.served]
  attributes := by
    intro a ha
    simp only [Tag.served, List.mem_map] at ha
    obtain ⟨b, hb, rfl⟩ := ha
    exact (h.attributes b hb).served (hstatic.attributes b hb)
  raw := by
    intro hraw
    have hname : isRawText t.name = true := by simpa [Tag.holdsRaw, Tag.served] using hraw
    refine ⟨t.raw.getD "", by simp [Tag.served, hname], ?_⟩
    by_cases hholds : t.holdsRaw = true
    · obtain ⟨body, hbody, hunclosed⟩ := h.raw hholds
      rwa [hbody]
    · rw [h.plain (by simpa using hholds)]
      exact unclosed_nil t.name
  plain := by
    intro hraw
    have hname : isRawText t.name = false := by simpa [Tag.holdsRaw, Tag.served] using hraw
    simp [Tag.served, hname]

/-- Below an element that is empty by its name or holds raw content there is nothing. -/
theorem Tree.WellFormed.children_eq_nil {tag : Tag} {children : List Tree}
    (h : (Tree.element tag children).WellFormed affix)
    (hname : isVoid tag.name = true ∨ isRawText tag.name = true) : children = [] := by
  obtain ⟨htag, hchildren, -⟩ := h
  apply hchildren
  by_cases hself : tag.selfClosing = true
  · left
    rw [htag.empty, hself, Bool.true_or]
  · rcases hname with hvoid | hraw
    · left
      rw [htag.empty, hvoid, Bool.or_true]
    · right
      simp [Tag.holdsRaw, hself, hraw]

mutual

/-- A static tree stays well-formed when it is served. -/
theorem Tree.WellFormed.served {t : Tree} (h : t.WellFormed affix) (hstatic : t.Static) :
    t.served.WellFormed affix := by
  match t with
  | .text _ => exact h
  | .comment _ => exact h
  | .element tag children =>
      refine ⟨h.1.served hstatic.1, fun hnone => ?_,
        TreesWellFormed.served h.2.2 hstatic.2⟩
      have hname : isVoid tag.name = true ∨ isRawText tag.name = true := by
        simpa [Tag.served, Tag.holdsRaw] using hnone
      rw [h.children_eq_nil hname]
      rfl

/-- **Served trees can be read again.** -/
theorem TreesWellFormed.served {ts : List Tree} (h : TreesWellFormed affix ts)
    (hstatic : TreesStatic ts) : TreesWellFormed affix (treesServed ts) := by
  match ts with
  | [] => trivial
  | t :: rest =>
      refine ⟨h.1.served hstatic.1, ?_, TreesWellFormed.served h.2.2 hstatic.2⟩
      have hapart := h.2.1
      have htext : ∀ u : Tree, u.served.isText = u.isText := by
        intro u
        cases u <;> rfl
      cases rest with
      | nil => simp [treesServed]
      | cons u more =>
          simpa only [treesServed, List.head?_cons, Option.any_some, htext] using hapart

end

mutual

/-- What the settings keep of a tree is kept of the served one. -/
theorem Tree.Kept.served {s : Settings} {pre : Bool} {t : Tree} (h : t.Kept s pre) :
    t.served.Kept s pre := by
  match t with
  | .text _ => exact h
  | .comment _ => exact h
  | .element tag children =>
      have hinside : TreesKept s (isPreformatted tag.name || pre) children := h
      exact hinside.served

/-- The settings leave served trees as they are if they do so before. -/
theorem TreesKept.served {s : Settings} {pre : Bool} {ts : List Tree} (h : TreesKept s pre ts) :
    TreesKept s pre (treesServed ts) := by
  match ts with
  | [] => trivial
  | t :: rest => exact ⟨h.1.served, TreesKept.served h.2⟩

end

/-- A tree is blank exactly if the served one is. -/
theorem Tree.isBlank_served (t : Tree) : t.served.isBlank = t.isBlank := by
  cases t <;> rfl

theorem treesServed_eq_map (ts : List Tree) : treesServed ts = ts.map Tree.served := by
  induction ts with
  | nil => rfl
  | cons t rest ih => rw [treesServed, ih, List.map_cons]

mutual

/-- A trimmed tree is served trimmed. -/
theorem Tree.Trimmed.served {t : Tree} (h : t.Trimmed) : t.served.Trimmed := by
  match t with
  | .text _ => trivial
  | .comment _ => trivial
  | .element tag children =>
      intro hpre
      obtain ⟨hhead, hlast, hinside⟩ := h hpre
      refine ⟨?_, ?_, TreesTrimmed.served hinside⟩
      · simpa [treesServed_eq_map, Tree.isBlank_served] using hhead
      · simpa [treesServed_eq_map, Tree.isBlank_served] using hlast

/-- A trimmed list of trees is served trimmed. -/
theorem TreesTrimmed.served {ts : List Tree} (h : TreesTrimmed ts) :
    TreesTrimmed (treesServed ts) := by
  match ts with
  | [] => trivial
  | t :: rest => exact ⟨h.1.served, TreesTrimmed.served h.2⟩

end

/-- Trimming drops nothing of served trees if it does not before. -/
theorem Trimmed.served {ts : List Tree} (h : Trimmed ts) : Trimmed (treesServed ts) where
  top := by
    simpa [treesServed_eq_map, Tree.isBlank_served] using h.top
  inside := h.inside.served

end WellFormed

end Stencil.Markup

namespace Stencil

open Stencil.Markup Stencil.Render Stencil.Source Stencil.Text
open Stencil.Script (Expression Language)

section Html

/-- A piece pushed goes to the last block. -/
theorem Render.Frame.pushLast_concat (bs : List Block) (b : Block) (p : Piece) :
    Frame.pushLast (bs ++ [b]) p = bs ++ [b.push p] := by
  induction bs with
  | nil => rfl
  | cons c rest ih =>
      cases rest with
      | nil => rfl
      | cons d more =>
          show c :: Frame.pushLast (d :: more ++ [b]) p = _
          rw [ih]
          rfl

/-- Markup that is added in two steps is as markup that is added in one. -/
theorem Render.Frame.pushHtml_pushHtml (f : Frame) (a b : String) :
    (f.pushHtml a).pushHtml b = f.pushHtml (a ++ b) := by
  by_cases ha : a = ""
  · simp [ha, Frame.pushHtml]
  · by_cases hb : b = ""
    · simp [hb, Frame.pushHtml]
    · have hjoined : ∀ block : Block,
          (block.push (.html a)).push (.html b) = block.push (.html (a ++ b)) := by
        intro block
        simp only [Block.push, Block.pushPiece_html_html]
      simp only [Frame.pushHtml, String.isEmpty_iff, ha, hb, String.append_eq_empty_iff, if_false,
        false_and]
      obtain ⟨blocks, spots, isSealed⟩ := f
      cases isSealed with
      | true =>
          simp only [Frame.pushPiece, Frame.isSealed, Frame.blocks, Frame.spots, if_true,
            Bool.false_eq_true, if_false, Frame.pushLast_concat, hjoined]
      | false =>
          simp only [Frame.pushPiece, Frame.isSealed, Frame.blocks, Frame.spots,
            Bool.false_eq_true, if_false]
          rcases List.eq_nil_or_concat blocks with rfl | ⟨init, last, rfl⟩
          · simp [Frame.pushLast, hjoined]
          · simp only [List.concat_eq_append, Frame.pushLast_concat, hjoined]

/-- Two changes to the frame of a component are one. -/
theorem Component.mapFrame_mapFrame (c : Component) (f g : Frame → Frame) :
    (c.mapFrame f).mapFrame g = c.mapFrame fun frame => g (f frame) := by
  unfold mapFrame
  cases c.nested <;> rfl

theorem Component.mapFrame_id (c : Component) : c.mapFrame (fun frame => frame) = c := by
  unfold mapFrame
  split
  · rfl
  · next hnested => rw [← hnested]

namespace Walk

variable (w : Walk)

/-- Text printed in two steps is printed joined. -/
theorem html_html (a b : String) : (w.html a).html b = w.html (a ++ b) := by
  simp only [html, map, Component.pushHtml, Component.mapFrame_mapFrame,
    Frame.pushHtml_pushHtml]

/-- Printing empty text does nothing. -/
theorem html_empty : w.html "" = w := by
  have hframe : (fun f : Frame => f.pushHtml "") = fun f => f := by
    funext f
    rfl
  simp only [html, map, Component.pushHtml, hframe, Component.mapFrame_id]

/-- Printing text does not touch the digest of the style. -/
@[simp] theorem styleHash_html (text : String) :
    (w.html text).component.styleHash = w.component.styleHash :=
  congrArg Prod.snd (Component.sheet_mapFrame w.component _)

end Walk

end Html

section Walk

variable {w : Walk}

/-- Two ways to write the same markup. -/
theorem Walk.html_congr {a b : String} (h : a.toList = b.toList) : w.html a = w.html b := by
  rw [String.toList_injective h]

/-- The chars of a static attribute, with the blank before it. -/
theorem walkStatic_serves {a : Attribute} {b : PlainAttribute} (h : a.Serves b)
    (hstatic : b.Static) (w : Walk) :
    walkStatic w a = w.html (String.ofList (' ' :: b.served.chars)) := by
  have hfull : b.name.full = b.name.base := by
    simp [AttributeName.full, hstatic.unmarked, hstatic.unmodified]
  have hbase : b.name.base ≠ "" := hfull ▸ hstatic.named
  have hname : a.name.base = b.name.base := by rw [h.name]
  unfold walkStatic
  rcases h.value with hvalue | ⟨text, quote, hb, hvalue⟩
  · cases hb : b.value with
    | none =>
        simp only [hvalue, PlainAttribute.content, hb, hname]
        apply Walk.html_congr
        simp [PlainAttribute.chars, PlainAttribute.served, hb, hfull]
    | some pair =>
        simp only [hvalue, PlainAttribute.content, hb, hname]
        apply Walk.html_congr
        simp [PlainAttribute.chars, PlainAttribute.served, hb, hfull, hbase, Quote.chars]
  · have hparts : walkValue (w.html (" " ++ a.name.base ++ "=\"")) (literalPart text.toList) =
        w.html (" " ++ a.name.base ++ "=\"" ++ attributeText text) := by
      unfold literalPart
      split
      · next hempty =>
          simp only [walkValue]
          apply Walk.html_congr
          simp_all [attributeText]
      · simp only [walkValue, Walk.html_html, String.ofList_toList]
    simp only [hvalue, hparts, Walk.html_html]
    apply Walk.html_congr
    simp [PlainAttribute.chars, PlainAttribute.served, hb, hfull, hbase, hname, Quote.chars]

/-- A static attribute is printed as it is served. -/
theorem walkAttribute_serves {e : Element} {a : Attribute} {b : PlainAttribute} (h : a.Serves b)
    (hstatic : b.Static) (hplain : ∀ name, hasModifier e name = false) (c : Combined) (w : Walk) :
    walkAttribute e none c w a = (c, w.html (String.ofList (' ' :: b.served.chars))) := by
  simp only [walkAttribute, h.kind, walkPlain, h.not_isDynamic, hplain, Bool.or_self, Bool.and_false,
    Bool.false_eq_true, if_false, walkStatic_serves h hstatic]

/-- Static attributes are added as they are served. -/
theorem walkAttributes_serves {e : Element} {tag : Tag} (h : e.Serves tag) (hstatic : tag.Static)
    (w : Walk) : walkAttributes e none w =
      w.html (String.ofList (tag.served.attributes.flatMap fun a => ' ' :: a.chars)) := by
  have hplain : ∀ name, hasModifier e name = false := by
    intro name
    have hkinds : ∀ (as : List Attribute) (bs : List PlainAttribute),
        List.Forall₂ Attribute.Serves as bs →
          as.any (fun a => a.kind == .modifier && a.name.base == name) = false := by
      intro as bs hall
      induction hall with
      | nil => rfl
      | cons hab _ ih => simp [hab.kind, ih]
    exact hkinds _ _ h.attributes
  have hfold : ∀ (as : List Attribute) (bs : List PlainAttribute),
      List.Forall₂ Attribute.Serves as bs → (∀ b ∈ bs, b.Static) → ∀ (c : Combined) (w : Walk),
        as.foldl (fun s a => walkAttribute e none s.1 s.2 a) (c, w) =
          (c, w.html (String.ofList
            ((bs.map PlainAttribute.served).flatMap fun a => ' ' :: a.chars))) := by
    intro as bs hall
    induction hall with
    | nil =>
        intro _ c w
        rw [List.foldl_nil, List.map_nil, List.flatMap_nil, String.ofList_nil, w.html_empty]
    | @cons a b as bs hab _ ih =>
        intro hbs c w
        obtain ⟨hb, hbs⟩ := List.forall_mem_cons.mp hbs
        rw [List.foldl_cons, walkAttribute_serves hab hb hplain, ih hbs, Walk.html_html,
          List.map_cons, List.flatMap_cons, String.ofList_append]
  rw [walkAttributes_eq, hfold _ _ h.attributes hstatic.attributes]
  rfl

/-- So is the opening tag of a static element. -/
theorem walkOpening_serves {x : WalkContext} {id : Nat} {e : Element} {tag : Tag}
    (h : e.Serves tag) (hstatic : tag.Static) (hhash : w.component.styleHash = none) :
    walkOpening x id e none w = w.html (String.ofList tag.served.opening) := by
  have hscope : walkScope x id (w.html ("<" ++ e.name)) = w.html ("<" ++ e.name) := by
    simp [walkScope, hhash]
  simp only [walkOpening, hscope, walkMark, walkAttributes_serves h hstatic, Walk.html_html]
  apply Walk.html_congr
  simp [h.name, Tag.opening, Tag.inside, Tag.ending, Tag.served]

/-- A static element is added as it is served, if what is below it is. -/
theorem walkElement_serves {x : WalkContext} {children : Visitor} {id : Nat} {tag : Tag}
    {below : List Tree} (h : (x.document.node id).Serves (.element tag below))
    (hstatic : tag.Static) (hplain : isRawText tag.name = false → tag.raw = none)
    (hnone : isRawText tag.name = true → below = [])
    (hbelow : ∀ w : Walk, w.component.styleHash = none →
      children id w = w.html (String.ofList (treesChars (treesServed below))))
    (hhash : w.component.styleHash = none) :
    walkElement x children id w =
      w.html (String.ofList (Tree.element tag below).served.chars) := by
  obtain ⟨-, hreference, -, e, he, hserves⟩ := h
  have helement : (x.document.node id).element? = some e := by rw [Node.element?, he]
  rw [walkElement_eq x children id w helement, hreference,
    Attribute.not_any_needsReference hserves.attributes, Bool.or_self, if_neg Bool.false_ne_true,
    walkOpening_serves hserves hstatic hhash, walkClosing, hserves.name, hserves.raw]
  by_cases hvoid : isVoid tag.name = true
  · rw [if_pos hvoid]
    apply Walk.html_congr
    simp [Tree.served, Tree.chars, Tag.served, hvoid]
  · rw [if_neg hvoid]
    have hopened : (w.html (String.ofList tag.served.opening)).component.styleHash = none := by
      simpa using hhash
    cases hraw : tag.raw with
    | some raw =>
        have hname : isRawText tag.name = true := by
          by_contra hno
          simp [hplain (by simpa using hno)] at hraw
        simp only [Walk.html_html]
        apply Walk.html_congr
        simp [Tree.served, Tree.chars, Tag.closing, hnone hname, treesServed, treesChars, hvoid, hraw,
          hname, Tag.served]
    | none =>
        simp only [hbelow _ hopened]
        simp only [Walk.html_html]
        apply Walk.html_congr
        by_cases hname : isRawText tag.name = true <;>
          simp [Tree.served, Tree.chars, Tag.closing, hvoid, hraw, hname, Tag.served]

end Walk

/-- What the walk looks up has the tree of an earlier document, and its nodes serve what those of the
earlier document show. -/
structure WalkContext.Serves (x : WalkContext) (d : Document) : Prop where
  children : ∀ id, x.document.children id = d.children id
  serves : ∀ p id (t : Tree), d.Holds p id t → t.Static → (x.document.node id).Serves t

/-- Where there are no conditions, every node is compiled by itself. -/
theorem groups_eq_map {d : Document} {ids : List Nat}
    (h : ∀ id ∈ ids, (d.node id).type ≠ .block .ifBlock) : groups d ids = ids.map .single := by
  induction ids with
  | nil => rw [groups, List.map_nil]
  | cons id rest ih =>
      obtain ⟨hid, hrest⟩ := List.forall_mem_cons.mp h
      rw [groups, if_neg (by simpa using hid), ih hrest, List.map_cons]

/-- A node that serves a tree is no block. -/
theorem Markup.Node.Serves.type_ne {n : Node} {t : Tree} (h : n.Serves t) (kind : BlockKind) :
    n.type ≠ .block kind := by
  match t with
  | .text _ => simp [h.1]
  | .comment _ => simp [h.1]
  | .element _ _ => simp [h.1]

section Trees

variable {x : WalkContext} {d : Document} {p : Nat → Prop} {affix : Bool}

/-- Static text is printed as it is. -/
theorem walkText_serves {content : TextContent} {text : String}
    (h : content = .raw text ∨ content = .parts (literalPart text.toList)) (w : Walk) :
    walkText w content = w.html text := by
  rcases h with rfl | rfl
  · rfl
  · rw [walkText]
    unfold literalPart
    split
    · next hempty =>
        have htext : text = "" := by simpa using hempty
        rw [walkParts, htext, w.html_empty]
    · rw [walkParts, walkParts, String.ofList_toList]

mutual

/-- **A tree.**  A static tree is added as it is served.  The steps count twice for every level, since
the walk goes from a node to its children and from there to each child. -/
theorem walkNode_serves (hx : x.Serves d) (id : Nat) (t : Tree) (h : d.Holds p id t)
    (hwf : t.WellFormed affix) (hstatic : t.Static) (steps : Nat) (hsteps : 2 * t.depth ≤ steps)
    (w : Walk) (hhash : w.component.styleHash = none) :
    walkNode x steps id w = w.html (String.ofList t.served.chars) := by
  have hserves := hx.serves p id t h hstatic
  match t, steps with
  | .text text, steps + 1 =>
      obtain ⟨htype, hcontent⟩ := hserves
      rw [walkNode]
      simp only [htype]
      rcases hcontent with hcontent | hcontent
      · simp only [hcontent, walkText_serves (.inl rfl), Tree.served, Tree.chars, String.ofList_toList]
      · simp only [hcontent, walkText_serves (.inr rfl), Tree.served, Tree.chars, String.ofList_toList]
  | .comment content, steps + 1 =>
      obtain ⟨htype, hcontent⟩ := hserves
      rw [walkNode]
      simp only [htype, hcontent]
      apply Walk.html_congr
      simp [Tree.served, Tree.chars]
  | .element tag children, steps + 1 =>
      simp only [Tree.depth] at hsteps
      simp only [Document.Holds] at h
      rw [walkNode]
      simp only [hserves.1]
      refine walkElement_serves hserves hstatic.1 ?_ ?_ ?_ hhash
      · intro hraw
        exact hwf.1.plain (by simp [Tag.holdsRaw, hraw])
      · exact fun hraw => hwf.children_eq_nil (.inr hraw)
      · exact fun w hhash => walkChildren_serves hx id children h.2.2.2 hwf.2.2 hstatic.2 steps
          (by omega) w hhash
  | .text _, 0 | .comment _, 0 | .element _ _, 0 => simp [Tree.depth] at hsteps

/-- The children of a node are printed as the served trees. -/
theorem walkChildren_serves (hx : x.Serves d) (id : Nat) (ts : List Tree)
    (h : d.HoldsAll p (d.children id) ts) (hwf : TreesWellFormed affix ts) (hstatic : TreesStatic ts)
    (steps : Nat) (hsteps : 2 * treesDepth ts < steps) (w : Walk)
    (hhash : w.component.styleHash = none) :
    walkChildren x steps id w = w.html (String.ofList (treesChars (treesServed ts))) := by
  match steps with
  | steps + 1 =>
      have hgroups : groups x.document (d.children id) = (d.children id).map .single := by
        apply groups_eq_map
        intro i hi
        obtain ⟨t, ht, hholds⟩ := h.exists_of_mem hi
        exact (hx.serves p i t hholds (treesStatic_mem hstatic ht)).type_ne .ifBlock
      rw [walkChildren]
      simp only [hx.children, hgroups, List.foldl_map]
      exact foldl_walkNode_serves hx (d.children id) ts h hwf hstatic steps (by omega) w hhash

/-- Nodes that hold trees are printed as the served trees. -/
theorem foldl_walkNode_serves (hx : x.Serves d) (ids : List Nat) (ts : List Tree)
    (h : d.HoldsAll p ids ts) (hwf : TreesWellFormed affix ts) (hstatic : TreesStatic ts)
    (steps : Nat) (hsteps : 2 * treesDepth ts ≤ steps) (w : Walk)
    (hhash : w.component.styleHash = none) :
    ids.foldl (fun w id => walkNode x steps id w) w =
      w.html (String.ofList (treesChars (treesServed ts))) := by
  match ids, ts with
  | [], [] => rw [List.foldl_nil, treesServed, treesChars, String.ofList_nil, w.html_empty]
  | id :: ids, t :: ts =>
      simp only [Document.HoldsAll] at h
      simp only [treesDepth] at hsteps
      rw [List.foldl_cons, walkNode_serves hx id t h.1 hwf.1 hstatic.1 steps (by omega) w hhash,
        foldl_walkNode_serves hx ids ts h.2 hwf.2.2 hstatic.2 steps (by omega) _ (by simpa using hhash),
        Walk.html_html, treesServed, treesChars, String.ofList_append]
  | [], _ :: _ => simp [Document.HoldsAll] at h
  | _ :: _, [] => simp [Document.HoldsAll] at h

end

end Trees

end Stencil
