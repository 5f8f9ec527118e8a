import Stencil.Proofs.Attached
import Stencil.Proofs.OpenTag

/-!
# Which tags are needed when the component runs

Four passes mark tags as needed: the first marks components, the third blocks that need an anchor,
the fourth tags by their attributes, and the last one the tags above texts whose values can change.
`Document.Needs` lists these reasons for the finished document, and a tag is marked exactly if it
has one of them (`parseTemplate_reference_iff`).

Passes up to the fourth look at one node at a time, so what they keep is said of nodes
(`Node.Flagged`).  The last one marks another node than the one it divides; what it keeps is said of
the document (`Document.Flagged`).
-/

namespace Stencil.Markup

open Stencil.Passes

/-- A reason for a tag to be needed when the component runs. -/
inductive Document.Needs (d : Document) (id : Nat) : Prop
  | component (htype : (d.node id).type = .component)
  | block {kind : BlockKind} (htype : (d.node id).type = .block kind)
      (hkind : kind = .ifBlock ∨ kind = .forBlock ∨ kind = .slot)
  | bound {e : Element} {a : Attribute}
      (htype : (d.node id).type = .element ∨ (d.node id).type = .component ∨
        (d.node id).type = .fragment)
      (he : (d.node id).element? = some e) (ha : a ∈ e.attributes)
      (hneeds : a.kind ≠ .plain ∨ ∃ part ∈ a.parts, part.isDynamic = true)
  | text {child : Nat} {parts : List Part} (hchild : child ∈ d.children id)
      (hcontent : (d.node child).content = .text (.parts parts))
      (hdynamic : ∃ part ∈ parts, part.isDynamic = true)

/-- A reason that lies in the node itself. -/
inductive Node.Calls (n : Node) : Prop
  | component (htype : n.type = .component)
  | block {kind : BlockKind} (htype : n.type = .block kind) (hanchor : needsAnchor kind = true)
  | bound {e : Element} (htype : n.type.isHost = true) (he : n.element? = some e)
      (hsettled : ∀ a ∈ e.attributes, a.Settled)
      (hneeds : e.attributes.any Attribute.needsReference = true)

/-- What holds of every node while the first pass is under way. -/
structure Node.Typing (n : Node) : Prop where
  sound : n.params.reference = true → n.params.typed = true ∧ n.type = .component
  component : n.type = .component → n.params.reference = true
  block : n.params.block = none
  undivided : ∀ parts, n.content ≠ .text (.parts parts)

/-- What holds of every node after the first pass and before the last. -/
structure Node.Flagged (n : Node) : Prop where
  sound : n.params.reference = true → n.Calls
  component : n.type = .component → n.params.reference = true
  anchored : ∀ kind, n.type = .block kind → needsAnchor kind = true →
    n.params.block.isSome = true → n.params.reference = true
  undivided : ∀ parts, n.content ≠ .text (.parts parts)

namespace Node

variable {n n' : Node} {p : Pass}

/-- The reasons in a node depend on its type and its content. -/
theorem Calls.congr (h : n.Calls) (htype : n'.type = n.type) (hcontent : n'.content = n.content) :
    n'.Calls := by
  cases h with
  | component h => exact .component (htype.trans h)
  | block h hanchor => exact .block (htype.trans h) hanchor
  | bound h he hsettled hneeds =>
      exact .bound (by rw [htype, h]) (by rw [element?_congr hcontent, he]) hsettled hneeds

/-- A fresh node without divided text is sound for typing. -/
theorem Fresh.typing (h : n.Fresh) (hraw : ∀ parts, n.content ≠ .text (.parts parts)) :
    n.Typing where
  sound := by simp [h.params]
  component := by
    intro htype
    rw [h.type] at htype
    cases hcontent : n.content <;> simp [hcontent, Content.type] at htype
  block := by rw [h.params]
  undivided := hraw

/-- A node that is sound for typing stays so. -/
theorem Typing.work (h : n.Typing) (hwork : n.Works .types n') : n'.Typing := by
  cases hwork with
  | @typed e htype htyped he =>
      have hreference : n.params.reference = false := by
        by_contra hset
        have := (h.sound (by simpa using hset)).1
        rw [htyped] at this
        simp at this
      refine ⟨?_, ?_, h.block, by simp [typeElement]⟩
      · intro hset
        refine ⟨rfl, ?_⟩
        simpa [typeElement, hreference] using hset
      · intro hcomponent
        have htypeOf : (typeElement n e).1.params.reference =
            (n.params.reference || (typeElement n e).1.type == .component) := rfl
        rw [htypeOf, hcomponent]
        simp

/-- The flags of a node that is sound for typing are sound. -/
theorem Typing.flagged (h : n.Typing) : n.Flagged where
  sound := fun hset => .component (h.sound hset).2
  component := h.component
  anchored := by simp [h.block]
  undivided := h.undivided

/-- **One step.**  The passes between the first and the last mark a node for its own reasons. -/
theorem Flagged.work (h : n.Flagged) (hwork : n.Works p n') (hfirst : p ≠ .types)
    (hlast : p ≠ .texts) : n'.Flagged := by
  cases hwork with
  | typed => exact absurd rfl hfirst
  | text => exact absurd rfl hlast
  | script htype parts =>
      exact ⟨fun hset => (h.sound hset).congr rfl rfl, h.component, h.anchored, h.undivided⟩
  | style htype sheet =>
      exact ⟨fun hset => (h.sound hset).congr rfl rfl, h.component, h.anchored, h.undivided⟩
  | @block kind e block htype he hnone hblock =>
      have hkind : ∀ kind', n.type = .block kind' → kind' = kind := by
        intro kind' hkind'
        simpa [htype] using hkind'.symm
      refine ⟨?_, by simp [htype], ?_, by simp⟩
      · intro hset
        rcases Bool.or_eq_true_iff.mp hset with hset | hanchor
        · cases h.sound hset with
          | component hcomponent => simp [htype] at hcomponent
          | block htype' hanchor => exact .block htype' hanchor
          | bound hhost => simp [htype, NodeType.isHost] at hhost
        · exact .block htype hanchor
      · intro kind' hkind' hanchor _
        rw [hkind kind' hkind'] at hanchor
        simp [hanchor]
  | @attributes e as htype he hsettled hsame =>
      refine ⟨?_, ?_, ?_, by simp⟩
      · intro hset
        rcases Bool.or_eq_true_iff.mp hset with hset | hneeds
        · cases h.sound hset with
          | component hcomponent => exact .component hcomponent
          | block hblock => simp [hblock, NodeType.isHost] at htype
          | @bound e' _ he' hold hneeds =>
              obtain rfl : e = e' := by simpa [he] using he'
              exact .bound htype rfl hsettled (by rw [hsame hold]; exact hneeds)
        · exact .bound htype rfl hsettled hneeds
      · intro hcomponent
        simp [h.component hcomponent]
      · intro kind hkind
        have hkind : n.type = .block kind := hkind
        simp [hkind, NodeType.isHost] at htype

end Node

/-- The value of the text can change. -/
def Node.isVaryingText (n : Node) : Prop :=
  ∃ parts, n.content = .text (.parts parts) ∧ parts.any Part.isDynamic = true

/-- What holds of a document during the last pass. -/
structure Document.Flagged (d : Document) : Prop where
  sound : ∀ id, (d.node id).params.reference = true →
    (d.node id).Calls ∨ ∃ child ∈ d.children id, (d.node child).isVaryingText
  component : ∀ id, (d.node id).type = .component → (d.node id).params.reference = true
  anchored : ∀ id kind, (d.node id).type = .block kind → needsAnchor kind = true →
    (d.node id).params.block.isSome = true → (d.node id).params.reference = true
  text : ∀ id, ∀ child ∈ d.children id, (d.node child).isVaryingText →
    (d.node id).isTag = true → (d.node id).params.reference = true

namespace Document

variable {d d' : Document} {id p : Nat}

/-- A node with a child is one of the document. -/
theorem lt_size_of_child (h : id ∈ d.children p) : p < d.size := by
  by_contra hge
  rw [children, node_of_size_le (by omega)] at h
  simp [Node.document] at h

/-- The nearest tag above a node is its parent, unless that is the root. -/
theorem Linked.elementParent?_eq (h : d.Linked) (hchild : id ∈ d.children p) :
    d.elementParent? id = if (d.node p).isTag then some p else none := by
  have hup : ∀ steps, d.tagAbove? steps 0 = none := by
    intro steps
    cases steps with
    | zero => rfl
    | succ steps => simp [tagAbove?, h.root]
  obtain ⟨steps, hsteps⟩ : ∃ steps, d.size = steps + 1 :=
    ⟨d.size - 1, by have := lt_size_of_child hchild; omega⟩
  rw [elementParent?, hsteps, tagAbove?, h.child p id hchild]
  cases htag : (d.node p).isTag with
  | true => simp [htag]
  | false =>
      have hroot : p = 0 := by
        simpa [htag] using h.host p (List.ne_nil_of_mem hchild)
      subst hroot
      simp [htag, hup]

/-- A document whose texts are all undivided is flagged if its nodes are. -/
theorem flagged_of_forall (h : ∀ id, (d.node id).Flagged) : d.Flagged where
  sound := fun id hset => .inl ((h id).sound hset)
  component := fun id => (h id).component
  anchored := fun id => (h id).anchored
  text := by
    rintro id child - ⟨parts, hcontent, -⟩
    exact absurd hcontent ((h child).undivided parts)

/-- Marking the tag above an attached node marks its parent, unless that is the root. -/
theorem Linked.node_markAbove (h : d.Linked) (hid : id ∈ d.walk) (i : Nat) :
    (markAbove d id).node i =
      if id ∈ d.children i ∧ (d.node i).isTag = true then (d.node i).marked else d.node i := by
  rcases mem_walk_cases hid with rfl | ⟨p, -, hchild⟩
  · have hnone : d.elementParent? 0 = none := by
      rw [elementParent?]
      cases d.size with
      | zero => rfl
      | succ steps => simp [tagAbove?, h.root]
    have hroot : 0 ∉ d.children i := by
      intro hmem
      simpa [h.root] using h.child i 0 hmem
    simp [markAbove, hnone, hroot]
  · have hparent : ∀ i, id ∈ d.children i → i = p := by
      intro i hi
      exact Option.some.inj ((h.child i id hi).symm.trans (h.child p id hchild))
    rw [markAbove, h.elementParent?_eq hchild]
    cases htag : (d.node p).isTag with
    | false =>
        have hnot : ¬ (id ∈ d.children i ∧ (d.node i).isTag = true) := by
          rintro ⟨hi, htag'⟩
          rw [hparent i hi, htag] at htag'
          simp at htag'
        rw [if_neg hnot]
        rfl
    | true =>
        show (d.update p Node.marked).node i = _
        rw [node_update (lt_size_of_child hchild)]
        by_cases hi : i = p
        · rw [if_pos hi, if_pos (by rw [hi]; exact ⟨hchild, htag⟩)]
        · rw [if_neg hi, if_neg fun hmem => hi (hparent i hmem.1)]

/-- The second document is the first with one text divided and, if the text can vary, its tag
marked. -/
structure Divided (d d' : Document) (id : Nat) (parts : List Part) : Prop where
  children : ∀ i, d'.children i = d.children i
  type : ∀ i, (d'.node i).type = (d.node i).type
  block : ∀ i, (d'.node i).params.block = (d.node i).params.block
  content : ∀ i, (d'.node i).content =
    if i = id then .text (.parts parts) else (d.node i).content
  reference : ∀ i, (d'.node i).params.reference = true ↔ (d.node i).params.reference = true ∨
    parts.any Part.isDynamic = true ∧ id ∈ d.children i ∧ (d.node i).isTag = true

/-- **One step.**  Dividing a text keeps the flags right. -/
theorem Flagged.divided {text : String} {parts : List Part} (h : d.Flagged)
    (htype : (d.node id).type = .text) (hraw : (d.node id).content = .text (.raw text))
    (hd : d.Divided d' id parts) : d'.Flagged := by
  have hvary : ∀ i, (d'.node i).isVaryingText ↔
      (d.node i).isVaryingText ∨ i = id ∧ parts.any Part.isDynamic = true := by
    intro i
    unfold Node.isVaryingText
    rw [hd.content]
    by_cases hi : i = id
    · simp [hi, hraw]
    · simp [hi]
  have htag : ∀ i, (d'.node i).isTag = (d.node i).isTag := by
    intro i
    by_cases hi : i = id
    · simp [Node.isTag, Node.element?, hd.content, hi, hraw]
    · simp [Node.isTag, Node.element?, hd.content, hi]
  refine ⟨?_, ?_, ?_, ?_⟩
  · intro i hset
    rcases (hd.reference i).mp hset with hset | ⟨hdynamic, hchild, -⟩
    · rcases h.sound i hset with hcalls | ⟨child, hchild, hvarying⟩
      · left
        refine hcalls.congr (hd.type i) ?_
        rw [hd.content, if_neg]
        rintro rfl
        cases hcalls with
        | component hcomponent => simp [htype] at hcomponent
        | block hblock => simp [htype] at hblock
        | bound hhost => simp [htype, NodeType.isHost] at hhost
      · exact .inr ⟨child, by rw [hd.children]; exact hchild, (hvary child).mpr (.inl hvarying)⟩
    · exact .inr ⟨id, by rw [hd.children]; exact hchild, (hvary id).mpr (.inr ⟨rfl, hdynamic⟩)⟩
  · intro i hcomponent
    rw [hd.type] at hcomponent
    exact (hd.reference i).mpr (.inl (h.component i hcomponent))
  · intro i kind hkind hanchor hblock
    rw [hd.type] at hkind
    rw [hd.block] at hblock
    exact (hd.reference i).mpr (.inl (h.anchored i kind hkind hanchor hblock))
  · intro i child hchild hvarying hi
    rw [hd.children] at hchild
    rw [htag] at hi
    rw [hd.reference]
    rcases (hvary child).mp hvarying with hvarying | ⟨rfl, hdynamic⟩
    · exact .inl (h.text i child hchild hvarying hi)
    · exact .inr ⟨hdynamic, hchild, hi⟩

/-- Only the content of a text changes when it is divided, and no node becomes a tag by that. -/
theorem node_divided {text : String} (parts : List Part)
    (hraw : (d.node id).content = .text (.raw text)) (i : Nat) :
    let n := (d.update id fun n => { n with content := .text (.parts parts) }).node i
    n.type = (d.node i).type ∧ n.params = (d.node i).params ∧
      n.content = (if i = id then .text (.parts parts) else (d.node i).content) ∧
      n.isTag = (d.node i).isTag ∧ n.tag? = (d.node i).tag? := by
  have hlt : id < d.size := by
    by_contra hge
    rw [node_of_size_le (by omega)] at hraw
    simp [Node.document] at hraw
  dsimp only
  rw [node_update hlt]
  split
  · next hi => simp [Node.isTag, Node.tag?, Node.element?, hi, hraw]
  · exact ⟨rfl, rfl, rfl, rfl, rfl⟩

/-- Dividing an attached text, and marking its tag where it can vary. -/
theorem Linked.divided {text : String} (parts : List Part) (h : d.Linked) (hid : id ∈ d.walk)
    (hraw : (d.node id).content = .text (.raw text)) :
    let d₁ := d.update id fun n => { n with content := .text (.parts parts) }
    d.Divided (if parts.any Part.isDynamic then markAbove d₁ id else d₁) id parts := by
  intro d₁
  have htree : d.SameTree d₁ := sameTree_update rfl
  have hlinked : d₁.Linked := h.congr htree fun i => (node_divided parts hraw i).2.2.2.2
  have htype : ∀ i, (d₁.node i).type = (d.node i).type := fun i => (node_divided parts hraw i).1
  have hparams : ∀ i, (d₁.node i).params = (d.node i).params :=
    fun i => (node_divided parts hraw i).2.1
  have hcontent : ∀ i, (d₁.node i).content =
      if i = id then .text (.parts parts) else (d.node i).content :=
    fun i => (node_divided parts hraw i).2.2.1
  have htag : ∀ i, (d₁.node i).isTag = (d.node i).isTag :=
    fun i => (node_divided parts hraw i).2.2.2.1
  by_cases hdynamic : parts.any Part.isDynamic = true
  · rw [if_pos hdynamic]
    have hid₁ : id ∈ d₁.walk := by rw [htree.walk_eq]; exact hid
    have hmark := hlinked.node_markAbove hid₁
    simp only [htree.children, htag] at hmark
    refine ⟨?_, ?_, ?_, ?_, ?_⟩
    · intro i
      rw [children, hmark]
      split <;> exact htree.children i
    · intro i
      rw [hmark]
      split <;> exact htype i
    · intro i
      rw [hmark, ← hparams i]
      split <;> rfl
    · intro i
      rw [hmark, ← hcontent i]
      split <;> rfl
    · intro i
      rw [hmark, ← hparams i]
      split
      · next hmem => simp [Node.marked, hdynamic, hmem]
      · next hmem => simp [hdynamic, hmem]
  · rw [if_neg hdynamic]
    refine ⟨htree.children, htype, fun i => by rw [hparams i], hcontent, ?_⟩
    intro i
    simp [hparams i, hdynamic]

end Document

end Stencil.Markup

namespace Stencil

open Stencil.Markup Stencil.Passes
open Stencil.Script (Language Fault Expression)

variable {lang : Language} {typed : Bool} {d : Document} {p : Pass}

/-- What work keeps of a node, and marks if the pass sets any, a pass keeps of the node. -/
theorem Pass.node_run {P : Node → Prop} {i : Nat} (hmark : p = .texts → ∀ n, P n → P n.marked)
    (hwork : ∀ n n', P n → n.Works p n' → P n') (h : (p.run lang typed d).error = none)
    (hd : P (d.node i)) : P ((p.run lang typed d).document.node i) := by
  rw [Pass.run_eq] at h ⊢
  refine visit_induct (P := fun d => P (d.node i)) h hd ?_
  intro d id _ hd hstep
  exact (Pass.step_effect hstep).node_induct hd (fun n hn => hwork _ n hd hn) hmark

/-- The passes between the first and the last keep all nodes flagged. -/
theorem Pass.flagged_run (hfirst : p ≠ .types) (hlast : p ≠ .texts)
    (h : (p.run lang typed d).error = none) (hd : ∀ i, (d.node i).Flagged) :
    ∀ i, ((p.run lang typed d).document.node i).Flagged := fun i =>
  Pass.node_run (fun htexts => absurd htexts hlast)
    (fun _ _ hn hwork => hn.work hwork hfirst hlast) h (hd i)

/-- What work and marks keep of a node, all passes together keep of the node. -/
theorem runPasses_node {P : Node → Prop} {i : Nat} (hmark : ∀ n, P n → P n.marked)
    (hwork : ∀ p n n', P n → n.Works p n' → P n') {passes : List Pass}
    (h : (runPasses lang typed passes d).error = none) (hd : P (d.node i)) :
    P ((runPasses lang typed passes d).document.node i) := by
  induction passes generalizing typed d with
  | nil => exact hd
  | cons p rest ih =>
      obtain ⟨hfirst, typed', hrest, heq⟩ := runPasses_cons_ok h
      rw [heq]
      exact ih hrest (Pass.node_run (fun _ => hmark) (hwork p) hfirst hd)

/-- A pass that reports no error keeps a document linked. -/
theorem Pass.linked_run (hd : d.Linked) (h : (p.run lang typed d).error = none) :
    (p.run lang typed d).document.Linked :=
  hd.congr (Pass.sameTree_run h) (p.keeps_run lang typed d).tags

/-- Dividing a text keeps links and flags. -/
theorem Passes.textStep_flagged {read : String → Except Fault Expression} {id : Nat}
    (hl : d.Linked) (hf : d.Flagged) (hid : id ∈ d.walk) :
    (textStep read d id).document.Flagged := by
  simp only [textStep]
  split
  · next text htype hraw =>
      split
      · exact hf
      · next parts _ => exact hf.divided htype hraw (hl.divided parts hid hraw)
  · exact hf

/-- **The last pass** keeps the flags right. -/
theorem Passes.texts_flagged (hl : d.Linked) (hf : d.Flagged)
    (h : (Pass.texts.run lang typed d).error = none) :
    (Pass.texts.run lang typed d).document.Flagged := by
  rw [Pass.run_eq] at h ⊢
  refine (visit_induct (P := fun d' => d.SameTree d' ∧ d'.Linked ∧ d'.Flagged) h
    ⟨.refl d, hl, hf⟩ ?_).2.2
  rintro d' id hid ⟨htree, hl', hf'⟩ hstep
  have hstree := (Pass.step_effect hstep).sameTree
  refine ⟨htree.trans hstree, hl'.congr hstree (keeps_textStep _ d' id).tags, ?_⟩
  exact textStep_flagged hl' hf' (by rw [htree.walk_eq]; exact hid)

/-- **All passes together** flag what is needed in a document that was just read. -/
theorem transform_flagged (hfresh : ∀ i, (d.node i).Typing) (hl : d.Linked)
    (h : (transform lang d).error = none) : (transform lang d).document.Flagged := by
  obtain ⟨htypes, t₁, h₁, heq₁⟩ := runPasses_cons_ok h
  obtain ⟨hembedded, t₂, h₂, heq₂⟩ := runPasses_cons_ok h₁
  obtain ⟨hblocks, t₃, h₃, heq₃⟩ := runPasses_cons_ok h₂
  obtain ⟨hattributes, t₄, h₄, heq₄⟩ := runPasses_cons_ok h₃
  obtain ⟨htexts, t₅, -, heq₅⟩ := runPasses_cons_ok h₄
  rw [transform, Pass.all, heq₁, heq₂, heq₃, heq₄, heq₅]
  simp only [runPasses]
  have htyped := fun i => Pass.node_run (by simp) (fun _ _ hn => hn.work) htypes (hfresh i)
  have hflagged₂ := Pass.flagged_run (by simp) (by simp) hembedded fun i => (htyped i).flagged
  have hflagged₃ := Pass.flagged_run (by simp) (by simp) hblocks hflagged₂
  have hflagged₄ := Pass.flagged_run (by simp) (by simp) hattributes hflagged₃
  have hlinked := Pass.linked_run (Pass.linked_run (Pass.linked_run (Pass.linked_run hl htypes)
    hembedded) hblocks) hattributes
  exact texts_flagged hlinked (Document.flagged_of_forall hflagged₄) htexts

/-- A node that calls for a reference needs one. -/
theorem Markup.Node.Calls.needs {id : Nat} (h : (d.node id).Calls) : d.Needs id := by
  cases h with
  | component htype => exact .component htype
  | @block kind htype hanchor =>
      refine .block htype ?_
      cases kind <;> simp_all [needsAnchor]
  | bound htype he hsettled hneeds =>
      obtain ⟨a, ha, hneed⟩ := List.any_eq_true.mp hneeds
      refine .bound (NodeType.isHost_iff.mp htype) he ha ?_
      simpa [Attribute.needsReference, Attribute.isDynamic] using hneed

/-- In a document with nothing left to do, the flags say what is needed. -/
theorem Markup.Document.Flagged.reference_iff (h : d.Flagged) (hsettled : ∀ p, d.Settled p)
    {id : Nat} (hid : id ∈ d.walk) (htag : (d.node id).isTag = true) :
    (d.node id).params.reference = true ↔ d.Needs id := by
  obtain ⟨e, he⟩ := Option.isSome_iff_exists.mp htag
  constructor
  · intro hset
    rcases h.sound id hset with hcalls | ⟨child, hchild, parts, hcontent, hdynamic⟩
    · exact hcalls.needs
    · exact .text hchild hcontent (List.any_eq_true.mp hdynamic)
  · intro hneeds
    cases hneeds with
    | component htype => exact h.component id htype
    | @block kind htype hkind =>
        have hanchor : needsAnchor kind = true := by
          rcases hkind with rfl | rfl | rfl <;> rfl
        have hdone := hsettled .blocks id hid kind e htype he
        refine h.anchored id kind htype hanchor (hdone.resolve_right ?_)
        rintro ⟨rfl, -⟩
        simp at hkind
    | @bound e' a htype he' ha hneeds =>
        obtain rfl : e = e' := by simpa [he] using he'
        refine (hsettled .attributes id hid e (NodeType.isHost_iff.mpr htype) he).2 ?_
        refine List.any_eq_true.mpr ⟨a, ha, ?_⟩
        simpa [Attribute.needsReference, Attribute.isDynamic] using hneeds
    | text hchild hcontent hdynamic =>
        exact h.text id _ hchild ⟨_, hcontent, List.any_eq_true.mpr hdynamic⟩ htag

/-- The nodes of a parsed document are sound for typing. -/
theorem Markup.parse_typing (o : Markup.Settings) (source : String) (i : Nat) :
    ((parse o source).1.node i).Typing := by
  refine (parse_fresh o source i).typing ?_
  intro parts hparts
  obtain ⟨text, before, own, after, hraw, -⟩ := parse_text_drawn hparts
  simp at hraw

section ParseTemplate

variable {o : Options} {source : String}

/-- A parsed template is settled for every pass. -/
theorem parseTemplate_settled (h : (parseTemplate lang o source).error = none) :
    ∀ p, (parseTemplate lang o source).document.Settled p :=
  transform_settled h

/-- The flags of a parsed template are sound. -/
theorem parseTemplate_flagged (h : (parseTemplate lang o source).error = none) :
    (parseTemplate lang o source).document.Flagged :=
  transform_flagged (parse_typing o.markup source) (parse_linked o.markup source) h

end ParseTemplate

/-- **Marks are exact.**  If a template is read, all its tags are attached, and a tag is marked as
needed exactly if it is a component, an `if`, `for` or `slot` block, an element, component or
fragment with an attribute that is not plain or can vary, or has a text that can vary.  So what is
asked of the attributes again when an element or a fragment is walked adds nothing: it is given a
reference exactly if it is marked. -/
theorem parseTemplate_reference_iff {lang : Language} {o : Options} {source : String}
    (h : (parseTemplate lang o source).error = none) :
    let d := (parseTemplate lang o source).document
    ∀ id, (d.node id).isTag = true →
      id ∈ d.walk ∧ ((d.node id).params.reference = true ↔ d.Needs id) ∧
      ∀ e, (d.node id).type = .element ∨ (d.node id).type = .fragment →
        (d.node id).element? = some e →
        ((d.node id).params.reference || e.attributes.any Attribute.needsReference) =
          (d.node id).params.reference ∧
        ∀ (x : WalkContext) (children : Visitor) (w : Walk), x.document = d →
          walkElement x children id w = walkClosing children id e
            (if (d.node id).params.reference then
              walkOpening x id e (some w.allocate.1) w.allocate.2
            else walkOpening x id e none w) := by
  have hsettled := parseTemplate_settled h
  have hflagged := parseTemplate_flagged h
  intro d id htag
  have hid : id ∈ d.walk := parseTemplate_mem_walk h htag
  refine ⟨hid, hflagged.reference_iff hsettled hid htag, ?_⟩
  intro e htype he
  have hhost : (d.node id).type.isHost = true := by
    rcases htype with ht | ht <;> rw [ht] <;> rfl
  have hsame : ((d.node id).params.reference || e.attributes.any Attribute.needsReference) =
      (d.node id).params.reference := by
    cases hneeds : e.attributes.any Attribute.needsReference with
    | false => simp
    | true =>
        rw [Bool.or_true]
        exact ((hsettled .attributes id hid e hhost he).2 hneeds).symm
  refine ⟨hsame, ?_⟩
  rintro x children w hx
  rw [walkElement_eq x children id w (by rw [hx]; exact he), hx, hsame]

/-- A tag with a text that can vary, around a plain one. -/
def varyingTemplate : String := "<p a=1>\x7bn\x7d<b/></p>"

/-- The outer tag is needed when the component runs, the inner one is not. -/
theorem parseTemplate_reference_iff_varying :
    let o := parseTemplate Script.javaScript {} varyingTemplate
    o.error = none ∧ o.document.Needs 1 ∧ ¬ o.document.Needs 3 := by
  intro o
  have hread : o.error = none ∧
      ((o.document.node 1).isTag = true ∧ (o.document.node 3).isTag = true) ∧
      (o.document.node 1).params.reference = true ∧
      (o.document.node 3).params.reference = false := by
    decide +kernel
  obtain ⟨herror, ⟨houter, hinner⟩, hset, hunset⟩ := hread
  refine ⟨herror, ?_, ?_⟩
  · exact (parseTemplate_reference_iff herror 1 houter).2.1.mp hset
  · intro hneeds
    have hset := (parseTemplate_reference_iff herror 3 hinner).2.1.mpr hneeds
    rw [hunset] at hset
    simp at hset

end Stencil
