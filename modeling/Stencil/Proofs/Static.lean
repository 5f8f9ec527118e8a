import Mathlib.Data.List.TakeWhile
import Stencil.Proofs.Attached
import Stencil.Proofs.TreeParse

/-!
# Static markup and the passes

A tree is static if its tags are elements and nothing in it stands for code: no attribute has a mark
or a modifier, and there are no braces in its texts and values.  The passes divide what there is into
literal text, and find nothing else to do: they report no problem, and every node still serves the
tree that it showed (`parseTemplate_serves`).
-/

namespace Stencil.Markup

open Stencil.Text Stencil.Passes
open Stencil.Script (Language Fault Expression)

/-- An attribute with a name that means nothing more than it says, and without braces in its value. -/
structure PlainAttribute.Static (a : PlainAttribute) : Prop where
  named : a.name.full ≠ ""
  unmarked : a.name.mark = none
  unmodified : a.name.suffix = none
  start : ∀ c ∈ a.name.full.toList.head?, c ∉ marks
  value : ∀ text quote, a.value = some (text, quote) →
    (quote = .double ∨ quote = .single) ∧ '\x7b' ∉ text.toList

/-- An element other than a script or a style, with plain attributes. -/
structure Tag.Static (t : Tag) : Prop where
  known : isKnown t.name = true
  noScript : t.name ≠ "script"
  noStyle : t.name ≠ "style"
  attributes : ∀ a ∈ t.attributes, a.Static

mutual

/-- Nothing in the tree stands for code. -/
def Tree.Static : Tree → Prop
  | .text text => '\x7b' ∉ text.toList
  | .comment _ => True
  | .element tag children => tag.Static ∧ TreesStatic children

/-- Nothing in the trees stands for code. -/
def TreesStatic : List Tree → Prop
  | [] => True
  | t :: rest => t.Static ∧ TreesStatic rest

end

/-- Every tree of a static list is static. -/
theorem treesStatic_mem {t : Tree} {ts : List Tree} (h : TreesStatic ts) (ht : t ∈ ts) :
    t.Static := by
  induction ts with
  | nil => simp at ht
  | cons u rest ih =>
      rcases List.mem_cons.mp ht with rfl | ht
      · exact h.1
      · exact ih h.2 ht

/-- The attribute holds what the author wrote, perhaps as literal text. -/
structure Attribute.Serves (a : Attribute) (b : PlainAttribute) : Prop where
  name : a.name = b.name
  kind : a.kind = .plain
  value : a.value = b.content ∨
    ∃ text quote, b.value = some (text, quote) ∧ a.value = .parts (literalPart text.toList) quote

/-- The element holds what the author wrote, perhaps as literal text. -/
structure Element.Serves (e : Element) (t : Tag) : Prop where
  name : e.name = t.name
  raw : e.raw = t.raw
  attributes : List.Forall₂ Attribute.Serves e.attributes t.attributes

/-- The node is the root of the tree as the author wrote it, perhaps as literal text, and nothing
about it is needed when the component runs. -/
def Node.Serves (n : Node) : Tree → Prop
  | .text text =>
      n.type = .text ∧
        (n.content = .text (.raw text) ∨ n.content = .text (.parts (literalPart text.toList)))
  | .comment content => n.type = .comment ∧ n.content = .comment content
  | .element tag _ =>
      n.type = .element ∧ n.params.reference = false ∧ n.params.fragment = none ∧
        ∃ e, n.content = .element e ∧ e.Serves tag

/-- What was a root of a document stays one, and what served a static tree still does. -/
structure Document.Retains (d d' : Document) : Prop where
  root : ∀ i, (d.node i).type = .document → (d'.node i).type = .document
  serves : ∀ i (t : Tree), t.Static → (d.node i).Serves t → (d'.node i).Serves t

theorem Document.Retains.refl (d : Document) : d.Retains d := ⟨fun _ h => h, fun _ _ _ h => h⟩

theorem Document.Retains.trans {a b c : Document} (h : a.Retains b) (h' : b.Retains c) :
    a.Retains c :=
  ⟨fun i hi => h'.root i (h.root i hi), fun i t ht hi => h'.serves i t ht (h.serves i t ht hi)⟩

/-- Changing a node that is no root. -/
theorem Document.retains_update {d : Document} {id : Nat} {f : Node → Node}
    (htype : (d.node id).type ≠ .document)
    (hf : ∀ t : Tree, t.Static → (d.node id).Serves t → (f (d.node id)).Serves t) :
    d.Retains (d.update id f) := by
  constructor
  · intro i hi
    rcases d.node_update_cases id f i with hnode | ⟨rfl, -⟩
    · rw [hnode]
      exact hi
    · exact absurd hi htype
  · intro i t ht hi
    rcases d.node_update_cases id f i with hnode | ⟨rfl, hnode⟩
    · rw [hnode]
      exact hi
    · rw [hnode]
      exact hf t ht hi

/-- The node is a root or serves a static tree. -/
def Node.Plain (n : Node) : Prop := n.type = .document ∨ ∃ t : Tree, t.Static ∧ n.Serves t

/-- A plain node is the document, a text, a comment or an element. -/
theorem Node.Plain.type_cases {n : Node} (h : n.Plain) :
    n.type = .document ∨ n.type = .text ∨ n.type = .comment ∨ n.type = .element := by
  rcases h with h | ⟨t, -, h⟩
  · exact .inl h
  · cases t with
    | text _ => exact .inr (.inl h.1)
    | comment _ => exact .inr (.inr (.inl h.1))
    | element _ _ => exact .inr (.inr (.inr h.1))

/-- The names of elements are in lower case where scripts and styles are concerned, and none is that
of a block. -/
theorem typeOf_of_known {name : String} (hknown : isKnown name = true) (hscript : name ≠ "script")
    (hstyle : name ≠ "style") : typeOf name false = .element := by
  have hlists : ∀ n ∈ hypertextNames ++ graphicsNames, BlockKind.ofTag? n = none ∧
      (lower n = "script" → n = "script") ∧ (lower n = "style" → n = "style") := by decide +kernel
  have hmem : name ∈ hypertextNames ++ graphicsNames := by
    simpa [isKnown] using hknown
  obtain ⟨hblock, hlowerScript, hlowerStyle⟩ := hlists name hmem
  have hnoScript : ¬ lower name = "script" := fun h => hscript (hlowerScript h)
  have hnoStyle : ¬ lower name = "style" := fun h => hstyle (hlowerStyle h)
  simp [typeOf, hnoScript, hnoStyle, hblock, hknown]

section Literals

variable {read : String → Except Fault Expression} {text : String}

/-- Without an opening brace there is nothing to cut. -/
theorem cutBrace?_of_braceless {cs : List Char} (h : '\x7b' ∉ cs) : cutBrace? cs = none := by
  have hdrop : cs.dropWhile (· != '\x7b') = [] := by
    rw [List.dropWhile_eq_nil_iff]
    intro c hc
    rw [bne_iff_ne]
    rintro rfl
    exact h hc
  rw [cutBrace?, hdrop]
  rfl

/-- Without braces there is nothing to cut. -/
theorem interpolate_of_braceless (h : '\x7b' ∉ text.toList) :
    interpolate read text = .ok (literalPart text.toList) := by
  rw [interpolate, splitFrom]
  split
  · rfl
  · next hsome => simp [cutBrace?_of_braceless h] at hsome

/-- Without an opening brace there is no interpolation. -/
theorem hasInterpolation_of_braceless (h : '\x7b' ∉ text.toList) : hasInterpolation text = false := by
  rw [hasInterpolation, holdsExpression]
  split
  · rfl
  · next hsome => simp [cutBrace?_of_braceless h] at hsome

/-- A literal part is not dynamic. -/
theorem isDynamic_literalPart (cs : List Char) : (literalPart cs).any Part.isDynamic = false := by
  unfold literalPart
  split <;> rfl

end Literals

namespace Attribute.Serves

variable {a : Attribute} {b : PlainAttribute}

/-- An attribute has the full name of the one it serves. -/
theorem fullName (h : a.Serves b) : a.fullName = b.name.full := by
  rw [Attribute.fullName, h.name]

/-- A static attribute does not name a component. -/
theorem fullName_ne (h : a.Serves b) (hstatic : b.Static) : a.fullName ≠ fragmentName := by
  rw [h.fullName]
  intro hname
  have hstart := hstatic.start
  rw [hname] at hstart
  exact hstart '@' rfl (by decide)

/-- An attribute that serves a static one is plain. -/
theorem kind_eq (h : a.Serves b) (hstatic : b.Static) : attributeKind a = .plain := by
  simp [attributeKind, h.name, hstatic.unmarked, hstatic.unmodified]

/-- An attribute that serves a static one is not anonymous. -/
theorem not_isAnonymous (h : a.Serves b) (hstatic : b.Static) : a.isAnonymous = false := by
  have hfull : b.name.base ≠ "" := by
    simpa [AttributeName.full, hstatic.unmarked, hstatic.unmodified] using hstatic.named
  simp [isAnonymous, h.name, hfull]

/-- An attribute that serves another is not dynamic. -/
theorem not_isDynamic (h : a.Serves b) : a.isDynamic = false := by
  unfold isDynamic parts
  rcases h.value with hvalue | ⟨text, quote, -, hvalue⟩
  · rw [hvalue]
    unfold PlainAttribute.content
    cases b.value <;> rfl
  · rw [hvalue]
    exact isDynamic_literalPart _

/-- An attribute that serves another needs no reference. -/
theorem not_needsReference (h : a.Serves b) : a.needsReference = false := by
  simp [needsReference, h.kind, h.not_isDynamic]

/-- Dividing a static value gives literal text. -/
theorem dividedValue (h : a.Serves b) (hstatic : b.Static)
    (read : String → Except Fault Expression) :
    ∃ value, Passes.dividedValue read a = .ok value ∧ ({ a with value } : Attribute).Serves b := by
  rcases h.value with hvalue | ⟨text, quote, hb, hvalue⟩
  · cases hb : b.value with
    | none =>
        have hempty : a.value = .empty := by rw [hvalue, PlainAttribute.content, hb]
        refine ⟨.empty, by simp [Passes.dividedValue, hempty, impliedName, h.kind], h.name, h.kind,
          .inl ?_⟩
        rw [PlainAttribute.content, hb]
    | some pair =>
        obtain ⟨text, quote⟩ := pair
        obtain ⟨hquote, hbrace⟩ := hstatic.value text quote hb
        have htext : a.value = .text text quote := by rw [hvalue, PlainAttribute.content, hb]
        refine ⟨.parts (literalPart text.toList) quote, ?_, h.name, h.kind,
          .inr ⟨text, quote, hb, rfl⟩⟩
        rcases hquote with rfl | rfl <;>
          simp [Passes.dividedValue, htext, h.kind, isExpressionKind,
            interpolate_of_braceless hbrace]
  · exact ⟨a.value, by rw [Passes.dividedValue, hvalue], h⟩

end Attribute.Serves

section Elements

variable {as : List Attribute} {bs : List PlainAttribute}

/-- So a list of such attributes needs none. -/
theorem Attribute.not_any_needsReference (h : List.Forall₂ Attribute.Serves as bs) :
    as.any Attribute.needsReference = false := by
  induction h with
  | nil => rfl
  | cons hab _ ih => rw [List.any_cons, hab.not_needsReference, ih, Bool.or_self]

/-- Dividing static values reports nothing. -/
theorem divide_serves (h : List.Forall₂ Attribute.Serves as bs) (hstatic : ∀ b ∈ bs, b.Static)
    (read : String → Except Fault Expression) :
    (divide read as).fault = none ∧ (divide read as).diagnostics = [] ∧
      List.Forall₂ Attribute.Serves (divide read as).attributes bs := by
  induction h with
  | nil => exact ⟨rfl, rfl, .nil⟩
  | @cons a b as bs hab hrest ih =>
      obtain ⟨hb, hbs⟩ := List.forall_mem_cons.mp hstatic
      obtain ⟨value, hvalue, hserves⟩ := hab.dividedValue hb read
      obtain ⟨hfault, hdiagnostics, hattributes⟩ := ih hbs
      simp only [divide, hab.not_isAnonymous hb, hvalue, Bool.false_eq_true, if_false]
      exact ⟨hfault, hdiagnostics, .cons hserves hattributes⟩

/-- No static attribute names a component. -/
theorem findIdx?_serves (h : List.Forall₂ Attribute.Serves as bs) (hstatic : ∀ b ∈ bs, b.Static) :
    as.findIdx? (·.fullName == fragmentName) = none := by
  rw [List.findIdx?_eq_none_iff]
  induction h with
  | nil => simp
  | @cons a b as bs hab _ ih =>
      obtain ⟨hb, hbs⟩ := List.forall_mem_cons.mp hstatic
      exact List.forall_mem_cons.mpr ⟨by simpa using hab.fullName_ne hb, ih hbs⟩

/-- Giving the attributes their kinds changes nothing about that. -/
theorem serves_kinds (h : List.Forall₂ Attribute.Serves as bs) (hstatic : ∀ b ∈ bs, b.Static) :
    List.Forall₂ Attribute.Serves (as.map fun a => { a with kind := attributeKind a }) bs := by
  induction h with
  | nil => exact .nil
  | @cons a b as bs hab hrest ih =>
      obtain ⟨hb, hbs⟩ := List.forall_mem_cons.mp hstatic
      exact .cons ⟨hab.name, hab.kind_eq hb, hab.value⟩ (ih hbs)

/-- A static element is given the type of elements, and nothing is wrong with it. -/
theorem typeElement_serves {n : Node} {e : Element} {tag : Tag} {children : List Tree}
    (he : n.content = .element e) (hn : n.Serves (.element tag children)) (hstatic : tag.Static) :
    (typeElement n e).2 = [] ∧ (typeElement n e).1.Serves (.element tag children) := by
  obtain ⟨-, hreference, -, e', he', hserves⟩ := hn
  cases he.symm.trans he'
  have htype : typeOf e.name false = .element := by
    rw [hserves.name]
    exact typeOf_of_known hstatic.known hstatic.noScript hstatic.noStyle
  have hfragment : takeFragment e = (none, e) := by
    rw [takeFragment, findIdx?_serves hserves.attributes hstatic.attributes]
  simp only [typeElement, hfragment, Option.bind_none, Option.isSome_none, htype]
  refine ⟨trivial, rfl, ?_, rfl, _, rfl, hserves.name, hserves.raw, ?_⟩
  · simp [hreference]
  · exact serves_kinds hserves.attributes hstatic.attributes

end Elements

end Stencil.Markup

namespace Stencil

open Stencil.Markup Stencil.Passes
open Stencil.Script (Language Fault Expression)

/-- Nothing went wrong, and static trees are served as before. -/
structure Passes.Outcome.Clean (o : Outcome) (d : Document) : Prop where
  error : o.error = none
  diagnostics : o.diagnostics = []
  retains : d.Retains o.document

namespace Passes

variable {d : Document} {id : Nat} {read : String → Except Fault Expression}

theorem clean_idle (d : Document) : ({ document := d } : Outcome).Clean d := ⟨rfl, rfl, .refl d⟩

/-- Typing a plain node is clean. -/
theorem typeStep_clean (h : (d.node id).Plain) : (typeStep d id).Clean d := by
  simp only [typeStep]
  split
  · exact clean_idle d
  · next hopen =>
      split
      · exact clean_idle d
      · next e he =>
          have htype : (d.node id).type = .element := by simp_all
          have hcontent := Node.content_of_element? he
          have hstep : ∀ t : Tree, t.Static → (d.node id).Serves t →
              (typeElement (d.node id) e).2 = [] ∧ (typeElement (d.node id) e).1.Serves t := by
            intro t hstatic ht
            cases t with
            | text _ => simp [Node.Serves, htype] at ht
            | comment _ => simp [Node.Serves, htype] at ht
            | element tag children => exact typeElement_serves hcontent ht hstatic.1
          obtain hroot | ⟨t, hstatic, ht⟩ := h
          · simp [htype] at hroot
          · refine ⟨rfl, (hstep t hstatic ht).1, Document.retains_update (by simp [htype]) ?_⟩
            exact fun u hu hserves => (hstep u hu hserves).2

/-- A plain node has no script or style to read. -/
theorem embeddedStep_clean (lang : Language) (h : (d.node id).Plain) :
    (embeddedStep lang d id).Clean d := by
  rcases h.type_cases with htype | htype | htype | htype <;>
    simp only [embeddedStep, htype] <;> exact clean_idle d

/-- A plain node has no header to read. -/
theorem blockStep_clean (h : (d.node id).Plain) : (blockStep read d id).Clean d := by
  rcases h.type_cases with htype | htype | htype | htype <;>
    simp only [blockStep, htype] <;> exact clean_idle d

/-- Dividing the attributes of a plain node is clean. -/
theorem attributeStep_clean (h : (d.node id).Plain) : (attributeStep read d id).Clean d := by
  rcases h.type_cases with htype | htype | htype | htype
  · simp only [attributeStep, htype]
    exact clean_idle d
  · simp only [attributeStep, htype]
    exact clean_idle d
  · simp only [attributeStep, htype]
    exact clean_idle d
  · obtain hroot | ⟨t, hstatic, ht⟩ := h
    · simp [htype] at hroot
    · cases t with
      | text _ => simp [Node.Serves, htype] at ht
      | comment _ => simp [Node.Serves, htype] at ht
      | element tag children =>
          obtain ⟨-, -, -, e, he, hserves⟩ := ht
          obtain ⟨hfault, hdiagnostics, -⟩ :=
            divide_serves hserves.attributes hstatic.1.attributes read
          simp only [attributeStep, htype, Node.element?, he, hfault, hdiagnostics]
          refine ⟨rfl, rfl, Document.retains_update (by simp [htype]) ?_⟩
          intro u hu hnode
          cases u with
          | text _ => simp [Node.Serves, htype] at hnode
          | comment _ => simp [Node.Serves, htype] at hnode
          | element tag' children' =>
              obtain ⟨-, hreference, hfragment, e', he', hserves'⟩ := hnode
              cases he.symm.trans he'
              obtain ⟨-, -, hattributes⟩ :=
                divide_serves hserves'.attributes hu.1.attributes read
              refine ⟨rfl, ?_, hfragment, _, rfl, hserves'.name, hserves'.raw, hattributes⟩
              simp only [hreference, Attribute.not_any_needsReference hattributes, Bool.or_self]

/-- Dividing a plain text is clean. -/
theorem textStep_clean (h : (d.node id).Plain) : (textStep read d id).Clean d := by
  simp only [textStep]
  split
  · next text htype hcontent =>
      have hbrace : '\x7b' ∉ text.toList := by
        obtain hroot | ⟨t, hstatic, ht⟩ := h
        · simp [htype] at hroot
        · cases t with
          | text _ =>
              obtain ⟨-, hraw | hparts⟩ := ht
              · cases hcontent.symm.trans hraw
                exact hstatic
              · simp [hcontent] at hparts
          | comment _ => simp [Node.Serves, htype] at ht
          | element _ _ => simp [Node.Serves, htype] at ht
      simp only [interpolate_of_braceless hbrace, isDynamic_literalPart]
      refine ⟨rfl, rfl, Document.retains_update (by simp [htype]) ?_⟩
      intro u hu hnode
      cases u with
      | text _ =>
          obtain ⟨-, hraw | hparts⟩ := hnode
          · cases hcontent.symm.trans hraw
            exact ⟨htype, .inr rfl⟩
          · simp [hcontent] at hparts
      | comment _ => simp [Node.Serves, htype] at hnode
      | element _ _ => simp [Node.Serves, htype] at hnode
  · exact clean_idle d

end Passes

variable {lang : Language} {typed : Bool} {d : Document}

/-- **One step.**  A pass has no problem with a node that serves a static tree. -/
theorem Pass.step_clean {p : Pass} {id : Nat} (h : (d.node id).Plain) :
    (p.step lang typed d id).Clean d := by
  cases p with
  | types => exact typeStep_clean h
  | embedded => exact embeddedStep_clean lang h
  | blocks => exact blockStep_clean h
  | attributes => exact attributeStep_clean h
  | texts => exact textStep_clean h

/-- A plain node stays plain. -/
theorem Markup.Node.Plain.retained {d' : Document} (h : d.Retains d') {id : Nat}
    (hid : (d.node id).Plain) : (d'.node id).Plain := by
  obtain hroot | ⟨t, hstatic, ht⟩ := hid
  · exact .inl (h.root id hroot)
  · exact .inr ⟨t, hstatic, h.serves id t hstatic ht⟩

/-- So a pass over plain nodes is clean. -/
theorem Passes.visit_clean {step : Document → Nat → Outcome}
    (hstep : ∀ (d : Document) id, (d.node id).Plain → (step d id).Clean d) {ids : List Nat}
    (h : ∀ id ∈ ids, (d.node id).Plain) : (visit step ids d).Clean d := by
  induction ids generalizing d with
  | nil => exact clean_idle d
  | cons id rest ih =>
      obtain ⟨hid, hrest⟩ := List.forall_mem_cons.mp h
      have hfirst := hstep d id hid
      have hmore := ih fun i hi => (hrest i hi).retained hfirst.retains
      simp only [visit, hfirst.error, hfirst.diagnostics, List.nil_append]
      exact ⟨hmore.error, hmore.diagnostics, hfirst.retains.trans hmore.retains⟩

/-- **The whole run.**  The passes have no problem with a document of static trees. -/
theorem runPasses_clean {passes : List Pass} (h : ∀ id ∈ d.walk, (d.node id).Plain) :
    (runPasses lang typed passes d).Clean d := by
  induction passes generalizing typed d with
  | nil => exact clean_idle d
  | cons p rest ih =>
      have hfirst : (p.run lang typed d).Clean d := by
        rw [Pass.run_eq]
        exact visit_clean (fun _ _ => Pass.step_clean) h
      have hwalk := (Pass.sameTree_run hfirst.error).walk_eq
      have hmore : (runPasses lang (p.dialect typed (p.run lang typed d).document) rest
          (p.run lang typed d).document).Clean (p.run lang typed d).document :=
        ih fun i hi => (h i (by rwa [← hwalk])).retained hfirst.retains
      simp only [runPasses, hfirst.error, hfirst.diagnostics, List.nil_append]
      exact ⟨hmore.error, hmore.diagnostics, hfirst.retains.trans hmore.retains⟩

/-- A node that shows a tree and about which nothing was found out serves it. -/
theorem Markup.Document.Holds.serves {p : Nat → Prop} {id : Nat} {t : Tree} (h : d.Holds p id t)
    (hfresh : (d.node id).Fresh) : (d.node id).Serves t := by
  cases t with
  | text text => exact ⟨by rw [hfresh.type, h.2]; rfl, .inl h.2⟩
  | comment content => exact ⟨by rw [hfresh.type, h.2]; rfl, h.2⟩
  | element tag children =>
      simp only [Document.Holds] at h
      obtain ⟨-, ⟨e, he, hshows⟩, hfragment, -⟩ := h
      refine ⟨by rw [hfresh.type, he]; rfl, by rw [hfresh.params], hfragment, e, he, hshows.name,
        hshows.raw, ?_⟩
      have hkinds := hfresh.kinds e (by simp [Node.element?, he])
      have hattributes := hshows.attributes
      generalize e.attributes = as at hkinds hattributes
      generalize tag.attributes = bs at hattributes
      induction as generalizing bs with
      | nil => simp_all
      | cons a as ih =>
          cases bs with
          | nil => simp at hattributes
          | cons b bs =>
              obtain ⟨hfirst, hrest⟩ := List.cons.inj hattributes
              obtain ⟨ha, has⟩ := List.forall_mem_cons.mp hkinds
              obtain ⟨hname, hvalue⟩ := Prod.mk.inj hfirst
              exact .cons ⟨hname, ha, .inl hvalue⟩ (ih has bs hrest)

/-- All nodes below one that shows static trees show some. -/
theorem Markup.Document.HoldsAll.exists_of_mem_below {p : Nat → Prop} {levels id : Nat}
    {ts : List Tree} (hlinked : d.Linked) (hforward : d.Forward)
    (h : d.HoldsAll p (d.children id) ts) (hstatic : TreesStatic ts) :
    ∀ i ∈ d.below levels id, ∃ t : Tree, t.Static ∧ d.Holds p i t := by
  induction levels generalizing id ts with
  | zero => simp [Document.below]
  | succ levels ih =>
      intro i hi
      simp only [Document.below, List.mem_flatMap] at hi
      obtain ⟨child, hchild, hi⟩ := hi
      obtain ⟨t, ht, hholds⟩ := h.exists_of_mem hchild
      have htree := treesStatic_mem hstatic ht
      rcases List.mem_cons.mp hi with rfl | hi
      · exact ⟨t, htree, hholds⟩
      · cases t with
        | element tag children =>
            simp only [Document.Holds] at hholds
            exact ih hholds.2.2.2 htree.2 i hi
        | text _ | comment _ =>
            -- nothing is below a node that is no tag
            have hleaf : d.children child = [] := by
              by_contra hne
              rcases hlinked.host child hne with rfl | htag
              · exact absurd (hforward id 0 hchild).1 (by omega)
              · simp [Node.isTag, Node.element?, hholds.2] at htag
            have hnone : d.below levels child = [] := by
              cases levels <;> simp [Document.below, hleaf]
            simp [hnone] at hi

/-- **The passes over static markup.**  If a source text reads as static trees, the passes over it
report no problem, and every node that showed one of them serves it. -/
theorem parseTemplate_serves (lang : Language) {o : Options} {source : String} {ts : List Tree}
    (hread : (parse o.markup source).2 = []) (hshows : (parse o.markup source).1.Shows ts)
    (hstatic : TreesStatic ts) :
    (parseTemplate lang o source).error = none ∧ (parseTemplate lang o source).diagnostics = [] ∧
      (∀ id ∈ (parseTemplate lang o source).document.walk,
        ((parseTemplate lang o source).document.node id).Plain) ∧
      ∀ p i (t : Tree), (parse o.markup source).1.Holds p i t → t.Static →
        ((parseTemplate lang o source).document.node i).Serves t := by
  have hfresh := parse_fresh o.markup source
  have hroot := parse_root o.markup source
  have hplain : ∀ id ∈ (parse o.markup source).1.walk, ((parse o.markup source).1.node id).Plain := by
    intro id hid
    rcases List.mem_cons.mp hid with rfl | hid
    · exact .inl hroot
    · obtain ⟨t, ht, hholds⟩ := Document.HoldsAll.exists_of_mem_below (parse_linked o.markup source)
        (parse_wellFormed o.markup source).forward hshows hstatic id hid
      exact .inr ⟨t, ht, hholds.serves (hfresh id)⟩
  have hclean : (runPasses lang false Pass.all (parse o.markup source).1).Clean
      (parse o.markup source).1 := runPasses_clean hplain
  refine ⟨hclean.error, ?_, ?_, ?_⟩
  · have heq : (parseTemplate lang o source).diagnostics = (parse o.markup source).2 ++
        (runPasses lang false Pass.all (parse o.markup source).1).diagnostics := rfl
    rw [heq, hread, hclean.diagnostics, List.nil_append]
  · intro id hid
    rw [(parseTemplate_sameTree hclean.error).walk_eq] at hid
    exact (hplain id hid).retained hclean.retains
  · intro p i t hholds ht
    exact hclean.retains.serves i t ht (hholds.serves (hfresh i))

end Stencil
