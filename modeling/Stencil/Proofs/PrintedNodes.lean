import Stencil.Proofs.PrintedValues

/-!
# The passes over what is printed of a node

A node that was just read from a source without braces (`Node.Pristine`) goes through all passes
(`Node.Made`) and is printed.  A node that was read from there has its name and what it holds, and the
values of its attributes are those that were printed (`Content.Agrees`).  The passes make the same of
it, but for quotes (`node_returns`).

This is clear for texts and comments.  In an element, the name of its component stood among the
attributes and now stands before them (`takeFragment_written`); then the first passes find out the same
as before (`Element.Passed.first_again`), and so each attribute is divided as before
(`Element.Finishes.returns`).
-/

namespace Stencil.Markup

open Stencil.Text Stencil.Passes
open Stencil.Script (Language Fault Expression)

/-- The content however its attributes are written. -/
def Content.evened : Content → Content
  | .element e => .element { e with attributes := e.attributes.map Attribute.evened }
  | .document => .document
  | .text t => .text t
  | .comment c => .comment c

/-- What is in the node and what the passes found out about it, without its position and its children,
however its attributes are written. -/
def Node.evened (n : Node) : Node :=
  { n with content := n.content.evened, children := [], position := none }

/-- **Equal structure.**  A node of a document and a node of another are the same, and so are their
children in order, but for quotes, sources of attributes, positions and numbers. -/
inductive Document.Alike (d d' : Document) : Nat → Nat → Prop
  | node {i j : Nat} (hnode : (d.node i).evened = (d'.node j).evened)
      (hchildren : List.Forall₂ (Alike d d') (d.children i) (d'.children j)) : Alike d d' i j

/-- The expressions that are printed in braces between quotes are read again as the same ones. -/
def Node.Reopens (n : Node) : Prop :=
  ∀ e ∈ n.element?, ∀ a ∈ e.attributes, a.value.Reopens

instance (n : Node) : Decidable n.Reopens :=
  inferInstanceAs (Decidable (∀ e ∈ n.element?, ∀ a ∈ e.attributes, a.value.Reopens))

section Types

variable {n : Node} {e : Element}

/-- Taking the fragment's name leaves an element without that attribute. -/
theorem takeFragment_snd (e : Element) :
    (takeFragment e).2 = { e with attributes := (takeFragment e).2.attributes } ∧
      (takeFragment e).2.attributes.Sublist e.attributes := by
  unfold takeFragment
  split
  · exact ⟨rfl, List.eraseIdx_sublist _ _⟩
  · exact ⟨rfl, List.Sublist.refl _⟩

/-- Typing an element changes its attributes only. -/
theorem typeElement_content (n : Node) (e : Element) : (typeElement n e).1.content = .element
    { e with attributes := (takeFragment e).2.attributes.map Attribute.kinded } := by
  have hcontent : (typeElement n e).1.content = .element { (takeFragment e).2 with
      attributes := (takeFragment e).2.attributes.map Attribute.kinded } := rfl
  rw [hcontent, (takeFragment_snd e).1]

/-- The type of an element follows from its name and whether it names a fragment. -/
theorem typeElement_type (n : Node) (e : Element) :
    (typeElement n e).1.type = typeOf e.name ((takeFragment e).1.bind fragmentOf).isSome := by
  have hname := congrArg Element.name (takeFragment_snd e).1
  simp only [typeElement, hname]

/-- Nothing is wrong with the name of an element: it has none, or it is not empty. -/
theorem typeElement_found (h : (typeElement n e).2 = []) :
    (takeFragment e).1 = none ∨ ((takeFragment e).1.bind fragmentOf).isSome = true := by
  simp only [typeElement] at h
  split at h
  · next a ha =>
      split at h
      · next hsome => exact .inr hsome
      · simp at h
  · next hnone => exact .inl hnone

/-- Typing reports nothing where no fragment is named or it is named well. -/
theorem typeElement_clean
    (h : (takeFragment e).1 = none ∨ ((takeFragment e).1.bind fragmentOf).isSome = true) :
    (typeElement n e).2 = [] := by
  simp only [typeElement]
  split
  · next a ha =>
      rcases h with hnone | hsome
      · simp [ha] at hnone
      · rw [if_pos hsome]
  · rfl

/-- The name and the value of an attribute. -/
def Attribute.entry (a : Attribute) : AttributeName × Value := (a.name, a.value)

theorem findSome?_attributeTarget? (as : List Attribute) :
    (as.map Attribute.kinded).findSome? attributeTarget? =
      (as.map Attribute.entry).findSome? fun x =>
        attributeTarget? { name := x.1, value := x.2, raw := "" } := by
  rw [List.findSome?_map, List.findSome?_map]
  rfl

/-- An attribute is found with its text by name, whether it has its kind yet or not. -/
theorem find?_kinded (name : String) (as : List Attribute) :
    ((as.map Attribute.kinded).find? (·.fullName == name)).bind Attribute.text? =
      ((as.map Attribute.entry).find? fun x => x.1.full == name).bind fun x =>
        Attribute.text? { name := x.1, value := x.2, raw := "" } := by
  rw [List.find?_map, List.find?_map, Option.bind_map, Option.bind_map]
  rfl

theorem typeElement_params (n : Node) (e : Element) : (typeElement n e).1.params =
    { n.params with
      typed := true
      reference := n.params.reference || (typeElement n e).1.type == .component
      fragment := (takeFragment e).1.bind fragmentOf
      target :=
        if (typeElement n e).1.type == .script then
          ((takeFragment e).2.attributes.map Attribute.kinded).findSome? attributeTarget?
        else none
      typescript := (typeElement n e).1.type == .script &&
        (((takeFragment e).2.attributes.map Attribute.kinded).find? (·.fullName == "lang")).bind
          Attribute.text? == some "ts" } := rfl

/-- The type of an element depends on its name and on whether it is named as a component; of the other
attributes, only those of scripts matter. -/
theorem typeElement_congr {n' : Node} {e' : Element} (hparams : n'.params = n.params)
    (hname : e'.name = e.name)
    (hfragment : (takeFragment e').1.bind fragmentOf = (takeFragment e).1.bind fragmentOf)
    (hscript : (typeElement n e).1.type = .script → (takeFragment e').2.attributes.map Attribute.entry =
      (takeFragment e).2.attributes.map Attribute.entry) :
    (typeElement n' e').1.type = (typeElement n e).1.type ∧
      (typeElement n' e').1.params = (typeElement n e).1.params := by
  have htype : (typeElement n' e').1.type = (typeElement n e).1.type := by
    rw [typeElement_type, typeElement_type, hfragment, hname]
  refine ⟨htype, ?_⟩
  rw [typeElement_params, typeElement_params, htype, hparams, hfragment, findSome?_attributeTarget?,
    findSome?_attributeTarget?, find?_kinded, find?_kinded]
  by_cases hs : (typeElement n e).1.type = .script
  · rw [hscript hs]
  · have hno : ((typeElement n e).1.type == .script) = false := by simpa using hs
    simp only [hno, Bool.false_eq_true, if_false, Bool.false_and]

end Types

section Runs

variable {lang : Language} {typed : Bool} {n m n' : Node} {e : Element} {p : Pass}

/-- What is no element is left alone by the first pass, and an element without a type is given one. -/
theorem Node.Turns.types_eq (h : n.Turns lang typed .types m) (hn : n.Fresh)
    (he : n.content = .element e) : m = (typeElement n e).1 ∧ (typeElement n e).2 = [] := by
  have htag : n.element? = some e := by simp [Node.element?, he]
  have htype : n.type = .element := by rw [hn.type, he]; rfl
  cases h with
  | idle hsettled =>
      have htyped := hsettled htype (isTag_of_element? htag)
      rw [hn.params] at htyped
      simp at htyped
  | typed _ _ he' hfound =>
      rw [htag, Option.some.injEq] at he'
      subst he'
      exact ⟨rfl, hfound⟩

/-- The first passes run through on an element that types without complaint and whose script is
read. -/
theorem runs_first_iff (hn : n.Fresh) (he : n.content = .element e) :
    n.Runs lang Pass.first m ↔
      (typeElement n e).2 = [] ∧ (typeElement n e).1.Turns lang false .embedded m := by
  have htag : n.element? = some e := by simp [Node.element?, he]
  have htype : n.type = .element := by rw [hn.type, he]; rfl
  constructor
  · rintro ⟨k, htypes, m', hembedded, rfl⟩
    obtain ⟨rfl, hfound⟩ := htypes.types_eq hn he
    exact ⟨hfound, hembedded⟩
  · rintro ⟨hfound, hembedded⟩
    exact ⟨_, .typed htype (by rw [hn.params]) htag hfound, _, hembedded, rfl⟩

/-- What the first two passes and then the others make of a node that is no block. -/
structure Node.Made (lang : Language) (typed : Bool) (n m n' : Node) : Prop where
  first : n.Runs lang Pass.first m
  second : m.Runs lang (Pass.second typed) n'
  block : ∀ kind, n'.type ≠ .block kind

/-- Nothing becomes of what is no text in the last pass. -/
theorem Node.Turns.texts_eq (h : n.Turns lang typed .texts m) (hn : n.type ≠ .text) : m = n := by
  cases h with
  | idle => rfl
  | text htype => exact absurd htype hn

/-- What turns in the pass over blocks comes out as it went in. -/
theorem Node.Turns.blocks_eq (h : n.Turns lang typed .blocks m) : m = n := by
  cases h with
  | idle => rfl

/-- Only typing changes the type of a node. -/
theorem Node.Turns.type_eq (h : n.Turns lang typed p m) (hp : p ≠ .types) : m.type = n.type := by
  rcases h.works with ⟨-, rfl⟩ | hwork
  · rfl
  · exact hwork.type_eq hp

/-- So the later passes keep it. -/
theorem Node.Runs.type_eq (h : n.Runs lang (Pass.second typed) n') : n'.type = n.type := by
  obtain ⟨k, hblocks, k', hattributes, k'', htexts, rfl⟩ := h
  rw [htexts.type_eq (by simp), hattributes.type_eq (by simp), hblocks.type_eq (by simp)]

/-- Behind the first two passes, only the one that divides attributes works on elements. -/
theorem runs_second_iff (hblock : ∀ kind, n.type ≠ .block kind) (htext : n.type ≠ .text) :
    n.Runs lang (Pass.second typed) m ↔ n.Turns lang typed .attributes m := by
  constructor
  · rintro ⟨k, hblocks, m', hattributes, m'', htexts, rfl⟩
    obtain rfl := hblocks.blocks_eq
    have htype := hattributes.type_eq (by simp)
    rwa [htexts.texts_eq (by rwa [htype])]
  · intro hattributes
    have htype := hattributes.type_eq (by simp)
    refine ⟨n, .idle fun kind e hkind => absurd hkind (hblock kind), m, hattributes, m, .idle ?_, rfl⟩
    intro ht
    exact absurd (htype.symm.trans ht) htext

/-- The attributes of a host are divided, and it is read exactly if each of them is. -/
theorem turns_attributes_iff (hhost : n.type.isHost = true) (he : n.element? = some e) :
    n.Turns lang typed .attributes m ↔ ∃ as,
      divide (lang.expression typed) e.attributes = { attributes := as } ∧ m = { n with
        content := .element { e with attributes := as }
        params := { n.params with
          reference := n.params.reference || as.any Attribute.needsReference } } := by
  constructor
  · intro h
    cases h with
    | idle hsettled =>
        obtain ⟨hall, hneeds⟩ := hsettled e hhost he
        refine ⟨e.attributes, divide_of_settled hall, ?_⟩
        have hreference : (n.params.reference || e.attributes.any Attribute.needsReference) =
            n.params.reference := by
          cases hany : e.attributes.any Attribute.needsReference with
          | false => simp
          | true => simp [hneeds hany]
        rw [hreference, ← Node.content_of_element? he]
    | @attributes e' as _ he' hdivide =>
        rw [he, Option.some.injEq] at he'
        subst he'
        exact ⟨as, hdivide, rfl⟩
  · rintro ⟨as, hdivide, rfl⟩
    exact .attributes hhost he hdivide

/-- Where a node is no host, its attributes stay. -/
theorem Node.Turns.attributes_eq (h : n.Turns lang typed .attributes m)
    (hhost : n.type.isHost = false) : m = n := by
  cases h with
  | idle => rfl
  | attributes htype => simp [htype] at hhost

/-- Reading scripts and styles leaves the names of components as they are. -/
theorem Node.Turns.fragment_eq (h : n.Turns lang typed .embedded m) :
    m.params.fragment = n.params.fragment := by
  cases h with
  | idle | script | style => rfl

/-- Reading a script or a style depends on its raw content and what the first pass found out. -/
theorem Node.Turns.embedded_congr (h : n.Turns lang typed .embedded m) (htype : n'.type = n.type)
    (hparams : n'.params = n.params) (hraw : rawContent n' = rawContent n) :
    m = { n with params := m.params } ∧
      n'.Turns lang typed .embedded { n' with params := m.params } := by
  cases h with
  | idle hsettled =>
      refine ⟨rfl, ?_⟩
      have hsame : { n' with params := n.params } = n' := by rw [← hparams]
      rw [hsame]
      refine .idle ?_
      simp only [Node.Settled] at hsettled ⊢
      rwa [htype, hparams]
  | script hscript hnone hread =>
      refine ⟨rfl, ?_⟩
      rw [← hparams] at hnone hread ⊢
      rw [← hraw] at hread
      exact .script (htype.trans hscript) hnone hread
  | style hstyle hnone hread =>
      refine ⟨rfl, ?_⟩
      rw [← hparams] at hnone ⊢
      rw [← hraw] at hread
      exact .style (htype.trans hstyle) hnone hread

end Runs

section Elements

variable {lang : Language} {typed affix : Bool} {n m n' n₂ : Node} {e e₂ : Element}

/-- No element is typed as a text. -/
theorem typeOf_ne_text (name : String) (named : Bool) : typeOf name named ≠ .text := by
  unfold typeOf
  repeat' split
  all_goals simp

/-- An attribute with a name is not a value alone. -/
theorem Attribute.not_isAnonymous_of_full {a : Attribute}
    (hdivided : a.name = if affix then .split a.name.full else { base := a.name.full })
    (hne : a.name.full ≠ "") : a.isAnonymous = false := by
  have hlist : a.name.full.toList ≠ [] := by simpa using hne
  rw [isAnonymous, hdivided]
  generalize a.name.full = full at hlist hne
  cases affix with
  | false => simp [hne]
  | true =>
      simp only [if_true, AttributeName.split]
      split
      · split <;> simp [AttributeName.unmarked, splitSuffix]
      · next hshort =>
          cases hfull : full.toList with
          | nil => exact absurd hfull hlist
          | cons c rest => simp [AttributeName.unmarked, splitSuffix]

/-- What becomes of the attributes of an element of some type, but for the name of its component. -/
structure Element.Finishes (lang : Language) (typed : Bool) (e : Element) (type : NodeType)
    (as : List Attribute) :
    Prop where
  host : type.isHost = true → List.Forall₂ (fun a b => ∃ v,
    dividedValue (lang.expression typed) a.kinded = .ok v ∧ b = { a.kinded with value := v })
      (takeFragment e).2.attributes as
  other : type.isHost = false → as = (takeFragment e).2.attributes.map Attribute.kinded

/-- The node of an element behind all passes. -/
def Node.finished (n : Node) (e : Element) (as : List Attribute) : Node :=
  { n with
    content := .element { e with attributes := as }
    params := { n.params with reference := n.params.reference ||
      (n.type.isHost && as.any Attribute.needsReference) } }

/-- An element in which each attribute has a name and none has a brace. -/
structure Element.Plain (e : Element) : Prop where
  named : ∀ a ∈ e.attributes, a.isAnonymous = false
  braceless : ∀ a ∈ e.attributes, a.Braceless

theorem runs_second_iff_finishes
    (hnamed : ∀ a ∈ (takeFragment e).2.attributes, a.isAnonymous = false)
    (hm : m.content = .element { e with
      attributes := (takeFragment e).2.attributes.map Attribute.kinded })
    (htext : m.type ≠ .text) (hblock : ∀ kind, m.type ≠ .block kind) :
    m.Runs lang (Pass.second typed) n' ↔
      ∃ as, e.Finishes lang typed m.type as ∧ n' = m.finished e as := by
  rw [runs_second_iff hblock htext]
  cases hhost : m.type.isHost with
  | false =>
      have hsame : m.finished e ((takeFragment e).2.attributes.map Attribute.kinded) = m := by
        rw [Node.finished, hhost, Bool.false_and, Bool.or_false, ← hm]
      constructor
      · intro h
        exact ⟨_, ⟨by simp [hhost], fun _ => rfl⟩, by rw [hsame, h.attributes_eq hhost]⟩
      · rintro ⟨as, hfinishes, rfl⟩
        rw [hfinishes.other hhost, hsame]
        exact .idle fun e htype => by simp [hhost] at htype
  | true =>
      have hdivide : ∀ as, divide (lang.expression typed)
          ((takeFragment e).2.attributes.map Attribute.kinded) = { attributes := as } ↔
          e.Finishes lang typed m.type as := by
        intro as
        have hkinded : ∀ a ∈ (takeFragment e).2.attributes.map Attribute.kinded,
            a.isAnonymous = false := by
          intro a ha
          obtain ⟨b, hb, rfl⟩ := List.mem_map.mp ha
          exact hnamed b hb
        rw [divide_eq_iff hkinded, List.forall₂_map_left_iff]
        exact ⟨fun h => ⟨fun _ => h, by simp [hhost]⟩, fun h => h.host hhost⟩
      rw [turns_attributes_iff hhost (by rw [Node.element?, hm])]
      refine exists_congr fun as => and_congr (hdivide as) ?_
      rw [Node.finished, hhost, Bool.true_and]

/-- Lists that correspond have a partner for each entry. -/
theorem exists_mem_of_forall₂ {α β : Type} {P : α → β → Prop} {xs : List α} {ys : List β}
    (h : List.Forall₂ P xs ys) : ∀ y ∈ ys, ∃ x ∈ xs, P x y := by
  induction h with
  | nil => simp
  | @cons x y xs ys hxy _ ih =>
      refine List.forall_mem_cons.mpr ⟨⟨x, List.mem_cons_self, hxy⟩, fun y hy => ?_⟩
      obtain ⟨x, hx, hxy⟩ := ih y hy
      exact ⟨x, List.mem_cons_of_mem _ hx, hxy⟩

/-- A correspondence carries over to another list with the same images. -/
theorem exists_forall₂ {α β γ δ : Type} {P : α → β → Prop} {Q : α → γ → Prop} {f : γ → δ} {g : β → δ}
    {xs : List α} {ys : List β} (h : List.Forall₂ P xs ys)
    (hex : ∀ x, ∀ y ∈ ys, P x y → ∃ z, Q x z ∧ f z = g y) :
    ∃ zs, List.Forall₂ Q xs zs ∧ zs.map f = ys.map g := by
  induction h with
  | nil => exact ⟨[], .nil, rfl⟩
  | @cons x y xs ys hxy _ ih =>
      obtain ⟨z, hz, hfz⟩ := hex x y List.mem_cons_self hxy
      obtain ⟨zs, hzs, hmap⟩ := ih fun x y hy => hex x y (List.mem_cons_of_mem _ hy)
      exact ⟨z :: zs, .cons hz hzs, by rw [List.map_cons, List.map_cons, hfz, hmap]⟩

/-- An attribute without braces has none when it has its kind either. -/
theorem Attribute.Braceless.kinded {a : Attribute} (h : a.Braceless) : a.kinded.Braceless :=
  ⟨h.undivided, h.value⟩

/-- What is not divided is printed as it was written. -/
theorem Attribute.Braceless.written {a : Attribute} (h : a.Braceless) : a.value.written = a.value := by
  cases hvalue : a.value with
  | empty | text => rfl
  | parts parts quote => exact absurd hvalue (h.undivided parts quote)

/-- The kind of an attribute comes from its name. -/
theorem attributeKind_congr {a b : Attribute} (h : a.name = b.name) :
    attributeKind a = attributeKind b := by
  simp only [attributeKind, h]

/-- The passes leave the names of attributes as they are. -/
theorem Element.Finishes.map_name {type : NodeType} {as : List Attribute}
    (h : e.Finishes lang typed type as) :
    as.map Attribute.name = (takeFragment e).2.attributes.map Attribute.name := by
  cases hhost : type.isHost with
  | false =>
      rw [h.other hhost, List.map_map]
      rfl
  | true =>
      rw [← List.forall₂_eq_eq_eq, List.forall₂_map_left_iff, List.forall₂_map_right_iff]
      refine (h.host hhost).flip.imp ?_
      rintro b a ⟨v, -, rfl⟩
      rfl

/-- The attributes of elements, components and fragments come from dividing. -/
theorem Element.Finishes.divides {type : NodeType} {as : List Attribute}
    (h : e.Finishes lang typed type as) (he : e.Plain) (hhost : type.isHost = true) :
    ∀ b ∈ as, ∃ a ∈ (takeFragment e).2.attributes, ∃ v,
      a.kinded.Divides (lang.expression typed) v ∧ b = { a.kinded with value := v } := by
  intro b hb
  obtain ⟨a, ha, v, hv, rfl⟩ := exists_mem_of_forall₂ (h.host hhost) b hb
  have hbraceless := he.braceless a ((takeFragment_snd e).2.subset ha)
  exact ⟨a, ha, v, hbraceless.kinded.divides hv, rfl⟩

/-- The attributes that are printed can go through the passes again, and they make the same of them. -/
theorem Element.Finishes.returns (hlang : lang.ReadsTrimmed) {type : NodeType}
    {as : List Attribute} (h : e.Finishes lang typed type as) (he : e.Plain)
    (hreopens : ∀ a ∈ as, a.value.Reopens)
    (hentries : (takeFragment e₂).2.attributes.map Attribute.entry =
      as.map fun a => a.written.entry) :
    ∃ as₂, e₂.Finishes lang typed type as₂ ∧ as₂.map Attribute.evened = as.map Attribute.evened := by
  have hbraceless : ∀ a ∈ (takeFragment e).2.attributes, a.Braceless := fun a ha =>
    he.braceless a ((takeFragment_snd e).2.subset ha)
  rw [← List.forall₂_eq_eq_eq, List.forall₂_map_left_iff, List.forall₂_map_right_iff] at hentries
  cases hhost : type.isHost with
  | false =>
      have has := h.other hhost
      obtain ⟨as₂, hall, heven⟩ := exists_forall₂ (Q := fun r c => c = r.kinded)
        (f := Attribute.evened) (g := Attribute.evened) hentries (by
          intro r b hb hentry
          obtain ⟨hname, hvalue⟩ := Prod.mk.inj hentry
          rw [has] at hb
          obtain ⟨a, ha, rfl⟩ := List.mem_map.mp hb
          have hname : r.name = a.name := hname
          refine ⟨_, rfl, ?_⟩
          have hsame : r.value = a.value := hvalue.trans (hbraceless a ha).kinded.written
          simp only [Attribute.evened, Attribute.kinded, hname, hsame, attributeKind_congr hname])
      refine ⟨as₂, ⟨by simp [hhost], fun _ => ?_⟩, heven⟩
      have hflip := hall.flip
      rw [← List.forall₂_eq_eq_eq, List.forall₂_map_right_iff]
      exact hflip
  | true =>
      obtain ⟨as₂, hall₂, heven⟩ := exists_forall₂ (Q := fun r c => ∃ w,
          dividedValue (lang.expression typed) r.kinded = .ok w ∧
            c = { r.kinded with value := w })
        (f := Attribute.evened) (g := Attribute.evened) hentries (by
          intro r b hb hentry
          obtain ⟨a, -, v, hdivides, rfl⟩ := h.divides he hhost b hb
          obtain ⟨hname, hvalue⟩ := Prod.mk.inj hentry
          have hname : r.name = a.name := hname
          have hkind : attributeKind r = attributeKind a := attributeKind_congr hname
          obtain ⟨w, hw, heven⟩ :=
            hdivides.returns (b := r.kinded) (hlang typed) (hreopens _ hb) hname hkind hvalue
          refine ⟨_, ⟨w, hw, rfl⟩, ?_⟩
          simp only [Attribute.evened, Attribute.kinded, hname, hkind, heven])
      exact ⟨as₂, ⟨fun _ => hall₂, by simp [hhost]⟩, heven⟩

/-- Only an empty name is no name. -/
theorem fragmentOf_eq_some {a : Attribute} {name : String} (h : fragmentOf a = some name) :
    trim name = name ∧ name ≠ "" := by
  unfold fragmentOf at h
  split at h
  · next text _ =>
      split at h
      · simp at h
      · next hne =>
          obtain rfl := Option.some.inj h
          exact ⟨by simp [trim, trimList_trimList], by simpa using hne⟩
  · simp at h

/-- Without a fragment's name an element loses no attribute. -/
theorem takeFragment_none (h : (takeFragment e).1 = none) :
    (takeFragment e).2 = e ∧ ∀ a ∈ e.attributes, a.fullName ≠ fragmentName := by
  unfold takeFragment at h ⊢
  split at h
  · next i hi =>
      have hlt := (List.findIdx?_eq_some_iff_getElem.mp hi).1
      simp [hlt] at h
  · next hnone => exact ⟨rfl, by simpa using List.findIdx?_eq_none_iff.mp hnone⟩

/-- The name of a component is found again where it is printed, before all other attributes. -/
theorem takeFragment_written {fragment : Option String} {as : List Attribute}
    (hentries : e₂.attributes.map Attribute.entry =
      ((fragment.map (fragmentAttribute affix)).toList ++ as.map Attribute.written).map
        Attribute.entry)
    (hnone : fragment = none → ∀ a ∈ as, a.fullName ≠ fragmentName)
    (hsome : ∀ name, fragment = some name → trim name = name ∧ name ≠ "") :
    (takeFragment e₂).2.attributes.map Attribute.entry = as.map (fun a => a.written.entry) ∧
      (takeFragment e₂).1.bind fragmentOf = fragment ∧
      ((takeFragment e₂).1 = none ∨ fragment.isSome = true) := by
  cases fragment with
  | none =>
      have hentries : e₂.attributes.map Attribute.entry = as.map fun a => a.written.entry := by
        simpa [Function.comp_def] using hentries
      have hnames : ∀ a ∈ e₂.attributes, a.fullName ≠ fragmentName := by
        intro a ha
        have hmem := List.mem_map_of_mem (f := Attribute.entry) ha
        rw [hentries] at hmem
        obtain ⟨b, hb, hentry⟩ := List.mem_map.mp hmem
        have hname : b.name = a.name := congrArg Prod.fst hentry
        rw [Attribute.fullName, ← hname]
        exact hnone rfl b hb
      have htake : takeFragment e₂ = (none, e₂) := by
        have hidx : e₂.attributes.findIdx? (·.fullName == fragmentName) = none := by
          rw [List.findIdx?_eq_none_iff]
          simpa using hnames
        rw [takeFragment, hidx]
      rw [htake]
      exact ⟨hentries, rfl, .inl rfl⟩
  | some name =>
      obtain ⟨htrim, hne⟩ := hsome name rfl
      cases hattributes : e₂.attributes with
      | nil => simp [hattributes] at hentries
      | cons b rest =>
          have hcons : b.entry = (fragmentAttribute affix name).entry ∧
              rest.map Attribute.entry = as.map fun a => a.written.entry := by
            simpa [hattributes, Function.comp_def] using hentries
          obtain ⟨hb, hrest⟩ := hcons
          obtain ⟨hname, hvalue⟩ := Prod.mk.inj hb
          have hfull : b.fullName = fragmentName := by
            rw [Attribute.fullName, hname]
            exact full_fragmentAttribute affix name
          have htake : takeFragment e₂ = (some b, { e₂ with attributes := rest }) := by
            have hidx : e₂.attributes.findIdx? (·.fullName == fragmentName) = some 0 := by
              rw [hattributes, List.findIdx?_cons, hfull]
              rfl
            rw [takeFragment, hidx]
            simp [hattributes]
          have hfragment : fragmentOf b = some name := by
            have htext : b.text? = some name := by rw [Attribute.text?, hvalue]; rfl
            simp [fragmentOf, htext, htrim, hne]
          rw [htake]
          exact ⟨hrest, hfragment, .inr rfl⟩

/-- The elements are written alike, but for quotes inside of values. -/
structure Element.Agrees (e₂ e : Element) : Prop where
  name : e₂.name = e.name
  empty : e₂.empty = e.empty
  selfClosing : e₂.selfClosing = e.selfClosing
  raw : e₂.raw = e.raw
  entries : e₂.attributes.map Attribute.entry = e.attributes.map Attribute.entry

/-- Both nodes hold the same, or elements that are written alike. -/
inductive Content.Agrees : Content → Content → Prop
  | same (c : Content) : Agrees c c
  | element {e₂ e : Element} (h : e₂.Agrees e) : Agrees (.element e₂) (.element e)

theorem Content.Agrees.exists_element {c : Content} (h : c.Agrees (.element e)) :
    ∃ e₂, c = .element e₂ ∧ e₂.Agrees e := by
  cases h with
  | same => exact ⟨e, rfl, rfl, rfl, rfl, rfl, rfl⟩
  | element h => exact ⟨_, rfl, h⟩

/-- Content that agrees with other content and is no element is the same. -/
theorem Content.Agrees.eq {c c' : Content} (h : c.Agrees c') (hc : ∀ e, c' ≠ .element e) : c = c' := by
  cases h with
  | same => rfl
  | element => exact absurd rfl (hc _)

/-- What the passes do to an element: the name of its component is found out, then scripts and styles
are read, and then its attributes are divided. -/
structure Element.Passed (lang : Language) (typed : Bool) (n m n' : Node) (e : Element)
    (as : List Attribute) : Prop where
  found : (typeElement n e).2 = []
  embedded : (typeElement n e).1.Turns lang false .embedded m
  type : m.type = (typeElement n e).1.type
  finishes : e.Finishes lang typed m.type as
  eq : n' = m.finished e as
  fragment : n'.params.fragment = (takeFragment e).1.bind fragmentOf

/-- An element that is made has passed, with some list of attributes. -/
theorem element_passed (hn : n.Fresh) (hcontent : n.content = .element e) (he : e.Plain)
    (h : Node.Made lang typed n m n') : ∃ as, Element.Passed lang typed n m n' e as := by
  obtain ⟨hfirst, hsecond, hblock⟩ := h
  rw [hsecond.type_eq] at hblock
  obtain ⟨hfound, hembedded⟩ := (runs_first_iff hn hcontent).mp hfirst
  have hplain : ∀ a ∈ (takeFragment e).2.attributes, a.isAnonymous = false := fun a ha =>
    he.named a ((takeFragment_snd e).2.subset ha)
  obtain ⟨hm, -⟩ := hembedded.embedded_congr rfl rfl rfl
  have hmtype : m.type = (typeElement n e).1.type := by rw [hm]
  have hmcontent : m.content = .element { e with
      attributes := (takeFragment e).2.attributes.map Attribute.kinded } := by
    rw [hm]
    exact typeElement_content n e
  have htext : m.type ≠ .text := by
    rw [hmtype, typeElement_type]
    exact typeOf_ne_text _ _
  obtain ⟨as, hfinishes, rfl⟩ := (runs_second_iff_finishes hplain hmcontent htext hblock).mp hsecond
  exact ⟨as, hfound, hembedded, hmtype, hfinishes, rfl, hembedded.fragment_eq⟩

namespace Element.Passed

variable {as : List Attribute}

/-- An element that passed is not a text. -/
theorem type_ne_text (h : Element.Passed lang typed n m n' e as) : m.type ≠ .text := by
  rw [h.type, typeElement_type]
  exact typeOf_ne_text _ _

/-- An element without the name of a component has no attribute for it. -/
theorem fullName_ne (h : Element.Passed lang typed n m n' e as) (hnone : n'.params.fragment = none) :
    ∀ a ∈ as, a.fullName ≠ fragmentName := by
  intro a ha
  have hno := h.fragment.symm.trans hnone
  obtain ⟨hsame, hnames⟩ := takeFragment_none
    ((typeElement_found h.found).resolve_right (by simp [hno]))
  have hmem := List.mem_map_of_mem (f := Attribute.name) ha
  rw [h.finishes.map_name, hsame] at hmem
  obtain ⟨b, hb, hname⟩ := List.mem_map.mp hmem
  rw [Attribute.fullName, ← hname]
  exact hnames b hb

/-- The name of a fragment is trimmed and not empty. -/
theorem fragment_eq_some (h : Element.Passed lang typed n m n' e as) {name : String}
    (hsome : n'.params.fragment = some name) : trim name = name ∧ name ≠ "" := by
  obtain ⟨a, -, ha⟩ := Option.bind_eq_some_iff.mp (h.fragment.symm.trans hsome)
  exact fragmentOf_eq_some ha

/-- Attributes that are written like those of the element have names as these do. -/
theorem named (h : Element.Passed lang typed n m n' e as) (he : e.Plain) {bs : List Attribute}
    (hentries : bs.map Attribute.entry = as.map fun a => a.written.entry) :
    ∀ b ∈ bs, b.isAnonymous = false := by
  intro b hb
  have hmem := List.mem_map_of_mem (f := Attribute.entry) hb
  rw [hentries] at hmem
  obtain ⟨a, ha, hentry⟩ := List.mem_map.mp hmem
  have hmem := List.mem_map_of_mem (f := Attribute.name) ha
  rw [h.finishes.map_name] at hmem
  obtain ⟨c, hc, hcname⟩ := List.mem_map.mp hmem
  have hsame : c.name = b.name := hcname.trans (congrArg Prod.fst hentry)
  have hnamed := he.named c ((takeFragment_snd e).2.subset hc)
  rwa [Attribute.isAnonymous, hsame] at hnamed

/-- The first passes find out the same of an element that is written alike. -/
theorem first_again (h : Element.Passed lang typed n m n' e as) (hn : n.Fresh) (he : e.Plain)
    (hn₂ : n₂.Fresh) (hcontent₂ : n₂.content = .element e₂) (hname : e₂.name = e.name)
    (hraw : e₂.raw = e.raw)
    (hentries : (takeFragment e₂).2.attributes.map Attribute.entry =
      as.map fun a => a.written.entry)
    (hfragment : (takeFragment e₂).1.bind fragmentOf = n'.params.fragment)
    (hclean : (takeFragment e₂).1 = none ∨ n'.params.fragment.isSome = true) :
    ∃ m₂, n₂.Runs lang Pass.first m₂ ∧ m₂.type = m.type ∧ m₂.params = m.params ∧
      m₂.content = .element { e₂ with
        attributes := (takeFragment e₂).2.attributes.map Attribute.kinded } := by
  have hfound : (typeElement n₂ e₂).2 = [] := typeElement_clean (by rwa [hfragment])
  -- the passes look at the attributes of scripts, and these are not divided
  have hscript : (typeElement n e).1.type = .script → (takeFragment e₂).2.attributes.map Attribute.entry =
      (takeFragment e).2.attributes.map Attribute.entry := by
    intro hs
    rw [hentries, h.finishes.other (by rw [h.type, hs]; rfl), List.map_map]
    refine List.map_congr_left fun a ha => ?_
    have hbraceless := he.braceless a ((takeFragment_snd e).2.subset ha)
    exact Prod.ext rfl hbraceless.kinded.written
  have hsame : (typeElement n₂ e₂).1.type = (typeElement n e).1.type ∧
      (typeElement n₂ e₂).1.params = (typeElement n e).1.params :=
    typeElement_congr (hn₂.params.trans hn.params.symm) hname (hfragment.trans h.fragment) hscript
  have hrawContent : rawContent (typeElement n₂ e₂).1 = rawContent (typeElement n e).1 := by
    simp only [rawContent, Node.element?, typeElement_content, Option.bind_some, hraw]
  obtain ⟨-, hembedded⟩ := h.embedded.embedded_congr hsame.1 hsame.2 hrawContent
  have hfirst := (runs_first_iff hn₂ hcontent₂).mpr ⟨hfound, hembedded⟩
  have htype := hsame.1.trans h.type.symm
  have hcontent := typeElement_content n₂ e₂
  exact ⟨_, hfirst, htype, rfl, hcontent⟩

end Element.Passed

/-- What is printed of an element that has been through all passes can go through them again, and they
make the same of it. -/
theorem element_returns (hlang : lang.ReadsTrimmed) (hn : n.Fresh)
    (hcontent : n.content = .element e) (he : e.Plain)
    (h : Node.Made lang typed n m n') (hreopens : n'.Reopens) (hn₂ : n₂.Fresh)
    (hagrees : n₂.content.Agrees (n'.written affix).content) :
    ∃ m₂ n₂', Node.Made lang typed n₂ m₂ n₂' ∧ m₂.type = m.type ∧ m₂.params = m.params ∧
      n₂'.evened = n'.evened := by
  obtain ⟨as, hpassed⟩ := element_passed hn hcontent he h
  obtain rfl := hpassed.eq
  have hblock : ∀ kind, m.type ≠ .block kind := h.block
  obtain ⟨e₂, hcontent₂, hname, hempty, hself, hraw, hentries⟩ := hagrees.exists_element
  obtain ⟨hrest, hfragment, hclean⟩ :=
    takeFragment_written hentries hpassed.fullName_ne fun _ => hpassed.fragment_eq_some
  obtain ⟨m₂, hfirst₂, htype, hparams, hmcontent⟩ :=
    hpassed.first_again hn he hn₂ hcontent₂ hname hraw hrest hfragment hclean
  obtain ⟨as₂, hfinishes₂, heven⟩ := hpassed.finishes.returns hlang he (hreopens _ rfl) hrest
  rw [← htype] at hfinishes₂ hblock
  have htext : m₂.type ≠ .text := htype ▸ hpassed.type_ne_text
  have hsecond₂ : m₂.Runs lang (Pass.second typed) (m₂.finished e₂ as₂) :=
    (runs_second_iff_finishes (hpassed.named he hrest) hmcontent htext hblock).mpr
      ⟨as₂, hfinishes₂, rfl⟩
  refine ⟨m₂, _, ⟨hfirst₂, hsecond₂, hblock⟩, htype, hparams, ?_⟩
  have hneeds : as₂.any Attribute.needsReference = as.any Attribute.needsReference := by
    have hany := congrArg (List.any · Attribute.needsReference) heven
    simpa [Function.comp_def, Attribute.needsReference_evened] using hany
  have hname : e₂.name = e.name := hname
  have hempty : e₂.empty = e.empty := hempty
  have hself : e₂.selfClosing = e.selfClosing := hself
  have hraw : e₂.raw = e.raw := hraw
  simp only [Node.evened, Node.finished, Content.evened, heven, hneeds, hname, hempty, hself, hraw,
    htype, hparams]

end Elements

section Nodes

variable {lang : Language} {typed affix : Bool} {n m n' n₂ : Node}

/-- The first passes leave alone what is no tag. -/
theorem runs_first_iff_of_leaf
    (hn : n.type ≠ .element ∧ n.type ≠ .script ∧ n.type ≠ .style) :
    n.Runs lang Pass.first m ↔ m = n := by
  obtain ⟨helement, hscript, hstyle⟩ := hn
  constructor
  · rintro ⟨k, htypes, k', hembedded, rfl⟩
    have hk : k = n := by
      cases htypes with
      | idle => rfl
      | typed htype => exact absurd htype helement
    subst hk
    cases hembedded with
    | idle => rfl
    | script htype => exact absurd htype hscript
    | style htype => exact absurd htype hstyle
  · rintro rfl
    exact ⟨m, .idle fun h => absurd h helement, m,
      .idle (show _ ∧ _ from ⟨fun h => absurd h hscript, fun h => absurd h hstyle⟩), rfl⟩

/-- A text without braces becomes literal text. -/
theorem made_iff_of_text {text : String} (hn : n.Fresh) (hraw : n.content = .text (.raw text))
    (hbrace : '\x7b' ∉ text.toList) :
    Node.Made lang typed n m n' ↔
      m = n ∧ n' = { n with content := .text (.parts (literalPart text.toList)) } := by
  have htype : n.type = .text := by rw [hn.type, hraw]; rfl
  have hread : interpolate (lang.expression typed) text =
      .ok (literalPart text.toList) := interpolate_of_braceless hbrace
  have hfirst : n.Runs lang Pass.first m ↔ m = n := runs_first_iff_of_leaf (by simp [htype])
  constructor
  · rintro ⟨hm, ⟨k, hblocks, k', hattributes, k'', htexts, rfl⟩, -⟩
    obtain rfl := hfirst.mp hm
    obtain rfl := hblocks.blocks_eq
    obtain rfl := hattributes.attributes_eq (by rw [htype]; rfl)
    cases htexts with
    | idle hsettled => exact absurd hraw (hsettled htype text)
    | text _ hraw' hread' =>
        obtain rfl := TextContent.raw.inj (Content.text.inj (hraw.symm.trans hraw'))
        rw [hread] at hread'
        rw [Except.ok.inj hread']
        exact ⟨rfl, rfl⟩
  · rintro ⟨hm, rfl⟩
    refine ⟨hfirst.mpr hm, ?_, by simp [htype]⟩
    rw [hm]
    exact ⟨n, .idle fun kind _ hkind => by simp [htype] at hkind, n,
      .idle fun _ hhost => by simp [htype, NodeType.isHost] at hhost, _,
      .text htype hraw hread (isDynamic_literalPart _), rfl⟩

/-- What is neither tag nor text is left alone. -/
theorem made_iff_of_leaf (htype : n.type = .comment ∨ n.type = .document) :
    Node.Made lang typed n m n' ↔ m = n ∧ n' = n := by
  have hblock : ∀ kind, n.type ≠ .block kind := by rcases htype with h | h <;> simp [h]
  have hfirst : n.Runs lang Pass.first m ↔ m = n :=
    runs_first_iff_of_leaf (by rcases htype with h | h <;> simp [h])
  have hsecond : n.Runs lang (Pass.second typed) n' ↔ n' = n := by
    rw [runs_second_iff hblock (by rcases htype with h | h <;> simp [h])]
    have hhost : n.type.isHost = false := by rcases htype with h | h <;> rw [h] <;> rfl
    constructor
    · exact fun h => h.attributes_eq hhost
    · rintro rfl
      exact .idle fun _ h => by simp [hhost] at h
  constructor
  · rintro ⟨hm, hn', -⟩
    obtain rfl := hfirst.mp hm
    exact ⟨rfl, hsecond.mp hn'⟩
  · rintro ⟨rfl, rfl⟩
    exact ⟨hfirst.mpr rfl, hsecond.mpr rfl, hblock⟩

/-- A node as it is read from a source without braces. -/
structure Node.Pristine (n : Node) : Prop where
  fresh : n.Fresh
  braceless : n.Braceless
  undivided : ∀ parts, n.content ≠ .text (.parts parts)
  plain : ∀ e, n.content = .element e → e.Plain

/-- The node is an element, a raw text, or neither of the two. -/
theorem Node.Pristine.content_cases (hn : n.Pristine) : (∃ e, n.content = .element e) ∨
    (∃ text, n.content = .text (.raw text)) ∨ (n.type = .comment ∨ n.type = .document) := by
  have htype := hn.fresh.type
  cases hcontent : n.content with
  | element e => exact .inl ⟨e, rfl⟩
  | text t =>
      cases t with
      | raw text => exact .inr (.inl ⟨text, rfl⟩)
      | parts parts => exact absurd hcontent (hn.undivided parts)
  | comment c => exact .inr (.inr (.inl (by rw [htype, hcontent]; rfl)))
  | document => exact .inr (.inr (.inr (by rw [htype, hcontent]; rfl)))

/-- What is printed of a node that is no element is what was read. -/
theorem Node.Made.content_written (h : Node.Made lang typed n m n') (hn : n.Pristine)
    (hno : ∀ e, n.content ≠ .element e) (affix : Bool) : (n'.written affix).content = n.content := by
  rcases hn.content_cases with ⟨e, he⟩ | ⟨text, hraw⟩ | hleaf
  · exact absurd he (hno e)
  · obtain ⟨-, rfl⟩ := (made_iff_of_text hn.fresh hraw (hn.braceless.text text hraw)).mp h
    simp [Node.written, Content.written, printParts_literalPart, hraw]
  · obtain ⟨-, rfl⟩ := (made_iff_of_leaf hleaf).mp h
    simp only [Node.written]
    cases hcontent : n'.content with
    | element e => exact absurd hcontent (hno e)
    | text t =>
        cases t with
        | raw text => rfl
        | parts parts => exact absurd hcontent (hn.undivided parts)
    | comment | document => rfl

/-- **One node.**  What is printed of a node that has been through all passes can go through them
again, and they make the same of it. -/
theorem node_returns (hlang : lang.ReadsTrimmed) (hn : n.Pristine)
    (h : Node.Made lang typed n m n') (hreopens : n'.Reopens)
    (hn₂ : n₂.Fresh) (hagrees : n₂.content.Agrees (n'.written affix).content) :
    ∃ m₂ n₂', Node.Made lang typed n₂ m₂ n₂' ∧ m₂.type = m.type ∧ m₂.params = m.params ∧
      n₂'.evened = n'.evened := by
  have hparams : n₂.params = n.params := hn₂.params.trans hn.fresh.params.symm
  have hkept : (∀ e, n.content ≠ .element e) → n₂.content = n.content ∧ n₂.type = n.type := by
    intro hno
    have hwritten := h.content_written hn hno affix
    have hcontent := (hagrees.eq (by rwa [hwritten])).trans hwritten
    exact ⟨hcontent, by rw [hn₂.type, hcontent, hn.fresh.type]⟩
  rcases hn.content_cases with ⟨e, he⟩ | ⟨text, hraw⟩ | hleaf
  · exact element_returns hlang hn.fresh he (hn.plain e he) h hreopens hn₂ hagrees
  · obtain ⟨hcontent, htype⟩ := hkept (by simp [hraw])
    have hbrace := hn.braceless.text text hraw
    obtain ⟨rfl, rfl⟩ := (made_iff_of_text hn.fresh hraw hbrace).mp h
    refine ⟨n₂, _, (made_iff_of_text hn₂ (hcontent.trans hraw) hbrace).mpr ⟨rfl, rfl⟩, htype, hparams,
      ?_⟩
    simp only [Node.evened, htype, hparams]
  · obtain ⟨hcontent, htype⟩ := hkept fun e he => by
      have htype := hn.fresh.type
      rcases hleaf with hleaf | hleaf <;> simp [hleaf, he, Content.type] at htype
    obtain ⟨rfl, rfl⟩ := (made_iff_of_leaf hleaf).mp h
    refine ⟨n₂, n₂, (made_iff_of_leaf (by rwa [htype])).mpr ⟨rfl, rfl⟩, htype, hparams, ?_⟩
    simp only [Node.evened, hcontent, htype, hparams]

end Nodes

end Stencil.Markup
