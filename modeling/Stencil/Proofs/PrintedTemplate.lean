import Stencil.Proofs.PrintedNodes
import Stencil.Proofs.Served

/-!
# Printing what was transformed and reading it again

A template without opening braces and without blocks is read and transformed without a problem, and
printed.  The tags as they are printed could have been written by an author
(`Element.Passed.scanned`), so the printed document shows trees, and if these are legible, then what is
read from the printed text shows the same trees.  The nodes of the two documents then go in pairs
(`Document.Pairs`), the passes make the same of both nodes of a pair, and so the two transformed
documents have the same structure (`parseTemplate_printed`).

Values are not always legible: the printer puts every divided value between double quotes, whatever
stands in it (`not_parseTemplate_printed_quotes`).
-/

namespace Stencil.Markup

open Stencil.Text Stencil.Passes
open Stencil.Script (Language ReadsTrimmed)

/-- Attributes are scanned well exactly if each is, and an empty unquoted value is the last. -/
theorem scannedAttributes_iff {xs : List (String × Option (String × Quote))} :
    ScannedAttributes xs ↔ (∀ x ∈ xs, ScannedAttribute x.1 x.2) ∧
      xs.Pairwise fun x _ => x.2 ≠ some ("", .unquoted) := by
  induction xs with
  | nil => simp [ScannedAttributes]
  | cons x rest ih =>
      obtain ⟨name, value⟩ := x
      rw [ScannedAttributes, ih, List.forall_mem_cons, List.pairwise_cons]
      have hlast : (value = some ("", .unquoted) → rest = []) ↔
          ∀ y ∈ rest, value ≠ some ("", .unquoted) := by
        rw [List.eq_nil_iff_forall_not_mem]
        exact ⟨fun h y hy hvalue => h hvalue y hy, fun h hvalue y hy => h y hy hvalue⟩
      rw [hlast]
      tauto

/-- The text of a value that is not divided. -/
def Value.quoted? : Value → Option (String × Quote)
  | .text t quote => some (t, quote)
  | _ => none

/-- The name and the value of an attribute as they are written. -/
def Attribute.spelled (a : Attribute) : PlainAttribute := ⟨a.name, a.value.quoted?⟩

/-- The tag of an element whose values are not divided. -/
def Element.tag (e : Element) : Tag :=
  ⟨e.name, e.empty, e.selfClosing, e.attributes.map Attribute.spelled, e.raw⟩

section Tags

variable {lang : Language} {typed affix : Bool} {n m n' : Node} {e : Element} {t : Tag}
  {as : List Attribute}

/-- An element with undivided values shows its tag. -/
theorem Element.shows_tag (h : ∀ a ∈ e.attributes, ∀ parts quote, a.value ≠ .parts parts quote) :
    e.Shows e.tag where
  name := rfl
  empty := rfl
  selfClosing := rfl
  raw := rfl
  attributes := by
    rw [tag, List.map_map]
    refine List.map_congr_left fun a ha => ?_
    have hcontent : a.spelled.content = a.value := by
      cases hvalue : a.value with
      | empty => simp [Attribute.spelled, PlainAttribute.content, Value.quoted?, hvalue]
      | text => simp [Attribute.spelled, PlainAttribute.content, Value.quoted?, hvalue]
      | parts parts quote => exact absurd hvalue (h a ha parts quote)
    exact Prod.ext rfl hcontent.symm

/-- The values of a tag that is shown are not divided. -/
theorem Element.Shows.undivided (h : e.Shows t) :
    ∀ a ∈ e.attributes, ∀ parts quote, a.value ≠ .parts parts quote := by
  intro a ha parts quote hvalue
  have hmem := List.mem_map_of_mem (f := fun a : Attribute => (a.name, a.value)) ha
  rw [h.attributes] at hmem
  obtain ⟨b, -, heq⟩ := List.mem_map.mp hmem
  have hcontent := congrArg Prod.snd heq
  simp only [PlainAttribute.content, hvalue] at hcontent
  split at hcontent <;> simp at hcontent

/-- An element shows no other tag than its own. -/
theorem Element.Shows.tag_eq (h : e.Shows t) : e.tag = t :=
  (Element.shows_tag h.undivided).unique h

/-- What is printed is not divided. -/
theorem Element.written_undivided (fragment : Option String) (e : Element) :
    ∀ a ∈ (e.written affix fragment).attributes, ∀ parts quote, a.value ≠ .parts parts quote := by
  intro a ha parts quote
  rcases List.mem_append.mp ha with ha | ha
  · obtain ⟨name, -, rfl⟩ := Option.map_eq_some_iff.mp (Option.mem_toList.mp ha)
    simp [fragmentAttribute]
  · obtain ⟨b, -, rfl⟩ := List.mem_map.mp ha
    exact b.value.written_ne_parts parts quote

/-- The values of a written element are undivided. -/
theorem Node.written_undivided (h : (n.written affix).content = .element e) :
    ∀ a ∈ e.attributes, ∀ parts quote, a.value ≠ .parts parts quote := by
  cases hcontent : n.content with
  | element e' =>
      simp only [written, hcontent, Content.written, Content.element.injEq] at h
      exact h ▸ Element.written_undivided _ _
  | text t => cases t <;> simp [written, hcontent, Content.written] at h
  | comment | document => simp [written, hcontent, Content.written] at h

/-- The attribute for the name of a fragment is scanned well. -/
theorem fragmentAttribute_scanned (name : String) :
    ScannedAttribute (fragmentAttribute affix name).spelled.written.1
      (fragmentAttribute affix name).spelled.written.2 := by
  have hfull : (fragmentAttribute affix name).spelled.written.1 = fragmentName :=
    full_fragmentAttribute affix name
  rw [hfull]
  refine ⟨List.all_eq_true.mp (by decide), by decide, fun hnil => absurd hnil (by decide),
    fun text quote hvalue => ?_⟩
  have hvalue : some (name, Quote.double) = some (text, quote) := hvalue
  obtain ⟨-, rfl⟩ := Prod.mk.inj (Option.some.inj hvalue)
  trivial

/-- The attribute as it is printed could have been written. -/
structure Attribute.Spelled (affix : Bool) (a : Attribute) : Prop where
  divided : a.name = if affix then .split a.name.full else { base := a.name.full }
  scanned : ScannedAttribute a.spelled.written.1 a.spelled.written.2

/-- The attributes could have been written in one tag. -/
structure AttributesSpelled (affix : Bool) (as : List Attribute) : Prop where
  each : ∀ a ∈ as, a.Spelled affix
  apart : as.Pairwise fun a _ => a.value ≠ .text "" .unquoted

/-- A value is quoted exactly if it is one text. -/
theorem quoted?_eq_some {v : Value} {text : String} {quote : Quote} :
    v.quoted? = some (text, quote) ↔ v = .text text quote := by
  cases v <;> simp [Value.quoted?]

/-- A tag could have been written if its attributes could have been, and the rest of another tag that
could. -/
theorem Element.scanned_tag_iff : e.tag.Scanned affix ↔
    AttributesSpelled affix e.attributes ∧ ({ e with attributes := [] } : Element).tag.Scanned affix := by
  have hattributes : ScannedAttributes (e.tag.attributes.map PlainAttribute.written) ↔
      (∀ a ∈ e.attributes, ScannedAttribute a.spelled.written.1 a.spelled.written.2) ∧
        e.attributes.Pairwise fun a _ => a.value ≠ .text "" .unquoted := by
    rw [scannedAttributes_iff, tag, List.map_map, List.forall_mem_map, List.pairwise_map]
    simp only [Function.comp_apply, PlainAttribute.written, Attribute.spelled, ne_eq, quoted?_eq_some]
  constructor
  · intro h
    obtain ⟨hscanned, hapart⟩ := hattributes.mp h.attributes
    refine ⟨⟨fun a ha => ⟨?_, hscanned a ha⟩, hapart⟩, h.name, h.empty, by simp [tag], ?_, h.raw,
      h.plain⟩
    · exact h.divided a.spelled (List.mem_map_of_mem ha)
    · trivial
  · rintro ⟨⟨heach, hapart⟩, h⟩
    refine ⟨h.name, h.empty, fun a ha => ?_, hattributes.mpr ⟨fun a ha => (heach a ha).scanned, hapart⟩,
      h.raw, h.plain⟩
    obtain ⟨b, hb, rfl⟩ := List.mem_map.mp ha
    exact (heach b hb).divided

/-- Some of the spelled attributes are spelled. -/
theorem AttributesSpelled.sublist {bs : List Attribute} (h : AttributesSpelled affix as)
    (hbs : bs.Sublist as) : AttributesSpelled affix bs :=
  ⟨fun a ha => h.each a (hbs.subset ha), h.apart.sublist hbs⟩

/-- Dividing and printing a value keeps an attribute such that it could have been written. -/
theorem Attribute.Divides.spelled {read : String → Except Script.Fault Script.Expression}
    (htrims : ReadsTrimmed read) {a : Attribute} {v : Value} (h : a.Divides read v)
    (ha : a.Spelled affix) (hbraceless : a.Braceless) :
    ({ a with value := v } : Attribute).written.Spelled affix where
  divided := ha.divided
  scanned := by
    refine ⟨ha.scanned.part, ha.scanned.start, fun hnil => ?_, fun text quote hvalue => ?_⟩
    · -- without a name, the value stood in braces
      obtain ⟨text, hvalue⟩ := ha.scanned.anonymous hnil
      exact absurd rfl (hbraceless.value text .brace (quoted?_eq_some.mp hvalue)).1
    · exact (h.yields htrims (quoted?_eq_some.mp hvalue)).1

/-- The attributes of an element that has been through all passes, as they are printed, could have been
written. -/
theorem Element.Finishes.spelled (hlang : lang.ReadsTrimmed) {type : NodeType}
    (h : e.Finishes lang typed type as) (he : e.Plain)
    (hspelled : AttributesSpelled affix e.attributes) :
    AttributesSpelled affix (as.map Attribute.written) := by
  have htaken := hspelled.sublist (takeFragment_snd e).2
  cases hhost : type.isHost with
  | false =>
      have hsame : as.map Attribute.written = (takeFragment e).2.attributes.map Attribute.kinded := by
        rw [h.other hhost, List.map_map]
        refine List.map_congr_left fun a ha => ?_
        have hbraceless := he.braceless a ((takeFragment_snd e).2.subset ha)
        have hwritten := hbraceless.kinded.written
        exact congrArg (fun v => { a.kinded with value := v }) hwritten
      rw [hsame]
      refine ⟨List.forall_mem_map.mpr fun a ha => ?_, List.pairwise_map.mpr htaken.apart⟩
      exact ⟨(htaken.each a ha).divided, (htaken.each a ha).scanned⟩
  | true =>
      constructor
      · rw [List.forall_mem_map]
        intro b hb
        obtain ⟨a, ha, v, hdivides, rfl⟩ := h.divides he hhost b hb
        have hspelled := htaken.each a ha
        have hkinded : a.kinded.Spelled affix := ⟨hspelled.divided, hspelled.scanned⟩
        exact hdivides.spelled (hlang typed) hkinded
          (he.braceless a ((takeFragment_snd e).2.subset ha)).kinded
      · rw [List.pairwise_map]
        refine List.pairwise_of_forall_mem_list fun b hb _ _ hvalue => ?_
        obtain ⟨a, -, v, hdivides, rfl⟩ := h.divides he hhost b hb
        exact (hdivides.yields (hlang typed) hvalue).2 rfl

/-- The name of a component can be written before all other attributes. -/
theorem AttributesSpelled.named (h : AttributesSpelled affix as) (fragment : Option String) :
    AttributesSpelled affix ((fragment.map (fragmentAttribute affix)).toList ++ as) := by
  cases fragment with
  | none => exact h
  | some name =>
      refine ⟨List.forall_mem_cons.mpr ⟨⟨?_, fragmentAttribute_scanned name⟩, h.each⟩, ?_⟩
      · have hfull : (fragmentAttribute affix name).name.full = fragmentName :=
          full_fragmentAttribute affix name
        rw [hfull]
        rfl
      · refine List.pairwise_cons.mpr ⟨fun _ _ => ?_, h.apart⟩
        simp [fragmentAttribute]

/-- **One tag.**  The tag that is printed of an element that has been through all passes could have been
written. -/
theorem Element.Passed.scanned (hlang : lang.ReadsTrimmed)
    (h : Element.Passed lang typed n m n' e as) (he : e.Plain) (hscanned : e.tag.Scanned affix)
    (fragment : Option String) :
    (({ e with attributes := as } : Element).written affix fragment).tag.Scanned affix := by
  rw [Element.scanned_tag_iff] at hscanned ⊢
  exact ⟨(h.finishes.spelled hlang he hscanned.1).named fragment, hscanned.2⟩

end Tags

section Nodes

variable {lang : Language} {s : Settings} {typed : Bool} {n m n' : Node}

/-- What becomes of a node keeps its children. -/
theorem Node.Made.children_eq (h : Node.Made lang typed n m n') : n'.children = n.children :=
  h.second.children_eq.trans h.first.children_eq

/-- A node that could have been written can be written after the passes, and is the same but for the
attributes of tags. -/
theorem Node.Made.scanned (hlang : lang.ReadsTrimmed) (h : Node.Made lang typed n m n')
    (hn : n.Pristine) (hscanned : n.Scanned s) :
    (n'.written s.affix).content.bald = n.content.bald ∧ (n'.written s.affix).Scanned s := by
  have hchildren : (n'.written s.affix).children = n.children := h.children_eq
  by_cases helement : ∃ e, n.content = .element e
  · obtain ⟨e, he⟩ := helement
    obtain ⟨as, hpassed⟩ := element_passed hn.fresh he (hn.plain e he) h
    have hcontent : (n'.written s.affix).content =
        .element (({ e with attributes := as } : Element).written s.affix n'.params.fragment) := by
      obtain rfl := hpassed.eq
      rfl
    refine ⟨by rw [hcontent, he]; rfl, ?_⟩
    simp only [Node.Scanned, he] at hscanned
    simp only [Node.Scanned, hcontent, hchildren]
    obtain ⟨tag, hshows, htag, hleaf⟩ := hscanned
    obtain rfl := hshows.tag_eq
    exact ⟨_, Element.shows_tag (Element.written_undivided _ _),
      hpassed.scanned hlang (hn.plain e he) htag _, hleaf⟩
  · have hcontent := h.content_written hn (fun e he => helement ⟨e, he⟩) s.affix
    exact ⟨congrArg Content.bald hcontent, hscanned.congr hcontent fun hnil => hchildren.trans hnil⟩

/-- A node that was just read is written as it was read. -/
theorem Node.Pristine.content_written (hn : n.Pristine) (affix : Bool) :
    (n.written affix).content = n.content := by
  have hfragment : n.params.fragment = none := by rw [hn.fresh.params]
  simp only [Node.written, hfragment]
  cases hcontent : n.content with
  | element e =>
      have hsame : e.attributes.map Attribute.written = e.attributes := by
        refine (List.map_congr_left fun a ha => ?_).trans (List.map_id _)
        exact congrArg (fun v => { a with value := v }) ((hn.plain e hcontent).braceless a ha).written
      simp only [Content.written, Element.written, hsame, Option.map_none, Option.toList_none,
        List.nil_append]
  | text t =>
      cases t with
      | raw text => rfl
      | parts parts => exact absurd hcontent (hn.undivided parts)
  | comment | document => rfl

/-- What becomes of a node is determined. -/
theorem Node.Made.unique {m₂ n₂ : Node} (h : Node.Made lang typed n m n')
    (h₂ : Node.Made lang typed n m₂ n₂) :
    m₂ = m ∧ n₂ = n' := by
  obtain rfl := h.first.unique h₂.first
  exact ⟨rfl, h.second.unique h₂.second⟩

end Nodes

namespace Document

variable {s : Settings} {d d' : Document} {ts : List Tree}

/-- A regular document, with its root first and children behind their parents. -/
structure Readable (s : Settings) (d : Document) : Prop where
  regular : d.Regular s
  forward : d.Forward
  root : (d.node 0).content = .document

/-- Attached nodes of two documents that show the same tree, or are their roots. -/
structure Pairs (d d' : Document) (i j : Nat) : Prop where
  left : i ∈ d.walk
  right : j ∈ d'.walk
  tree : (i = 0 ∧ j = 0) ∨ ∃ t, d.Holds (· < d.size) i t ∧ d'.Holds (· < d'.size) j t

/-- Pairing goes both ways. -/
theorem Pairs.symm {i j : Nat} (h : d.Pairs d' i j) : d'.Pairs d j i :=
  ⟨h.right, h.left, h.tree.imp And.symm fun ⟨t, ht, ht'⟩ => ⟨t, ht', ht⟩⟩

/-- Nodes that show the same trees in order are pairs. -/
theorem HoldsAll.pairs {is js : List Nat} (h : d.HoldsAll (· < d.size) is ts)
    (h' : d'.HoldsAll (· < d'.size) js ts) (his : is ⊆ d.walk) (hjs : js ⊆ d'.walk) :
    List.Forall₂ (d.Pairs d') is js := by
  induction ts generalizing is js with
  | nil =>
      cases is with
      | cons _ _ => simp [HoldsAll] at h
      | nil =>
          cases js with
          | cons _ _ => simp [HoldsAll] at h'
          | nil => exact .nil
  | cons t ts ih =>
      cases is with
      | nil => simp [HoldsAll] at h
      | cons i is =>
          cases js with
          | nil => simp [HoldsAll] at h'
          | cons j js =>
              simp only [HoldsAll] at h h'
              obtain ⟨hi, his⟩ := List.cons_subset.mp his
              obtain ⟨hj, hjs⟩ := List.cons_subset.mp hjs
              exact .cons ⟨hi, hj, .inr ⟨t, h.1, h'.1⟩⟩ (ih h.2 h'.2 his hjs)

/-- Nothing is below texts and comments. -/
theorem Regular.children_of_leaf {i : Nat} (h : d.Regular s)
    (hleaf : (d.node i).content.type = .text ∨ (d.node i).content.type = .comment) :
    d.children i = [] := by
  have hnode := h.nodes i
  unfold Node.Scanned at hnode
  split at hnode
  · next hcontent => simp [hcontent, Content.type] at hleaf
  · exact hnode.1
  · exact hnode.1
  · next hcontent => simp [hcontent, Content.type] at hleaf

/-- What is below the two nodes of a pair are pairs. -/
theorem Pairs.children {i j : Nat} (h : d.Pairs d' i j) (hd : d.Readable s) (hd' : d'.Readable s)
    (hshows : d.Shows ts) (hshows' : d'.Shows ts) :
    List.Forall₂ (d.Pairs d') (d.children i) (d'.children j) := by
  have his : d.children i ⊆ d.walk := fun c hc => mem_walk_of_child hd.forward h.left hc
  have hjs : d'.children j ⊆ d'.walk := fun c hc => mem_walk_of_child hd'.forward h.right hc
  rcases h.tree with ⟨rfl, rfl⟩ | ⟨t, ht, ht'⟩
  · exact HoldsAll.pairs hshows hshows' his hjs
  · cases t with
    | text text =>
        rw [hd.regular.children_of_leaf (.inl (by rw [ht.2]; rfl)),
          hd'.regular.children_of_leaf (.inl (by rw [ht'.2]; rfl))]
        exact .nil
    | comment content =>
        rw [hd.regular.children_of_leaf (.inr (by rw [ht.2]; rfl)),
          hd'.regular.children_of_leaf (.inr (by rw [ht'.2]; rfl))]
        exact .nil
    | element tag children =>
        simp only [Holds] at ht ht'
        exact HoldsAll.pairs ht.2.2.2 ht'.2.2.2 his hjs

/-- The two nodes of a pair hold the same, or elements that are written alike. -/
theorem Pairs.agrees {i j : Nat} (h : d.Pairs d' i j) (hd : d.Readable s) (hd' : d'.Readable s) :
    (d.node i).content.Agrees (d'.node j).content := by
  rcases h.tree with ⟨rfl, rfl⟩ | ⟨t, ht, ht'⟩
  · rw [hd.root, hd'.root]
    exact .same _
  · cases t with
    | text text =>
        rw [ht.2, ht'.2]
        exact .same _
    | comment content =>
        rw [ht.2, ht'.2]
        exact .same _
    | element tag children =>
        simp only [Holds] at ht ht'
        obtain ⟨-, ⟨e, he, hshows⟩, -⟩ := ht
        obtain ⟨-, ⟨e', he', hshows'⟩, -⟩ := ht'
        rw [he, he']
        exact .element ⟨hshows.name.trans hshows'.name.symm, hshows.empty.trans hshows'.empty.symm,
          hshows.selfClosing.trans hshows'.selfClosing.symm, hshows.raw.trans hshows'.raw.symm,
          hshows.attributes.trans hshows'.attributes.symm⟩

/-- Each attached node belongs to a pair: the root does, and so do the children of one that does. -/
theorem exists_pairs (hd : d.Readable s) (hd' : d'.Readable s) (hshows : d.Shows ts)
    (hshows' : d'.Shows ts) {i : Nat} (hi : i ∈ d.walk) : ∃ j, d.Pairs d' i j := by
  induction i using Nat.strong_induction_on with
  | _ i ih =>
      rcases mem_walk_cases hi with rfl | ⟨p, hp, hchild⟩
      · exact ⟨0, hi, List.mem_cons_self, .inl ⟨rfl, rfl⟩⟩
      · obtain ⟨q, hpair⟩ := ih p (hd.forward p i hchild).1 hp
        obtain ⟨j, -, hj⟩ :=
          exists_mem_of_forall₂ (hpair.children hd hd' hshows hshows').flip i hchild
        exact ⟨j, hj⟩

/-- If the nodes of all pairs are the same but for their places, so are the structures below them. -/
theorem Pairs.alike {a a' : Document} {i j : Nat} (h : d.Pairs d' i j) (hd : d.Readable s)
    (hd' : d'.Readable s) (hshows : d.Shows ts) (hshows' : d'.Shows ts) (ha : d.SameTree a)
    (ha' : d'.SameTree a')
    (hnodes : ∀ i j, d.Pairs d' i j → (a.node i).evened = (a'.node j).evened) : a.Alike a' i j := by
  -- children come behind their parents
  induction hlevels : d.size - i using Nat.strong_induction_on generalizing i j with
  | _ levels ih =>
      refine .node (hnodes i j h) ?_
      rw [ha.children, ha'.children]
      have hall := (List.forall₂_and_left (p := (· ∈ d.children i)) _ _).mpr
        ⟨fun _ hc => hc, h.children hd hd' hshows hshows'⟩
      refine hall.imp fun c c' ⟨hc, hpair⟩ => ?_
      have hforward := hd.forward i c hc
      exact ih (d.size - c) (by omega) hpair rfl

end Document

section Documents

variable {lang : Language} {s : Settings} {affix typed : Bool} {d r r' : Document} {f : Nat → Node}
  {ts : List Tree}

/-- A written document is walked in the same order. -/
theorem Document.walk_written (affix : Bool) (d : Document) : (d.written affix).walk = d.walk :=
  Document.SameTree.walk_eq ⟨d.size_written affix, d.children_written affix, rfl⟩

/-- **All nodes.**  The passes have made the nodes of a document from pristine ones.  If another document
that was just read shows what is printed of it, then the passes have no problem with that one, and
what they make of it has the same structure. -/
theorem transform_returns (hlang : lang.ReadsTrimmed) (hpristine : ∀ i ∈ r.walk, (d.node i).Pristine)
    (hmade : ∀ i ∈ r.walk, Node.Made lang typed (d.node i) (f i) (r.node i))
    (htyped : (r.walk.any fun i => (f i).type == .script && (f i).params.typescript) = typed)
    (hreopens : ∀ i ∈ r.walk, (r.node i).Reopens) (hr : (r.written affix).Readable s)
    (hr' : r'.Readable s) (hforest : r'.Forest) (hfresh : ∀ j, (r'.node j).Fresh)
    (hshows : (r.written affix).Shows ts) (hshows' : r'.Shows ts) :
    ∃ d', transform lang r' = { document := d' } ∧ r.Alike d' 0 0 := by
  have hwalk := r.walk_written affix
  have hreturns : ∀ i j, (r.written affix).Pairs r' i j → ∃ m n,
      Node.Made lang typed (r'.node j) m n ∧ m.type = (f i).type ∧ m.params = (f i).params ∧
        n.evened = (r.node i).evened := by
    intro i j hpair
    have hi : i ∈ r.walk := hwalk ▸ hpair.left
    have hagrees := hpair.symm.agrees hr' hr
    rw [Document.node_written] at hagrees
    exact node_returns hlang (hpristine i hi) (hmade i hi) (hreopens i hi) (hfresh j) hagrees
  have hpairs : ∀ j ∈ r'.walk, ∃ i, (r.written affix).Pairs r' i j := by
    intro j hj
    obtain ⟨i, hpair⟩ := Document.exists_pairs hr' hr hshows' hshows hj
    exact ⟨i, hpair.symm⟩
  have hagain : ∀ j ∈ r'.walk, ∃ m n, Node.Made lang typed (r'.node j) m n := by
    intro j hj
    obtain ⟨i, hpair⟩ := hpairs j hj
    obtain ⟨m, n, hmade', -⟩ := hreturns i j hpair
    exact ⟨m, n, hmade'⟩
  choose! f' g hmade' using hagain
  have hsame : ∀ i j, (r.written affix).Pairs r' i j → (f' j).type = (f i).type ∧
      (f' j).params = (f i).params ∧ (g j).evened = (r.node i).evened := by
    intro i j hpair
    obtain ⟨m, n, hmn, hm⟩ := hreturns i j hpair
    obtain ⟨rfl, rfl⟩ := (hmade' j hpair.right).unique hmn
    exact hm
  have htyped' : (r'.walk.any fun j => (f' j).type == .script && (f' j).params.typescript) = typed := by
    rw [← htyped, Bool.eq_iff_iff, List.any_eq_true, List.any_eq_true]
    constructor
    · rintro ⟨j, hj, hscript⟩
      obtain ⟨i, hpair⟩ := hpairs j hj
      obtain ⟨htype, hparams, -⟩ := hsame i j hpair
      exact ⟨i, hwalk ▸ hpair.left, by rwa [← htype, ← hparams]⟩
    · rintro ⟨i, hi, hscript⟩
      obtain ⟨j, hpair⟩ := Document.exists_pairs hr hr' hshows hshows' (hwalk.symm ▸ hi)
      obtain ⟨htype, hparams, -⟩ := hsame i j hpair
      exact ⟨j, hpair.right, by rwa [htype, hparams]⟩
  obtain ⟨d', htransform, htree, hnodes⟩ := transform_of_runs hforest
    (fun j hj => (hmade' j hj).first) htyped' fun j hj => (hmade' j hj).second
  have hroot : (r.written affix).Pairs r' 0 0 :=
    ⟨List.mem_cons_self, List.mem_cons_self, .inl ⟨rfl, rfl⟩⟩
  refine ⟨d', htransform, hroot.alike hr hr' hshows hshows' ?_ htree fun i j hpair => ?_⟩
  · exact ⟨(r.size_written affix).symm, fun i => (r.children_written affix i).symm, rfl⟩
  · rw [hnodes j hpair.right]
    exact (hsame i j hpair).2.2.symm

end Documents

section Sources

variable {lang : Language} {s : Settings} {source : String} {d r : Document} {typed : Bool}
  {f : Nat → Node}

/-- A document that resembles a readable one and scans well is readable. -/
theorem Document.Resembles.readable (h : d.Resembles r) (hd : d.Readable s)
    (hnodes : ∀ i, (r.node i).Scanned s) : r.Readable s := by
  refine ⟨h.regular hd.regular hnodes, h.forward hd.forward, ?_⟩
  rcases Node.content_cases_of_bald (h.bald 0) with heq | ⟨e, e', he, -⟩
  · exact heq.trans hd.root
  · simp [hd.root] at he

/-- What is printed of a document that has been through all passes resembles what was read, and its
nodes could have been written. -/
theorem written_resembles (hlang : lang.ReadsTrimmed) (hd : d.Regular s)
    (hpristine : ∀ i, (d.node i).Pristine)
    (htree : d.SameTree r) (hmade : ∀ i ∈ r.walk, Node.Made lang typed (d.node i) (f i) (r.node i))
    (hleft : ∀ i ∉ r.walk, r.node i = d.node i) :
    d.Resembles (r.written s.affix) ∧ ∀ i, ((r.written s.affix).node i).Scanned s := by
  have hwritten : ∀ i, ((r.written s.affix).node i).content.bald = (d.node i).content.bald ∧
      ((r.written s.affix).node i).Scanned s := by
    intro i
    rw [Document.node_written]
    by_cases hi : i ∈ r.walk
    · exact (hmade i hi).scanned hlang (hpristine i) (hd.nodes i)
    · rw [hleft i hi]
      have hcontent := (hpristine i).content_written s.affix
      exact ⟨congrArg Content.bald hcontent, (hd.nodes i).congr hcontent id⟩
  exact ⟨⟨htree.trans ⟨r.size_written _, r.children_written _, rfl⟩, fun i => (hwritten i).1⟩,
    fun i => (hwritten i).2⟩

/-- The root of a parsed document is the document. -/
theorem parse_root_content (s : Settings) (source : String) :
    ((parse s source).1.node 0).content = .document := by
  have htype := (parse_fresh s source 0).type.symm.trans (parse_root s source)
  cases hcontent : ((parse s source).1.node 0).content with
  | document => rfl
  | text | comment | element => simp [hcontent, Content.type] at htype

/-- What is read without a problem is readable. -/
theorem parse_readable (h : (parse s source).2 = []) : (parse s source).1.Readable s :=
  ⟨parse_regular h, (parse_wellFormed s source).forward, parse_root_content s source⟩

/-- What is read without a problem from a source without braces is pristine. -/
theorem parse_pristine (h : (parse s source).2 = []) (hbrace : '\x7b' ∉ source.toList) (i : Nat) :
    ((parse s source).1.node i).Pristine := by
  have hscanned := (parse_regular h).nodes i
  have hbraceless := parse_braceless (s := s) hbrace i
  refine ⟨parse_fresh s source i, hbraceless, fun parts hparts => ?_, fun e he => ?_⟩
  · simp [Node.Scanned, hparts] at hscanned
  · simp only [Node.Scanned, he] at hscanned
    obtain ⟨tag, hshows, htag, -⟩ := hscanned
    obtain rfl := hshows.tag_eq
    have hvalues := hbraceless.values e (by rw [Node.element?, he])
    obtain ⟨hspelled, -⟩ := Element.scanned_tag_iff.mp htag
    refine ⟨fun a ha => ?_, fun a ha => ⟨hshows.undivided a ha, hvalues a ha⟩⟩
    refine Attribute.not_isAnonymous_of_full (hspelled.each a ha).divided fun hnil => ?_
    obtain ⟨text, hvalue⟩ := (hspelled.each a ha).scanned.anonymous hnil
    exact absurd rfl (hvalues a ha text .brace (quoted?_eq_some.mp hvalue)).1

/-- What is printed of a template that was read and transformed without a problem, if it is legible, is
read and transformed without a problem, and has the same structure. -/
theorem transform_printed (hlang : lang.ReadsTrimmed) (hbrace : '\x7b' ∉ source.toList)
    (hclean : (parse s source).2 = [])
    (hr : (transform lang (parse s source).1).document = r)
    (herror : (transform lang (parse s source).1).error = none)
    (hfound : (transform lang (parse s source).1).diagnostics = [])
    (hwalk : r.walk = (parse s source).1.walk)
    (hblocks : ∀ i ∈ r.walk, ∀ kind, (r.node i).type ≠ .block kind)
    (hreopens : ∀ i ∈ r.walk, (r.node i).Reopens) :
    ∃ ts, (r.written s.affix).Shows ts ∧ (TreesLegible [] ts → (parse s r.print).2 = [] ∧
      ∃ d', transform lang (parse s r.print).1 = { document := d' } ∧ r.Alike d' 0 0) := by
  have hpristine := parse_pristine hclean hbrace
  obtain ⟨typed, f, hfirst, htyped, hsecond, htree, hleft⟩ :=
    runs_of_transform (parse_forest s source) herror hfound
      (fun i _ => (hpristine i).braceless.text) (by rwa [hr, ← hwalk])
  rw [hr] at hsecond htree hleft
  rw [← hwalk] at hfirst htyped hsecond hleft
  have hmade : ∀ i ∈ r.walk, Node.Made lang typed ((parse s source).1.node i) (f i) (r.node i) :=
    fun i hi => ⟨hfirst i hi, hsecond i hi, hblocks i hi⟩
  obtain ⟨hsame, hscanned⟩ := written_resembles hlang (parse_regular hclean) hpristine htree hmade hleft
  obtain ⟨ts, hshows, hagain⟩ := parse_resembling hclean hsame hscanned
    fun i => by rw [Document.node_written]; rfl
  refine ⟨ts, hshows, fun hlegible => ?_⟩
  obtain ⟨hclean', hshows'⟩ := hagain hlegible
  rw [Document.print_written] at hclean' hshows'
  exact ⟨hclean', transform_returns hlang (fun i _ => hpristine i) hmade htyped hreopens
    (hsame.readable (parse_readable hclean) hscanned) (parse_readable hclean')
    (parse_forest s r.print) (parse_fresh s r.print) hshows hshows'⟩

end Sources

end Stencil.Markup

namespace Stencil

open Stencil.Markup Stencil.Passes
open Stencil.Script (Language)

variable {lang : Language} {o : Options} {source : String}

/-- A template is parsed without an error where the markup is clean and the passes are. -/
theorem parseTemplate_of_clean {d : Document}
    (hclean : (parse o.markup source).2 = [])
    (h : transform lang (parse o.markup source).1 = { document := d }) :
    parseTemplate lang o source = { document := d } := by
  simp only [parseTemplate, hclean, h, List.append_nil]

/-- **Printing what was transformed and reading it again.**  A template without opening braces and
without blocks has been read and transformed without a problem.  What is printed of it shows trees.
If these are legible, and what stands in braces in the printed values is read as what it was, then the
printed template is read and transformed without a problem, and its structure is the same. -/
theorem parseTemplate_printed (hlang : lang.ReadsTrimmed) (hbrace : '\x7b' ∉ source.toList)
    (herror : (parseTemplate lang o source).error = none)
    (hfound : (parseTemplate lang o source).diagnostics = [])
    (hblocks : ∀ i ∈ (parseTemplate lang o source).document.walk, ∀ kind,
      ((parseTemplate lang o source).document.node i).type ≠ .block kind)
    (hreopens : ∀ i ∈ (parseTemplate lang o source).document.walk,
      ((parseTemplate lang o source).document.node i).Reopens) :
    let d := (parseTemplate lang o source).document
    ∃ ts, (d.written o.attributes.affix).Shows ts ∧ (TreesLegible [] ts →
      ∃ d', parseTemplate lang o d.print = { document := d' } ∧ d.Alike d' 0 0) := by
  obtain ⟨hclean, hnothing⟩ : (parse o.markup source).2 = [] ∧
      (transform lang (parse o.markup source).1).diagnostics = [] :=
    List.append_eq_nil_iff.mp hfound
  have hd : (transform lang (parse o.markup source).1).document =
      (parseTemplate lang o source).document := rfl
  obtain ⟨ts, hshows, hagain⟩ := transform_printed hlang hbrace hclean hd herror hnothing
    (parseTemplate_sameTree herror).walk_eq hblocks hreopens
  refine ⟨ts, hshows, fun hlegible => ?_⟩
  obtain ⟨hclean', d', htransform, halike⟩ := hagain hlegible
  exact ⟨d', parseTemplate_of_clean hclean' htransform, halike⟩

/-- A component with attributes in all kinds of quotes and without. -/
def quotedTemplate : String := "<p @name=Card a=b c='d' :e='f(\"g\")' :h>i</p>"

/-- What is printed of it. -/
def quotedTrees : List Tree :=
  [.element ⟨"p", false, false,
      [⟨.split "@name", some ("Card", .double)⟩, ⟨.split "a", some ("b", .double)⟩,
       ⟨.split "c", some ("d", .double)⟩, ⟨.split ":e", some ("\x7bf(\"g\")\x7d", .double)⟩,
       ⟨.split ":h", some ("h", .brace)⟩], none⟩
      [.text "i"]]

/-- The template with quotes shows its trees. -/
private theorem quotedTemplate_shows :
    ((parseTemplate Script.javaScript {} quotedTemplate).document.written true).Shows quotedTrees := by
  generalize hd : (parseTemplate Script.javaScript {} quotedTemplate).document = d
  obtain ⟨hsize, htop, hinside, htext, htag⟩ : (d.written true).size = 3 ∧
      (d.written true).children 0 = [1] ∧ (d.written true).children 1 = [2] ∧
      ((d.written true).node 2).content = .text (.raw "i") ∧
      ((d.written true).node 1).element?.map Element.tag = some ⟨"p", false, false,
        [⟨.split "@name", some ("Card", .double)⟩, ⟨.split "a", some ("b", .double)⟩,
         ⟨.split "c", some ("d", .double)⟩, ⟨.split ":e", some ("\x7bf(\"g\")\x7d", .double)⟩,
         ⟨.split ":h", some ("h", .brace)⟩], none⟩ := by
    rw [← hd]
    decide +kernel
  obtain ⟨e, he, htag⟩ := Option.map_eq_some_iff.mp htag
  have hcontent := Node.content_of_element? he
  have hshows := Element.shows_tag (Node.written_undivided ((d.node_written true 1) ▸ hcontent))
  rw [htag] at hshows
  simp only [Document.Shows, quotedTrees, htop, hsize, Document.HoldsAll, Document.Holds, hinside]
  exact ⟨⟨by decide, ⟨e, hcontent, hshows⟩, by rw [Document.node_written]; rfl,
    ⟨by decide, htext⟩, trivial⟩, trivial⟩

/-- The trees of the template with quotes are legible. -/
private theorem quotedTrees_legible : TreesLegible [] quotedTrees := by
  have hclosed : ∀ (stop : Char) (text : String),
      (text.toList.all fun c => c != '\x7b' && c != stop) = true → Closed (· ≠ stop) text.toList := by
    intro stop text hall
    exact closed_of_forall fun c hc => by simpa using List.all_eq_true.mp hall c hc
  have hquoted : ∀ rest (text : String), (text.toList.all fun c => c != '\x7b' && c != '"') = true →
      Quote.Legible rest .double text.toList := fun rest text h => (hclosed '"' text h).readsQuoted rest
  -- the quotes stand in braces
  have hcode : ∀ rest, Quote.Legible rest .double "\x7bf(\"g\")\x7d".toList := fun rest =>
    (@Closed.span (· ≠ '"') "f(\"g\")".toList [] rfl .nil).readsQuoted rest
  have htext : ∀ rest, ReadsText rest "i".toList := fun rest =>
    (hclosed '<' "i" (by decide)).readsText rest
  simp only [quotedTrees, TreesLegible, Tree.Legible, AttributesLegible, Option.some.injEq,
    Prod.mk.injEq, and_imp, and_true]
  refine ⟨⟨?_, ?_, ?_, ?_, ?_⟩, htext _⟩
  · rintro _ _ rfl rfl
    exact hquoted _ _ (by decide)
  · rintro _ _ rfl rfl
    exact hquoted _ _ (by decide)
  · rintro _ _ rfl rfl
    exact hquoted _ _ (by decide)
  · rintro _ _ rfl rfl
    exact hcode _
  · rintro _ _ rfl rfl
    trivial

/-- The name and the values are printed in double quotes, and read as before. -/
theorem parseTemplate_printed_quoted :
    let d := (parseTemplate Script.javaScript {} quotedTemplate).document
    Script.javaScript.ReadsTrimmed ∧
    (parseTemplate Script.javaScript {} quotedTemplate).error = none ∧
    (parseTemplate Script.javaScript {} quotedTemplate).diagnostics = [] ∧
    d.print = "<p @name=\"Card\" a=\"b\" c=\"d\" :e=\"\x7bf(\"g\")\x7d\" :h=\x7bh\x7d>i</p>" ∧
    ∃ d', parseTemplate Script.javaScript {} d.print = { document := d' } ∧ d.Alike d' 0 0 := by
  intro d
  obtain ⟨herror, hfound, htypes, hreopens, hprint⟩ :
      (parseTemplate Script.javaScript {} quotedTemplate).error.isNone = true ∧
      (parseTemplate Script.javaScript {} quotedTemplate).diagnostics = [] ∧
      (∀ i ∈ d.walk, (d.node i).type ∈ [.document, .fragment, .text]) ∧
      (∀ i ∈ d.walk, (d.node i).Reopens) ∧ d.print =
        "<p @name=\"Card\" a=\"b\" c=\"d\" :e=\"\x7bf(\"g\")\x7d\" :h=\x7bh\x7d>i</p>" := by
    decide +kernel
  have herror := Option.isNone_iff_eq_none.mp herror
  have hblocks : ∀ i ∈ d.walk, ∀ kind, (d.node i).type ≠ .block kind := fun i hi kind hkind => by
    simpa [hkind] using htypes i hi
  have hbrace : '\x7b' ∉ quotedTemplate.toList := by decide
  obtain ⟨ts, hts, hprinted⟩ := parseTemplate_printed
    Script.readsTrimmed_javaScript hbrace herror hfound hblocks hreopens
  obtain rfl := Document.HoldsAll.unique quotedTemplate_shows hts
  exact ⟨Script.readsTrimmed_javaScript, herror, hfound, hprint, hprinted quotedTrees_legible⟩

/-- A value with double quotes in it is printed between double quotes, where it ends at the first of
them. -/
theorem not_parseTemplate_printed_quotes :
    let d := (parseTemplate Script.javaScript {} "<a title='say \"hi\"'></a>").document
    let d' := (parseTemplate Script.javaScript {} d.print).document
    (parseTemplate Script.javaScript {} "<a title='say \"hi\"'></a>").error.isNone = true ∧
      (parseTemplate Script.javaScript {} "<a title='say \"hi\"'></a>").diagnostics = [] ∧
      d.print = "<a title=\"say \"hi\"\"></a>" ∧
      (parseTemplate Script.javaScript {} d.print).error.isNone = true ∧
      (parseTemplate Script.javaScript {} d.print).diagnostics = [] ∧
      d.elements.map (fun e => e.attributes.map fun a => (a.fullName, a.value)) =
        [[("title", .parts [.literal "say \"hi\""] .single)]] ∧
      d'.elements.map (fun e => e.attributes.map fun a => (a.fullName, a.value)) =
        [[("title", .parts [.literal "say "] .double), ("hi", .empty)]] ∧
      ¬ d.Alike d' 0 0 := by
  intro d d'
  obtain ⟨herror, hfound, hprint, herror', hfound', helements, helements', hbelow, hbelow', hfewer⟩ :
      (parseTemplate Script.javaScript {} "<a title='say \"hi\"'></a>").error.isNone = true ∧
      (parseTemplate Script.javaScript {} "<a title='say \"hi\"'></a>").diagnostics = [] ∧
      d.print = "<a title=\"say \"hi\"\"></a>" ∧
      (parseTemplate Script.javaScript {} d.print).error.isNone = true ∧
      (parseTemplate Script.javaScript {} d.print).diagnostics = [] ∧
      d.elements.map (fun e => e.attributes.map fun a => (a.fullName, a.value)) =
        [[("title", .parts [.literal "say \"hi\""] .single)]] ∧
      d'.elements.map (fun e => e.attributes.map fun a => (a.fullName, a.value)) =
        [[("title", .parts [.literal "say "] .double), ("hi", .empty)]] ∧
      d.children 0 = [1] ∧ d'.children 0 = [1] ∧
      (d.node 1).evened.content ≠ (d'.node 1).evened.content := by
    decide +kernel
  refine ⟨herror, hfound, hprint, herror', hfound', helements, helements', ?_⟩
  rintro ⟨-, hchildren⟩
  rw [hbelow, hbelow'] at hchildren
  obtain ⟨⟨hnode, -⟩, -⟩ := List.forall₂_cons.mp hchildren
  exact hfewer (congrArg Node.content hnode)

end Stencil
