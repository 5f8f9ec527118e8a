import Stencil.Proofs.Walk

/-!
# What the passes leave to do

Each pass knows its finished work by a sign of its own: a type that was given, a script that was
read, parameters of a block, values and texts that were divided.  `Node.Settled` says of a node that
a pass has nothing left to do there.

`Node.Works` lists what a pass can make of a node.  A pass settles every node on its way
(`Pass.settles_run`); once the types are given, no pass undoes the work of another
(`Node.Settled.work`); and where a pass has nothing left to do it changes nothing and reads no code
(`Pass.run_settled`).  So after all passes the document is the same after any further ones
(`parseTemplate_stable`).
-/

namespace Stencil.Markup

open Stencil.Text Stencil.Passes
open Stencil.Script (Language Fault Expression)

/-- Dividing the value of the attribute again changes nothing. -/
structure Attribute.Settled (a : Attribute) : Prop where
  named : a.isAnonymous = false
  divided : ∀ text quote, a.value ≠ .text text quote
  /-- A value that is missing stays missing. -/
  missing : a.value = .empty → ∀ name, impliedName a = some name → isName name = false

/-- Whether the attributes of nodes of this type are divided. -/
def NodeType.isHost : NodeType → Bool
  | .element | .component | .fragment => true
  | _ => false

/-- The hosts of attributes are elements, components and fragments. -/
theorem NodeType.isHost_iff {t : NodeType} :
    t.isHost = true ↔ t = .element ∨ t = .component ∨ t = .fragment := by
  cases t <;> simp [isHost]

/-- A pass has nothing left to do at the node. -/
def Node.Settled (n : Node) : Pass → Prop
  | .types => n.type = .element → n.isTag = true → n.params.typed = true
  | .embedded => (n.type = .script → n.params.script.isSome = true) ∧
      (n.type = .style → n.params.style.isSome = true)
  | .blocks => ∀ kind e, n.type = .block kind → n.element? = some e →
      n.params.block.isSome = true ∨ kind = .elseBlock ∧ e.attributes = []
  | .attributes => ∀ e, n.type.isHost = true → n.element? = some e →
      (∀ a ∈ e.attributes, a.Settled) ∧
        (e.attributes.any Attribute.needsReference = true → n.params.reference = true)
  | .texts => n.type = .text → ∀ text, n.content ≠ .text (.raw text)

/-- What a pass can make of a node that it works on. -/
inductive Node.Works (n : Node) : Pass → Node → Prop
  | typed {e : Element} (htype : n.type = .element) (htyped : n.params.typed = false)
      (he : n.element? = some e) : Works n .types (typeElement n e).1
  | script (htype : n.type = .script) (parts : Script.Parts) :
      Works n .embedded { n with params := { n.params with script := some parts } }
  | style (htype : n.type = .style) (sheet : Style.Sheet) :
      Works n .embedded { n with params := { n.params with style := some sheet } }
  | block {kind : BlockKind} {e : Element} {block : Option BlockParams}
      (htype : n.type = .block kind) (he : n.element? = some e) (hnone : n.params.block = none)
      (hblock : block = none → kind = .elseBlock) :
      Works n .blocks { n with
        content := .element { e with attributes := [] }
        params := { n.params with
          block, reference := n.params.reference || needsAnchor kind } }
  | attributes {e : Element} {as : List Attribute} (htype : n.type.isHost = true)
      (he : n.element? = some e) (hsettled : ∀ a ∈ as, a.Settled)
      (hsame : (∀ a ∈ e.attributes, a.Settled) → as = e.attributes) :
      Works n .attributes { n with
        content := .element { e with attributes := as }
        params := { n.params with
          reference := n.params.reference || as.any Attribute.needsReference } }
  | text {text : String} (htype : n.type = .text) (hraw : n.content = .text (.raw text))
      (parts : List Part) : Works n .texts { n with content := .text (.parts parts) }

namespace Node

variable {n n' : Node} {p q : Pass}

/-- A node with an element is a tag. -/
theorem isTag_of_element? {e : Element} (h : n.element? = some e) : n.isTag = true := by
  simp [isTag, h]

/-- The node as one that is needed when the component runs. -/
def marked (n : Node) : Node := { n with params := { n.params with reference := true } }

/-- **Work settles the node.** -/
theorem Works.settled (h : n.Works p n') : n'.Settled p := by
  cases h with
  | typed htype htyped he => exact fun _ _ => rfl
  | script htype parts => exact ⟨fun _ => rfl, fun hstyle => by simp [htype] at hstyle⟩
  | style htype sheet => exact ⟨fun hscript => by simp [htype] at hscript, fun _ => rfl⟩
  | @block kind e block htype he hnone hblock =>
      intro kind' e' htype' he'
      obtain rfl : kind = kind' := by simpa [htype] using htype'
      cases block with
      | some params => exact .inl rfl
      | none =>
          simp only [element?, Option.some.injEq] at he'
          exact .inr ⟨hblock rfl, by rw [← he']⟩
  | @attributes e as htype he hsettled hsame =>
      intro e' _ he'
      simp only [element?, Option.some.injEq] at he'
      subst he'
      exact ⟨hsettled, fun hneeds => by simp [hneeds]⟩
  | text htype hraw parts => simp [Settled]

/-- **No pass undoes the work of another**, once the types are given. -/
theorem Settled.work (h : n.Settled q) (htypes : n.Settled .types) (hwork : n.Works p n') :
    n'.Settled q := by
  by_cases hpq : p = q
  · exact hpq ▸ hwork.settled
  · cases hwork with
    | typed htype htyped he =>
        have hdone := htypes htype (isTag_of_element? he)
        rw [htyped] at hdone
        simp at hdone
    | script htype parts =>
        cases q with
        | embedded => exact absurd rfl hpq
        | types | blocks | attributes | texts => exact h
    | style htype sheet =>
        cases q with
        | embedded => exact absurd rfl hpq
        | types | blocks | attributes | texts => exact h
    | block htype he hnone hblock =>
        cases q with
        | blocks => exact absurd rfl hpq
        | types | embedded | texts => simp [Settled, htype]
        | attributes => simp [Settled, htype, NodeType.isHost]
    | attributes htype he hsettled hsame =>
        cases q with
        | attributes => exact absurd rfl hpq
        | types => exact fun helement _ => h helement (isTag_of_element? he)
        | embedded | blocks | texts =>
            rcases NodeType.isHost_iff.mp htype with ht | ht | ht <;> simp [Settled, ht]
    | text htype hraw parts =>
        cases q with
        | texts => exact absurd rfl hpq
        | types | embedded | blocks => simp [Settled, htype]
        | attributes => simp [Settled, htype, NodeType.isHost]

/-- A mark leaves a node settled. -/
theorem Settled.mark (h : n.Settled q) : n.marked.Settled q := by
  cases q with
  | attributes => exact fun e htype he => ⟨(h e htype he).1, fun _ => rfl⟩
  | types | embedded | blocks | texts => exact h

end Node

end Stencil.Markup

namespace Stencil.Passes

open Stencil.Markup Stencil.Text
open Stencil.Script (Language Fault Expression)

section Attributes

variable {read : String → Except Fault Expression} {a a' : Attribute} {as : List Attribute}

/-- What a reader succeeds with is taken over by what follows. -/
theorem exists_of_bind_eq_ok {α β ε : Type} {x : Except ε α} {f : α → Except ε β} {b : β}
    (h : x >>= f = .ok b) : ∃ a, x = .ok a ∧ f a = .ok b := by
  cases x with
  | error e => simp [bind, Except.bind] at h
  | ok a => exact ⟨a, rfl, h⟩

/-- A value is divided into parts, or it is missing and nothing is implied. -/
theorem dividedValue_cases {v : Value} (h : dividedValue read a = .ok v) :
    (∃ parts quote, v = .parts parts quote) ∨
      v = .empty ∧ ∀ name, impliedName a = some name → isName name = false := by
  unfold dividedValue at h
  split at h
  · exact .inl ⟨_, _, (Except.ok.inj h).symm⟩
  · split at h
    · next hnone => exact .inr ⟨(Except.ok.inj h).symm, by simp [hnone]⟩
    · next name hname =>
        split at h
        · obtain ⟨e, -, he⟩ := exists_of_bind_eq_ok h
          exact .inl ⟨_, _, (Except.ok.inj he).symm⟩
        · next hnot =>
            refine .inr ⟨(Except.ok.inj h).symm, ?_⟩
            intro name' hname'
            rw [hname, Option.some.injEq] at hname'
            simpa [hname'] using hnot
  · split at h
    · exact .inl ⟨_, _, (Except.ok.inj h).symm⟩
    · obtain ⟨e, -, he⟩ := exists_of_bind_eq_ok h
      split at he <;> exact .inl ⟨_, _, (Except.ok.inj he).symm⟩
  · split at h
    · obtain ⟨e, -, he⟩ := exists_of_bind_eq_ok h
      exact .inl ⟨_, _, (Except.ok.inj he).symm⟩
    · obtain ⟨parts, -, hparts⟩ := exists_of_bind_eq_ok h
      exact .inl ⟨_, _, (Except.ok.inj hparts).symm⟩

/-- An attribute with its divided value is settled. -/
theorem settled_of_dividedValue {v : Value} (hnamed : a.isAnonymous = false)
    (h : dividedValue read a = .ok v) : ({ a with value := v } : Attribute).Settled := by
  rcases dividedValue_cases h with ⟨parts, quote, rfl⟩ | ⟨rfl, himplied⟩
  · exact ⟨hnamed, by simp, by simp⟩
  · exact ⟨hnamed, by simp, fun _ => himplied⟩

/-- An attribute that gets its name from its value is settled. -/
theorem settled_of_named? (h : named? read a = .ok (some a')) : a'.Settled := by
  simp only [named?] at h
  split at h
  · simp at h
  · next text _ =>
      split at h
      · next hname =>
          obtain ⟨e, -, he⟩ := exists_of_bind_eq_ok h
          obtain rfl := Option.some.inj (Except.ok.inj he)
          refine ⟨?_, by simp, by simp⟩
          have hne : trim text ≠ "" := by
            intro hempty
            rw [hempty] at hname
            simp [isName, isNameList] at hname
          simp [Attribute.isAnonymous, hne]
      · simp at h

/-- Dividing some attributes settles those that are kept. -/
theorem settled_of_divide (h : (divide read as).fault = none) :
    ∀ a ∈ (divide read as).attributes, a.Settled := by
  induction as with
  | nil => simp [divide]
  | cons a rest ih =>
      simp only [divide] at h ⊢
      split at h
      · simp at h
      · next b hresult =>
          refine List.forall_mem_cons.mpr ⟨?_, ih h⟩
          split at hresult
          · exact settled_of_named? hresult
          · next hnamed =>
              split at hresult
              · next v hv =>
                  obtain rfl := Option.some.inj (Except.ok.inj hresult)
                  exact settled_of_dividedValue (by simpa using hnamed) hv
              · simp at hresult
      · exact ih h

/-- The value of a settled attribute is left alone. -/
theorem dividedValue_of_settled (h : a.Settled) : dividedValue read a = .ok a.value := by
  unfold dividedValue
  split
  · next hv => rw [hv]
  · next hv =>
      rw [hv]
      split
      · rfl
      · next name hname => simp [h.missing hv name hname]
  · next hv => exact absurd hv (h.divided _ _)
  · next hv => exact absurd hv (h.divided _ _)

/-- Settled attributes divide into themselves. -/
theorem divide_of_settled (h : ∀ a ∈ as, a.Settled) : divide read as = { attributes := as } := by
  induction as with
  | nil => rfl
  | cons a rest ih =>
      obtain ⟨ha, hrest⟩ := List.forall_mem_cons.mp h
      simp [divide, ha.named, dividedValue_of_settled ha, ih hrest]

end Attributes

end Stencil.Passes

namespace Stencil

open Stencil.Markup Stencil.Passes
open Stencil.Script (Language Fault Expression)

namespace Markup.Document

variable {d d' : Document}

/-- Putting a node in its own place changes nothing. -/
theorem update_self (d : Document) (id : Nat) : (d.update id fun _ => d.node id) = d := by
  obtain ⟨nodes, parents⟩ := d
  have hsame : (nodes.modify id fun _ => nodes.getD id Node.document) = nodes := by
    apply Array.ext (by simp)
    intro i hi hi'
    rw [Array.getElem_modify]
    split
    · next heq =>
        subst heq
        simp [Array.getD, hi']
    · rfl
  simp only [update, node, hsame]

/-- A change of a node puts the changed node in its place. -/
theorem update_eq (d : Document) (id : Nat) (f : Node → Node) :
    d.update id f = d.update id fun _ => f (d.node id) := by
  have hsame : d.nodes.modify id f = d.nodes.modify id fun _ => f (d.node id) := by
    apply Array.ext (by simp)
    intro i hi hi'
    rw [Array.getElem_modify, Array.getElem_modify]
    split
    · next heq =>
        subst heq
        have hlt : id < d.nodes.size := by simpa using hi
        simp [node, Array.getD, hlt]
    · rfl
  simp only [update, hsame]

/-- The second document has the tree of the first: the same nodes below the same parents. -/
structure SameTree (d d' : Document) : Prop where
  size : d'.size = d.size
  children : ∀ id, d'.children id = d.children id
  parents : d'.parents = d.parents

theorem SameTree.refl (d : Document) : d.SameTree d := ⟨rfl, fun _ => rfl, rfl⟩

theorem SameTree.trans {a b c : Document} (h : a.SameTree b) (h' : b.SameTree c) : a.SameTree c :=
  ⟨h'.size.trans h.size, fun id => (h'.children id).trans (h.children id),
    h'.parents.trans h.parents⟩

/-- Documents of one tree are walked in one order. -/
theorem SameTree.walk_eq (h : d.SameTree d') : d'.walk = d.walk := by
  rw [walk, walk, descendants, descendants, h.size,
    below_congr _ _ (h.children 0) fun i _ => h.children i]

/-- A change to a node that keeps its children keeps the tree. -/
theorem sameTree_update {id : Nat} {f : Node → Node}
    (hf : (f (d.node id)).children = (d.node id).children) : d.SameTree (d.update id f) :=
  ⟨size_update d id f, children_update hf, rfl⟩

end Markup.Document

namespace Markup.Node

variable {n n' : Node} {p : Pass}

/-- A pass works on a node without touching its children. -/
theorem Works.children_eq (h : n.Works p n') : n'.children = n.children := by
  cases h with
  | typed | script | style | block | attributes | text => rfl

/-- There is no work on the root, nor behind the last node. -/
theorem Works.type_ne (h : n.Works p n') : n.type ≠ .document := by
  cases h with
  | typed htype | script htype | style htype | block htype | text htype => simp [htype]
  | attributes htype =>
      rcases NodeType.isHost_iff.mp htype with ht | ht | ht <;> simp [ht]

end Markup.Node

/-- What a pass does at one node. -/
def Pass.step (lang : Language) (typed : Bool) : Pass → Document → Nat → Outcome
  | .types => typeStep
  | .embedded => embeddedStep lang
  | .blocks => blockStep (lang.expression typed)
  | .attributes => attributeStep (lang.expression typed)
  | .texts => textStep (lang.expression typed)

/-- A pass is a run of its steps. -/
theorem Pass.run_eq (lang : Language) (typed : Bool) (d : Document) (p : Pass) :
    p.run lang typed d = Passes.run (p.step lang typed) d := by
  cases p <;> rfl

/-- What becomes of a document when a pass succeeds at a node: nothing was left to do there, or the
node was worked on, and a text may mark a tag. -/
inductive Pass.Effect (p : Pass) (d : Document) (id : Nat) : Document → Prop
  | idle (h : (d.node id).Settled p) : Effect p d id d
  | work {n : Node} (h : (d.node id).Works p n) : Effect p d id (d.update id fun _ => n)
  | mark {n : Node} (hp : p = .texts) (h : (d.node id).Works p n) (parent : Nat) :
      Effect p d id ((d.update id fun _ => n).update parent Node.marked)

namespace Passes

variable {d : Document} {id : Nat} {read : String → Except Fault Expression}

/-- What typing does to a document. -/
theorem typeStep_effect : Pass.Effect .types d id (typeStep d id).document := by
  simp only [typeStep]
  split
  · next hdone =>
      refine .idle fun htype _ => ?_
      simpa [htype] using hdone
  · next hleft =>
      simp only [Bool.or_eq_true, bne_iff_ne, not_or, Classical.not_not, Bool.not_eq_true] at hleft
      split
      · next hnone => exact .idle fun _ htag => by simp [Node.isTag, hnone] at htag
      · next e he => exact .work (.typed hleft.1 hleft.2 he)

/-- What reading an embedded script or style does to a document. -/
theorem embeddedStep_effect {lang : Language} : (embeddedStep lang d id).error = none →
    Pass.Effect .embedded d id (embeddedStep lang d id).document := by
  simp only [embeddedStep]
  split
  · next htype =>
      split
      · next hdone =>
          intro _
          exact .idle (show _ ∧ _ from ⟨fun _ => hdone, fun hstyle => by simp [htype] at hstyle⟩)
      · split
        · next parts _ =>
            intro _
            rw [Document.update_eq]
            exact .work (.script htype parts)
        · simp
  · next htype =>
      split
      · next hdone =>
          intro _
          exact .idle (show _ ∧ _ from ⟨fun hscript => by simp [htype] at hscript, fun _ => hdone⟩)
      · split
        · next sheet _ =>
            intro _
            rw [Document.update_eq]
            exact .work (.style htype sheet)
        · simp
  · next hscript hstyle =>
      intro _
      exact .idle (show _ ∧ _ from ⟨fun h => absurd h hscript, fun h => absurd h hstyle⟩)

/-- Only an `else` block has no parameters. -/
theorem kind_of_blockParams {kind : BlockKind} {e : Element}
    (h : blockParams read kind e = .ok none) : kind = .elseBlock := by
  unfold blockParams at h
  repeat' split at h
  all_goals simp_all

/-- What reading the header of a block does to a document. -/
theorem blockStep_effect : (blockStep read d id).error = none →
    Pass.Effect .blocks d id (blockStep read d id).document := by
  simp only [blockStep]
  split
  · next kind e htype he =>
      split
      · next hdone =>
          intro _
          exact .idle fun _ _ _ _ => .inl hdone
      · next hleft =>
          split
          · simp
          · next block hblock =>
              intro _
              refine .work (.block htype he (by simpa using hleft) ?_)
              rintro rfl
              exact kind_of_blockParams hblock
  · next hnot =>
      intro _
      exact .idle fun kind e htype he => absurd he (hnot kind e htype)

/-- What dividing attributes does to a document. -/
theorem attributeStep_effect : (attributeStep read d id).error = none →
    Pass.Effect .attributes d id (attributeStep read d id).document := by
  have hwork : ∀ e, (d.node id).type.isHost = true → (d.node id).element? = some e →
      (divide read e.attributes).fault = none →
      (d.node id).Works .attributes { d.node id with
        content := .element { e with attributes := (divide read e.attributes).attributes }
        params := { (d.node id).params with
          reference := (d.node id).params.reference ||
            (divide read e.attributes).attributes.any Attribute.needsReference } } := by
    intro e htype he hfault
    refine .attributes htype he (settled_of_divide hfault) fun hsettled => ?_
    rw [divide_of_settled hsettled]
  simp only [attributeStep]
  split
  -- elements, components and fragments are treated alike
  iterate 3
    · next e htype he =>
        split
        · simp
        · next hfault =>
            intro _
            exact .work (hwork e (by rw [htype]; rfl) he hfault)
  · next helement hcomponent hfragment =>
      intro _
      refine .idle fun e htype he => ?_
      rcases NodeType.isHost_iff.mp htype with ht | ht | ht
      · exact absurd he (helement e ht)
      · exact absurd he (hcomponent e ht)
      · exact absurd he (hfragment e ht)

/-- What dividing a text does to a document. -/
theorem textStep_effect : (textStep read d id).error = none →
    Pass.Effect .texts d id (textStep read d id).document := by
  simp only [textStep]
  split
  · next text htype hraw =>
      split
      · simp
      · next parts _ =>
          intro _
          have hwork := Node.Works.text htype hraw parts
          rw [Document.update_eq d id fun n => { n with content := .text (.parts parts) }]
          split
          · unfold markAbove
            split
            · exact .mark rfl hwork _
            · exact .work hwork
          · exact .work hwork
  · next hnot =>
      intro _
      exact .idle fun htype text hraw => hnot text htype hraw

end Passes

variable {lang : Language} {typed : Bool} {d d' : Document} {id : Nat} {p q : Pass}

/-- **What a pass can do**, wherever it succeeds. -/
theorem Pass.step_effect (h : (p.step lang typed d id).error = none) :
    p.Effect d id (p.step lang typed d id).document := by
  cases p with
  | types => exact typeStep_effect
  | embedded => exact embeddedStep_effect h
  | blocks => exact blockStep_effect h
  | attributes => exact attributeStep_effect h
  | texts => exact textStep_effect h

namespace Pass.Effect

/-- A step keeps the tree. -/
theorem sameTree (h : p.Effect d id d') : d.SameTree d' := by
  cases h with
  | idle => exact .refl d
  | work h => exact Document.sameTree_update h.children_eq
  | mark _ h parent =>
      exact (Document.sameTree_update h.children_eq).trans (Document.sameTree_update rfl)

/-- Whatever holds of a node, of what work makes of it and of marked nodes, holds after a pass. -/
theorem node_induct {P : Node → Prop} (h : p.Effect d id d') {i : Nat} (hi : P (d.node i))
    (hwork : ∀ n, (d.node i).Works p n → P n) (hmark : p = .texts → ∀ n, P n → P n.marked) :
    P (d'.node i) := by
  have hupdate : ∀ n, (d.node id).Works p n → P ((d.update id fun _ => n).node i) := by
    intro n hn
    rcases d.node_update_cases id (fun _ => n) i with hnode | ⟨rfl, hnode⟩
    · rw [hnode]
      exact hi
    · rw [hnode]
      exact hwork n hn
  cases h with
  | idle => exact hi
  | work h => exact hupdate _ h
  | mark hp h parent =>
      rcases Document.node_update_cases _ parent Node.marked i with hnode | ⟨-, hnode⟩
      · rw [hnode]
        exact hupdate _ h
      · rw [hnode]
        exact hmark hp _ (hupdate _ h)

/-- A pass settles the node that it visits. -/
theorem settled_self (h : p.Effect d id d') : (d'.node id).Settled p := by
  have hupdate : ∀ n, (d.node id).Works p n → ((d.update id fun _ => n).node id).Settled p := by
    intro n hn
    have hid : id < d.size := by
      by_contra hge
      exact hn.type_ne (by rw [Document.node_of_size_le (by omega)]; rfl)
    rw [Document.node_update_self hid]
    exact hn.settled
  cases h with
  | idle h => exact h
  | work h => exact hupdate _ h
  | mark _ h parent =>
      rcases Document.node_update_cases _ parent Node.marked id with hnode | ⟨-, hnode⟩
      · rw [hnode]
        exact hupdate _ h
      · rw [hnode]
        exact (hupdate _ h).mark

/-- A pass leaves settled what it settles itself. -/
theorem settled_same (h : p.Effect d id d') {i : Nat} (hi : (d.node i).Settled p) :
    (d'.node i).Settled p :=
  h.node_induct hi (fun _ hn => hn.settled) fun _ _ hn => hn.mark

/-- A pass leaves settled what any other has settled, once the types are given. -/
theorem settled (h : p.Effect d id d') {i : Nat} (hi : (d.node i).Settled q)
    (htypes : (d.node i).Settled .types) : (d'.node i).Settled q :=
  h.node_induct hi (fun _ hn => hi.work htypes hn) fun _ _ hn => hn.mark

end Pass.Effect

namespace Passes

variable {step : Document → Nat → Outcome} {ids : List Nat}

/-- A visit that succeeds has succeeded at its first node. -/
theorem visit_cons_ok {rest : List Nat} (h : (visit step (id :: rest) d).error = none) :
    (step d id).error = none ∧ (visit step rest (step d id).document).error = none ∧
      (visit step (id :: rest) d).document = (visit step rest (step d id).document).document := by
  simp only [visit] at h ⊢
  split at h
  · next e he => simp [he] at h
  · next he => exact ⟨he, h, rfl⟩

/-- **What every step keeps, a visit keeps**, if it succeeds. -/
theorem visit_induct {P : Document → Prop} (h : (visit step ids d).error = none) (hd : P d)
    (hstep : ∀ d id, id ∈ ids → P d → (step d id).error = none → P (step d id).document) :
    P (visit step ids d).document := by
  induction ids generalizing d with
  | nil => exact hd
  | cons id rest ih =>
      obtain ⟨hfirst, hrest, heq⟩ := visit_cons_ok h
      rw [heq]
      exact ih hrest (hstep d id List.mem_cons_self hd hfirst) fun d i hi =>
        hstep d i (List.mem_cons_of_mem _ hi)

/-- Every visited node is settled. -/
theorem visit_settled (h : (visit (p.step lang typed) ids d).error = none) :
    ∀ i, i ∈ ids ∨ (d.node i).Settled p →
      ((visit (p.step lang typed) ids d).document.node i).Settled p := by
  induction ids generalizing d with
  | nil => simp [visit]
  | cons id rest ih =>
      intro i hi
      obtain ⟨hfirst, hrest, heq⟩ := visit_cons_ok h
      have heffect := Pass.step_effect hfirst
      rw [heq]
      apply ih hrest
      rcases hi with hi | hi
      · rcases List.mem_cons.mp hi with rfl | hi
        · exact .inr heffect.settled_self
        · exact .inl hi
      · exact .inr (heffect.settled_same hi)

/-- A visit of settled nodes does nothing. -/
theorem visit_of_settled (hstep : ∀ id ∈ ids, step d id = { document := d }) :
    visit step ids d = { document := d } := by
  induction ids with
  | nil => rfl
  | cons id rest ih =>
      obtain ⟨hfirst, hrest⟩ := List.forall_mem_cons.mp hstep
      simp [visit, hfirst, ih hrest]

end Passes

/-- A pass has nothing left to do at any node of the document. -/
def Markup.Document.Settled (d : Document) (p : Pass) : Prop := ∀ id ∈ d.walk, (d.node id).Settled p

/-- A pass that reports no error keeps the tree. -/
theorem Pass.sameTree_run (h : (p.run lang typed d).error = none) :
    d.SameTree (p.run lang typed d).document := by
  rw [Pass.run_eq] at h ⊢
  exact visit_induct (P := d.SameTree) h (.refl d) fun d' id _ hd hstep =>
    hd.trans (Pass.step_effect hstep).sameTree

/-- **A pass that succeeds has nothing left to do.** -/
theorem Pass.settles_run (h : (p.run lang typed d).error = none) :
    (p.run lang typed d).document.Settled p := by
  intro id hid
  rw [(Pass.sameTree_run h).walk_eq] at hid
  rw [Pass.run_eq] at h ⊢
  exact visit_settled h id (.inl hid)

/-- **A pass makes no work for another**, once the types are given. -/
theorem Markup.Document.Settled.run (hq : d.Settled q) (htypes : d.Settled .types)
    (h : (p.run lang typed d).error = none) : (p.run lang typed d).document.Settled q := by
  intro id hid
  rw [(Pass.sameTree_run h).walk_eq] at hid
  rw [Pass.run_eq] at h ⊢
  refine (visit_induct (P := fun d => (d.node id).Settled q ∧ (d.node id).Settled .types) h
    ⟨hq id hid, htypes id hid⟩ ?_).1
  intro d' i _ hd hstep
  have heffect := Pass.step_effect hstep
  exact ⟨heffect.settled hd.1 hd.2, heffect.settled hd.2 hd.2⟩

/-- Reading the parameters of a settled block again changes nothing. -/
theorem Passes.blockStep_settled {read : String → Except Fault Expression}
    (h : (d.node id).Settled .blocks) : blockStep read d id = { document := d } := by
  simp only [blockStep]
  split
  · next kind e htype he =>
      split
      · rfl
      · next hleft =>
          obtain hdone | ⟨rfl, hnone⟩ := h kind e htype he
          · exact absurd hdone hleft
          · -- an `else` block has no parameters, so it is written anew each time
            have hsame : { d.node id with
                content := .element { e with attributes := [] }
                params := { (d.node id).params with
                  block := none
                  reference := (d.node id).params.reference || needsAnchor .elseBlock } } =
                d.node id := by
              have hblock : (d.node id).params.block = none := by simpa using hleft
              have hcontent := Node.content_of_element? he
              rw [← hnone, ← hblock, show needsAnchor .elseBlock = false from rfl, Bool.or_false,
                ← hcontent]
            simp only [blockParams, hsame, Document.update_self]
  · rfl

/-- Dividing settled attributes again changes nothing. -/
theorem Passes.attributeStep_settled {read : String → Except Fault Expression}
    (h : (d.node id).Settled .attributes) : attributeStep read d id = { document := d } := by
  have hsame : ∀ e, (d.node id).type.isHost = true → (d.node id).element? = some e →
      { d.node id with
        content := .element { e with attributes := e.attributes }
        params := { (d.node id).params with
          reference := (d.node id).params.reference ||
            e.attributes.any Attribute.needsReference } } = d.node id := by
    intro e htype he
    have hreference : ((d.node id).params.reference || e.attributes.any Attribute.needsReference) =
        (d.node id).params.reference := by
      have hneeds := (h e htype he).2
      cases hany : e.attributes.any Attribute.needsReference with
      | false => simp
      | true => simp [hneeds hany]
    rw [hreference, ← Node.content_of_element? he]
  simp only [attributeStep]
  split
  -- elements, components and fragments are treated alike
  iterate 3
    · next e htype he =>
        have hhost : (d.node id).type.isHost = true := by rw [htype]; rfl
        simp only [divide_of_settled (h e hhost he).1, hsame e hhost he, Document.update_self]
  · rfl

/-- A pass does nothing at a settled node. -/
theorem Pass.step_settled (h : (d.node id).Settled p) :
    p.step lang typed d id = { document := d } := by
  cases p with
  | types =>
      simp only [Pass.step, typeStep]
      split
      · rfl
      · next hleft =>
          simp only [Bool.or_eq_true, bne_iff_ne, not_or, Classical.not_not] at hleft
          split
          · rfl
          · next e he => exact absurd (h hleft.1 (Node.isTag_of_element? he)) hleft.2
  | embedded =>
      simp only [Pass.step, embeddedStep]
      split
      · next htype => rw [if_pos (h.1 htype)]
      · next htype => rw [if_pos (h.2 htype)]
      · rfl
  | blocks => exact blockStep_settled h
  | attributes => exact attributeStep_settled h
  | texts =>
      simp only [Pass.step, textStep]
      split
      · next text htype hraw => exact absurd hraw (h htype text)
      · rfl

/-- **A pass with nothing left to do changes nothing**, whatever reads the code. -/
theorem Pass.run_settled (h : d.Settled p) : p.run lang typed d = { document := d } := by
  rw [Pass.run_eq]
  exact visit_of_settled fun id hid => Pass.step_settled (h id hid)

/-- Runs some passes one after another, each in a dialect of its own, up to the first error. -/
def runInDialects (lang : Language) : List (Pass × Bool) → Document → Outcome
  | [], d => { document := d }
  | (p, typed) :: rest, d =>
      let o := p.run lang typed d
      match o.error with
      | some _ => o
      | none =>
          let more := runInDialects lang rest o.document
          { more with diagnostics := o.diagnostics ++ more.diagnostics }

/-- Passes change nothing on a document that is settled for all of them, whatever the dialects. -/
theorem runInDialects_settled (h : ∀ p, d.Settled p) (steps : List (Pass × Bool)) :
    runInDialects lang steps d = { document := d } := by
  induction steps with
  | nil => rfl
  | cons step rest ih => simp [runInDialects, Pass.run_settled (h step.1), ih]

/-- Passes in one dialect change nothing on a document that is settled for all of them. -/
theorem runPasses_settled (h : ∀ p, d.Settled p) (passes : List Pass) :
    runPasses lang typed passes d = { document := d } := by
  induction passes generalizing typed with
  | nil => rfl
  | cons p rest ih => simp [runPasses, Pass.run_settled (h p), ih]

/-- Passes that succeed have succeeded with the first. -/
theorem runPasses_cons_ok {rest : List Pass}
    (h : (runPasses lang typed (p :: rest) d).error = none) :
    (p.run lang typed d).error = none ∧
      ∃ typed', (runPasses lang typed' rest (p.run lang typed d).document).error = none ∧
        (runPasses lang typed (p :: rest) d).document =
          (runPasses lang typed' rest (p.run lang typed d).document).document := by
  simp only [runPasses] at h ⊢
  split at h
  · next e he => simp [he] at h
  · next he => exact ⟨he, _, h, rfl⟩

/-- After the types are given, every pass settles its work, and what was settled stays so. -/
theorem settled_runPasses {passes : List Pass} (htypes : d.Settled .types)
    (h : (runPasses lang typed passes d).error = none) (q : Pass)
    (hq : q ∈ passes ∨ d.Settled q) : (runPasses lang typed passes d).document.Settled q := by
  induction passes generalizing typed d with
  | nil => exact hq.resolve_left List.not_mem_nil
  | cons p rest ih =>
      obtain ⟨hfirst, typed', hrest, heq⟩ := runPasses_cons_ok h
      rw [heq]
      refine ih (htypes.run htypes hfirst) hrest ?_
      rcases hq with hq | hq
      · rcases List.mem_cons.mp hq with rfl | hq
        · exact .inr (Pass.settles_run hfirst)
        · exact .inl hq
      · exact .inr (hq.run htypes hfirst)

/-- **All passes together settle everything.** -/
theorem transform_settled (h : (transform lang d).error = none) (p : Pass) :
    (transform lang d).document.Settled p := by
  obtain ⟨hfirst, typed', hrest, heq⟩ := runPasses_cons_ok h
  have htypes := Pass.settles_run hfirst
  rw [transform, Pass.all, heq]
  apply settled_runPasses htypes hrest
  cases p with
  | types => exact .inr htypes
  | embedded | blocks | attributes | texts => exact .inl (by decide)

/-- **The passes are stable.**  If reading a template succeeds, any further passes, in any order and
in any dialects, succeed, leave the document as it is and report nothing, whatever language reads
the code then.  So a second transformation changes nothing. -/
theorem parseTemplate_stable (lang lang' : Language) (o : Options) (source : String)
    (h : (parseTemplate lang o source).error = none) :
    let d := (parseTemplate lang o source).document
    (∀ steps : List (Pass × Bool), runInDialects lang' steps d = { document := d }) ∧
      (∀ typed passes, runPasses lang' typed passes d = { document := d }) ∧
      transform lang' d = { document := d } := by
  intro d
  have hsettled : ∀ p, d.Settled p := transform_settled h
  exact ⟨runInDialects_settled hsettled, fun typed => runPasses_settled hsettled,
    runPasses_settled hsettled Pass.all⟩

/-- A script, a chain of conditions and a component with a handler, an action without a value, an
attribute that gets its name from its value and one that is dropped. -/
def mixedTemplate : String :=
  "<script>n = 1</script><if n>\x7bn\x7d</if><else off/><Card @tap *pin \x7bn\x7d \x7b1\x7d/>"

/-- It is read, with a problem, and does not change any more. -/
theorem parseTemplate_stable_mixed :
    let o := parseTemplate Script.javaScript {} mixedTemplate
    (o.error = none ∧ o.diagnostics.length = 1) ∧
      transform Script.javaScript o.document = { document := o.document } := by
  have hread : (parseTemplate Script.javaScript {} mixedTemplate).error = none ∧
      (parseTemplate Script.javaScript {} mixedTemplate).diagnostics.length = 1 := by
    decide +kernel
  exact ⟨hread,
    (parseTemplate_stable Script.javaScript Script.javaScript {} mixedTemplate hread.1).2.2⟩

end Stencil
