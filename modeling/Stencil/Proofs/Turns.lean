import Stencil.Proofs.Forest
import Stencil.Proofs.Needed
import Stencil.Proofs.Static

/-!
# What the passes make of the nodes

`Node.Turns` says to the letter what a pass makes of a node that it has no problem with, as long as it
looks at no other node: blocks are left out, and so are texts whose value can change.  Every node is
visited once, so a run of passes without a problem makes of each node what it would make of the node
alone (`runInDialects_of_runs`), and if a run has no problem, then it has none with any of the nodes
(`runs_of_runInDialects`).

All passes together are two such runs, for the scripts that the first two passes find decide the
dialect of the others (`transform_of_runs`, `runs_of_transform`).
-/

namespace Stencil.Markup

open Stencil.Passes
open Stencil.Script (Language Fault Expression)

/-- What a pass makes of a node that it has no problem with. -/
inductive Node.Turns (lang : Language) (typed : Bool) (n : Node) : Pass → Node → Prop
  | idle {p : Pass} (h : n.Settled p) : Turns lang typed n p n
  | typed {e : Element} (htype : n.type = .element) (htyped : n.params.typed = false)
      (he : n.element? = some e) (hfound : (typeElement n e).2 = []) :
      Turns lang typed n .types (typeElement n e).1
  | script {parts : Script.Parts} (htype : n.type = .script) (hnone : n.params.script = none)
      (hread : lang.script n.params.typescript (rawContent n) = .ok parts) :
      Turns lang typed n .embedded { n with params := { n.params with script := some parts } }
  | style {sheet : Style.Sheet} (htype : n.type = .style) (hnone : n.params.style = none)
      (hread : Style.Sheet.parse (rawContent n) = .ok sheet) :
      Turns lang typed n .embedded { n with params := { n.params with style := some sheet } }
  | attributes {e : Element} {as : List Attribute} (htype : n.type.isHost = true)
      (he : n.element? = some e)
      (hdivide : divide (lang.expression typed) e.attributes = { attributes := as }) :
      Turns lang typed n .attributes { n with
        content := .element { e with attributes := as }
        params := { n.params with
          reference := n.params.reference || as.any Attribute.needsReference } }
  | text {text : String} {parts : List Part} (htype : n.type = .text)
      (hraw : n.content = .text (.raw text))
      (hread : interpolate (lang.expression typed) text = .ok parts)
      (hliteral : parts.any Part.isDynamic = false) :
      Turns lang typed n .texts { n with content := .text (.parts parts) }

/-- The pass would look at nothing but the node: it is no block, and nothing in its text can change. -/
def Node.Local (n : Node) : Pass → Prop
  | .blocks => ∀ kind, n.type ≠ .block kind
  | .texts => ∀ text, n.content = .text (.raw text) → '\x7b' ∉ text.toList
  | .types | .embedded | .attributes => True

namespace Node

variable {lang : Language} {typed : Bool} {n m n' : Node} {p q : Pass}

/-- A pass leaves the node alone, or it works on it. -/
theorem Turns.works (h : n.Turns lang typed p m) : n.Settled p ∧ m = n ∨ n.Works p m := by
  cases h with
  | idle h => exact .inl ⟨h, rfl⟩
  | typed htype htyped he => exact .inr (.typed htype htyped he)
  | script htype => exact .inr (.script htype _)
  | style htype => exact .inr (.style htype _)
  | @attributes e as htype he hdivide =>
      right
      have hfault : (divide (lang.expression typed) e.attributes).fault = none := by rw [hdivide]
      have hsettled := settled_of_divide hfault
      rw [hdivide] at hsettled
      refine .attributes htype he hsettled fun hall => ?_
      rw [divide_of_settled hall, Divided.mk.injEq] at hdivide
      exact hdivide.1.symm
  | text htype hraw => exact .inr (.text htype hraw _)

theorem Turns.children_eq (h : n.Turns lang typed p m) : m.children = n.children := by
  rcases h.works with ⟨-, rfl⟩ | hwork
  · rfl
  · exact hwork.children_eq

/-- What is local stays so, but the types that the first pass gives can be those of blocks. -/
theorem Local.turns (h : n.Local q) (hturn : n.Turns lang typed p m)
    (hapart : p ≠ .types ∨ q ≠ .blocks) : m.Local q := by
  cases hturn with
  | idle => exact h
  | typed htype htyped he =>
      cases q with
      | blocks => simp at hapart
      | texts => simp [Local, typeElement]
      | types | embedded | attributes => trivial
  | script | style => cases q <;> exact h
  | attributes htype he =>
      cases q with
      | blocks => exact h
      | texts => simp [Local]
      | types | embedded | attributes => trivial
  | text htype hraw =>
      cases q with
      | blocks => exact h
      | texts => simp [Local]
      | types | embedded | attributes => trivial

end Node

end Stencil.Markup

namespace Stencil

open Stencil.Markup Stencil.Passes
open Stencil.Script (Language Fault Expression)

variable {lang : Language} {typed : Bool} {d : Document} {p : Pass} {id : Nat} {n : Node}

/-- A pass puts in the place of a node what it makes of it, and reports nothing. -/
theorem Pass.step_of_turns (h : (d.node id).Turns lang typed p n) :
    p.step lang typed d id = { document := d.update id fun _ => n } := by
  cases h with
  | idle h => rw [Pass.step_settled h, Document.update_self]
  | typed htype htyped he hfound =>
      simp [Pass.step, typeStep, htype, htyped, he, hfound]
  | script htype hnone hread =>
      simp only [Pass.step, embeddedStep, htype, hnone, Option.isSome_none, Bool.false_eq_true,
        if_false, hread]
      rw [Document.update_eq, htype]
  | style htype hnone hread =>
      simp only [Pass.step, embeddedStep, htype, hnone, Option.isSome_none, Bool.false_eq_true,
        if_false, hread]
      rw [Document.update_eq, htype]
  | attributes htype he hdivide =>
      rcases NodeType.isHost_iff.mp htype with ht | ht | ht <;>
        simp only [Pass.step, attributeStep, ht, he, hdivide]
  | text htype hraw hread hliteral =>
      simp only [Pass.step, textStep, htype, hraw, hread, hliteral, Bool.false_eq_true, if_false]
      rw [Document.update_eq, htype]

/-- A pass that has no problem with a node makes something of it. -/
theorem Pass.exists_turns (herror : (p.step lang typed d id).error = none)
    (hfound : (p.step lang typed d id).diagnostics = []) (hlocal : (d.node id).Local p) :
    ∃ n, (d.node id).Turns lang typed p n := by
  by_cases hsettled : (d.node id).Settled p
  · exact ⟨_, .idle hsettled⟩
  cases p with
  | types =>
      simp only [Node.Settled, Classical.not_imp, Bool.not_eq_true] at hsettled
      obtain ⟨htype, htag, htyped⟩ := hsettled
      obtain ⟨e, he⟩ := Option.isSome_iff_exists.mp htag
      simp only [Pass.step, typeStep, htype, htyped, he] at hfound
      exact ⟨_, .typed htype htyped he (by simpa using hfound)⟩
  | embedded =>
      simp only [Node.Settled, not_and_or, Classical.not_imp, Bool.not_eq_true,
        Option.isSome_eq_false_iff, Option.isNone_iff_eq_none] at hsettled
      rcases hsettled with ⟨htype, hnone⟩ | ⟨htype, hnone⟩
      · cases hread : lang.script (d.node id).params.typescript (rawContent (d.node id)) with
        | error f => simp [Pass.step, embeddedStep, htype, hnone, hread] at herror
        | ok parts => exact ⟨_, .script htype hnone hread⟩
      · cases hread : Style.Sheet.parse (rawContent (d.node id)) with
        | error f => simp [Pass.step, embeddedStep, htype, hnone, hread] at herror
        | ok sheet => exact ⟨_, .style htype hnone hread⟩
  | blocks =>
      simp only [Node.Settled, Classical.not_forall] at hsettled
      obtain ⟨kind, -, htype, -⟩ := hsettled
      exact absurd htype (hlocal kind)
  | attributes =>
      simp only [Node.Settled, Classical.not_forall] at hsettled
      obtain ⟨e, htype, he, -⟩ := hsettled
      refine ⟨_, .attributes htype he (?_ : divide (lang.expression typed) e.attributes =
        { attributes := (divide (lang.expression typed) e.attributes).attributes })⟩
      have hclean : (divide (lang.expression typed) e.attributes).fault = none ∧
          (divide (lang.expression typed) e.attributes).diagnostics = [] := by
        rcases NodeType.isHost_iff.mp htype with ht | ht | ht <;>
          simp only [Pass.step, attributeStep, ht, he] at herror hfound <;>
          (cases hfault : (divide (lang.expression typed) e.attributes).fault with
            | some f => simp [hfault] at herror
            | none => exact ⟨rfl, by simpa [hfault] using hfound⟩)
      rw [Divided.mk.injEq]
      exact ⟨rfl, hclean.2, hclean.1⟩
  | texts =>
      simp only [Node.Settled, Classical.not_forall, Classical.not_not] at hsettled
      obtain ⟨htype, text, hraw⟩ := hsettled
      have hread : interpolate (lang.expression typed) text = .ok (literalPart text.toList) :=
        interpolate_of_braceless (hlocal text hraw)
      exact ⟨_, .text htype hraw hread (isDynamic_literalPart _)⟩

namespace Passes

variable {ids : List Nat} {f : Nat → Node}

theorem node_update_turns (h : (d.node id).Turns lang typed p n) :
    (d.update id fun _ => n).node id = n := by
  by_cases hid : id < d.size
  · rw [Document.node_update_self hid]
  · rcases h.works with ⟨-, rfl⟩ | hwork
    · rw [Document.update_self]
    · exact absurd (by rw [Document.node_of_size_le (by omega)]; rfl) hwork.type_ne

/-- A visit makes of every listed node what the pass makes of it, and leaves the others alone. -/
theorem visit_of_turns (hnodup : ids.Nodup)
    (h : ∀ i ∈ ids, (d.node i).Turns lang typed p (f i)) :
    ∃ d', visit (p.step lang typed) ids d = { document := d' } ∧ d.SameTree d' ∧
      (∀ i ∈ ids, d'.node i = f i) ∧ ∀ i ∉ ids, d'.node i = d.node i := by
  induction ids generalizing d with
  | nil => exact ⟨d, rfl, .refl d, by simp, by simp⟩
  | cons id rest ih =>
      obtain ⟨hid, hrest⟩ := List.forall_mem_cons.mp h
      obtain ⟨hnew, hnodup⟩ := List.nodup_cons.mp hnodup
      have hother : ∀ i, i ≠ id → (d.update id fun _ => f id).node i = d.node i := by
        intro i hi
        rcases d.node_update_cases id (fun _ => f id) i with hnode | ⟨heq, -⟩
        · exact hnode
        · exact absurd heq hi
      have hne : ∀ i ∈ rest, i ≠ id := fun i hi heq => hnew (heq ▸ hi)
      obtain ⟨d', hvisit, htree, hmade, hleft⟩ := ih hnodup fun i hi => by
        rw [hother i (hne i hi)]
        exact hrest i hi
      refine ⟨d', ?_, (Document.sameTree_update hid.children_eq).trans htree, ?_, ?_⟩
      · simp [visit, Pass.step_of_turns hid, hvisit]
      · refine List.forall_mem_cons.mpr ⟨?_, hmade⟩
        rw [hleft id hnew, node_update_turns hid]
      · intro i hi
        rw [List.mem_cons, not_or] at hi
        rw [hleft i hi.2, hother i hi.1]

/-- A visit without a problem has none with any listed node. -/
theorem turns_of_visit (hnodup : ids.Nodup)
    (herror : (visit (p.step lang typed) ids d).error = none)
    (hfound : (visit (p.step lang typed) ids d).diagnostics = [])
    (hlocal : ∀ i ∈ ids, (d.node i).Local p) :
    ∀ i ∈ ids, ∃ n, (d.node i).Turns lang typed p n := by
  induction ids generalizing d with
  | nil => simp
  | cons id rest ih =>
      obtain ⟨hid, hrest⟩ := List.forall_mem_cons.mp hlocal
      obtain ⟨hnew, hnodup⟩ := List.nodup_cons.mp hnodup
      obtain ⟨hfirst, hmore, -⟩ := visit_cons_ok herror
      simp only [visit, hfirst, List.append_eq_nil_iff] at hfound
      obtain ⟨n, hn⟩ := Pass.exists_turns hfirst hfound.1 hid
      have hother : ∀ i ∈ rest, (p.step lang typed d id).document.node i = d.node i := by
        intro i hi
        rw [Pass.step_of_turns hn]
        rcases d.node_update_cases id (fun _ => n) i with hnode | ⟨rfl, -⟩
        · exact hnode
        · exact absurd hi hnew
      refine List.forall_mem_cons.mpr ⟨⟨n, hn⟩, fun i hi => ?_⟩
      rw [← hother i hi]
      refine ih hnodup hmore hfound.2 (fun j hj => ?_) i hi
      rw [hother j hj]
      exact hrest j hj

end Passes

/-- A pass makes one thing of a node. -/
theorem Markup.Node.Turns.unique {m : Node} (h : n.Turns lang typed p m) {m' : Node}
    (h' : n.Turns lang typed p m') : m' = m := by
  -- the document of this node alone
  let d : Document := { nodes := #[n], parents := #[none] }
  have h : (d.node 0).Turns lang typed p m := h
  have h' : (d.node 0).Turns lang typed p m' := h'
  have hstep := (Pass.step_of_turns h').symm.trans (Pass.step_of_turns h)
  have hnode := congrArg (fun o : Outcome => o.document.node 0) hstep
  have hlt : 0 < d.size := Nat.zero_lt_one
  rwa [Document.node_update_self hlt, Document.node_update_self hlt] at hnode

/-- What passes, each in a dialect of its own, make of a node one after another. -/
def Markup.Node.Runs (lang : Language) : List (Pass × Bool) → Node → Node → Prop
  | [], n, n' => n' = n
  | (p, typed) :: steps, n, n' => ∃ m, n.Turns lang typed p m ∧ Node.Runs lang steps m n'

variable {steps : List (Pass × Bool)} {f : Nat → Node}

theorem Markup.Node.Runs.unique {m m' : Node} (h : n.Runs lang steps m) (h' : n.Runs lang steps m') :
    m' = m := by
  induction steps generalizing n with
  | nil => exact Eq.trans h' (Eq.symm h)
  | cons step steps ih =>
      obtain ⟨k, hturns, hruns⟩ := h
      obtain ⟨k', hturns', hruns'⟩ := h'
      obtain rfl := hturns.unique hturns'
      exact ih hruns hruns'

theorem Markup.Node.Runs.children_eq {m : Node} (h : n.Runs lang steps m) : m.children = n.children := by
  induction steps generalizing n with
  | nil => exact congrArg Node.children h
  | cons step steps ih =>
      obtain ⟨k, hturns, hruns⟩ := h
      exact (ih hruns).trans hturns.children_eq

theorem Markup.Node.Local.runs {q : Pass} {n' : Node} (h : n.Local q) (hq : q ≠ .blocks)
    (hruns : n.Runs lang steps n') : n'.Local q := by
  induction steps generalizing n with
  | nil => exact hruns ▸ h
  | cons step steps ih =>
      obtain ⟨m, hturns, hmore⟩ := hruns
      exact ih (h.turns hturns (.inr hq)) hmore

/-- **What passes make of a document.**  Passes that have no problem with the nodes make of each what
they make of it alone. -/
theorem runInDialects_of_runs (hd : d.Forest)
    (h : ∀ i ∈ d.walk, (d.node i).Runs lang steps (f i)) :
    ∃ d', runInDialects lang steps d = { document := d' } ∧ d.SameTree d' ∧
      (∀ i ∈ d.walk, d'.node i = f i) ∧ ∀ i ∉ d.walk, d'.node i = d.node i := by
  induction steps generalizing d with
  | nil => exact ⟨d, rfl, .refl d, fun i hi => (h i hi).symm, fun _ _ => rfl⟩
  | cons step steps ih =>
      obtain ⟨p, typed⟩ := step
      choose! m hturns hruns using h
      obtain ⟨d₁, hrun, htree, hmade, hleft⟩ := Passes.visit_of_turns hd.nodup_walk hturns
      have hwalk := htree.walk_eq
      obtain ⟨d', hmore, htree', hmade', hleft'⟩ := ih (hd.congr htree) fun i hi => by
        rw [hwalk] at hi
        rw [hmade i hi]
        exact hruns i hi
      rw [hwalk] at hmade' hleft'
      refine ⟨d', ?_, htree.trans htree', hmade', fun i hi => (hleft' i hi).trans (hleft i hi)⟩
      simp only [runInDialects, Pass.run_eq, Passes.run, hrun, hmore, List.nil_append]

/-- **Passes without a problem** have none with any of the nodes, if all they look at is local. -/
theorem runs_of_runInDialects (hd : d.Forest) (herror : (runInDialects lang steps d).error = none)
    (hfound : (runInDialects lang steps d).diagnostics = [])
    (hlocal : ∀ i ∈ d.walk, ∀ step ∈ steps, (d.node i).Local step.1)
    (hapart : ∀ step ∈ steps, ∀ step' ∈ steps, step.1 ≠ .types ∨ step'.1 ≠ .blocks) :
    ∀ i ∈ d.walk, (d.node i).Runs lang steps ((runInDialects lang steps d).document.node i) := by
  induction steps generalizing d with
  | nil => exact fun _ _ => rfl
  | cons step steps ih =>
      obtain ⟨p, typed⟩ := step
      have hfirst : (p.run lang typed d).error = none := by
        cases he : (p.run lang typed d).error with
        | none => rfl
        | some e => simp [runInDialects, he] at herror
      simp only [runInDialects, hfirst] at herror hfound ⊢
      rw [List.append_eq_nil_iff] at hfound
      have hturns : ∀ i ∈ d.walk, ∃ n, (d.node i).Turns lang typed p n := by
        rw [Pass.run_eq] at hfirst hfound
        exact Passes.turns_of_visit hd.nodup_walk hfirst hfound.1 fun i hi =>
          hlocal i hi (p, typed) List.mem_cons_self
      choose! m hturns using hturns
      obtain ⟨d₁, hrun, htree, hmade, -⟩ := Passes.visit_of_turns hd.nodup_walk hturns
      have hdocument : (p.run lang typed d).document = d₁ := by
        rw [Pass.run_eq, Passes.run, hrun]
      rw [hdocument] at herror hfound ⊢
      have hmore := ih (hd.congr htree) herror hfound.2
        (fun i hi step hstep => by
          rw [htree.walk_eq] at hi
          rw [hmade i hi]
          exact (hlocal i hi step (List.mem_cons_of_mem _ hstep)).turns (hturns i hi)
            (hapart _ List.mem_cons_self _ (List.mem_cons_of_mem _ hstep)))
        fun step hstep step' hstep' =>
          hapart _ (List.mem_cons_of_mem _ hstep) _ (List.mem_cons_of_mem _ hstep')
      intro i hi
      refine ⟨m i, hturns i hi, ?_⟩
      rw [← hmade i hi]
      exact hmore i (by rwa [htree.walk_eq])

/-- The passes that find out the types and the scripts. -/
def Pass.first : List (Pass × Bool) := [(.types, false), (.embedded, false)]

/-- The passes that read the code between the tags, in the dialect of the scripts. -/
def Pass.second (typed : Bool) : List (Pass × Bool) :=
  [(.blocks, typed), (.attributes, typed), (.texts, typed)]

theorem Markup.Node.Works.type_eq {n' : Node} (h : n.Works p n') (hp : p ≠ .types) :
    n'.type = n.type := by
  cases h with
  | typed => exact absurd rfl hp
  | script | style | block | attributes | text => rfl

/-- Once the types are given, they stay. -/
theorem runInDialects_type (h : (runInDialects lang steps d).error = none)
    (hsteps : ∀ step ∈ steps, step.1 ≠ .types) (i : Nat) :
    ((runInDialects lang steps d).document.node i).type = (d.node i).type := by
  induction steps generalizing d with
  | nil => rfl
  | cons step steps ih =>
      obtain ⟨p, typed⟩ := step
      obtain ⟨hp, hmore⟩ := List.forall_mem_cons.mp hsteps
      simp only [runInDialects] at h ⊢
      split at h
      · next he => simp [he] at h
      · next hfirst =>
          rw [ih h hmore]
          exact Pass.node_run (P := fun n => n.type = (d.node i).type) (fun _ _ hn => hn)
            (fun _ _ hn hwork => (hwork.type_eq hp).trans hn) hfirst rfl

/-- All passes are those that find out the types and the scripts, and those behind them in the dialect
that is decided then. -/
theorem transform_eq (h : (runInDialects lang Pass.first d).error = none) :
    transform lang d =
      let o := runInDialects lang Pass.first d
      let more := runInDialects lang (Pass.second (isTyped o.document)) o.document
      { more with diagnostics := o.diagnostics ++ more.diagnostics } := by
  have hsecond : ∀ typed d, runPasses lang typed [.blocks, .attributes, .texts] d =
      runInDialects lang (Pass.second typed) d := fun _ _ => rfl
  simp only [Pass.first, runInDialects] at h ⊢
  split at h
  · next he => simp [he] at h
  · next htypes =>
      simp only at h
      split at h
      · next he => simp [he] at h
      · next hembedded =>
          simp only [transform, Pass.all, runPasses, htypes, Pass.dialect, hembedded, ← hsecond,
            List.append_nil, List.append_assoc]

/-- A pass that succeeds leaves the outcome to the passes behind it. -/
theorem runInDialects_error {p : Pass} {steps : List (Pass × Bool)}
    (h : (p.run lang typed d).error = none) : (runInDialects lang ((p, typed) :: steps) d).error =
      (runInDialects lang steps (p.run lang typed d).document).error := by
  simp only [runInDialects]
  rw [h]

/-- Where all passes succeed, the first two do. -/
theorem first_of_transform (h : (transform lang d).error = none) :
    (runInDialects lang Pass.first d).error = none := by
  simp only [transform, Pass.all, runPasses] at h
  split at h
  · next he => simp [he] at h
  · next htypes =>
      simp only [Pass.dialect] at h
      split at h
      · next he => simp [he] at h
      · next hembedded => exact (runInDialects_error htypes).trans (runInDialects_error hembedded)

/-- Whether the scripts that were found are typed. -/
theorem isTyped_eq {d' : Document} (htree : d.SameTree d') (hf : ∀ i ∈ d.walk, d'.node i = f i) :
    isTyped d' = d.walk.any fun i => (f i).type == .script && (f i).params.typescript := by
  rw [isTyped, htree.walk_eq, Bool.eq_iff_iff, List.any_eq_true, List.any_eq_true]
  refine exists_congr fun i => and_congr_right fun hi => ?_
  rw [hf i hi]

/-- Passes other than the first do not change whether the scripts are typed. -/
theorem Pass.isTyped_run (htypes : p ≠ .types) (h : (p.run lang typed d).error = none) :
    isTyped (p.run lang typed d).document = isTyped d := by
  have hnode : ∀ i, ((p.run lang typed d).document.node i).type = (d.node i).type ∧
      ((p.run lang typed d).document.node i).params.typescript = (d.node i).params.typescript := by
    intro i
    refine Pass.node_run (P := fun n => n.type = (d.node i).type ∧
      n.params.typescript = (d.node i).params.typescript) (fun _ _ hn => hn) ?_ h ⟨rfl, rfl⟩
    intro n n' hn hwork
    cases hwork with
    | typed => exact absurd rfl htypes
    | script | style | block | attributes | text => exact hn
  rw [isTyped, isTyped, (Pass.sameTree_run h).walk_eq]
  simp only [hnode]

/-- **All passes together** make of each node what the first two and then the others make of it
alone. -/
theorem transform_of_runs {g : Nat → Node} (hd : d.Forest)
    (hfirst : ∀ i ∈ d.walk, (d.node i).Runs lang Pass.first (f i))
    (htyped : (d.walk.any fun i => (f i).type == .script && (f i).params.typescript) = typed)
    (hsecond : ∀ i ∈ d.walk, (f i).Runs lang (Pass.second typed) (g i)) :
    ∃ d', transform lang d = { document := d' } ∧ d.SameTree d' ∧
      ∀ i ∈ d.walk, d'.node i = g i := by
  obtain ⟨d₁, hrun, htree, hmade, -⟩ := runInDialects_of_runs hd hfirst
  obtain ⟨d', hmore, htree', hmade', -⟩ :=
    runInDialects_of_runs (f := g) (hd.congr htree) fun i hi => by
      rw [htree.walk_eq] at hi
      rw [hmade i hi]
      exact hsecond i hi
  refine ⟨d', ?_, htree.trans htree', by rwa [htree.walk_eq] at hmade'⟩
  rw [transform_eq (by rw [hrun]), hrun]
  simp only [isTyped_eq htree hmade, htyped, hmore, List.append_nil]

/-- **All passes without a problem** have none with any node, if there are no blocks and no braces in
texts. -/
theorem runs_of_transform (hd : d.Forest) (herror : (transform lang d).error = none)
    (hfound : (transform lang d).diagnostics = [])
    (htexts : ∀ i ∈ d.walk, (d.node i).Local .texts)
    (hblocks : ∀ i ∈ d.walk, ∀ kind, ((transform lang d).document.node i).type ≠ .block kind) :
    ∃ (typed : Bool) (f : Nat → Node), (∀ i ∈ d.walk, (d.node i).Runs lang Pass.first (f i)) ∧
      (d.walk.any fun i => (f i).type == .script && (f i).params.typescript) = typed ∧
      (∀ i ∈ d.walk, (f i).Runs lang (Pass.second typed) ((transform lang d).document.node i)) ∧
      d.SameTree (transform lang d).document ∧
      ∀ i ∉ d.walk, (transform lang d).document.node i = d.node i := by
  have hone := first_of_transform herror
  have heq := transform_eq hone
  generalize ho : runInDialects lang Pass.first d = o at hone heq
  have hdocument := congrArg Outcome.document heq
  have hnone := (congrArg Outcome.error heq).symm.trans herror
  have hnothing := (congrArg Outcome.diagnostics heq).symm.trans hfound
  simp only [List.append_eq_nil_iff] at hdocument hnone hnothing
  have hapart : ∀ step ∈ Pass.first, ∀ step' ∈ Pass.first, step.1 ≠ .types ∨ step'.1 ≠ .blocks := by
    decide
  have hfirst := runs_of_runInDialects hd (by rw [ho, hone]) (by rw [ho, hnothing.1])
    (fun i _ step hstep => by
      simp only [Pass.first, List.mem_cons, List.not_mem_nil, or_false] at hstep
      rcases hstep with rfl | rfl <;> trivial) hapart
  rw [ho] at hfirst
  obtain ⟨d₁, hrun, htree, hmade, hleft⟩ := runInDialects_of_runs hd hfirst
  obtain rfl : o.document = d₁ := by rw [← ho, hrun]
  have hsteps : ∀ step ∈ Pass.second (isTyped o.document), step.1 ≠ .types := by simp [Pass.second]
  have hsecond := runs_of_runInDialects (hd.congr htree) hnone hnothing.2 (fun i hi step hstep => by
    rw [htree.walk_eq] at hi
    have hblock : (o.document.node i).Local .blocks := by
      intro kind
      rw [← runInDialects_type hnone hsteps i, ← hdocument]
      exact hblocks i hi kind
    have htext := (htexts i hi).runs (by simp) (hfirst i hi)
    simp only [Pass.second, List.mem_cons, List.not_mem_nil, or_false] at hstep
    rcases hstep with rfl | rfl | rfl
    · exact hblock
    · trivial
    · exact htext) fun step hstep _ _ => .inl (hsteps step hstep)
  obtain ⟨d₂, hrun₂, htree₂, -, hleft₂⟩ := runInDialects_of_runs (hd.congr htree) hsecond
  rw [htree.walk_eq] at hsecond hleft₂
  have hd₂ : (transform lang d).document = d₂ := by rw [hdocument, hrun₂]
  refine ⟨_, fun i => o.document.node i, hfirst, (isTyped_eq htree fun _ _ => rfl).symm, ?_, ?_, ?_⟩
  · rw [hdocument]
    exact hsecond
  · rw [hd₂]
    exact htree.trans htree₂
  · intro i hi
    rw [hd₂, hleft₂ i hi, hleft i hi]

end Stencil
