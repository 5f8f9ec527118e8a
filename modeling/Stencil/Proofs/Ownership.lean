import Mathlib.Data.List.Flatten
import Stencil.Proofs.Builds
import Stencil.Proofs.Forest
import Stencil.Proofs.Needed

/-!
# Components partition a document

The component of a document comes first, then one for each named fragment whose name is not taken
yet, in document order; the others are reported (`Template.addDocument_run`).  A component owns the
nodes that it is analyzed by.  The owner of a node that is no fragment is the owner of its parent,
or the component that starts there (`Component.mem_ownNodes_child`), so no two components own a
node, and if no name is taken twice each node has an owner (`addDocument_owned`).
-/

namespace Stencil.Markup

open Stencil.Passes

/-- A fragment is a tag that has a name. -/
def Node.NamesFragment (n : Node) : Prop :=
  n.type = .fragment → n.isTag = true ∧ n.params.fragment.isSome = true

namespace Node

variable {n n' : Node} {p : Pass}

/-- A fresh node counts as naming its fragment. -/
theorem Fresh.namesFragment (h : n.Fresh) : n.NamesFragment := by
  intro htype
  rw [h.type] at htype
  cases hcontent : n.content <;> simp [hcontent, Content.type] at htype

/-- A fragment is typed as one only with a name. -/
theorem named_of_typeOf {name : String} {named : Bool} (h : typeOf name named = .fragment) :
    named = true := by
  unfold typeOf at h
  repeat' split at h
  all_goals first | assumption | simp at h

/-- No pass makes a fragment without a name. -/
theorem NamesFragment.work (h : n.NamesFragment) (hwork : n.Works p n') : n'.NamesFragment := by
  cases hwork with
  | typed htype htyped he =>
      intro hfragment
      simp only [typeElement] at hfragment ⊢
      exact ⟨rfl, named_of_typeOf hfragment⟩
  | script htype parts => exact h
  | style htype sheet => exact h
  | block htype he hnone hblock => exact fun hfragment => ⟨rfl, (h hfragment).2⟩
  | attributes htype he hsettled hsame => exact fun hfragment => ⟨rfl, (h hfragment).2⟩
  | text htype hraw parts =>
      intro hfragment
      have htag := (h hfragment).1
      simp [isTag, element?, hraw] at htag

end Node

namespace Document

variable {d : Document}

/-- The number and the name of a node that is a named fragment. -/
def fragment? (d : Document) (id : Nat) : Option (Nat × String) :=
  if (d.node id).type = .fragment then (d.node id).params.fragment.map (id, ·) else none

/-- The named fragments of a document, in document order. -/
def fragments (d : Document) : List (Nat × String) := d.walk.filterMap d.fragment?

/-- A node is a fragment of a name exactly if it is typed and named so. -/
theorem fragment?_eq_some_iff {id i : Nat} {name : String} :
    d.fragment? id = some (i, name) ↔
      i = id ∧ (d.node id).type = .fragment ∧ (d.node id).params.fragment = some name := by
  unfold fragment?
  split
  · next htype =>
      simp only [Option.map_eq_some_iff, Prod.mk.injEq, htype, true_and]
      grind
  · next htype => simp [htype]

/-- The fragments of a document are the walked nodes that are one. -/
theorem mem_fragments_iff {id : Nat} {name : String} :
    (id, name) ∈ d.fragments ↔ id ∈ d.walk ∧ (d.node id).type = .fragment ∧
      (d.node id).params.fragment = some name := by
  simp only [fragments, List.mem_filterMap, fragment?_eq_some_iff]
  grind

/-- If all fragments have names, they are the named ones. -/
theorem mem_map_fst_fragments_iff (h : ∀ id, (d.node id).NamesFragment) {id : Nat} :
    id ∈ d.fragments.map Prod.fst ↔ id ∈ d.walk ∧ (d.node id).type = .fragment := by
  rw [List.mem_map]
  constructor
  · rintro ⟨⟨id, name⟩, hmem, rfl⟩
    obtain ⟨hwalk, htype, -⟩ := mem_fragments_iff.mp hmem
    exact ⟨hwalk, htype⟩
  · rintro ⟨hwalk, htype⟩
    obtain ⟨name, hname⟩ := Option.isSome_iff_exists.mp (h id htype).2
    exact ⟨(id, name), mem_fragments_iff.mpr ⟨hwalk, htype, hname⟩, rfl⟩

/-- The numbers of the fragments are some of those on the walk, in the same order. -/
theorem fragments_sublist_walk (d : Document) : (d.fragments.map Prod.fst).Sublist d.walk := by
  unfold fragments
  generalize d.walk = ids
  induction ids with
  | nil => exact .slnil
  | cons id rest ih =>
      cases hfragment : d.fragment? id with
      | none =>
          rw [List.filterMap_cons_none hfragment]
          exact ih.cons id
      | some f =>
          obtain ⟨hid, -⟩ := fragment?_eq_some_iff.mp hfragment
          rw [List.filterMap_cons_some hfragment, List.map_cons, hid]
          exact ih.cons_cons id

end Document

end Stencil.Markup

namespace Stencil

open Stencil.Markup Stencil.Source Stencil.Passes
open Stencil.Script (Language)

/-- The fragments whose names are not taken: neither from the start nor by a fragment before. -/
def novel (taken : List String) : List (Nat × String) → List (Nat × String)
  | [] => []
  | f :: rest => if f.2 ∈ taken then novel taken rest else f :: novel (taken ++ [f.2]) rest

/-- The fragments whose names are taken, from the start or by a fragment before. -/
def repeated (taken : List String) : List (Nat × String) → List (Nat × String)
  | [] => []
  | f :: rest => if f.2 ∈ taken then f :: repeated taken rest else repeated (taken ++ [f.2]) rest

section Names

variable {taken : List String} {fs : List (Nat × String)}

/-- Where no name repeats, all fragments are novel. -/
theorem novel_of_repeated (h : repeated taken fs = []) : novel taken fs = fs := by
  induction fs generalizing taken with
  | nil => rfl
  | cons f rest ih =>
      by_cases hf : f.2 ∈ taken
      · simp [repeated, hf] at h
      · simp only [repeated, if_neg hf] at h
        rw [novel, if_neg hf, ih h]

/-- No name is given out twice. -/
theorem nodup_novel (fs : List (Nat × String)) (h : taken.Nodup) :
    (taken ++ (novel taken fs).map Prod.snd).Nodup := by
  induction fs generalizing taken with
  | nil => simpa [novel] using h
  | cons f rest ih =>
      by_cases hf : f.2 ∈ taken
      · rw [novel, if_pos hf]
        exact ih h
      · have hmore : (taken ++ [f.2]).Nodup := List.concat_eq_append ▸ h.concat hf
        rw [novel, if_neg hf, List.map_cons, List.append_cons]
        exact ih hmore

end Names

/-- The error about a fragment whose name is taken. -/
def duplicateError (d : Document) (f : Nat × String) : Diagnostic :=
  .error (Component.Problem.duplicate f.2).message (d.node f.1).span

/-- The errors among some diagnostics. -/
def errorsIn (found : List Diagnostic) : List Diagnostic := found.filter (·.level == .error)

namespace Component

variable {c : Component} {d : Document}

/-- The nodes that the component owns are all that its analysis depends on. -/
structure Analyzed (c : Component) (d : Document) (target : Target) : Prop where
  style : c.style.blocks = (c.ownNodes d).flatMap fun id => styleOf (d.node id)
  declared : ∀ name, name ∈ c.declared ↔ ∃ id ∈ c.ownNodes d,
    ∃ parts, scriptOf (d.node id) target = some parts ∧ name ∈ parts.declared
  updated : ∀ name, name ∈ c.updated ↔ name ∈ c.declared ∧
    ∃ id ∈ c.ownNodes d, name ∈ assignedIn (d.node id) target

/-- The names united are those of both lists. -/
theorem mem_unite {names more : List String} {name : String} :
    name ∈ unite names more ↔ name ∈ names ∨ name ∈ more := by
  unfold unite
  induction more generalizing names with
  | nil => simp
  | cons first rest ih =>
      rw [List.foldl_cons, ih]
      split
      · next hfound =>
          have : first ∈ names := by simpa using hfound
          grind
      · simp only [List.mem_append, List.mem_cons, List.not_mem_nil, or_false, or_assoc]

/-- The names declared are those found before and those of the script. -/
theorem mem_declaredWith {found : List String} {script : Option Script.Parts} {name : String} :
    name ∈ declaredWith found script ↔
      name ∈ found ∨ ∃ parts, script = some parts ∧ name ∈ parts.declared := by
  cases script with
  | none => simp [declaredWith]
  | some parts => simp [declaredWith, mem_unite]

/-- Components of one outline have one root. -/
theorem root_of_outline {c' : Component} (h : c'.outline = c.outline) : c'.root = c.root := by
  simpa only [outline] using congrArg Component.root h

/-- Components of one outline have one name. -/
theorem name_of_outline {c' : Component} (h : c'.outline = c.outline) : c'.name = c.name := by
  simpa only [outline] using congrArg Component.name h

/-- What the walk of a component leaves alone decides what its analysis depends on. -/
theorem Analyzed.congr {c' : Component} {target : Target} (h : c.Analyzed d target)
    (houtline : c'.outline = c.outline) : c'.Analyzed d target := by
  have hstyle := congrArg Component.style houtline
  have hdeclared := congrArg Component.declared houtline
  have hupdated := congrArg Component.updated houtline
  simp only [outline] at hstyle hdeclared hupdated
  have hown : c'.ownNodes d = c.ownNodes d := by
    simp only [ownNodes, nodes, root_of_outline houtline]
  refine ⟨?_, ?_, ?_⟩
  · rw [hstyle, hown, h.style]
  · rw [hdeclared, hown]
    exact h.declared
  · rw [hupdated, hdeclared, hown]
    exact h.updated

/-- Analyzing a component makes it analyzed. -/
theorem analyzed_analyze (root : Nat) (name : String) (isDefault : Bool) (d : Document)
    (target : Target) :
    (({ name, root, isDefault } : Component).analyze d target).Analyzed d target := by
  have hdeclared : ∀ (ids : List Nat) (found : List String) (name : String),
      name ∈ ids.foldl (fun found id => declaredWith found (scriptOf (d.node id) target)) found ↔
        name ∈ found ∨ ∃ id ∈ ids, ∃ parts, scriptOf (d.node id) target = some parts ∧
          name ∈ parts.declared := by
    intro ids
    induction ids with
    | nil => simp
    | cons id rest ih =>
        intro found name
        rw [List.foldl_cons, ih, mem_declaredWith, or_assoc]
        simp
  rw [analyze_eq]
  refine ⟨rfl, fun name => ?_, fun name => ?_⟩
  · exact (hdeclared _ _ name).trans (by simp [ownNodes, nodes])
  · rw [List.mem_filter, List.contains_eq_mem, decide_eq_true_eq, List.mem_flatMap]
    rfl

end Component

namespace Template

variable {t : Template} {lang : Language} {d : Document}

/-- The roots of the components with their names. -/
def keys (t : Template) : List (Nat × String) := t.components.map fun c => (c.root, c.name)

/-- A component is found by name exactly if one has that name. -/
theorem isSome_component? (t : Template) (name : String) :
    (t.component? name).isSome = true ↔ name ∈ t.components.map Component.name := by
  simp [component?, List.find?_isSome]

/-- Analyzing keeps the name that is given. -/
theorem name_analyzed (lang : Language) (t : Template) (d : Document) (root : Nat) (name : String)
    (isDefault : Bool) : (t.analyzed lang d root name isDefault).name = name := by
  simp only [analyzed, withStyleHash]
  split <;> rfl

/-- Analyzing makes a component analyzed. -/
theorem analyzed_analyzed (lang : Language) (t : Template) (d : Document) (root : Nat) (name : String)
    (isDefault : Bool) : (t.analyzed lang d root name isDefault).Analyzed d t.options.target := by
  have hanalyzed := Component.analyzed_analyze root name isDefault d t.options.target
  simp only [analyzed, withStyleHash]
  split
  · exact hanalyzed
  · exact ⟨hanalyzed.style, hanalyzed.declared, hanalyzed.updated⟩

/-- What adding a component does: it is the last one, analyzed by its nodes, and there are no errors
in it. -/
theorem addComponent_last (lang : Language) (t : Template) (d : Document) (root : Nat)
    (name : String) (isDefault : Bool) :
    (t.addComponent lang d root name isDefault).1.options = t.options ∧
      errorsIn (t.addComponent lang d root name isDefault).2 = [] ∧
      ∃ c, (t.addComponent lang d root name isDefault).1.components = t.components ++ [c] ∧
        c.root = root ∧ c.name = name ∧ c.Analyzed d t.options.target := by
  have hroot := root_analyzed lang t d root name isDefault
  have hname := name_analyzed lang t d root name isDefault
  have hanalyzed := analyzed_analyzed lang t d root name isDefault
  rw [addComponent_eq]
  generalize t.analyzed lang d root name isDefault = c at hroot hname hanalyzed ⊢
  -- the walk touches nothing of what was analyzed
  have houtline := outline_walkComponent ⟨lang, t.options, d⟩ ⟨c, t.imports, []⟩
  exact ⟨rfl, errors_walkComponent _ _, _, rfl, (Component.root_of_outline houtline).trans hroot,
    (Component.name_of_outline houtline).trans hname, hanalyzed.congr houtline⟩

/-- What a node does to a template while fragments are added: nothing if it is no named fragment, an
error if its name is taken, and otherwise its component is added. -/
theorem addFragment_cases (lang : Language) (d : Document) (t : Template)
    (found : List Diagnostic) (id : Nat) :
    (d.fragment? id = none ∧ addFragment lang d (t, found) id = (t, found)) ∨
      ∃ name, d.fragment? id = some (id, name) ∧
        (name ∈ t.components.map Component.name ∧
            addFragment lang d (t, found) id = (t, found ++ [duplicateError d (id, name)]) ∨
          name ∉ t.components.map Component.name ∧
            addFragment lang d (t, found) id =
              ((t.addComponent lang d id name false).1,
                found ++ (t.addComponent lang d id name false).2)) := by
  simp only [addFragment]
  split
  · next name htype hname =>
      refine .inr ⟨name, Document.fragment?_eq_some_iff.mpr ⟨rfl, htype, hname⟩, ?_⟩
      by_cases htaken : (t.component? name).isSome = true
      · rw [if_pos htaken]
        exact .inl ⟨(t.isSome_component? name).mp htaken, rfl⟩
      · rw [if_neg htaken]
        exact .inr ⟨mt (t.isSome_component? name).mpr htaken, rfl⟩
  · next hother =>
      refine .inl ⟨?_, rfl⟩
      rw [Option.eq_none_iff_forall_ne_some]
      rintro ⟨i, name⟩ hsome
      obtain ⟨-, htype, hname⟩ := Document.fragment?_eq_some_iff.mp hsome
      exact hother name htype hname

/-- **The whole run.**  Components are added for the fragments whose names are not taken, one error
is found for each of the others, and every component is analyzed by its nodes. -/
theorem foldl_addFragment (lang : Language) (d : Document) (ids : List Nat) (t : Template)
    (found : List Diagnostic) :
    let s := ids.foldl (addFragment lang d) (t, found)
    let fs := ids.filterMap d.fragment?
    s.1.keys = t.keys ++ novel (t.components.map Component.name) fs ∧
      errorsIn s.2 = errorsIn found ++
        (repeated (t.components.map Component.name) fs).map (duplicateError d) ∧
      ∀ c ∈ s.1.components, c ∈ t.components ∨ c.Analyzed d t.options.target := by
  induction ids generalizing t found with
  | nil => exact ⟨by simp [novel], by simp [repeated], fun c hc => .inl hc⟩
  | cons id rest ih =>
      intro s fs
      rcases t.addFragment_cases lang d found id with
        ⟨hnone, hstep⟩ | ⟨name, hsome, ⟨htaken, hstep⟩ | ⟨hfree, hstep⟩⟩
      · simp only [s, fs, List.foldl_cons, hstep, List.filterMap_cons_none hnone]
        exact ih t found
      · simp only [s, fs, List.foldl_cons, hstep, List.filterMap_cons_some hsome, novel, repeated,
          if_pos htaken]
        obtain ⟨hkeys, herrors, hanalyzed⟩ := ih t (found ++ [duplicateError d (id, name)])
        refine ⟨hkeys, herrors.trans ?_, hanalyzed⟩
        simp [errorsIn, duplicateError, Diagnostic.error]
      · obtain ⟨hoptions, hclean, c, hcomponents, hroot, hname, hc⟩ :=
          t.addComponent_last lang d id name false
        simp only [s, fs, List.foldl_cons, hstep, List.filterMap_cons_some hsome, novel, repeated,
          if_neg hfree]
        generalize t.addComponent lang d id name false = added at hoptions hclean hcomponents ⊢
        obtain ⟨hkeys, herrors, hanalyzed⟩ := ih added.1 (found ++ added.2)
        have hnames : added.1.components.map Component.name =
            t.components.map Component.name ++ [name] := by
          rw [hcomponents, List.map_append, List.map_singleton, hname]
        have hadded : added.1.keys = t.keys ++ [(id, name)] := by
          rw [keys, hcomponents, List.map_append, List.map_singleton, hroot, hname]
          rfl
        rw [hnames] at hkeys herrors
        refine ⟨?_, ?_, ?_⟩
        · rw [hkeys, hadded, List.append_assoc, List.singleton_append]
        · rw [herrors]
          simp [errorsIn] at hclean ⊢
          exact hclean
        · intro e he
          rcases hanalyzed e he with hmem | hread
          · rw [hcomponents, List.mem_append, List.mem_singleton] at hmem
            rcases hmem with hmem | rfl
            · exact .inl hmem
            · exact .inr hc
          · exact .inr (hoptions ▸ hread)

/-- The components of a document and the errors that are found when they are added. -/
theorem addDocument_run (lang : Language) (o : Options) (d : Document) :
    (addDocument lang { options := o } d).1.keys = (0, o.name) :: novel [o.name] d.fragments ∧
      errorsIn (addDocument lang { options := o } d).2 =
        (repeated [o.name] d.fragments).map (duplicateError d) ∧
      ∀ c ∈ (addDocument lang { options := o } d).1.components, c.Analyzed d o.target := by
  have hrun : addDocument lang { options := o } d =
      d.walk.foldl (addFragment lang d) (addComponent lang { options := o } d 0 o.name true) := rfl
  have hlast := addComponent_last lang { options := o } d 0 o.name true
  rw [hrun]
  generalize addComponent lang { options := o } d 0 o.name true = start at hlast ⊢
  obtain ⟨hoptions, hclean, c, hcomponents, hroot, hname, hc⟩ := hlast
  obtain ⟨hkeys, herrors, hanalyzed⟩ := foldl_addFragment lang d d.walk start.1 start.2
  rw [List.nil_append] at hcomponents
  rw [hcomponents, List.map_singleton, hname] at hkeys herrors
  refine ⟨?_, ?_, ?_⟩
  · rw [hkeys, keys, hcomponents, List.map_singleton, hroot, hname]
    rfl
  · rw [herrors, hclean]
    rfl
  · intro e he
    rcases hanalyzed e he with hmem | he
    · rw [hcomponents] at hmem
      rw [List.mem_singleton.mp hmem]
      exact hc
    · rw [hoptions] at he
      exact he

end Template

/-! ### Who owns a node -/

namespace Component

variable {c : Component} {d : Document}

/-- A node below a root is a child of it or of a node below that is no fragment. -/
theorem mem_nodesBelow_cases {levels root id : Nat} (h : id ∈ nodesBelow d levels root) :
    ∃ p, (p = root ∨ p ∈ nodesBelow d levels root ∧ (d.node p).type ≠ .fragment) ∧
      id ∈ d.children p := by
  induction levels generalizing root with
  | zero => simp [nodesBelow] at h
  | succ levels ih =>
      obtain ⟨child, hchild, hid⟩ := List.mem_flatMap.mp h
      split at hid
      · rw [List.mem_singleton.mp hid]
        exact ⟨root, .inl rfl, hchild⟩
      · next htype =>
          have hopen : (d.node child).type ≠ .fragment := by simpa using htype
          have hdown : ∀ p ∈ child :: nodesBelow d levels child,
              p ∈ nodesBelow d (levels + 1) root := by
            intro p hp
            refine List.mem_flatMap.mpr ⟨child, hchild, ?_⟩
            rw [if_neg htype]
            exact hp
          rcases List.mem_cons.mp hid with rfl | hid
          · exact ⟨root, .inl rfl, hchild⟩
          · obtain ⟨p, rfl | ⟨hp, hptype⟩, hedge⟩ := ih hid
            · exact ⟨p, .inr ⟨hdown p List.mem_cons_self, hopen⟩, hedge⟩
            · exact ⟨p, .inr ⟨hdown p (List.mem_cons_of_mem _ hp), hptype⟩, hedge⟩

/-- Children of nodes below that are no fragments are below, where there are levels enough. -/
theorem mem_nodesBelow_of_child (hd : d.Forward) {levels root p id : Nat}
    (hlevels : d.size ≤ root + levels + 1)
    (hp : p = root ∨ p ∈ nodesBelow d levels root ∧ (d.node p).type ≠ .fragment)
    (hid : id ∈ d.children p) : id ∈ nodesBelow d levels root := by
  induction levels generalizing root with
  | zero =>
      obtain rfl : p = root := by simpa [nodesBelow] using hp
      have := hd p id hid
      omega
  | succ levels ih =>
      rcases hp with rfl | ⟨hp, htype⟩
      · refine List.mem_flatMap.mpr ⟨id, hid, ?_⟩
        split <;> simp
      · obtain ⟨child, hchild, hp⟩ := List.mem_flatMap.mp hp
        have := hd root child hchild
        refine List.mem_flatMap.mpr ⟨child, hchild, ?_⟩
        split at hp
        · next hfragment =>
            obtain rfl := List.mem_singleton.mp hp
            exact absurd (by simpa using hfragment) htype
        · next hopen =>
            rw [if_neg hopen]
            refine List.mem_cons_of_mem _ (ih (by omega) ?_)
            exact (List.mem_cons.mp hp).imp_right fun hp => ⟨hp, htype⟩

/-- The nodes below are among those below at all. -/
theorem nodesBelow_sublist_below (d : Document) (levels root : Nat) :
    (nodesBelow d levels root).Sublist (d.below levels root) := by
  induction levels generalizing root with
  | zero => exact .slnil
  | succ levels ih =>
      refine List.Sublist.flatMap_right _ fun child _ => ?_
      split
      · exact (List.nil_sublist _).cons_cons child
      · exact (ih child).cons_cons child

/-- A component owns its root, the one of the document apart, and the nodes below that which are no
fragments and not in one. -/
theorem mem_ownNodes_iff (hd : d.Forward) {id : Nat} :
    id ∈ c.ownNodes d ↔ id = c.root ∧ id ≠ 0 ∨
      id ∈ nodesBelow d d.size c.root ∧ (d.node id).type ≠ .fragment := by
  have hbelow : id ∈ nodesBelow d d.size c.root → c.root < id := fun hid =>
    (Document.lt_of_mem_below hd ((nodesBelow_sublist_below d d.size c.root).subset hid)).1
  simp only [ownNodes, nodes, List.mem_filter, List.mem_append, Bool.or_eq_true, bne_iff_ne, ne_eq,
    beq_iff_eq]
  constructor
  · rintro ⟨hroot | hid, howned⟩
    · split at hroot
      · simp at hroot
      · next hne =>
          obtain rfl := List.mem_singleton.mp hroot
          exact .inl ⟨rfl, hne⟩
    · have := hbelow hid
      exact .inr ⟨hid, howned.resolve_right (by omega)⟩
  · rintro (⟨rfl, hne⟩ | ⟨hid, htype⟩)
    · simp [hne]
    · exact ⟨.inr hid, .inl htype⟩

/-- No node is owned twice by one component. -/
theorem nodup_ownNodes (h : d.Forest) (c : Component) : (c.ownNodes d).Nodup := by
  have hsublist := nodesBelow_sublist_below d d.size c.root
  have hnodup := (h.nodup_descendants c.root).sublist hsublist
  refine List.Nodup.filter _ ?_
  unfold nodes
  split
  · exact hnodup
  · refine List.nodup_cons.mpr ⟨fun hroot => ?_, hnodup⟩
    exact Nat.lt_irrefl _ (Document.lt_of_mem_below h.forward (hsublist.subset hroot)).1

/-- A fragment is owned by its own component only. -/
theorem mem_ownNodes_fragment (hd : d.Forward) {id : Nat} (hid : id ≠ 0)
    (htype : (d.node id).type = .fragment) : id ∈ c.ownNodes d ↔ c.root = id := by
  simp [mem_ownNodes_iff hd, hid, htype, eq_comm]

/-- Any other node is owned by the component that owns its parent or starts there. -/
theorem mem_ownNodes_child (h : d.Forest) {id p : Nat} (hp : d.parent? id = some p)
    (htype : (d.node id).type ≠ .fragment) (hroot : c.root ≠ id) :
    id ∈ c.ownNodes d ↔ p ∈ c.root :: c.ownNodes d := by
  have hchild := (h.parent_iff id p).mp hp
  have hdown : p = c.root ∨ p ∈ nodesBelow d d.size c.root ∧ (d.node p).type ≠ .fragment →
      id ∈ nodesBelow d d.size c.root :=
    fun hp => mem_nodesBelow_of_child h.forward (by omega) hp hchild
  rw [List.mem_cons, mem_ownNodes_iff h.forward, mem_ownNodes_iff h.forward]
  constructor
  · rintro (⟨rfl, -⟩ | ⟨hid, -⟩)
    · exact absurd rfl hroot
    · obtain ⟨q, hq, hedge⟩ := mem_nodesBelow_cases hid
      obtain rfl : q = p := Option.some.inj (((h.parent_iff id q).mpr hedge).symm.trans hp)
      exact hq.imp_right .inr
  · rintro (rfl | ⟨rfl, -⟩ | hp)
    · exact .inr ⟨hdown (.inl rfl), htype⟩
    · exact .inr ⟨hdown (.inl rfl), htype⟩
    · exact .inr ⟨hdown (.inr hp), htype⟩

/-- **One owner.**  If there is a component for the document and one for each fragment, then each
attached node is the root of one of them or owned by it, and of no other. -/
theorem existsUnique_owner {cs : List Component} (h : d.Forest)
    (hroots : (cs.map root).Nodup)
    (hmem : ∀ id, id ∈ cs.map root ↔
      id = 0 ∨ id ∈ d.walk ∧ (d.node id).type = .fragment)
    {id : Nat} (hid : id ∈ d.walk) : ∃! c, c ∈ cs ∧ id ∈ c.root :: c.ownNodes d := by
  -- a node that a component starts from belongs to that one
  have hstart : ∀ id ∈ cs.map root, (∀ c : Component, id ∈ c.ownNodes d → c.root = id) →
      ∃! c, c ∈ cs ∧ id ∈ c.root :: c.ownNodes d := by
    intro id hid honly
    obtain ⟨c, hc, rfl⟩ := List.mem_map.mp hid
    refine ⟨c, ⟨hc, List.mem_cons_self⟩, ?_⟩
    rintro e ⟨he, howned⟩
    refine List.inj_on_of_nodup_map hroots he hc ?_
    exact (List.mem_cons.mp howned).elim Eq.symm (honly e)
  induction id using Nat.strong_induction_on with
  | _ id ih =>
      obtain rfl | ⟨p, hp, hchild⟩ := Document.mem_walk_cases hid
      · refine hstart 0 ((hmem 0).mpr (.inl rfl)) ?_
        intro c hzero
        rcases (mem_ownNodes_iff h.forward).mp hzero with ⟨hroot, -⟩ | ⟨hbelow, -⟩
        · exact hroot.symm
        · have hsublist := nodesBelow_sublist_below d d.size c.root
          have := Document.lt_of_mem_below h.forward (hsublist.subset hbelow)
          omega
      · have hlt := (h.forward p id hchild).1
        by_cases htype : (d.node id).type = .fragment
        · refine hstart id ((hmem id).mpr (.inr ⟨hid, htype⟩)) ?_
          intro c
          exact (mem_ownNodes_fragment h.forward (by omega) htype).mp
        · have hparent := (h.parent_iff id p).mpr hchild
          have hnoRoot : ∀ c ∈ cs, c.root ≠ id := by
            rintro c hc rfl
            rcases (hmem c.root).mp (List.mem_map_of_mem hc) with hzero | hfragment
            · omega
            · exact htype hfragment.2
          -- the owner of the parent is the owner of the child
          refine (existsUnique_congr fun c => and_congr_right fun hc => ?_).mp (ih p hlt hp)
          rw [List.mem_cons (a := id), ← mem_ownNodes_child h hparent htype (hnoRoot c hc),
            eq_comm, or_iff_right (hnoRoot c hc)]

end Component

/-! ### Documents that are read -/

section ParseTemplate

variable {lang : Language} {o : Options} {source : String}

/-- In a parsed template every fragment is named. -/
theorem parseTemplate_namesFragment (h : (parseTemplate lang o source).error = none) (id : Nat) :
    ((parseTemplate lang o source).document.node id).NamesFragment :=
  runPasses_node (fun _ hn => hn) (fun _ _ _ hn hwork => hn.work hwork) h
    (parse_fresh o.markup source id).namesFragment

/-- No pass works on the root of a document. -/
theorem parseTemplate_root (h : (parseTemplate lang o source).error = none) :
    ((parseTemplate lang o source).document.node 0).type = .document := by
  refine runPasses_node (P := fun n => n.type = .document) (fun _ hn => hn) ?_ h
    (parse_root o.markup source)
  intro p n n' hn hwork
  cases hwork with
  | typed htype | script htype | style htype | block htype | text htype => simp [hn] at htype
  | attributes htype => simp [hn, NodeType.isHost] at htype

/-- Its root is no fragment. -/
theorem parseTemplate_root_type (h : (parseTemplate lang o source).error = none) :
    ((parseTemplate lang o source).document.node 0).type ≠ .fragment := by
  simp [parseTemplate_root h]

end ParseTemplate

/-- **Components partition a document.**  Let a document be made from a template that was read, with
options for it and others for its components.  The names of the components are distinct; the
component of the document comes first and then those of the fragments whose names are not taken, in
document order; for each of the others there is one error, and there are no other errors.  If there
is no such error, every attached node but the root is owned by exactly one component.  The nodes
that a component owns, each counted once, are all that its analysis depends on. -/
theorem addDocument_owned (lang : Language) (o o' : Options) (source : String)
    (h : (parseTemplate lang o source).error = none) :
    let d := (parseTemplate lang o source).document
    let built := ({ options := o' } : Template).addDocument lang d
    (built.1.components.map Component.name).Nodup ∧
      built.1.keys = (0, o'.name) :: novel [o'.name] d.fragments ∧
      errorsIn built.2 = (repeated [o'.name] d.fragments).map (duplicateError d) ∧
      (errorsIn built.2 = [] →
        ∀ id ∈ d.walk, id ≠ 0 → ∃! c, c ∈ built.1.components ∧ id ∈ c.ownNodes d) ∧
      ∀ c ∈ built.1.components, (c.ownNodes d).Nodup ∧ c.Analyzed d o'.target := by
  intro d built
  have hforest : d.Forest := parseTemplate_forest h
  obtain ⟨hkeys, herrors, hanalyzed⟩ : built.1.keys = _ ∧ errorsIn built.2 = _ ∧
      ∀ c ∈ built.1.components, c.Analyzed d _ := Template.addDocument_run lang o' d
  have hnames : built.1.components.map Component.name = built.1.keys.map Prod.snd := by
    simp [Template.keys]
  have hroots : built.1.components.map Component.root = built.1.keys.map Prod.fst := by
    simp [Template.keys]
  refine ⟨?_, hkeys, herrors, ?_, fun c hc => ⟨Component.nodup_ownNodes hforest c, hanalyzed c hc⟩⟩
  · have hnovel : ([o'.name] ++ (novel [o'.name] d.fragments).map Prod.snd).Nodup :=
      nodup_novel d.fragments (List.nodup_singleton _)
    rw [hnames, hkeys]
    exact hnovel
  · intro hnone id hid hne
    rw [herrors, List.map_eq_nil_iff] at hnone
    rw [hkeys, novel_of_repeated hnone, List.map_cons] at hroots
    have hfragment : ∀ {id}, id ∈ d.fragments.map Prod.fst ↔
        id ∈ d.walk ∧ (d.node id).type = .fragment :=
      Document.mem_map_fst_fragments_iff (parseTemplate_namesFragment h)
    have hnodup : (built.1.components.map Component.root).Nodup := by
      rw [hroots]
      refine List.nodup_cons.mpr ⟨?_, hforest.nodup_walk.sublist d.fragments_sublist_walk⟩
      exact fun hzero => parseTemplate_root_type h (hfragment.mp hzero).2
    have howner := Component.existsUnique_owner hforest hnodup
      (fun id => by rw [hroots, List.mem_cons, hfragment]) hid
    refine (existsUnique_congr fun c => and_congr_right fun _ => ?_).mp howner
    rw [List.mem_cons, or_iff_right_iff_imp]
    rintro rfl
    exact (Component.mem_ownNodes_iff hforest.forward).mpr (.inl ⟨rfl, hne⟩)

/-- A fragment in a fragment, a script in the inner one, and an element behind both. -/
def nestedTemplate : String :=
  "<div @name=A>a<p @name=B><script>let n = 0</script></p></div><b/>"

/-- The script is owned by one component, and so is the element behind the fragments. -/
theorem addDocument_owned_nested :
    let d := (parseTemplate Script.javaScript {} nestedTemplate).document
    let built := ({ options := {} } : Template).addDocument Script.javaScript d
    (d.node 4).type = .script ∧ built.1.keys = [(0, "Component"), (1, "A"), (3, "B")] ∧
      errorsIn built.2 = [] ∧ (∃! c, c ∈ built.1.components ∧ 4 ∈ c.ownNodes d) ∧
      ∃! c, c ∈ built.1.components ∧ 5 ∈ c.ownNodes d := by
  have hread :
      let d := (parseTemplate Script.javaScript {} nestedTemplate).document
      (parseTemplate Script.javaScript {} nestedTemplate).error = none ∧
        (d.node 4).type = .script ∧ d.fragments = [(1, "A"), (3, "B")] ∧ 4 ∈ d.walk ∧
        5 ∈ d.walk := by
    decide +kernel
  obtain ⟨herror, htype, hfragments, hscript, hbehind⟩ := hread
  obtain ⟨-, hkeys, herrors, howned, -⟩ :=
    addDocument_owned Script.javaScript {} {} nestedTemplate herror
  rw [hfragments] at hkeys herrors
  exact ⟨htype, hkeys, herrors, howned herrors 4 hscript (by decide),
    howned herrors 5 hbehind (by decide)⟩

end Stencil
