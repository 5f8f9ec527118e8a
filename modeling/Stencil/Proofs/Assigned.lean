import Mathlib.Data.List.Basic
import Stencil.Script.Language

/-!
# Names that are assigned

`uses` walks a whole tree with the names that the scopes on its way bind, whatever the parser says
these are.  Each node opens one scope around each of its parts (`Node.parts`, `uses_eq`), so what is
found in a tree is what stands at some node within it and is bound by no scope in between
(`mem_uses_iff`).  The names assigned are therefore the roots of the targets of all assignments and
updates, each once, targets that are taken apart excepted (`parse_assigned`).
-/

namespace Stencil.Script

variable {r : Bindings}

/-! ### Nodes and the scopes around them -/

/-- Some nodes in the same scope. -/
def inside (s : Scope) (ns : List Node) : List (Scope × Node) := ns.map fun n => (s, n)

/-- The parts of a node, each with what the node binds around it. -/
def Node.parts (r : Bindings) : Node → List (Scope × Node)
  | .absent | .literal _ | .this | .parent | .metaProperty | .elision | .key _ | .bind _ => []
  | .empty | .importing _ | .exportingAll _ | .ident _ | .shorthand _ => []
  | .template ns | .array ns _ | .object ns _ | .importCall ns | .sequence ns | .arrayTarget ns
  | .objectTarget ns | .arrayPattern ns | .objectPattern ns | .variables _ ns | .typeName _ ns
  | .typeQuery _ ns | .typeGroup ns => inside {} ns
  | .spread n | .shorthandDefault _ _ n | .computed n | .member n _ | .privateMember n _ | .chain n
  | .unary _ n | .update n | .paren n | .await n | .yield n | .nonNull n | .restTarget n
  | .restPattern n | .perform n | .jump n | .labelled n | .exporting _ n | .exportingDefault n
  | .alias _ n => inside {} [n]
  | .property m n | .index m n | .binary _ m n | .logical _ m n | .assign _ m n | .cast m n
  | .assertion m n | .defaulted m n | .patternDefault m n | .typed m n | .declarator m n
  | .repeat m n | .typeParameter _ m n => inside {} [m, n]
  | .conditional k m n | .choice k m n | .guarded k m n => inside {} [k, m, n]
  | .tagged tag types holes => inside {} (tag :: types ++ holes)
  | .call callee types arguments => inside {} (callee :: types ++ arguments)
  | .construct callee types arguments => inside {} (callee :: types ++ arguments)
  | .method decorators m n => inside {} (decorators ++ [m, n])
  | .field decorators k m n => inside {} (decorators ++ [k, m, n])
  | .instantiation e types => inside {} (e :: types)
  | .parameter decorators pattern => inside {} (decorators ++ [pattern])
  | .case test body => inside {} (test :: body)
  | .function role name types params result body =>
      inside (r.function role name types params body) (types ++ params ++ result :: body)
  | .arrow types params result body =>
      inside (r.function .method none types params body) (types ++ params ++ result :: body)
  | .klass declared name decorators types heritage members =>
      inside {} decorators ++ inside (r.klass declared name types) (types ++ heritage ++ members)
  | .block body => inside (r.block body) body
  | .count start test step body => inside (r.loop start) [start, test, step, body]
  | .each left right body => inside (r.loop left) [left, right, body]
  | .switch subject cases => inside {} [subject] ++ inside (r.cases cases) cases
  | .handler pattern body => inside (r.handler pattern body) (pattern :: body)
  | .typeScope types params parts => inside (r.signature types params) (types ++ params ++ parts)
  | .conditionalType check bound yes no =>
      inside {} [check] ++ inside (r.inferred bound) [bound, yes] ++ inside {} [no]
  | .typeDeclaration _ types parts => inside (r.declaration types) (types ++ parts)
  | .enumeration _ members => inside (r.members members) members
  | .space _ body => inside (r.space body) body

/-- What a node itself does with names, where a scope binds some. -/
def Node.own (s : Scope) : Node → List Use
  | .ident name | .shorthand name | .shorthandDefault name _ _ | .typeQuery name _ => s.value name
  | .typeName name _ => s.type name
  | .update target | .assign _ target _ => s.assigns target
  | _ => []

/-- The uses in a list of nodes are those of its nodes, in order. -/
theorem usesAll_eq (r : Bindings) (s : Scope) (ns : List Node) :
    usesAll r s ns = ns.flatMap (uses r s) := by
  induction ns with
  | nil => rfl
  | cons n ns ih => rw [usesAll, ih, List.flatMap_cons]

/-- An empty scope adds nothing in front. -/
@[simp] theorem Scope.empty_join (s : Scope) : Scope.join {} s = s := rfl

/-- An empty scope adds nothing behind. -/
@[simp] theorem Scope.join_empty (s : Scope) : s.join {} = s := by
  simp [Scope.join]

/-- Scopes join in any grouping. -/
theorem Scope.join_assoc (a b c : Scope) : (a.join b).join c = a.join (b.join c) := by
  simp [Scope.join]

/-- The uses inside a node are those of the list it opens, in the joined scope. -/
theorem flatMap_inside (t s : Scope) (ns : List Node) :
    (inside t ns).flatMap (fun p => uses r (p.1.join s) p.2) = usesAll r (t.join s) ns := by
  rw [inside, List.flatMap_map, usesAll_eq]

theorem usesAll_nil (s : Scope) : usesAll r s [] = [] := rfl

theorem usesAll_cons (s : Scope) (n : Node) (ns : List Node) :
    usesAll r s (n :: ns) = uses r s n ++ usesAll r s ns := rfl

theorem usesAll_append (s : Scope) (ms ns : List Node) :
    usesAll r s (ms ++ ns) = usesAll r s ms ++ usesAll r s ns := by
  simp only [usesAll_eq, List.flatMap_append]

/-- **One node**: what it does itself, and then what its parts do in the scopes that it opens. -/
theorem uses_eq (s : Scope) (n : Node) :
    uses r s n = n.own s ++ (n.parts r).flatMap fun p => uses r (p.1.join s) p.2 := by
  cases n <;>
    simp only [Node.own, Node.parts, List.flatMap_append, flatMap_inside, Scope.empty_join,
      usesAll_append, usesAll_cons, usesAll_nil, List.flatMap_nil, List.append_nil, List.nil_append,
      ← List.append_assoc] <;>
    rfl

/-- What is inside a list of nodes is as small as the list. -/
theorem sizeOf_inside {k : Nat} {s : Scope} {ns : List Node} :
    (∀ p ∈ inside s ns, sizeOf p.2 < k) ↔ ∀ n ∈ ns, sizeOf n < k := by
  simp [inside]

/-- The parts of a node are smaller than the node. -/
theorem sizeOf_parts (n : Node) : ∀ p ∈ n.parts r, sizeOf p.2 < sizeOf n := by
  have hmem : ∀ {m : Node} {ns : List Node}, m ∈ ns → sizeOf m < sizeOf ns := List.sizeOf_lt_of_mem
  cases n <;>
    simp only [Node.parts, List.forall_mem_append, List.forall_mem_cons, sizeOf_inside,
      List.not_mem_nil, false_implies, implies_true, and_true] <;>
    (repeat' apply And.intro) <;>
    (try intro m hm; have := hmem hm) <;>
    simp <;>
    omega

/-- A node stands within another, in scopes that bind some names. -/
inductive Within (r : Bindings) : Node → Scope → Node → Prop
  | here (n : Node) : Within r n {} n
  | inside {n m k : Node} {s bound : Scope} (h : (s, m) ∈ n.parts r)
      (tail : Within r m bound k) : Within r n (bound.join s) k

/-- **The whole tree**: what is done in it is what the nodes within it do, each in its scopes. -/
theorem mem_uses_iff {u : Use} {n : Node} {s : Scope} :
    u ∈ uses r s n ↔ ∃ bound k, Within r n bound k ∧ u ∈ k.own (bound.join s) := by
  constructor
  · induction hsize : sizeOf n using Nat.strongRecOn generalizing n s with
    | _ size ih =>
        intro hu
        rw [uses_eq, List.mem_append, List.mem_flatMap] at hu
        rcases hu with hown | ⟨⟨t, m⟩, hpart, hm⟩
        · exact ⟨{}, n, .here n, by rwa [Scope.empty_join]⟩
        · obtain ⟨bound, k, hwithin, hk⟩ := ih (sizeOf m) (hsize ▸ sizeOf_parts n _ hpart) rfl hm
          exact ⟨bound.join t, k, .inside hpart hwithin, by rwa [Scope.join_assoc]⟩
  · rintro ⟨bound, k, hwithin, hk⟩
    induction hwithin generalizing s with
    | here n =>
        rw [uses_eq]
        exact List.mem_append_left _ (by rwa [Scope.empty_join] at hk)
    | inside hpart _ ih =>
        rw [uses_eq]
        rw [Scope.join_assoc] at hk
        exact List.mem_append_right _ (List.mem_flatMap.mpr ⟨_, hpart, ih hk⟩)

/-! ### Targets -/

/-- What an assignment or an update writes to. -/
def Node.target? : Node → Option Node
  | .assign _ target _ => some target
  | .update target => some target
  | _ => none

/-- The name that an expression starts from, through members and whatever else leaves its value. -/
def Node.base? : Node → Option String
  | .ident name => some name
  | .member e _ => e.base?
  | .index e _ => e.base?
  | .privateMember e _ => e.base?
  | .paren e => e.base?
  | .chain e => e.base?
  | .cast e _ => e.base?
  | .assertion _ e => e.base?
  | .nonNull e => e.base?
  | _ => none

/-- Whether an expression is a name, or is reached from a name by members and parentheses alone. -/
def Node.isDirect : Node → Bool
  | .ident _ => true
  | .member e _ => e.isDirect
  | .index e _ => e.isDirect
  | .privateMember e _ => e.isDirect
  | .paren e => e.isDirect
  | _ => false

mutual

/-- Names at the roots of all that a target writes to. -/
def Node.roots : Node → List String
  | .arrayTarget elements => rootsAll elements
  | .objectTarget members => rootsAll members
  | .property _ target => target.roots
  | .shorthand name => [name]
  | .defaulted target _ => target.roots
  | .restTarget target => target.roots
  | target => target.base?.toList

def rootsAll : List Node → List String
  | [] => []
  | n :: rest => n.roots ++ rootsAll rest

end

/-- Somewhere in the trees a target is written to that has the name at a root, and no scope around
it within the trees binds the name. -/
def Writes (r : Bindings) (trees : List Node) (target : Node) (name : String) : Prop :=
  ∃ tree ∈ trees, ∃ bound n, Within r tree bound n ∧ n.target? = some target ∧ name ∈ target.roots ∧
    name ∉ bound.values

/-- A target has a root exactly if it is direct and has a base, and it is that base. -/
theorem root?_eq_some_iff {target : Node} {name : String} :
    root? target = some name ↔ target.isDirect = true ∧ target.base? = some name := by
  fun_induction root? target <;> simp_all [Node.isDirect, Node.base?]

/-- The only root of a direct target is its base. -/
theorem mem_roots_of_direct {target : Node} (h : target.isDirect = true) {name : String} :
    name ∈ target.roots ↔ target.base? = some name := by
  unfold Node.isDirect at h
  split at h <;> simp_all [Node.roots]

/-- A target counts as an assignment of its root, unless a local binding has that name. -/
theorem assigned_mem_assigns_iff {target : Node} {s : Scope} {name : String} :
    .assigned name ∈ s.assigns target ↔
      target.isDirect = true ∧ name ∈ target.roots ∧ name ∉ s.values := by
  have hroots : root? target = some name ↔ target.isDirect = true ∧ name ∈ target.roots := by
    rw [root?_eq_some_iff]
    exact and_congr_right fun hdirect => (mem_roots_of_direct hdirect).symm
  rw [← and_assoc, ← hroots, Scope.assigns]
  split
  · next root hroot =>
      rw [hroot, Option.some.injEq]
      split
      · next hbound =>
          have hmem : root ∈ s.values := by simpa using hbound
          exact ⟨fun h => absurd h List.not_mem_nil, fun h => absurd (h.1 ▸ hmem) h.2⟩
      · next hfree =>
          have hmem : root ∉ s.values := by simpa using hfree
          rw [List.mem_singleton, Use.assigned.injEq]
          exact ⟨fun h => ⟨h.symm, h ▸ hmem⟩, fun h => h.1.symm⟩
  · next hnone => simp [hnone]

/-- Reading a value assigns nothing. -/
theorem not_assigned_value (s : Scope) (name other : String) : .assigned name ∉ s.value other := by
  unfold Scope.value
  split <;> simp

/-- Naming a type assigns nothing. -/
theorem not_assigned_type (s : Scope) (name other : String) : .assigned name ∉ s.type other := by
  unfold Scope.type
  split <;> simp

/-- A node writes to a name where its target is direct and nothing binds the name. -/
theorem assigned_mem_own_iff {n : Node} {s : Scope} {name : String} :
    .assigned name ∈ n.own s ↔ ∃ target, n.target? = some target ∧ target.isDirect = true ∧
      name ∈ target.roots ∧ name ∉ s.values := by
  cases n <;>
    simp [Node.own, Node.target?, assigned_mem_assigns_iff, not_assigned_value, not_assigned_type]

/-- A name is assigned among the uses exactly if some direct target writes it. -/
theorem assigned_mem_usesAll_iff {trees : List Node} {name : String} :
    .assigned name ∈ usesAll r {} trees ↔
      ∃ target, target.isDirect = true ∧ Writes r trees target name := by
  rw [usesAll_eq, List.mem_flatMap]
  constructor
  · rintro ⟨tree, htree, hu⟩
    obtain ⟨bound, n, hwithin, hown⟩ := mem_uses_iff.mp hu
    obtain ⟨target, htarget, hdirect, hroot, hfree⟩ := assigned_mem_own_iff.mp hown
    exact ⟨target, hdirect, tree, htree, bound, n, hwithin, htarget, hroot, by simpa using hfree⟩
  · rintro ⟨target, hdirect, tree, htree, bound, n, hwithin, htarget, hroot, hfree⟩
    refine ⟨tree, htree, mem_uses_iff.mpr ⟨bound, n, hwithin, assigned_mem_own_iff.mpr ?_⟩⟩
    exact ⟨target, htarget, hdirect, hroot, by simpa using hfree⟩

/-! ### Names once each -/

/-- A name in front of those that were found, unless it was found before. -/
def withName (found : List String) (name : String) : List String :=
  if found.contains name then found else name :: found

/-- Adding a name to those found adds it only. -/
theorem mem_withName_iff {found : List String} {first name : String} :
    name ∈ withName found first ↔ name = first ∨ name ∈ found := by
  unfold withName
  split
  · next hfound =>
      have hfirst : first ∈ found := by simpa using hfound
      exact ⟨.inr, fun h => h.elim (fun heq => heq ▸ hfirst) id⟩
  · exact List.mem_cons

/-- A name is not added a second time. -/
theorem nodup_withName {found : List String} (h : found.Nodup) (first : String) :
    (withName found first).Nodup := by
  unfold withName
  split
  · exact h
  · next hnew => exact List.nodup_cons.mpr ⟨by simpa using hnew, h⟩

/-- So the names gathered are distinct, and are the ones given. -/
theorem distinct_foldl (names found : List String) (h : found.Nodup) :
    (names.foldl withName found).Nodup ∧
      ∀ name, name ∈ names.foldl withName found ↔ name ∈ found ∨ name ∈ names := by
  induction names generalizing found with
  | nil => simp [h]
  | cons first names ih =>
      obtain ⟨hnodup, hmem⟩ := ih (withName found first) (nodup_withName h first)
      refine ⟨hnodup, fun name => ?_⟩
      rw [List.foldl_cons, hmem, mem_withName_iff, List.mem_cons, or_assoc, or_left_comm]

/-- The distinct names stand in the order in which they come first. -/
theorem distinct_eq (names : List String) : distinct names = (names.foldl withName []).reverse := rfl

/-- No name stands twice among the distinct ones. -/
theorem nodup_distinct (names : List String) : (distinct names).Nodup := by
  have hnodup := (distinct_foldl names [] List.nodup_nil).1
  rw [distinct_eq]
  exact List.pairwise_reverse.mpr (hnodup.imp Ne.symm)

/-- Each given name stands among the distinct ones. -/
theorem mem_distinct_iff {names : List String} {name : String} :
    name ∈ distinct names ↔ name ∈ names := by
  rw [distinct_eq, List.mem_reverse, (distinct_foldl names [] List.nodup_nil).2]
  simp

/-- The names are those that the trees write to through direct targets, each once. -/
structure ListsWrites (r : Bindings) (trees : List Node) (names : List String) : Prop where
  nodup : names.Nodup
  mem_iff (name : String) :
    name ∈ names ↔ ∃ target, target.isDirect = true ∧ Writes r trees target name

/-- The names assigned list what the trees write through direct targets. -/
theorem assignedNames_listsWrites (r : Bindings) (trees : List Node) :
    ListsWrites r trees (assignedNames (usesAll r {} trees)) where
  nodup := nodup_distinct _
  mem_iff name := by
    rw [← assigned_mem_usesAll_iff, assignedNames, mem_distinct_iff, List.mem_filterMap]
    constructor
    · rintro ⟨u, hu, hname⟩
      split at hname
      · obtain rfl := Option.some.inj hname
        exact hu
      · cases hname
    · exact fun hu => ⟨_, hu, rfl⟩

/-- **Assigned names.**  With any parser, the names that an expression and a script are found to
assign are the roots of the targets that some assignment or update in them writes to, unless a scope
around it binds them, each once; targets that are taken apart, and those under type operators or
optional chains, are left out. -/
theorem parse_assigned (p : Parser) (typescript : Bool) (text : String) :
    (∀ e, Expression.parse p typescript text = .ok e →
      ∃ items, p.program? typescript ("(\n" ++ Text.trim text ++ "\n);") = some items ∧
        ListsWrites p.bindings (items.map Item.node) e.assigned) ∧
    ∀ parts, Parts.parse p typescript text = .ok parts →
      ∃ items, p.program? typescript text = some items ∧
        ListsWrites p.bindings (items.map Item.node) parts.assigned := by
  refine ⟨fun e he => ?_, fun parts hparts => ?_⟩
  · unfold Expression.parse at he
    dsimp only at he
    split at he
    · cases he
    · split at he
      · next found items hexpression hprogram =>
          obtain rfl := Except.ok.inj he
          exact ⟨items, hprogram, assignedNames_listsWrites _ _⟩
      · cases he
  · unfold Parts.parse at hparts
    split at hparts
    · cases hparts
    · next items hprogram =>
        obtain rfl := Except.ok.inj hparts
        exact ⟨items, hprogram, assignedNames_listsWrites _ _⟩

/-- A function that writes to its parameter, and to a name from outside through members. -/
def shadowedCode : String := "x => \x7b x = 1; (y).z[0]++ \x7d"

theorem parse_assigned_shadowed :
    Expression.parse ecmaScript false shadowedCode = .ok ⟨shadowedCode, ["y"], ["y"], .function, none⟩ ∧
      ∃ items, ecmaScript.program? false ("(\n" ++ Text.trim shadowedCode ++ "\n);") = some items ∧
        ListsWrites ecmaScript.bindings (items.map Item.node) ["y"] := by
  have he : Expression.parse ecmaScript false shadowedCode =
      .ok ⟨shadowedCode, ["y"], ["y"], .function, none⟩ := by
    decide +kernel
  exact ⟨he, (parse_assigned ecmaScript false shadowedCode).1 _ he⟩

/-- The name that a statement takes an array apart into. -/
def Node.destructured? : Node → Option String
  | .perform (.paren (.assign _ (.arrayTarget [.ident name]) _)) => some name
  | _ => none

/-- A tree that writes by a pattern writes the names in it. -/
theorem exists_writes_of_destructured {trees : List Node} {tree : Node} (htree : tree ∈ trees)
    {name : String} (h : tree.destructured? = some name) : ∃ target, Writes r trees target name := by
  unfold Node.destructured? at h
  split at h
  · next operator root value =>
      obtain rfl := Option.some.inj h
      have hassign : ({}, .assign operator (.arrayTarget [.ident root]) value) ∈
          (Node.paren (.assign operator (.arrayTarget [.ident root]) value)).parts r :=
        List.mem_singleton_self _
      refine ⟨.arrayTarget [.ident root], _, htree, _, _,
        .inside (List.mem_singleton_self _) (.inside hassign (.here _)), rfl, ?_, List.not_mem_nil⟩
      simp [Node.roots, rootsAll, Node.base?]
  · cases h

/-- A target that is taken apart is written to, but is not listed. -/
theorem parse_misses_destructured : ∃ e items, Expression.parse ecmaScript false "[a] = b" = .ok e ∧
    ecmaScript.program? false ("(\n" ++ Text.trim "[a] = b" ++ "\n);") = some items ∧
      (∃ target, Writes ecmaScript.bindings (items.map Item.node) target "a") ∧ "a" ∉ e.assigned := by
  have he : Expression.parse ecmaScript false "[a] = b" =
      .ok ⟨"[a] = b", ["a", "b"], [], .other, none⟩ := by
    decide +kernel
  have hfirst : ((ecmaScript.program? false ("(\n" ++ Text.trim "[a] = b" ++ "\n);")).bind fun items =>
      (items.map Item.node).head?.bind Node.destructured?) = some "a" := by
    decide +kernel
  obtain ⟨items, hitems, hhead⟩ := Option.bind_eq_some_iff.mp hfirst
  obtain ⟨tree, htree, hname⟩ := Option.bind_eq_some_iff.mp hhead
  exact ⟨_, items, he, hitems, exists_writes_of_destructured (List.mem_of_head? htree) hname,
    List.not_mem_nil⟩

end Stencil.Script
