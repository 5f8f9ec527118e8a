import Stencil.Proofs.Flattening

/-!
# Resolved stylesheets

Flattening a stylesheet resolves its selectors along the rules around them.  While the selectors of
the rules around stand for themselves, so do those of a rule inside (`resolveSelectors_resolved`),
and no rule is left inside another one (`flatten_resolved`).  Flattened again, the stylesheet stays
as it is, and scoping, which drops what is inside rules, drops nothing (`Sheet.parse_resolved`).  All
this leaves out what is inside at-rules that put no condition on it: they are copied.
-/

namespace Stencil.Style

open Stencil.Text

/-- A selector that stands for itself, whatever is around its rule. -/
structure ResolvedSelector (selector : String) : Prop where
  nonempty : selector ≠ ""
  trimmed : trim selector = selector
  whole : '&' ∉ selector.toList

namespace Block

/-- No rule is inside a rule and all selectors stand for themselves, at any depth, but for what is
inside at-rules without a condition. -/
inductive Resolved : Block → Prop
  | rule {selectors : List String} {declarations : String}
      (h : ∀ s ∈ selectors, ResolvedSelector s) : Resolved (.rule selectors declarations [])
  | conditional {name params declarations : String} {children : List Block} {braced : Bool}
      (hname : isConditional name = true) (h : ∀ b ∈ children, Resolved b) :
      Resolved (.atRule name params declarations children braced)
  | copied {name params declarations : String} {children : List Block} {braced : Bool}
      (hname : isConditional name = false) :
      Resolved (.atRule name params declarations children braced)

/-- The selectors of all rules are as they are found in a header: not empty, and without white space
around them. -/
inductive Listed : Block → Prop
  | rule {selectors : List String} {declarations : String} {children : List Block}
      (hselectors : ∀ s ∈ selectors, s ≠ "" ∧ trim s = s) (h : ∀ b ∈ children, Listed b) :
      Listed (.rule selectors declarations children)
  | atRule {name params declarations : String} {children : List Block} {braced : Bool}
      (h : ∀ b ∈ children, Listed b) : Listed (.atRule name params declarations children braced)

end Block

/-! ### Selectors -/

section Selectors

variable {parent child text : String} {parents children selectors : List String}

/-- A text is trimmed exactly if its characters are. -/
theorem trim_eq_self_iff : trim text = text ↔ trimList text.toList = text.toList := by
  rw [← String.toList_inj, trim, String.toList_ofList]

/-- Trimming twice is trimming once. -/
theorem trim_trim (text : String) : trim (trim text) = trim text := by
  rw [trim_eq_self_iff, trim, String.toList_ofList, trimList_trimList]

/-- Selectors that are split are trimmed and not empty. -/
theorem mem_splitSelectors (h : child ∈ splitSelectors text) : child ≠ "" ∧ trim child = child := by
  obtain ⟨hmem, hne⟩ := List.mem_filter.mp h
  obtain ⟨piece, -, rfl⟩ := List.mem_map.mp hmem
  refine ⟨by simpa using hne, ?_⟩
  rw [trim_eq_self_iff, String.toList_ofList, trimList_trimList]

/-- A parent takes the place of each mark for it. -/
theorem toList_putParent (parent child : String) :
    (putParent parent child).toList = replaceChar '&' parent.toList child.toList :=
  String.toList_ofList

/-- Nothing but the characters of the parent and those of the child other than `&` is in the text
that is put together. -/
theorem mem_putParent {c : Char} (h : c ∈ (putParent parent child).toList) :
    c ∈ parent.toList ∨ c ∈ child.toList ∧ c ≠ '&' := by
  rw [toList_putParent, replaceChar] at h
  obtain ⟨x, hx, hc⟩ := List.mem_flatMap.mp h
  by_cases hamp : x = '&'
  · left
    simpa [hamp] using hc
  · right
    obtain rfl : c = x := by simpa [hamp] using hc
    exact ⟨hx, hamp⟩

/-- A selector that refers to the rule around it becomes one that stands for itself. -/
theorem ResolvedSelector.put (hparent : ResolvedSelector parent) (hne : child ≠ "")
    (htrim : trim child = child) : ResolvedSelector (putParent parent child) := by
  have hpiece : ∀ c, (if (c == '&') = true then parent.toList else [c]) ≠ [] := by
    intro c
    split
    · simpa using hparent.nonempty
    · exact List.cons_ne_nil c []
  obtain ⟨hfirst, hlast⟩ := trimList_eq_self_iff.mp (trim_eq_self_iff.mp htrim)
  obtain ⟨hfirst', hlast'⟩ := trimList_eq_self_iff.mp (trim_eq_self_iff.mp hparent.trimmed)
  have hlist : child.toList ≠ [] := by simpa using hne
  refine ⟨?_, ?_, ?_⟩
  · intro hempty
    obtain ⟨c, rest, hchild⟩ := List.exists_cons_of_ne_nil hlist
    have htext := congrArg String.toList hempty
    rw [toList_putParent, replaceChar, hchild, List.flatMap_cons] at htext
    exact hpiece c (List.append_eq_nil_iff.mp htext).1
  · rw [trim_eq_self_iff, toList_putParent, replaceChar, trimList_eq_self_iff]
    constructor
    · obtain ⟨c, rest, hchild⟩ := List.exists_cons_of_ne_nil hlist
      rw [hchild] at hfirst ⊢
      rw [List.flatMap_cons, List.head?_append_of_ne_nil _ (hpiece c)]
      split
      · exact hfirst'
      · exact hfirst
    · obtain ⟨front, c, hchild⟩ := (List.eq_nil_or_concat' _).resolve_left hlist
      rw [hchild] at hlast ⊢
      rw [List.flatMap_append, List.flatMap_singleton, List.getLast?_append_of_ne_nil _ (hpiece c)]
      split
      · exact hlast'
      · intro x hx
        exact hlast x (by simpa using hx)
  · intro hmem
    rcases mem_putParent hmem with hmem | ⟨-, hne⟩
    · exact hparent.whole hmem
    · exact hne rfl

/-- A selector that does not refer to the rule around it becomes a descendant. -/
theorem ResolvedSelector.descend (hparent : ResolvedSelector parent) (hne : child ≠ "")
    (htrim : trim child = child) (hwhole : '&' ∉ child.toList) :
    ResolvedSelector (parent ++ " " ++ child) := by
  have hfirst := (trimList_eq_self_iff.mp (trim_eq_self_iff.mp hparent.trimmed)).1
  have hlast := (trimList_eq_self_iff.mp (trim_eq_self_iff.mp htrim)).2
  have hparent' : parent.toList ≠ [] := by simpa using hparent.nonempty
  have hchild : child.toList ≠ [] := by simpa using hne
  have htext : (parent ++ " " ++ child).toList = parent.toList ++ ' ' :: child.toList := by simp
  refine ⟨?_, ?_, ?_⟩
  · intro hempty
    rw [hempty] at htext
    simp at htext
  · rw [trim_eq_self_iff, htext, trimList_eq_self_iff, List.head?_append_of_ne_nil _ hparent',
      List.getLast?_append_of_ne_nil _ (List.cons_ne_nil _ _), List.getLast?_cons_of_ne_nil hchild]
    exact ⟨hfirst, hlast⟩
  · rw [htext]
    simp [hparent.whole, hwhole]

/-- Outside all rules there is nothing to refer to. -/
theorem resolvedSelector_top (hne : trim (putParent "" child) ≠ "") :
    ResolvedSelector (trim (putParent "" child)) := by
  refine ⟨hne, trim_trim _, fun hmem => ?_⟩
  rw [trim, String.toList_ofList] at hmem
  rcases mem_putParent (mem_of_mem_trimList hmem) with hmem | ⟨-, hamp⟩
  · simp at hmem
  · exact hamp rfl

/-- **One level of nesting.**  If the selectors around a rule stand for themselves, its own become
such selectors. -/
theorem resolveSelectors_resolved (hparents : ∀ p ∈ parents, ResolvedSelector p)
    (hchildren : ∀ c ∈ children, c ≠ "" ∧ trim c = c) :
    ∀ s ∈ resolveSelectors children parents, ResolvedSelector s := by
  intro s hs
  rw [resolveSelectors] at hs
  split at hs
  · obtain ⟨hmem, hne⟩ := List.mem_filter.mp hs
    obtain ⟨child, -, rfl⟩ := List.mem_map.mp hmem
    exact resolvedSelector_top (by simpa using hne)
  · obtain ⟨parent, hparent, hmem⟩ := List.mem_flatMap.mp hs
    obtain ⟨child, hchild, rfl⟩ := List.mem_map.mp hmem
    obtain ⟨hne, htrim⟩ := hchildren child hchild
    split
    · exact (hparents parent hparent).put hne htrim
    · next hwhole =>
        refine (hparents parent hparent).descend hne htrim fun hmem => hwhole ?_
        exact List.contains_iff_mem.mpr hmem

/-- Selectors that stand for themselves are resolved already. -/
theorem resolveSelectors_of_resolved (h : ∀ s ∈ selectors, ResolvedSelector s) :
    resolveSelectors selectors [] = selectors := by
  have hself : ∀ s ∈ selectors, trim (putParent "" s) = s := by
    intro s hs
    have hsame : putParent "" s = s := by
      rw [← String.toList_inj, toList_putParent, replaceChar]
      refine (List.flatMap_congr fun c hc => ?_).trans (List.flatMap_singleton' s.toList)
      have hamp : c ≠ '&' := fun hamp => (h s hs).whole (hamp ▸ hc)
      simp [hamp]
    rw [hsame, (h s hs).trimmed]
  rw [resolveSelectors, List.isEmpty_nil, if_pos rfl, List.map_congr_left hself, List.map_id',
    List.filter_eq_self]
  intro s hs
  simpa using (h s hs).nonempty

end Selectors

/-! ### Blocks -/

/-- A block is listed if its children are. -/
theorem listed_blockOf (header declarations : List Char) {children : List Block}
    (h : ∀ b ∈ children, b.Listed) : (blockOf header declarations children).Listed := by
  unfold blockOf
  split
  · exact .atRule h
  · exact .rule (fun _ hs => mem_splitSelectors hs) h

/-- Every block of a sheet that is read is listed. -/
theorem read_listed {css : String} {s : Sheet} (h : Sheet.read css = .ok s) :
    ∀ b ∈ s.blocks, b.Listed :=
  read_forall (fun _ _ => .atRule (by simp))
    (fun header declarations _ hchildren => listed_blockOf header declarations hchildren) h

mutual

/-- A listed block flattens into resolved ones. -/
theorem flatten_resolved {parents : List String} (hparents : ∀ p ∈ parents, ResolvedSelector p) :
    ∀ b : Block, b.Listed → ∀ b' ∈ flatten parents b, b'.Resolved
  | .rule selectors declarations children => by
      intro h b' hb'
      cases h with
      | rule hselectors hchildren =>
          have hresolved := resolveSelectors_resolved hparents hselectors
          rw [flatten] at hb'
          rcases List.mem_cons.mp hb' with rfl | hb'
          · exact .rule hresolved
          · exact flattenAll_resolved hresolved children hchildren b' hb'
  | .atRule name params declarations children braced => by
      intro h b' hb'
      cases h with
      | atRule hchildren =>
          have hinner := flattenAll_resolved hparents children hchildren
          rw [flatten] at hb'
          by_cases hname : isConditional name = true
          · rw [if_pos hname] at hb'
            split at hb'
            · obtain rfl := List.mem_singleton.mp hb'
              exact .conditional hname hinner
            · obtain rfl := List.mem_singleton.mp hb'
              exact .conditional hname (List.forall_mem_cons.mpr ⟨.rule hparents, hinner⟩)
          · rw [if_neg hname] at hb'
            obtain rfl := List.mem_singleton.mp hb'
            exact .copied (Bool.eq_false_iff.mpr hname)

/-- A list of listed blocks flattens into resolved ones. -/
theorem flattenAll_resolved {parents : List String} (hparents : ∀ p ∈ parents, ResolvedSelector p) :
    ∀ bs : List Block, (∀ b ∈ bs, b.Listed) → ∀ b' ∈ flattenAll parents bs, b'.Resolved
  | [] => by simp [flattenAll]
  | b :: rest => by
      intro h b' hb'
      obtain ⟨hb, hrest⟩ := List.forall_mem_cons.mp h
      rw [flattenAll] at hb'
      rcases List.mem_append.mp hb' with hb' | hb'
      · exact flatten_resolved hparents b hb b' hb'
      · exact flattenAll_resolved hparents rest hrest b' hb'

end

mutual

/-- A resolved block flattens into itself. -/
theorem flatten_of_resolved : ∀ b : Block, b.Resolved → flatten [] b = [b]
  | .rule selectors declarations children => by
      intro h
      cases h with
      | rule hselectors => simp only [flatten, flattenAll, resolveSelectors_of_resolved hselectors]
  | .atRule name params declarations children braced => by
      intro h
      cases h with
      | conditional hname hchildren =>
          simp only [flatten, hname, if_true, List.isEmpty_nil,
            flattenAll_of_resolved children hchildren]
      | copied hname => simp only [flatten, hname, Bool.false_eq_true, if_false]

/-- A list of resolved blocks flattens into itself. -/
theorem flattenAll_of_resolved :
    ∀ bs : List Block, (∀ b ∈ bs, b.Resolved) → flattenAll [] bs = bs
  | [] => fun _ => rfl
  | b :: rest => by
      intro h
      obtain ⟨hb, hrest⟩ := List.forall_mem_cons.mp h
      rw [flattenAll, flatten_of_resolved b hb, flattenAll_of_resolved rest hrest,
        List.singleton_append]

end

/-! ### Conditions -/

/-- An at-rule with a condition, and the resolved selectors of the rule that it stands in. -/
structure Condition where
  around : List String
  name : String
  params : String
  declarations : String
  deriving DecidableEq

/-- The at-rule once it is lifted out of the rule around it.  Only there it has declarations of its
own, which now belong to the selectors around. -/
def Condition.lifted (c : Condition) : Condition :=
  { c with around := [], declarations := if c.around = [] then c.declarations else "" }

mutual

/-- The at-rules with a condition in a block, but for those inside at-rules without one, each in
front of those inside it. -/
def conditions (parents : List String) : Block → List Condition
  | .rule selectors _ children => allConditions (resolveSelectors selectors parents) children
  | .atRule name params declarations children _ =>
      if isConditional name then
        ⟨parents, name, params, declarations⟩ :: allConditions parents children
      else []

/-- The at-rules with a condition in some blocks. -/
def allConditions (parents : List String) : List Block → List Condition
  | [] => []
  | b :: rest => conditions parents b ++ allConditions parents rest

end

/-- The at-rules with a condition in a stylesheet. -/
def Sheet.conditions (s : Sheet) : List Condition := allConditions [] s.blocks

/-- The conditions of lists joined are joined. -/
theorem allConditions_append (parents : List String) (bs more : List Block) :
    allConditions parents (bs ++ more) =
      allConditions parents bs ++ allConditions parents more := by
  induction bs with
  | nil => rfl
  | cons b rest ih => rw [List.cons_append, allConditions, allConditions, ih, List.append_assoc]

mutual

/-- Flattening a block keeps its conditions, lifted. -/
theorem conditions_flatten (parents : List String) : ∀ b : Block,
    allConditions [] (flatten parents b) = (conditions parents b).map Condition.lifted
  | .rule selectors declarations children => by
      have hinner := conditions_flattenAll (resolveSelectors selectors parents) children
      rw [flatten, allConditions, conditions, allConditions, List.nil_append, hinner, conditions]
  | .atRule name params declarations children braced => by
      have hinner := conditions_flattenAll parents children
      by_cases hname : isConditional name = true
      · rw [flatten, conditions, if_pos hname, if_pos hname, List.map_cons, ← hinner]
        cases parents with
        | nil => simp [allConditions, conditions, hname, Condition.lifted]
        | cons parent more => simp [allConditions, conditions, hname, Condition.lifted]
      · rw [flatten, conditions, if_neg hname, if_neg hname, allConditions, conditions,
          if_neg hname]
        rfl

/-- Flattening a list keeps its conditions, lifted. -/
theorem conditions_flattenAll (parents : List String) : ∀ bs : List Block,
    allConditions [] (flattenAll parents bs) = (allConditions parents bs).map Condition.lifted
  | [] => rfl
  | b :: rest => by
      rw [flattenAll, allConditions_append, conditions_flatten parents b,
        conditions_flattenAll parents rest, allConditions, List.map_append]

end

/-! ### Scoping -/

mutual

/-- The block without its selectors; at-rules without a condition stay as they are. -/
def unselected : Block → Block
  | .rule _ declarations children => .rule [] declarations (allUnselected children)
  | .atRule name params declarations children braced =>
      if isConditional name then
        .atRule name params declarations (allUnselected children) braced
      else .atRule name params declarations children braced

/-- The blocks without their selectors. -/
def allUnselected : List Block → List Block
  | [] => []
  | b :: rest => unselected b :: allUnselected rest

end

mutual

/-- Scoping a resolved block changes its selectors only. -/
theorem unselected_scopeBlock (scope : String) : ∀ b : Block, b.Resolved →
    unselected (scopeBlock scope b) = unselected b
  | .rule selectors declarations children => by
      intro h
      cases h with
      | rule hselectors => rfl
  | .atRule name params declarations children braced => by
      intro h
      cases h with
      | conditional hname hchildren =>
          have hinner := unselected_scopeBlocks scope children hchildren
          simp only [scopeBlock, unselected, hname, if_true, hinner]
      | copied hname => simp only [scopeBlock, hname, Bool.false_eq_true, if_false]

/-- Scoping a list of resolved blocks changes their selectors only. -/
theorem unselected_scopeBlocks (scope : String) : ∀ bs : List Block, (∀ b ∈ bs, b.Resolved) →
    allUnselected (scopeBlocks scope bs) = allUnselected bs
  | [] => fun _ => rfl
  | b :: rest => by
      intro h
      obtain ⟨hb, hrest⟩ := List.forall_mem_cons.mp h
      rw [scopeBlocks, allUnselected, allUnselected, unselected_scopeBlock scope b hb,
        unselected_scopeBlocks scope rest hrest]

end

/-- **Resolved stylesheets.**  Every stylesheet that is read is also flattened.  Then, but for what is
inside at-rules without a condition, no rule is inside a rule at any depth, and every selector is not
empty, has no white space around it and no `&`.  The at-rules with a condition are those that were
read, in the same order, and those that stood in a rule with resolved selectors have no declarations
of their own any more.  Flattening changes nothing of it, and scoping nothing but selectors. -/
theorem Sheet.parse_resolved {css : String} {s : Sheet} (h : Sheet.read css = .ok s) :
    Sheet.parse css = .ok s.flat ∧ (∀ b ∈ s.flat.blocks, b.Resolved) ∧
      s.flat.conditions = s.conditions.map Condition.lifted ∧ s.flat.flat = s.flat ∧
      ∀ hash, allUnselected (s.flat.scoped hash).blocks = allUnselected s.flat.blocks := by
  have hresolved : ∀ b ∈ s.flat.blocks, b.Resolved :=
    flattenAll_resolved (by simp) s.blocks (read_listed h)
  refine ⟨by rw [Sheet.parse, h], hresolved, conditions_flattenAll [] s.blocks, ?_, fun hash => ?_⟩
  · exact congrArg Sheet.mk (flattenAll_of_resolved s.flat.blocks hresolved)
  · exact unselected_scopeBlocks _ s.flat.blocks hresolved

/-- A rule and an at-rule inside each other, and a rule without selectors around an at-rule. -/
def tangledSheet : Sheet :=
  ⟨[.rule [".a", "b"] "" [.atRule "media" "x" "c:d;" [.rule ["&:hover"] "e:f" []] true,
    .rule [] "" [.atRule "layer" "y" "g:h" [] true]]]⟩

theorem Sheet.parse_resolved_tangled :
    Sheet.read ".a,b\x7b@media x\x7bc:d;&:hover\x7be:f\x7d\x7d,\x7b@layer y\x7bg:h\x7d\x7d\x7d" =
        .ok tangledSheet ∧
      (∀ b ∈ tangledSheet.flat.blocks, b.Resolved) ∧
      tangledSheet.flat.blocks =
        [.rule [".a", "b"] "" [],
          .atRule "media" "x" ""
            [.rule [".a", "b"] "c:d;" [], .rule [".a:hover", "b:hover"] "e:f" []] true,
          .rule [] "" [], .atRule "layer" "y" "g:h" [] true] ∧
      tangledSheet.conditions =
        [⟨[".a", "b"], "media", "x", "c:d;"⟩, ⟨[], "layer", "y", "g:h"⟩] ∧
      tangledSheet.flat.conditions = [⟨[], "media", "x", ""⟩, ⟨[], "layer", "y", "g:h"⟩] ∧
      tangledSheet.flat.flat = tangledSheet.flat := by
  have hread : Sheet.read
      ".a,b\x7b@media x\x7bc:d;&:hover\x7be:f\x7d\x7d,\x7b@layer y\x7bg:h\x7d\x7d\x7d" =
        .ok tangledSheet := by
    rw [Sheet.read_eq, dropComments_of_uncommented (by decide +kernel)]
    decide +kernel
  obtain ⟨-, hresolved, hconditions, hflat, -⟩ := Sheet.parse_resolved hread
  have hread' : tangledSheet.conditions =
      [⟨[".a", "b"], "media", "x", "c:d;"⟩, ⟨[], "layer", "y", "g:h"⟩] := by
    decide +kernel
  refine ⟨hread, hresolved, by decide +kernel, hread', ?_, hflat⟩
  rw [hconditions, hread']
  rfl

end Stencil.Style
