import Stencil.Proofs.StyleRoundTrip
import Stencil.Style.Flatten

/-!
# What flattening keeps

A block of a stylesheet stands inside rules and at-rules, and how it is printed depends on them
(`Standing`).  Flattening lifts what is inside rules and conditional at-rules, copies other at-rules
as they are, and a rule is printed without what is inside it.  So the declarations of a block are
printed unless it is inside a rule inside an at-rule that is copied (`Sheet.read_print_flat`), and
what is inside such a rule leaves no trace.
-/

namespace Stencil.Style

open Stencil.Text

namespace Block

/-- The blocks inside a block. -/
def children : Block → List Block
  | .rule _ _ children => children
  | .atRule _ _ _ children _ => children

/-- The declarations of a block itself. -/
def declarations : Block → String
  | .rule _ declarations _ => declarations
  | .atRule _ _ declarations _ _ => declarations

/-- Whether a block is a rule. -/
def isRule : Block → Bool
  | .rule _ _ _ => true
  | .atRule _ _ _ _ _ => false

/-- Only statements have no body, and they have nothing in it. -/
inductive Braced : Block → Prop
  | rule {selectors : List String} {declarations : String} {children : List Block}
      (h : ∀ b ∈ children, Braced b) : Braced (.rule selectors declarations children)
  | atRule {name params declarations : String} {children : List Block}
      (h : ∀ b ∈ children, Braced b) : Braced (.atRule name params declarations children true)
  | statement {name params : String} : Braced (.atRule name params "" [] false)

end Block

/-- How a block stands in a stylesheet. -/
inductive Standing where
  /-- Inside nothing but rules and conditional at-rules, with the selectors of the rules. -/
  | lifted (parents : List String)
  /-- Inside another at-rule, and no rule inside that. -/
  | copied
  /-- Inside a rule inside another at-rule. -/
  | lost
  deriving DecidableEq

namespace Standing

/-- How the blocks inside a block stand. -/
def inside : Standing → Block → Standing
  | .lifted parents, .rule selectors _ _ => .lifted (resolveSelectors selectors parents)
  | .lifted parents, .atRule name _ _ _ _ =>
      if isConditional name then .lifted parents else .copied
  | .copied, .rule _ _ _ => .lost
  | .copied, .atRule _ _ _ _ _ => .copied
  | .lost, _ => .lost

/-- The selectors that the declarations of a block are printed with; an at-rule has none if they are
printed with its own name. -/
def selectors : Standing → Block → List String
  | .lifted parents, .rule selectors _ _ => resolveSelectors selectors parents
  | .lifted parents, .atRule name _ _ _ _ => if isConditional name then parents else []
  | _, .rule selectors _ _ => selectors
  | _, .atRule _ _ _ _ _ => []

/-- What stands before the brace where the declarations of a block are printed. -/
def head (st : Standing) (b : Block) : String :=
  match b, st.selectors b with
  | .atRule name params _ _ _, [] => atRuleText name params
  | _, selectors => joinWith "," (selectors.map minifySelector)

/-- What a block adds to the printed text. -/
def image : Standing → Block → String
  | .lifted parents, b => printBlocks (flatten parents b)
  | .copied, b => printBlock b
  | .lost, _ => ""

end Standing

/-- The blocks of a stylesheet at any depth. -/
inductive Sheet.Holds (s : Sheet) : Standing → Block → Prop
  | top {b : Block} (hb : b ∈ s.blocks) : s.Holds (.lifted []) b
  | inside {st : Standing} {outer b : Block} (houter : s.Holds st outer)
      (hb : b ∈ outer.children) : s.Holds (st.inside outer) b

namespace Sheet.Holds

variable {s : Sheet} {parents selectors : List String} {name params declarations : String}
  {children : List Block} {braced : Bool} {b : Block}

/-- A rule in a lifted rule is lifted under its resolved selectors. -/
theorem nested {resolved : List String}
    (h : s.Holds (.lifted parents) (.rule selectors declarations children))
    (hresolved : resolveSelectors selectors parents = resolved) (hb : b ∈ children) :
    s.Holds (.lifted resolved) b :=
  hresolved ▸ h.inside hb

/-- What stands in a conditional at-rule is lifted like it. -/
theorem conditional
    (h : s.Holds (.lifted parents) (.atRule name params declarations children braced))
    (hname : isConditional name = true) (hb : b ∈ children) : s.Holds (.lifted parents) b := by
  have hinside := h.inside hb
  rwa [Standing.inside, if_pos hname] at hinside

/-- What stands in any other at-rule is copied. -/
theorem copied
    (h : s.Holds (.lifted parents) (.atRule name params declarations children braced))
    (hname : isConditional name = false) (hb : b ∈ children) : s.Holds .copied b := by
  have hinside := h.inside hb
  rwa [Standing.inside, hname, if_neg Bool.false_ne_true] at hinside

end Sheet.Holds

/-- A text has a block with the given head, whose body starts with the given declarations. -/
def HasBlock (text head declarations : String) : Prop :=
  ∃ more, (more = "" ∨ more.toList.head? = some ';') ∧
    (head ++ "\x7b" ++ declarations ++ more ++ "\x7d").toList <:+: text.toList

/-! ### What is read -/

section Braced

/-- A block is braced if its children are. -/
theorem braced_blockOf (header declarations : List Char) {children : List Block}
    (h : ∀ b ∈ children, b.Braced) : (blockOf header declarations children).Braced := by
  unfold blockOf
  split
  · exact .atRule h
  · exact .rule h

/-- **What all blocks have.**  If a block has a property as soon as the blocks inside it have it,
then all blocks that are read have it. -/
theorem readBody_forall {P : Block → Prop}
    (hblock : ∀ header declarations children, (∀ b ∈ children, P b) →
      P (blockOf header declarations children))
    {offset : Nat} {q : Quoting} {stack : List Opened} {body body' : Body} {cs : List Char}
    (h : readBody offset q stack body cs = .ok body') (hbody : ∀ b ∈ body.children, P b)
    (hstack : ∀ opened ∈ stack, ∀ b ∈ opened.outer.children, P b) :
    ∀ b ∈ body'.children, P b := by
  induction cs generalizing offset q stack body with
  | nil =>
      cases stack with
      | nil =>
          obtain rfl : body = body' := by simpa [readBody] using h
          exact hbody
      | cons opened more => simp [readBody] at h
  | cons c rest ih =>
      have hplain : readBody (offset + c.utf8Size) (q.step c) stack
          { body with segment := c :: body.segment } rest = .ok body' →
          ∀ b ∈ body'.children, P b := fun h => ih h hbody hstack
      simp only [readBody] at h
      split at h
      · split at h
        · refine ih h (by simp) (List.forall_mem_cons.mpr ⟨hbody, hstack⟩)
        · split at h
          · split at h
            · simp at h
            · next opened more =>
                obtain ⟨hopened, hmore⟩ := List.forall_mem_cons.mp hstack
                refine ih h (List.forall_mem_cons.mpr ⟨?_, hopened⟩) hmore
                exact hblock _ _ _ fun b hb => hbody b (List.mem_reverse.mp hb)
          · exact hplain h
      · exact hplain h

/-- All blocks that are read have a property of statements that passes from the blocks inside a
block to that block. -/
theorem read_forall {P : Block → Prop} (hstatement : ∀ name params, P (.atRule name params "" [] false))
    (hblock : ∀ header declarations children, (∀ b ∈ children, P b) →
      P (blockOf header declarations children))
    {css : String} {s : Sheet} (h : Sheet.read css = .ok s) : ∀ b ∈ s.blocks, P b := by
  rw [Sheet.read_eq] at h
  split at h
  · next body hbody =>
      obtain rfl := Except.ok.inj h
      intro b hb
      rcases List.mem_append.mp hb with hb | hb
      · obtain ⟨piece, -, rfl⟩ := exists_of_mem_statements hb
        exact hstatement _ _
      · exact readBody_forall hblock hbody (by simp) (by simp) b (List.mem_reverse.mp hb)
  · simp at h

/-- All blocks that are read have a body, statements apart. -/
theorem read_braced {css : String} {s : Sheet} (h : Sheet.read css = .ok s) :
    ∀ b ∈ s.blocks, b.Braced :=
  read_forall (fun _ _ => .statement)
    (fun header declarations _ hchildren => braced_blockOf header declarations hchildren) h

end Braced

/-- All blocks of a braced sheet are braced. -/
theorem Sheet.Holds.braced {s : Sheet} {st : Standing} {b : Block} (h : s.Holds st b)
    (hs : ∀ b ∈ s.blocks, b.Braced) : b.Braced := by
  induction h with
  | top hb => exact hs _ hb
  | inside houter hb ih =>
      cases ih with
      | rule h => exact h _ hb
      | atRule h => exact h _ hb
      | statement => simp [Block.children] at hb

/-! ### What is printed -/

/-- A block of a list is printed within the list. -/
theorem printBlock_within {b : Block} {bs : List Block} (hb : b ∈ bs) :
    (printBlock b).toList <:+: (printBlocks bs).toList := by
  obtain ⟨before, after, rfl⟩ := List.append_of_mem hb
  rw [printBlocks_append, printBlocks, String.toList_append, String.toList_append,
    ← List.append_assoc]
  exact List.infix_append _ _ _

/-- A list of one block is printed as that block. -/
theorem printBlocks_singleton (b : Block) : printBlocks [b] = printBlock b := by
  simp [printBlocks]

/-- The blocks of a list are flattened within the list. -/
theorem flatten_within (parents : List String) {b : Block} {bs : List Block} (hb : b ∈ bs) :
    (printBlocks (flatten parents b)).toList <:+: (printBlocks (flattenAll parents bs)).toList := by
  induction bs with
  | nil => simp at hb
  | cons first rest ih =>
      rw [flattenAll, printBlocks_append, String.toList_append]
      rcases List.mem_cons.mp hb with rfl | hb
      · exact (List.prefix_append _ _).isInfix
      · exact (ih hb).trans (List.suffix_append _ _).isInfix

/-- What is printed inside an at-rule is part of what the at-rule is printed as. -/
theorem atRule_within (name params declarations : String) {children : List Block} {text : String}
    (h : text.toList <:+: (printBlocks children).toList) (hne : text ≠ "") : text.toList <:+:
      (printBlock (.atRule name params declarations children true)).toList := by
  have hinner : printBlocks children ≠ "" := by
    intro hempty
    rw [hempty] at h
    exact hne (by simpa using h)
  refine h.trans ?_
  rw [printBlock_braced name params (.inr hinner), String.toList_append, String.toList_append]
  exact List.infix_append _ _ _

/-- An at-rule is printed with its declarations in front of what is inside it. -/
theorem hasBlock_atRule (name params : String) {declarations : String} (children : List Block)
    (h : minifyDeclarations declarations ≠ "") :
    HasBlock (printBlock (.atRule name params declarations children true))
      (atRuleText name params) (minifyDeclarations declarations) := by
  refine ⟨(if (minifyDeclarations declarations).isEmpty || (printBlocks children).isEmpty then ""
    else ";") ++ printBlocks children, ?_, ?_⟩
  · by_cases hinner : printBlocks children = "" <;> simp [h, hinner]
  · rw [printBlock_braced name params (.inl h)]
    simp only [String.append_assoc]
    exact List.infix_rfl

/-- A rule is printed with its selectors and declarations, and nothing of what is inside it. -/
theorem hasBlock_rule {selectors : List String} {declarations : String}
    (children : List Block) (hne : selectors ≠ []) (h : minifyDeclarations declarations ≠ "") :
    HasBlock (printBlock (.rule selectors declarations children))
      (joinWith "," (selectors.map minifySelector)) (minifyDeclarations declarations) := by
  refine ⟨"", .inl rfl, ?_⟩
  simp [printBlock, hne, h]

/-- A block found in a text is found in every text around it. -/
theorem HasBlock.mono {text text' head declarations : String}
    (h : HasBlock text head declarations) (hwithin : text.toList <:+: text'.toList) :
    HasBlock text' head declarations := by
  obtain ⟨more, hmore, hblock⟩ := h
  exact ⟨more, hmore, hblock.trans hwithin⟩

/-- A text with a block in it is not empty. -/
theorem HasBlock.ne_empty {text head declarations : String} (h : HasBlock text head declarations) :
    text ≠ "" := by
  rintro rfl
  obtain ⟨more, -, hblock⟩ := h
  simp at hblock

/-- The declarations of a block are in the text. -/
theorem HasBlock.declarations_within {text head declarations : String}
    (h : HasBlock text head declarations) : declarations.toList <:+: text.toList := by
  obtain ⟨more, -, hblock⟩ := h
  refine List.IsInfix.trans ?_ hblock
  simp only [String.toList_append]
  rw [List.append_assoc _ more.toList]
  exact List.infix_append _ _ _

namespace Standing

variable {st : Standing} {outer b : Block}

/-- **One level.**  What a block adds to the text is part of what the block around it adds, unless
the block around it is printed without it. -/
theorem image_inside_within (hbraced : outer.Braced) (hb : b ∈ outer.children)
    (hkept : st.inside outer ≠ .lost) (hne : (st.inside outer).image b ≠ "") :
    ((st.inside outer).image b).toList <:+: (st.image outer).toList := by
  cases hbraced with
  | @rule selectors declarations children hchildren =>
      cases st with
      | lifted parents =>
          rw [inside, image, image, flatten, printBlocks, String.toList_append]
          exact (flatten_within _ hb).trans (List.suffix_append _ _).isInfix
      | copied => exact absurd rfl hkept
      | lost => exact absurd rfl hkept
  | @atRule name params declarations children hchildren =>
      cases st with
      | lifted parents =>
          cases hname : isConditional name with
          | true =>
              simp only [inside, image, flatten, hname, if_true] at hne ⊢
              have hinner := flatten_within parents hb
              split
              · rw [printBlocks_singleton]
                exact atRule_within name params declarations hinner hne
              · have hbehind : (printBlocks (flattenAll parents children)).toList <:+:
                    (printBlocks (.rule parents declarations [] ::
                      flattenAll parents children)).toList := by
                  rw [printBlocks, String.toList_append]
                  exact (List.suffix_append _ _).isInfix
                rw [printBlocks_singleton]
                exact atRule_within name params "" (hinner.trans hbehind) hne
          | false =>
              simp only [inside, image, flatten, hname, Bool.false_eq_true, if_false] at hne ⊢
              rw [printBlocks_singleton]
              exact atRule_within name params declarations (printBlock_within hb) hne
      | copied =>
          simp only [inside, image] at hne ⊢
          exact atRule_within name params declarations (printBlock_within hb) hne
      | lost => exact absurd rfl hkept
  | statement => simp [Block.children] at hb

/-- **The block itself.**  What a block adds to the text has its declarations. -/
theorem hasBlock_image (hbraced : b.Braced) (hkept : st ≠ .lost)
    (hselectors : b.isRule = true → st.selectors b ≠ [])
    (h : minifyDeclarations b.declarations ≠ "") :
    HasBlock (st.image b) (st.head b) (minifyDeclarations b.declarations) := by
  cases hbraced with
  | @rule selectors declarations children hchildren =>
      have hne := hselectors rfl
      cases st with
      | lifted parents =>
          simp only [image, flatten, head]
          exact (hasBlock_rule [] hne h).mono (printBlock_within List.mem_cons_self)
      | copied =>
          simp only [image, head]
          exact hasBlock_rule children hne h
      | lost => exact absurd rfl hkept
  | @atRule name params declarations children hchildren =>
      have hself : ∀ inner, HasBlock (printBlock (.atRule name params declarations inner true))
          (atRuleText name params) (minifyDeclarations declarations) :=
        fun inner => hasBlock_atRule name params inner h
      cases st with
      | lifted parents =>
          cases hname : isConditional name with
          | true =>
              cases parents with
              | nil =>
                  simp only [image, flatten, head, selectors, hname, if_true, List.isEmpty_nil,
                    printBlocks_singleton]
                  exact hself _
              | cons parent more =>
                  -- the declarations are moved into a rule for the selectors around
                  simp only [image, flatten, head, selectors, hname, if_true, List.isEmpty_cons,
                    Bool.false_eq_true, if_false, printBlocks_singleton]
                  have hrule := hasBlock_rule [] (List.cons_ne_nil parent more) h
                  exact hrule.mono (atRule_within name params ""
                    (printBlock_within List.mem_cons_self) hrule.ne_empty)
          | false =>
              simp only [image, flatten, head, selectors, hname, Bool.false_eq_true, if_false,
                printBlocks_singleton]
              exact hself _
      | copied =>
          simp only [image, head, selectors]
          exact hself children
      | lost => exact absurd rfl hkept
  | statement => exact absurd (show minifyDeclarations "" = "" by decide) h

end Standing

/-- **The whole way up.**  What a block adds to the text is part of the text that the stylesheet is
printed as, unless a rule around it is printed without it. -/
theorem Sheet.Holds.image_within {s : Sheet} {st : Standing} {b : Block} (h : s.Holds st b)
    (hs : ∀ b ∈ s.blocks, b.Braced) (hkept : st ≠ .lost) (hne : st.image b ≠ "") :
    (st.image b).toList <:+: s.flat.print.toList := by
  induction h with
  | top hb => exact flatten_within [] hb
  | @inside st outer b houter hb ih =>
      have hwithin := Standing.image_inside_within (houter.braced hs) hb hkept hne
      have houter' : st.image outer ≠ "" := by
        intro hempty
        rw [hempty] at hwithin
        exact hne (by simpa using hwithin)
      refine hwithin.trans (ih ?_ houter')
      rintro rfl
      exact hkept rfl

/-! ### What leaves no trace -/

mutual

/-- The block without what is inside rules. -/
def cutRules : Block → Block
  | .rule selectors declarations _ => .rule selectors declarations []
  | .atRule name params declarations children braced =>
      .atRule name params declarations (cutAllRules children) braced

/-- The blocks without what is inside rules. -/
def cutAllRules : List Block → List Block
  | [] => []
  | b :: rest => cutRules b :: cutAllRules rest

end

mutual

/-- The block without what is inside rules in at-rules that are copied. -/
def cutCopied : Block → Block
  | .rule selectors declarations children => .rule selectors declarations (cutAllCopied children)
  | .atRule name params declarations children braced =>
      if isConditional name then .atRule name params declarations (cutAllCopied children) braced
      else .atRule name params declarations (cutAllRules children) braced

/-- The blocks without what is inside rules in at-rules that are copied. -/
def cutAllCopied : List Block → List Block
  | [] => []
  | b :: rest => cutCopied b :: cutAllCopied rest

end

/-- An at-rule is printed by what the blocks inside it are printed as. -/
theorem printBlock_atRule_congr (name params declarations : String) (braced : Bool)
    {children children' : List Block} (h : printBlocks children' = printBlocks children) :
    printBlock (.atRule name params declarations children' braced) =
      printBlock (.atRule name params declarations children braced) := by
  simp only [printBlock, h]

/-- The rules of a list are cut one by one. -/
theorem cutAllRules_eq_map (bs : List Block) : cutAllRules bs = bs.map cutRules := by
  induction bs with
  | nil => rfl
  | cons b rest ih => rw [cutAllRules, ih, List.map_cons]

/-- The copied blocks of a list are cut one by one. -/
theorem cutAllCopied_eq_map (bs : List Block) : cutAllCopied bs = bs.map cutCopied := by
  induction bs with
  | nil => rfl
  | cons b rest ih => rw [cutAllCopied, ih, List.map_cons]

/-- The stylesheet without the blocks that are lost. -/
def Sheet.kept (s : Sheet) : Sheet := ⟨cutAllCopied s.blocks⟩

/-- All lost blocks are cut off. -/
theorem Sheet.Holds.ne_lost {s : Sheet} {st : Standing} {b : Block} (h : s.kept.Holds st b) :
    st ≠ .lost := by
  suffices hcut : (∃ parents b', st = .lifted parents ∧ cutCopied b' = b) ∨
      st = .copied ∧ ∃ b', cutRules b' = b by
    rcases hcut with ⟨parents, b', rfl, -⟩ | ⟨rfl, -⟩ <;> simp
  induction h with
  | top hb =>
      rw [Sheet.kept, cutAllCopied_eq_map] at hb
      obtain ⟨b', -, hb'⟩ := List.mem_map.mp hb
      exact .inl ⟨[], b', rfl, hb'⟩
  | inside houter hb ih =>
      rcases ih with ⟨parents, outer, rfl, rfl⟩ | ⟨rfl, outer, rfl⟩
      · cases outer with
        | rule selectors declarations children =>
            rw [cutCopied, Block.children, cutAllCopied_eq_map] at hb
            obtain ⟨b', -, hb'⟩ := List.mem_map.mp hb
            exact .inl ⟨_, b', rfl, hb'⟩
        | atRule name params declarations children braced =>
            cases hname : isConditional name with
            | true =>
                simp only [cutCopied, hname, if_true, Block.children, cutAllCopied_eq_map] at hb ⊢
                obtain ⟨b', -, hb'⟩ := List.mem_map.mp hb
                exact .inl ⟨parents, b', by simp [Standing.inside, hname], hb'⟩
            | false =>
                simp only [cutCopied, hname, Bool.false_eq_true, if_false, Block.children,
                  cutAllRules_eq_map] at hb ⊢
                obtain ⟨b', -, hb'⟩ := List.mem_map.mp hb
                exact .inr ⟨by simp [Standing.inside, hname], b', hb'⟩
      · cases outer with
        | rule selectors declarations children => simp [cutRules, Block.children] at hb
        | atRule name params declarations children braced =>
            rw [cutRules, Block.children, cutAllRules_eq_map] at hb
            obtain ⟨b', -, hb'⟩ := List.mem_map.mp hb
            exact .inr ⟨rfl, b', hb'⟩

mutual

/-- Cutting the rules of a block changes nothing that is printed. -/
theorem printBlock_cutRules : ∀ b : Block, printBlock (cutRules b) = printBlock b
  | .rule _ _ _ => rfl
  | .atRule name params declarations children braced =>
      printBlock_atRule_congr name params declarations braced (printBlocks_cutAllRules children)

/-- Cutting the rules of a list changes nothing that is printed. -/
theorem printBlocks_cutAllRules : ∀ bs : List Block,
    printBlocks (cutAllRules bs) = printBlocks bs
  | [] => rfl
  | b :: rest => by
      rw [cutAllRules, printBlocks, printBlocks, printBlock_cutRules b,
        printBlocks_cutAllRules rest]

end

mutual

/-- Cutting what is copied of a block changes nothing that is printed once it is flattened. -/
theorem print_flatten_cutCopied (parents : List String) : ∀ b : Block,
    printBlocks (flatten parents (cutCopied b)) = printBlocks (flatten parents b)
  | .rule selectors declarations children => by
      simp only [cutCopied, flatten, printBlocks, print_flattenAll_cutAllCopied _ children]
  | .atRule name params declarations children braced => by
      cases hname : isConditional name with
      | true =>
          have hinner := print_flattenAll_cutAllCopied parents children
          simp only [cutCopied, flatten, hname, if_true]
          split
          · exact congrArg (· ++ "") (printBlock_atRule_congr _ _ _ _ hinner)
          · refine congrArg (· ++ "") (printBlock_atRule_congr _ _ _ _ ?_)
            exact congrArg (printBlock (.rule parents declarations []) ++ ·) hinner
      | false =>
          simp only [cutCopied, flatten, hname, Bool.false_eq_true, if_false]
          exact congrArg (· ++ "")
            (printBlock_atRule_congr _ _ _ _ (printBlocks_cutAllRules children))

/-- Cutting what is copied of a list changes nothing that is printed once it is flattened. -/
theorem print_flattenAll_cutAllCopied (parents : List String) : ∀ bs : List Block,
    printBlocks (flattenAll parents (cutAllCopied bs)) = printBlocks (flattenAll parents bs)
  | [] => rfl
  | b :: rest => by
      rw [cutAllCopied, flattenAll, flattenAll, printBlocks_append, printBlocks_append,
        print_flatten_cutCopied parents b, print_flattenAll_cutAllCopied parents rest]

end

/-- **What flattening keeps.**  Every stylesheet that is read is also flattened.  A block at any
depth whose declarations are not empty, and whose selectors are not if it is a rule, is printed:
with its resolved selectors if it was lifted out of the rules around it, as it is if it was copied,
and an at-rule that puts a condition on a rule with the selectors of that one.  Only what is inside
a rule inside a copied at-rule is lost: without it, the stylesheet is printed the same. -/
theorem Sheet.read_print_flat {css : String} {s : Sheet} (h : Sheet.read css = .ok s) :
    Sheet.parse css = .ok s.flat ∧
      (∀ st b, s.Holds st b → st ≠ .lost → minifyDeclarations b.declarations ≠ "" →
        (b.isRule = true → st.selectors b ≠ []) →
        HasBlock s.flat.print (st.head b) (minifyDeclarations b.declarations)) ∧
      (∀ st b, s.kept.Holds st b → st ≠ .lost) ∧ s.kept.flat.print = s.flat.print := by
  refine ⟨by rw [Sheet.parse, h], ?_, fun _ _ hb => hb.ne_lost,
    print_flattenAll_cutAllCopied [] s.blocks⟩
  intro st b hb hkept hdeclarations hselectors
  have hbraced := hb.braced (read_braced h)
  have hblock := Standing.hasBlock_image hbraced hkept hselectors hdeclarations
  exact hblock.mono (hb.image_within (read_braced h) hkept hblock.ne_empty)

mutual

/-- Two blocks are found the same exactly if they are equal. -/
theorem Block.same_iff : ∀ {a b : Block}, Block.same a b = true ↔ a = b
  | .rule _ _ _, .rule _ _ _ => by simp [Block.same, Block.sameAll_iff, and_assoc]
  | .atRule _ _ _ _ _, .atRule _ _ _ _ _ => by simp [Block.same, Block.sameAll_iff, and_assoc]
  | .rule _ _ _, .atRule _ _ _ _ _ => by simp [Block.same]
  | .atRule _ _ _ _ _, .rule _ _ _ => by simp [Block.same]

/-- Two lists of blocks are found the same exactly if they are equal. -/
theorem Block.sameAll_iff : ∀ {as bs : List Block}, Block.sameAll as bs = true ↔ as = bs
  | [], [] => by simp [Block.sameAll]
  | _ :: _, _ :: _ => by simp [Block.sameAll, Block.same_iff, Block.sameAll_iff]
  | [], _ :: _ => by simp [Block.sameAll]
  | _ :: _, [] => by simp [Block.sameAll]

end

instance : DecidableEq Block := fun _ _ => decidable_of_iff _ Block.same_iff

deriving instance DecidableEq for Sheet

/-- A rule in a conditional at-rule in a rule, and a rule in another at-rule. -/
def liftedSheet : Sheet :=
  ⟨[.rule ["p"] "a:b;" [.atRule "media" "x" "" [.rule ["i"] "c:d" []] true],
    .atRule "page" "" "" [.rule [".q"] "e:f" []] true]⟩

theorem Sheet.read_print_flat_lifted :
    Sheet.read "p\x7ba:b;@media x\x7bi\x7bc:d\x7d\x7d\x7d@page\x7b.q\x7be:f\x7d\x7d" =
        .ok liftedSheet ∧
      liftedSheet.Holds (.lifted ["p"]) (.rule ["i"] "c:d" []) ∧
      liftedSheet.Holds .copied (.rule [".q"] "e:f" []) ∧
      HasBlock liftedSheet.flat.print "p i" "c:d" ∧
      HasBlock liftedSheet.flat.print ".q" "e:f" := by
  have hread : Sheet.read
      "p\x7ba:b;@media x\x7bi\x7bc:d\x7d\x7d\x7d@page\x7b.q\x7be:f\x7d\x7d" =
        .ok liftedSheet := by
    rw [Sheet.read_eq, dropComments_of_uncommented (by decide +kernel)]
    decide +kernel
  have hrule : liftedSheet.Holds (.lifted []) (.rule ["p"] "a:b;" _) := .top List.mem_cons_self
  have hpage : liftedSheet.Holds (.lifted []) (.atRule "page" "" "" _ true) :=
    .top (List.mem_cons_of_mem _ List.mem_cons_self)
  have hresolved : resolveSelectors ["p"] [] = ["p"] := by decide +kernel
  have hmedia := hrule.nested hresolved List.mem_cons_self
  have hinner := hmedia.conditional (by decide +kernel) List.mem_cons_self
  have hcopied := hpage.copied (by decide +kernel) List.mem_cons_self
  have htexts : (Standing.lifted ["p"]).head (.rule ["i"] "c:d" []) = "p i" ∧
      Standing.copied.head (.rule [".q"] "e:f" []) = ".q" ∧
      minifyDeclarations "c:d" = "c:d" ∧ minifyDeclarations "e:f" = "e:f" := by
    decide +kernel
  obtain ⟨-, hprinted, -⟩ := Sheet.read_print_flat hread
  have hlifted := hprinted _ _ hinner (by simp) (by decide +kernel) (by decide +kernel)
  have hquoted := hprinted _ _ hcopied (by simp) (by decide +kernel) (by decide +kernel)
  simp only [Block.declarations, htexts] at hlifted hquoted
  exact ⟨hread, hinner, hcopied, hlifted, hquoted⟩

/-- A rule in a rule in an at-rule that is copied. -/
def lostSheet : Sheet :=
  ⟨[.atRule "keyframes" "k" "" [.rule ["from"] "a:b;" [.rule [".c"] "d:e" []]] true]⟩

/-- The inner rule is lost, though it has declarations and selectors. -/
theorem Sheet.print_loses_block :
    Sheet.read "@keyframes k\x7bfrom\x7ba:b;.c\x7bd:e\x7d\x7d\x7d" = .ok lostSheet ∧
      lostSheet.Holds .lost (.rule [".c"] "d:e" []) ∧ minifyDeclarations "d:e" = "d:e" ∧
      resolveSelectors [".c"] ["from"] = ["from .c"] ∧
      lostSheet.flat.print = "@keyframes k\x7bfrom\x7ba:b\x7d\x7d" ∧
      ∀ head, ¬ HasBlock lostSheet.flat.print head "d:e" := by
  have hprint : lostSheet.flat.print = "@keyframes k\x7bfrom\x7ba:b\x7d\x7d" := by
    decide +kernel
  refine ⟨?_, ?_, by decide +kernel, by decide +kernel, hprint, ?_⟩
  · rw [Sheet.read_eq, dropComments_of_uncommented (by decide +kernel)]
    decide +kernel
  · have hkeyframes : lostSheet.Holds (.lifted []) (.atRule "keyframes" "k" "" _ true) :=
      .top List.mem_cons_self
    have hfrom := hkeyframes.copied (by decide +kernel) List.mem_cons_self
    exact hfrom.inside List.mem_cons_self
  · intro head hblock
    have hwithin := hblock.declarations_within
    rw [hprint] at hwithin
    revert hwithin
    decide +kernel

end Stencil.Style
