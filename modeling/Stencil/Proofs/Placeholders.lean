import Stencil.Proofs.Resolved
import Stencil.Proofs.Unquoted

/-!
# Placeholders and strings

In a nested selector only an `&` outside strings stands for the selector around it (`nestSelectors`).
Resolving replaces every `&`.  The two agree exactly if no string has an `&`
(`resolveSelectors_nests`), but for the case that what is put in is an `&` again.
-/

namespace Stencil.Style

open Stencil.Text

/-- An `&` outside strings stands for the selector around. -/
def hasPlaceholder (selector : String) : Bool := (placed .none selector.toList).contains ('&', true)

/-- An `&` in a string. -/
def quotesAmpersand (selector : String) : Bool :=
  (placed .none selector.toList).contains ('&', false)

/-- The selector with every `&` outside strings replaced. -/
def putOutside (parent selector : String) : String :=
  String.ofList ((placed .none selector.toList).flatMap fun x =>
    if x = ('&', true) then parent.toList else [x.1])

/-- Selectors of a nested rule for each selector of the rule around it, with strings left alone. -/
def nestSelectors (children parents : List String) : List String :=
  if parents.isEmpty then
    (children.map fun child => trim (putOutside "" child)).filter (!·.isEmpty)
  else
    parents.flatMap fun parent => children.map fun child =>
      if hasPlaceholder child then putOutside parent child else parent ++ " " ++ child

/-! ### Replacing everywhere and outside strings -/

section Replace

variable {ms : List (Char × Bool)} {p cs : List Char} {q : Quoting}

/-- The characters with every `&` replaced. -/
theorem replaceChar_placed (q : Quoting) (p cs : List Char) : replaceChar '&' p cs =
    (placed q cs).flatMap fun x => if x.1 = '&' then p else [x.1] := by
  conv_lhs => rw [← map_placed q cs]
  rw [replaceChar, List.flatMap_map]
  simp only [beq_iff_eq]

/-- Outside strings never more is replaced. -/
theorem length_outside_le (hp : p ≠ []) (ms : List (Char × Bool)) :
    (ms.flatMap fun x => if x = ('&', true) then p else [x.1]).length ≤
      (ms.flatMap fun x => if x.1 = '&' then p else [x.1]).length := by
  induction ms with
  | nil => exact Nat.le_refl 0
  | cons x rest ih =>
      have hlength := List.length_pos_iff.mpr hp
      have hpiece : (if x = ('&', true) then p else [x.1]).length ≤
          (if x.1 = '&' then p else [x.1]).length := by
        by_cases houtside : x = ('&', true)
        · simp [houtside]
        · rw [if_neg houtside]
          split
          · exact hlength
          · exact Nat.le_refl _
      rw [List.flatMap_cons, List.flatMap_cons, List.length_append, List.length_append]
      omega

/-- If an `&` in a string is replaced and nothing is changed by that, then an `&` is put in. -/
theorem eq_ampersand_of_replaced (h : ('&', false) ∈ ms)
    (hsame : (ms.flatMap fun x => if x.1 = '&' then p else [x.1]) =
      ms.flatMap fun x => if x = ('&', true) then p else [x.1]) : p = ['&'] := by
  induction ms with
  | nil => simp at h
  | cons x rest ih =>
      rw [List.flatMap_cons, List.flatMap_cons] at hsame
      by_cases hquoted : x = ('&', false)
      · -- the first one in a string: behind it at most as much is left as in front of it
        subst hquoted
        simp only [if_true, Prod.mk.injEq, Bool.false_eq_true, and_false, if_false,
          List.singleton_append] at hsame
        cases p with
        | nil =>
            have hmem : '&' ∈ rest.flatMap fun x => if x.1 = '&' then [] else [x.1] := by
              rw [List.nil_append] at hsame
              rw [hsame]
              exact List.mem_cons_self
            obtain ⟨y, -, hy⟩ := List.mem_flatMap.mp hmem
            by_cases hamp : y.1 = '&'
            · simp [hamp] at hy
            · simp [hamp, Ne.symm hamp] at hy
        | cons first more =>
            have hle := length_outside_le (List.cons_ne_nil first more) rest
            have hlength := congrArg List.length hsame
            rw [List.length_append, List.length_cons, List.length_cons] at hlength
            have hnil : more = [] := List.eq_nil_of_length_eq_zero (by omega)
            subst hnil
            rw [List.singleton_append] at hsame
            rw [(List.cons.inj hsame).1]
      · have hrest : ('&', false) ∈ rest := by
          rcases List.mem_cons.mp h with heq | hrest
          · exact absurd heq.symm hquoted
          · exact hrest
        have hpiece : (if x.1 = '&' then p else [x.1]) = if x = ('&', true) then p else [x.1] := by
          obtain ⟨c, outside⟩ := x
          cases outside with
          | true => simp
          | false =>
              have hamp : c ≠ '&' := fun hamp => hquoted (by rw [hamp])
              simp [hamp]
        rw [hpiece] at hsame
        exact ih hrest (List.append_cancel_left hsame)

/-- A replaced text has the other characters of the text and of what replaces each mark. -/
theorem count_replaceChar {x : Char} (hx : x ≠ '&') (p cs : List Char) :
    (replaceChar '&' p cs).count x = cs.count '&' * p.count x + cs.count x := by
  induction cs with
  | nil => simp [replaceChar]
  | cons c rest ih =>
      rw [replaceChar, List.flatMap_cons, List.count_append]
      rw [replaceChar] at ih
      by_cases hamp : c = '&'
      · subst hamp
        simp only [beq_self_eq_true, if_true, ih, List.count_cons_self,
          List.count_cons_of_ne (Ne.symm hx)]
        rw [Nat.add_mul, Nat.one_mul]
        omega
      · have hzero : (c == '&') = false := beq_eq_false_iff_ne.mpr hamp
        simp only [hzero, Bool.false_eq_true, if_false, ih, List.count_cons, List.count_nil,
          Nat.add_zero]
        omega

/-- If every `&` is in a string then the text begins, up to a quote, without any. -/
theorem exists_quote (h : '&' ∈ cs) (hnone : ('&', true) ∉ placed .none cs) :
    ∃ front mark back, cs = front ++ mark :: back ∧ (mark = '"' ∨ mark = '\'') ∧
      ∀ c ∈ front, c ≠ '&' ∧ c ≠ '"' ∧ c ≠ '\'' := by
  induction cs with
  | nil => simp at h
  | cons c rest ih =>
      by_cases hmark : c = '"' ∨ c = '\''
      · exact ⟨[], c, rest, rfl, hmark, by simp⟩
      · obtain ⟨hc, hrest⟩ := not_or.mp (mt List.mem_cons.mpr hnone)
        rw [Quoting.step_of_ne (not_or.mp hmark)] at hrest
        have hamp : c ≠ '&' := by
          rintro rfl
          exact hc rfl
        have hmem : '&' ∈ rest := (List.mem_cons.mp h).resolve_left (Ne.symm hamp)
        obtain ⟨front, mark, back, rfl, hquote, hfront⟩ := ih hmem hrest
        exact ⟨c :: front, mark, back, rfl, hquote,
          List.forall_mem_cons.mpr ⟨⟨hamp, not_or.mp hmark⟩, hfront⟩⟩

/-- If every `&` is in a string, replacing them does not make the selector a descendant. -/
theorem replaceChar_ne_descendant (h : '&' ∈ cs) (hnone : ('&', true) ∉ placed .none cs) :
    replaceChar '&' p cs ≠ p ++ ' ' :: cs := by
  intro hsame
  obtain ⟨front, mark, back, hcs, hmark, hfront⟩ := exists_quote h hnone
  have hquote : mark ≠ '&' ∧ mark ≠ ' ' := by
    rcases hmark with rfl | rfl <;> decide
  have hspaces := congrArg (List.count ' ') hsame
  have hmarks := congrArg (List.count mark) hsame
  rw [count_replaceChar (by decide), List.count_append, List.count_cons_self] at hspaces
  rw [count_replaceChar hquote.1, List.count_append,
    List.count_cons_of_ne (Ne.symm hquote.2)] at hmarks
  -- the spaces show that more than one `&` is replaced, and so what is put in has no quote
  have htwo : 2 ≤ cs.count '&' := by
    rcases Nat.lt_or_ge (cs.count '&') 2 with hlt | hge
    · have hone : cs.count '&' = 0 ∨ cs.count '&' = 1 := by omega
      rcases hone with hone | hone <;> rw [hone] at hspaces <;> omega
    · exact hge
  have hclear : p.count mark = 0 := by
    have htwice := Nat.mul_le_mul_right (p.count mark) htwo
    omega
  -- the first quote stands further behind on the right
  have hleft : replaceChar '&' p cs = front ++ mark :: replaceChar '&' p back := by
    have hkept : replaceChar '&' p front = front := by
      rw [replaceChar]
      refine (List.flatMap_congr fun c hc => ?_).trans (List.flatMap_singleton' front)
      simp [(hfront c hc).1]
    rw [hcs, replaceChar, List.flatMap_append, List.flatMap_cons]
    rw [replaceChar] at hkept
    rw [hkept]
    simp [hquote.1, replaceChar]
  have hother : ∀ c ∈ front, (c != mark) = true := by
    intro c hc
    rw [bne_iff_ne]
    rintro rfl
    rcases hmark with rfl | rfl
    · exact (hfront _ hc).2.1 rfl
    · exact (hfront _ hc).2.2 rfl
  have hbefore : ∀ c ∈ p ++ ' ' :: front, (c != mark) = true := by
    intro c hc
    rcases List.mem_append.mp hc with hc | hc
    · rw [bne_iff_ne]
      rintro rfl
      exact List.count_eq_zero.mp hclear hc
    · rcases List.mem_cons.mp hc with rfl | hc
      · exact bne_iff_ne.mpr (Ne.symm hquote.2)
      · exact hother c hc
  have hright : p ++ ' ' :: cs = (p ++ ' ' :: front) ++ mark :: back := by
    rw [hcs]
    simp
  rw [hleft, hright] at hsame
  have hstop : ∀ text : List Char, (mark :: text).takeWhile (· != mark) = [] := by simp
  have hspan := congrArg (fun text => (text.takeWhile (· != mark)).length) hsame
  simp only [List.takeWhile_append_of_pos hother, List.takeWhile_append_of_pos hbefore, hstop,
    List.append_nil, List.length_append, List.length_cons] at hspan
  omega

end Replace

/-! ### Selectors -/

section Selectors

variable {parent child : String} {parents children : List String}

/-- A selector has a placeholder exactly if a mark stands outside of strings. -/
theorem hasPlaceholder_iff : hasPlaceholder child = true ↔ ('&', true) ∈ placed .none child.toList :=
  List.contains_iff_mem

/-- A selector quotes a mark exactly if one stands in a string. -/
theorem quotesAmpersand_iff :
    quotesAmpersand child = true ↔ ('&', false) ∈ placed .none child.toList :=
  List.contains_iff_mem

/-- A selector refers to its parent exactly if it has a mark in either place. -/
theorem refersToParent_iff : refersToParent child = true ↔
    hasPlaceholder child = true ∨ quotesAmpersand child = true := by
  rw [hasPlaceholder_iff, quotesAmpersand_iff, refersToParent, List.contains_iff_mem]
  constructor
  · exact exists_mem_placed
  · rintro (hmem | hmem)
    · exact mem_of_mem_placed hmem
    · exact mem_of_mem_placed hmem

/-- Putting the parent outside of strings replaces the marks there and no others. -/
theorem toList_putOutside (parent child : String) : (putOutside parent child).toList =
    (placed .none child.toList).flatMap fun x => if x = ('&', true) then parent.toList else [x.1] :=
  String.toList_ofList

/-- Both ways of putting the parent agree exactly if no mark is quoted, or the parent is the mark.
-/
theorem putParent_eq_iff : putParent parent child = putOutside parent child ↔
    (quotesAmpersand child = true → parent = "&") := by
  rw [← String.toList_inj, toList_putParent, toList_putOutside, replaceChar_placed .none,
    quotesAmpersand_iff]
  constructor
  · intro hsame hquoted
    have hparent := eq_ampersand_of_replaced hquoted hsame
    exact String.toList_inj.mp hparent
  · intro himplies
    refine List.flatMap_congr fun x hx => ?_
    obtain ⟨c, outside⟩ := x
    cases outside with
    | true => simp
    | false =>
        by_cases hamp : c = '&'
        · subst hamp
          rw [himplies hx]
          rfl
        · simp [hamp]

/-- **One selector.**  It is resolved as it should be unless it has an `&` in a string. -/
theorem resolved_eq_iff :
    (if refersToParent child then putParent parent child else parent ++ " " ++ child) =
        (if hasPlaceholder child then putOutside parent child else parent ++ " " ++ child) ↔
      (quotesAmpersand child = true → hasPlaceholder child = true ∧ parent = "&") := by
  by_cases hplaceholder : hasPlaceholder child = true
  · rw [if_pos (refersToParent_iff.mpr (.inl hplaceholder)), if_pos hplaceholder, putParent_eq_iff]
    simp [hplaceholder]
  · rw [if_neg hplaceholder]
    by_cases hquoted : quotesAmpersand child = true
    · have hrefers := refersToParent_iff.mpr (.inr hquoted)
      rw [if_pos hrefers]
      refine iff_of_false ?_ (by simp [hquoted, hplaceholder])
      intro hsame
      have htext := congrArg String.toList hsame
      rw [toList_putParent] at htext
      refine replaceChar_ne_descendant (List.contains_iff_mem.mp hrefers) ?_
        (htext.trans (by simp))
      exact fun hmem => hplaceholder (hasPlaceholder_iff.mpr hmem)
    · have hrefers : ¬ refersToParent child = true := by
        rw [refersToParent_iff]
        exact not_or.mpr ⟨hplaceholder, hquoted⟩
      rw [if_neg hrefers]
      simp [hquoted]

/-- Two ways of combining selectors agree exactly if they do on each pair. -/
theorem flatMap_map_eq_iff {f g : String → String → String} :
    (parents.flatMap fun p => children.map (f p)) = (parents.flatMap fun p => children.map (g p)) ↔
      ∀ p ∈ parents, ∀ c ∈ children, f p c = g p c := by
  induction parents with
  | nil => simp
  | cons p rest ih =>
      rw [List.flatMap_cons, List.flatMap_cons, List.forall_mem_cons, ← ih]
      constructor
      · intro hsame
        obtain ⟨hfirst, hrest⟩ := List.append_inj hsame (by rw [List.length_map, List.length_map])
        exact ⟨List.map_inj_left.mp hfirst, hrest⟩
      · rintro ⟨hfirst, hrest⟩
        rw [List.map_inj_left.mpr hfirst, hrest]

/-- Outside all rules every `&` is lost, also one in a string. -/
theorem resolveSelectors_nil_eq_iff : resolveSelectors children [] = nestSelectors children [] ↔
    ∀ child ∈ children, quotesAmpersand child = false := by
  rw [resolveSelectors, nestSelectors, List.isEmpty_nil, if_pos rfl, if_pos rfl]
  constructor
  · intro hsame child hchild
    rw [Bool.eq_false_iff]
    intro hquoted
    have hamp : '&' ∈ (trim (putOutside "" child)).toList := by
      rw [trim, String.toList_ofList, toList_putOutside]
      refine mem_trimList ?_ (by decide)
      exact List.mem_flatMap.mpr ⟨('&', false), quotesAmpersand_iff.mp hquoted, by simp⟩
    have hne : trim (putOutside "" child) ≠ "" := by
      intro hempty
      rw [hempty] at hamp
      simp at hamp
    have hmem : trim (putOutside "" child) ∈
        (children.map fun child => trim (putOutside "" child)).filter (!·.isEmpty) :=
      List.mem_filter.mpr ⟨List.mem_map_of_mem hchild, by simpa using hne⟩
    rw [← hsame] at hmem
    obtain ⟨other, -, hother⟩ := List.mem_map.mp (List.mem_filter.mp hmem).1
    rw [← hother] at hamp hne
    exact (resolvedSelector_top hne).whole hamp
  · intro hnone
    have hmap : (children.map fun child => trim (putParent "" child)) =
        children.map fun child => trim (putOutside "" child) := by
      refine List.map_congr_left fun child hchild => ?_
      rw [putParent_eq_iff.mpr fun hquoted => ?_]
      rw [hnone child hchild] at hquoted
      simp at hquoted
    rw [hmap]

/-- A selector without placeholder is not changed, whatever is in its strings. -/
theorem putOutside_of_not_hasPlaceholder (h : hasPlaceholder child = false) (parent : String) :
    putOutside parent child = child := by
  rw [← String.toList_inj, toList_putOutside]
  conv_rhs => rw [← map_placed .none child.toList]
  rw [List.map_eq_flatMap]
  refine List.flatMap_congr fun x hx => ?_
  rw [if_neg]
  rintro rfl
  rw [hasPlaceholder_iff.mpr hx] at h
  simp at h

/-- Selectors without placeholder stay as they are outside all rules, and inside a rule they become
descendants. -/
theorem nestSelectors_of_not_hasPlaceholder
    (h : ∀ child ∈ children, hasPlaceholder child = false) (parents : List String) :
    nestSelectors children parents =
      if parents = [] then (children.map trim).filter (!·.isEmpty)
      else parents.flatMap fun parent => children.map fun child => parent ++ " " ++ child := by
  cases parents with
  | nil =>
      have hmap : (children.map fun child => trim (putOutside "" child)) = children.map trim :=
        List.map_congr_left fun child hchild => by
          rw [putOutside_of_not_hasPlaceholder (h child hchild)]
      rw [nestSelectors, List.isEmpty_nil, if_pos rfl, if_pos rfl, hmap]
  | cons first rest =>
      rw [nestSelectors, List.isEmpty_cons, if_neg Bool.false_ne_true,
        if_neg (List.cons_ne_nil first rest)]
      refine List.flatMap_congr fun parent _ => List.map_congr_left fun child hchild => ?_
      rw [h child hchild, if_neg Bool.false_ne_true]

/-- Both ways of resolving selectors agree exactly where quoted marks do no harm. -/
theorem resolveSelectors_eq_nestSelectors_iff :
    resolveSelectors children parents = nestSelectors children parents ↔
      ∀ child ∈ children, quotesAmpersand child = true →
        parents ≠ [] ∧ hasPlaceholder child = true ∧ ∀ parent ∈ parents, parent = "&" := by
  cases parents with
  | nil =>
      rw [resolveSelectors_nil_eq_iff]
      simp
  | cons first rest =>
      rw [resolveSelectors, nestSelectors, List.isEmpty_cons, if_neg Bool.false_ne_true,
        if_neg Bool.false_ne_true, flatMap_map_eq_iff]
      simp only [resolved_eq_iff]
      constructor
      · intro h child hchild hquoted
        refine ⟨List.cons_ne_nil first rest, ?_, ?_⟩
        · exact (h first List.mem_cons_self child hchild hquoted).1
        · exact fun parent hparent => (h parent hparent child hchild hquoted).2
      · intro h parent hparent child hchild hquoted
        obtain ⟨-, hplaceholder, hparents⟩ := h child hchild hquoted
        exact ⟨hplaceholder, hparents parent hparent⟩

/-- **Nesting and strings.**  For all nested selectors and all selectors around them, resolving
treats as a placeholder just an `&` outside strings, exactly if no nested selector has an `&` in a
string.  The one exception is without effect: all selectors around are an `&` themselves, and the
nested selector has a placeholder too.  A selector without placeholder should stay as it is outside
all rules, and become a descendant inside a rule. -/
theorem resolveSelectors_nests (children parents : List String) :
    (resolveSelectors children parents = nestSelectors children parents ↔
      ∀ child ∈ children, quotesAmpersand child = true →
        parents ≠ [] ∧ hasPlaceholder child = true ∧ ∀ parent ∈ parents, parent = "&") ∧
    ((∀ child ∈ children, hasPlaceholder child = false) → nestSelectors children parents =
      if parents = [] then (children.map trim).filter (!·.isEmpty)
      else parents.flatMap fun parent => children.map fun child => parent ++ " " ++ child) :=
  ⟨resolveSelectors_eq_nestSelectors_iff, fun h => nestSelectors_of_not_hasPlaceholder h parents⟩

theorem resolveSelectors_nests_attribute :
    (∀ child ∈ ["[a=\"b,\"]", "i"], quotesAmpersand child = false ∧ hasPlaceholder child = false) ∧
      resolveSelectors ["[a=\"b,\"]", "i"] [".p", "q"] =
        [".p [a=\"b,\"]", ".p i", "q [a=\"b,\"]", "q i"] := by
  have hchildren : ∀ child ∈ ["[a=\"b,\"]", "i"],
      quotesAmpersand child = false ∧ hasPlaceholder child = false := by
    decide +kernel
  obtain ⟨hiff, hplain⟩ := resolveSelectors_nests ["[a=\"b,\"]", "i"] [".p", "q"]
  have hnests := hiff.mpr fun child hchild hquoted => by
    rw [(hchildren child hchild).1] at hquoted
    simp at hquoted
  refine ⟨hchildren, ?_⟩
  rw [hnests, hplain fun child hchild => (hchildren child hchild).2]
  rfl

/-- The string of an attribute loses its `&` outside all rules, and inside a rule the selector around
is written into it. -/
theorem resolveSelectors_changes_string :
    (quotesAmpersand "[a=\"&\"]" = true ∧ hasPlaceholder "[a=\"&\"]" = false) ∧
      (resolveSelectors ["[a=\"&\"]"] [] = ["[a=\"\"]"] ∧
        nestSelectors ["[a=\"&\"]"] [] = ["[a=\"&\"]"]) ∧
      resolveSelectors ["[a=\"&\"]"] [".p"] = ["[a=\".p\"]"] ∧
        nestSelectors ["[a=\"&\"]"] [".p"] = [".p [a=\"&\"]"] := by
  decide +kernel

end Selectors

end Stencil.Style
