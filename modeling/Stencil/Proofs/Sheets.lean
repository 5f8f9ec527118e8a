import Stencil.Proofs.Comment
import Stencil.Proofs.Registry

/-!
# The style sheet of a template

The styles of the components are printed one after another, one for each hash.  The first component
with a hash is its owner: `Tracked` says that the registry of a template knows the owners of all
hashes, and every component that is added keeps it so.  A style is therefore printed unless every
hash it could have belongs to another style already, and then it is lost (`compile_css`).
-/

namespace Stencil

open Stencil.Markup Stencil.Source
open Stencil.Script (Language)

variable {cs before after : List Component} {c owner : Component} {hash css : String}
  {digest : String → String}

/-- The first of some components whose style has the given hash. -/
def owner? (cs : List Component) (hash : String) : Option Component :=
  cs.find? fun c => c.styleHash == some hash

/-- The owner of a digest has it. -/
theorem styleHash_of_owner? (h : owner? cs hash = some owner) : owner.styleHash = some hash := by
  simpa using List.find?_some h

/-- A hash keeps its owner when components are added behind. -/
theorem owner?_append_of_some (h : owner? before hash = some owner) (after : List Component) :
    owner? (before ++ after) hash = some owner := by
  unfold owner? at h ⊢
  rw [List.find?_append, h, Option.some_or]

/-- A component that is added owns its hash if no other does. -/
theorem owner?_concat (cs : List Component) (c : Component) (hash : String) :
    owner? (cs ++ [c]) hash =
      (owner? cs hash).or (if c.styleHash = some hash then some c else none) := by
  unfold owner?
  rw [List.find?_append, List.find?_singleton]
  simp only [beq_iff_eq]

/-- A digest that a component has, has an owner. -/
theorem owner?_of_mem (hc : c ∈ cs) (hhash : c.styleHash = some hash) :
    ∃ owner, owner? cs hash = some owner := by
  rw [← Option.isSome_iff_exists]
  simpa [owner?] using ⟨c, hc, hhash⟩

namespace Template

/-- The components whose styles are printed; `seen` holds the hashes met so far. -/
def printed (seen : List String) : List Component → List Component
  | [] => []
  | c :: rest =>
      match c.styleHash with
      | none => printed seen rest
      | some hash =>
          if seen.contains hash then printed seen rest else c :: printed (hash :: seen) rest

/-- The styles rendered are those of the components printed. -/
theorem renderStyles_eq (seen : List String) (cs : List Component) :
    renderStyles seen cs = String.join ((printed seen cs).map Component.scopedStyle) := by
  fun_induction printed seen cs with
  | case1 => simp [renderStyles]
  | case2 seen c rest hnone ih => simp only [renderStyles, hnone, ih]
  | case3 seen c rest hash hsome hseen ih => simp only [renderStyles, hsome, if_pos hseen, ih]
  | case4 seen c rest hash hsome hseen ih =>
      simp only [renderStyles, hsome, if_neg hseen, ih, List.map_cons, String.join_cons]

/-- The components printed are among all, in order. -/
theorem printed_sublist (seen : List String) (cs : List Component) : (printed seen cs).Sublist cs := by
  fun_induction printed seen cs with
  | case1 => exact .slnil
  | case2 seen c rest hnone ih => exact ih.cons c
  | case3 seen c rest hash hsome hseen ih => exact ih.cons c
  | case4 seen c rest hash hsome hseen ih => exact ih.cons_cons c

/-- What is printed is the style of the owner of each hash. -/
theorem mem_printed (seen : List String) (cs : List Component) {e : Component} :
    e ∈ printed seen cs ↔ ∃ hash, hash ∉ seen ∧ owner? cs hash = some e := by
  fun_induction printed seen cs with
  | case1 => simp [owner?]
  | case2 seen c rest hnone ih => simpa [owner?, hnone] using ih
  | case3 seen c rest hash hsome hseen ih =>
      rw [ih]
      refine exists_congr fun key => and_congr_right fun hkey => ?_
      have hne : hash ≠ key := by
        rintro rfl
        exact hkey (by simpa using hseen)
      simp [owner?, hsome, hne]
  | case4 seen c rest hash hsome hseen ih =>
      have hnew : hash ∉ seen := by simpa using hseen
      rw [List.mem_cons, ih]
      constructor
      · rintro (rfl | ⟨key, hkey, howner⟩)
        · exact ⟨hash, hnew, by simp [owner?, hsome]⟩
        · obtain ⟨hne, hkey⟩ := not_or.mp (mt List.mem_cons.mpr hkey)
          refine ⟨key, hkey, ?_⟩
          simpa [owner?, hsome, Ne.symm hne] using howner
      · rintro ⟨key, hkey, howner⟩
        by_cases heq : hash = key
        · left
          simpa [owner?, hsome, heq] using howner.symm
        · right
          refine ⟨key, mt List.mem_cons.mp (not_or.mpr ⟨Ne.symm heq, hkey⟩), ?_⟩
          simpa [owner?, hsome, heq] using howner

/-- No digest is printed twice. -/
theorem printed_hashes_ne (seen : List String) (cs : List Component) :
    (printed seen cs).Pairwise fun a b => a.styleHash ≠ b.styleHash := by
  fun_induction printed seen cs with
  | case1 => exact .nil
  | case2 seen c rest hnone ih => exact ih
  | case3 seen c rest hash hsome hseen ih => exact ih
  | case4 seen c rest hash hsome hseen ih =>
      refine .cons (fun e he heq => ?_) ih
      obtain ⟨key, hkey, howner⟩ := (mem_printed _ _).mp he
      rw [hsome, styleHash_of_owner? howner] at heq
      exact hkey (by simp [Option.some.inj heq])

end Template

/-- The hash belongs to another style. -/
def Foreign (cs : List Component) (css hash : String) : Prop :=
  ∃ owner, owner? cs hash = some owner ∧ owner.styleText ≠ css

/-- What is known of the hash of a component with a style, `before` being the components before it:
it is the least that is not foreign, or the longest of all if all are. -/
structure Hashed (digest : String → String) (lo hi : Nat) (before : List Component) (c : Component)
    (n : Nat) : Prop where
  low : lo ≤ n
  high : n ≤ hi
  hash : c.styleHash = some (shortHash (digest c.styleText) n)
  least : ∀ k, lo ≤ k → k < n → Foreign before c.styleText (shortHash (digest c.styleText) k)
  stuck : Foreign before c.styleText (shortHash (digest c.styleText) n) → n = hi

/-- A component is not given a longer hash than another one with its style that owns its own. -/
theorem Hashed.not_longer {lo hi n m : Nat} {e : Component} (h : Hashed digest lo hi before c n)
    (howner : owner? (before ++ c :: after) hash = some e) (htext : e.styleText = c.styleText)
    (hhash : hash = shortHash (digest e.styleText) m) (hlow : lo ≤ m) : n ≤ m := by
  by_contra hlt
  obtain ⟨other, hother, hne⟩ := h.least m hlow (by omega)
  have hfirst := owner?_append_of_some hother (c :: after)
  rw [← htext, ← hhash, howner] at hfirst
  exact hne (by rw [← Option.some.inj hfirst, htext])

namespace Template

variable {o : Options} {t : Template}

/-- A template whose registry knows the owners of all hashes. -/
structure Tracked (digest : String → String) (o : Options) (t : Template) : Prop where
  options : t.options = o
  owners : ∀ hash, t.styles.lookup hash = (owner? t.components hash).map Component.styleText
  unstyled : ∀ c ∈ t.components, c.styleText = "" → c.styleHash = none
  hashed : ∀ before c after, t.components = before ++ c :: after → c.styleText ≠ "" →
    ∃ n, Hashed digest t.minLength t.maxLength before c n

/-- A name is taken from a stylesheet exactly if a component has it with another one. -/
theorem Tracked.takenFrom_iff (h : t.Tracked digest o) :
    TakenFrom t.styles css hash ↔ Foreign t.components css hash := by
  unfold TakenFrom Foreign
  rw [h.owners]
  constructor
  · rintro ⟨text, htext, hne⟩
    obtain ⟨owner, howner, rfl⟩ := Option.map_eq_some_iff.mp htext
    exact ⟨owner, howner, hne⟩
  · rintro ⟨owner, howner, hne⟩
    exact ⟨_, by rw [howner, Option.map_some], hne⟩

/-- What was true of the components is true of them when one is added. -/
theorem hashed_concat {lo hi : Nat} (hold : ∀ before c after, cs = before ++ c :: after →
      c.styleText ≠ "" → ∃ n, Hashed digest lo hi before c n)
    {new : Component} (hnew : new.styleText ≠ "" → ∃ n, Hashed digest lo hi cs new n) :
    ∀ before c after, cs ++ [new] = before ++ c :: after → c.styleText ≠ "" →
      ∃ n, Hashed digest lo hi before c n := by
  intro before c after heq hstyle
  rcases after.eq_nil_or_concat with rfl | ⟨inner, last, rfl⟩
  · obtain ⟨rfl, hlast⟩ := List.append_inj' heq rfl
    obtain rfl : new = c := by simpa using hlast
    exact hnew hstyle
  · have hsplit : cs ++ [new] = (before ++ c :: inner) ++ [last] := by simpa using heq
    exact hold before c inner (List.append_inj' hsplit rfl).1 hstyle

/-- The registry after a style was registered for a new component. -/
theorem Tracked.registers (h : t.Tracked digest o) {t' : Template}
    (hstep : Registers digest t c.styleText hash t') (hhash : c.styleHash = some hash) :
    (∀ key, t'.styles.lookup key =
      (owner? (t.components ++ [c]) key).map Component.styleText) ∧
    ∃ n, Hashed digest t.minLength t.maxLength t.components c n := by
  have howners : ∀ key, (owner? (t.components ++ [c]) key).map Component.styleText =
      (t.styles.lookup key).or (if hash = key then some c.styleText else none) := by
    intro key
    rw [owner?_concat, h.owners, hhash]
    by_cases heq : hash = key
    · cases owner? t.components key <;> simp [heq]
    · cases owner? t.components key <;> simp [heq]
  cases hstep with
  | @found n styles hlow hhigh hfree htaken hstyles =>
      refine ⟨fun key => ?_, n, hlow, hhigh, hhash, ?_, ?_⟩
      · rw [howners]
        rcases hstyles with ⟨hown, rfl⟩ | ⟨hnone, rfl⟩
        · by_cases heq : shortHash (digest c.styleText) n = key
          · simp [← heq, hown]
          · simp [heq]
        · rw [List.lookup_append]
          simp only [List.lookup_cons, List.lookup_nil]
          by_cases heq : shortHash (digest c.styleText) n = key
          · simp [heq]
          · simp [heq, beq_false_of_ne (Ne.symm heq)]
      · exact fun k hk hlt => h.takenFrom_iff.mp (htaken k hk hlt)
      · exact fun hforeign => absurd (h.takenFrom_iff.mpr hforeign) hfree
  | crowded hcrowded =>
      have hbounds := t.minLength_le_maxLength
      refine ⟨fun key => ?_, t.maxLength, hbounds, Nat.le_refl _, hhash, ?_, fun _ => rfl⟩
      · rw [howners]
        obtain ⟨owner, howner, -⟩ := hcrowded t.maxLength hbounds (Nat.le_refl _)
        by_cases heq : shortHash (digest c.styleText) t.maxLength = key
        · simp [← heq, howner]
        · simp [heq]
      · exact fun k hk hlt => h.takenFrom_iff.mp (hcrowded k hk (by omega))

/-- The walk of a component leaves its name, its style and its hash alone. -/
theorem style_walkComponent (x : WalkContext) (w : Walk) :
    (walkComponent x w).component.name = w.component.name ∧
      (walkComponent x w).component.style = w.component.style ∧
      (walkComponent x w).component.styleHash = w.component.styleHash := by
  have houtline := outline_walkComponent x w
  have hname := congrArg Component.name houtline
  have hstyle := congrArg Component.style houtline
  have hhash := congrArg Component.styleHash houtline
  simp only [Walk.outline, Component.outline] at hname hstyle hhash
  exact ⟨hname, hstyle, hhash⟩

/-- The style of the component with the given root. -/
def styleAt (d : Document) (target : Target) (root : Nat) : Style.Sheet :=
  (({ name := "", root } : Component).analyze d target).style

/-- What adding a component does to the registry: its style is registered, if it has one. -/
theorem addComponent_cases (lang : Language) (t : Template) (d : Document) (root : Nat)
    (name : String) (isDefault : Bool) :
    ∃ c, (t.addComponent lang d root name isDefault).1.components = t.components ++ [c] ∧
      (t.addComponent lang d root name isDefault).1.options = t.options ∧
      c.name = name ∧ c.style = styleAt d t.options.target root ∧
      (c.styleText = "" ∧ c.styleHash = none ∧
          (t.addComponent lang d root name isDefault).1.styles = t.styles ∨
        c.styleText ≠ "" ∧ ∃ hash t', c.styleHash = some hash ∧
          Registers (Style.contentHash lang.hash) t c.styleText hash t' ∧
          (t.addComponent lang d root name isDefault).1.styles = t'.styles) := by
  obtain ⟨o', imports, hcomponents⟩ := t.components_addComponent lang d root name isDefault
  obtain ⟨hname, hstyle, hhash⟩ := style_walkComponent ⟨lang, o', d⟩
    { component := t.analyzed lang d root name isDefault, imports := imports }
  obtain ⟨styles, hstyles⟩ := t.exists_styles_withStyleHash lang
    (({ name, root, isDefault } : Component).analyze d t.options.target)
  refine ⟨_, hcomponents, by simp only [addComponent, hstyles], ?_⟩
  rw [Component.styleText, hname, hstyle, hhash]
  simp only [addComponent, analyzed]
  have hat : (({ name, root, isDefault } : Component).analyze d t.options.target).style =
      styleAt d t.options.target root := rfl
  generalize hc : ({ name, root, isDefault } : Component).analyze d t.options.target = c at hat ⊢
  have hnone : c.styleHash = none := by rw [← hc]; rfl
  have hnamed : c.name = name := by rw [← hc]; rfl
  by_cases hempty : c.styleText.isEmpty = true
  · simp only [withStyleHash, if_pos hempty]
    exact ⟨hnamed, hat, .inl ⟨String.isEmpty_iff.mp hempty, hnone, trivial⟩⟩
  · have hstep := registerStyle_registers (Style.contentHash lang.hash) t c.styleText
    have hne : c.styleText ≠ "" := by simpa using hempty
    simp only [withStyleHash, if_neg hempty]
    exact ⟨hnamed, hat, .inr ⟨hne, _, _, rfl, hstep, rfl⟩⟩

/-- **One step.**  The registry keeps track of the components when one is added. -/
theorem Tracked.addComponent {lang : Language} (h : t.Tracked (Style.contentHash lang.hash) o)
    (d : Document) (root : Nat)
    (name : String) (isDefault : Bool) :
    (t.addComponent lang d root name isDefault).1.Tracked (Style.contentHash lang.hash) o := by
  obtain ⟨c, hcomponents, hoptions, -, -, hstyle⟩ :=
    t.addComponent_cases lang d root name isDefault
  generalize (t.addComponent lang d root name isDefault).1 = t₁ at hcomponents hoptions hstyle ⊢
  have hmin : t₁.minLength = t.minLength := by rw [minLength, minLength, hoptions]
  have hmax : t₁.maxLength = t.maxLength := by rw [maxLength, maxLength, hoptions, hmin]
  rcases hstyle with ⟨htext, hhash, hstyles⟩ | ⟨htext, hash, t', hhash, hstep, hstyles⟩
  · refine ⟨hoptions.trans h.options, fun key => ?_, fun e he hempty => ?_, ?_⟩
    · rw [hstyles, hcomponents, owner?_concat, hhash, h.owners]
      simp
    · rw [hcomponents, List.mem_append, List.mem_singleton] at he
      rcases he with he | rfl
      · exact h.unstyled e he hempty
      · exact hhash
    · rw [hcomponents, hmin, hmax]
      exact hashed_concat h.hashed fun hne => absurd htext hne
  · obtain ⟨howners, hhashed⟩ := h.registers hstep hhash
    refine ⟨hoptions.trans h.options, fun key => ?_, fun e he hempty => ?_, ?_⟩
    · rw [hstyles, hcomponents, howners]
    · rw [hcomponents, List.mem_append, List.mem_singleton] at he
      rcases he with he | rfl
      · exact h.unstyled e he hempty
      · exact absurd hempty htext
    · rw [hcomponents, hmin, hmax]
      exact hashed_concat h.hashed fun _ => hhashed

/-- A fragment that is added keeps a template tracked. -/
theorem Tracked.addFragment {lang : Language} {found : List Diagnostic}
    (h : t.Tracked (Style.contentHash lang.hash) o) (d : Document) (id : Nat) :
    (Template.addFragment lang d (t, found) id).1.Tracked (Style.contentHash lang.hash) o := by
  unfold Template.addFragment
  dsimp only
  repeat' split
  · exact h
  · dsimp only
    exact h.addComponent d id _ false
  · exact h

/-- **The whole run.**  The registry of a filled template knows the owners of all hashes. -/
theorem Tracked.addDocument {lang : Language} (h : t.Tracked (Style.contentHash lang.hash) o)
    (d : Document) :
    (t.addDocument lang d).1.Tracked (Style.contentHash lang.hash) o := by
  unfold Template.addDocument
  refine List.foldlRecOn (motive := fun s : Template × List Diagnostic =>
    s.1.Tracked (Style.contentHash lang.hash) o) d.walk _
    (h.addComponent d 0 t.options.name true) ?_
  rintro ⟨t', found⟩ ht' id -
  exact ht'.addFragment d id

/-- An empty template is tracked. -/
theorem tracked_empty (digest : String → String) (o : Options) :
    ({ options := o } : Template).Tracked digest o :=
  ⟨rfl, fun _ => rfl, by simp, by simp⟩

/-- **A style is printed unless it is crowded out.** -/
theorem Tracked.exists_printed_iff (h : t.Tracked digest o) (hsplit : t.components = before ++ c :: after)
    (hstyle : c.styleText ≠ "") :
    (∃ e ∈ printed [] t.components, e.styleText = c.styleText ∧ e.styleHash = c.styleHash) ↔
      ∃ n, t.minLength ≤ n ∧ n ≤ t.maxLength ∧
        ¬ Foreign before c.styleText (shortHash (digest c.styleText) n) := by
  obtain ⟨n, hn⟩ := h.hashed before c after hsplit hstyle
  constructor
  · rintro ⟨e, he, htext, hhash⟩
    obtain ⟨key, -, hkey⟩ := (mem_printed _ _).mp he
    refine ⟨n, hn.low, hn.high, ?_⟩
    -- a foreign owner of this hash would come before the component that is printed
    rintro ⟨owner, howner, hne⟩
    have hfirst := owner?_append_of_some howner (c :: after)
    rw [styleHash_of_owner? hkey, hn.hash] at hhash
    rw [← hsplit, ← Option.some.inj hhash, hkey] at hfirst
    exact hne ((congrArg Component.styleText (Option.some.inj hfirst)).symm.trans htext)
  · rintro ⟨k, hlow, hhigh, hown⟩
    have hfree : ¬ Foreign before c.styleText (shortHash (digest c.styleText) n) := by
      intro hforeign
      have hn' := hn.stuck hforeign
      rcases Nat.lt_or_ge k n with hlt | hge
      · exact hown (hn.least k hlow hlt)
      · obtain rfl : k = n := by omega
        exact hown hforeign
    have hmem : c ∈ t.components := by simp [hsplit]
    obtain ⟨e, he⟩ := owner?_of_mem hmem hn.hash
    refine ⟨e, (mem_printed _ _).mpr ⟨_, by simp, he⟩, ?_, ?_⟩
    · cases hbefore : owner? before (shortHash (digest c.styleText) n) with
      | none =>
          rw [hsplit, owner?, List.find?_append] at he
          rw [owner?] at hbefore
          rw [hbefore, Option.none_or, List.find?_cons_of_pos (by simpa using hn.hash)] at he
          rw [Option.some.inj he]
      | some owner =>
          have hfirst := owner?_append_of_some hbefore (c :: after)
          rw [← hsplit, he] at hfirst
          obtain rfl := Option.some.inj hfirst
          by_contra hne
          exact hfree ⟨_, hbefore, hne⟩
    · rw [styleHash_of_owner? he, hn.hash]

/-- **No style is printed twice.** -/
theorem Tracked.printed_styles_ne (h : t.Tracked digest o) :
    (printed [] t.components).Pairwise fun a b => a.styleText ≠ b.styleText := by
  refine (printed_hashes_ne [] t.components).imp_of_mem ?_
  intro a b ha hb hhash htext
  obtain ⟨key, -, hkey⟩ := (mem_printed _ _).mp ha
  obtain ⟨key', -, hkey'⟩ := (mem_printed _ _).mp hb
  obtain ⟨before, after, hsplit⟩ := List.append_of_mem (List.mem_of_find?_eq_some hkey)
  obtain ⟨before', after', hsplit'⟩ := List.append_of_mem (List.mem_of_find?_eq_some hkey')
  have hstyled : a.styleText ≠ "" := by
    intro hempty
    have hnone := h.unstyled a ((printed_sublist _ _).mem ha) hempty
    simp [styleHash_of_owner? hkey] at hnone
  obtain ⟨n, hn⟩ := h.hashed before a after hsplit hstyled
  obtain ⟨n', hn'⟩ := h.hashed before' b after' hsplit' (htext ▸ hstyled)
  have hkeyEq : key = shortHash (digest a.styleText) n :=
    Option.some.inj ((styleHash_of_owner? hkey).symm.trans hn.hash)
  have hkeyEq' : key' = shortHash (digest b.styleText) n' :=
    Option.some.inj ((styleHash_of_owner? hkey').symm.trans hn'.hash)
  have hle := hn'.not_longer (hsplit' ▸ hkey) htext hkeyEq hn.low
  have hge := hn.not_longer (hsplit ▸ hkey') htext.symm hkeyEq' hn'.low
  apply hhash
  rw [hn.hash, hn'.hash, htext, show n = n' by omega]

end Template

namespace Template

/-- The same components, up to what depends on the bounds of hashes. -/
structure Alike (t t' : Template) : Prop where
  target : t.options.target = t'.options.target
  components : t.components.map (fun c => (c.name, c.style)) =
    t'.components.map fun c => (c.name, c.style)

variable {t t' : Template}

/-- Alike templates stay alike under a component that is added. -/
theorem Alike.addComponent (h : Alike t t') (lang : Language) (d : Document) (root : Nat)
    (name : String) (isDefault : Bool) :
    Alike (t.addComponent lang d root name isDefault).1
      (t'.addComponent lang d root name isDefault).1 := by
  obtain ⟨c, hcomponents, hoptions, hname, hstyle, -⟩ :=
    t.addComponent_cases lang d root name isDefault
  obtain ⟨c', hcomponents', hoptions', hname', hstyle', -⟩ :=
    t'.addComponent_cases lang d root name isDefault
  refine ⟨by rw [hoptions, hoptions', h.target], ?_⟩
  rw [hcomponents, hcomponents', List.map_append, List.map_append, h.components]
  simp [hname, hname', hstyle, hstyle', h.target]

/-- Alike templates find components under the same names. -/
theorem Alike.isSome_component? (h : Alike t t') (name : String) :
    (t.component? name).isSome = (t'.component? name).isSome := by
  have hany : ∀ t : Template, (t.component? name).isSome =
      (t.components.map fun c => (c.name, c.style)).any fun pair => pair.1 == name := by
    intro t
    rw [component?, List.any_map, Bool.eq_iff_iff, List.find?_isSome, List.any_eq_true]
    rfl
  rw [hany, hany, h.components]

/-- Alike templates stay alike under a fragment that is added. -/
theorem Alike.addFragment (h : Alike t t') (lang : Language) (d : Document)
    (found found' : List Diagnostic) (id : Nat) :
    Alike (Template.addFragment lang d (t, found) id).1
      (Template.addFragment lang d (t', found') id).1 := by
  unfold Template.addFragment
  dsimp only
  split
  · next name _ _ =>
      rw [h.isSome_component? name]
      split
      · exact h
      · dsimp only
        exact h.addComponent lang d id _ false
  · exact h

/-- **The bounds of hashes do not change which components there are, nor their styles.** -/
theorem Alike.addDocument (h : Alike t t') (hname : t.options.name = t'.options.name)
    (lang : Language) (d : Document) :
    Alike (t.addDocument lang d).1 (t'.addDocument lang d).1 := by
  have hfold : ∀ (ids : List Nat) (s s' : Template × List Diagnostic), Alike s.1 s'.1 →
      Alike (ids.foldl (Template.addFragment lang d) s).1
        (ids.foldl (Template.addFragment lang d) s').1 := by
    intro ids
    induction ids with
    | nil => exact fun s s' h => h
    | cons id ids ih => exact fun s s' h => ih _ _ (h.addFragment lang d _ _ id)
  unfold Template.addDocument
  refine hfold d.walk _ _ ?_
  rw [hname]
  exact h.addComponent lang d 0 _ true

end Template

/-- Filled templates are alike for one target and one name. -/
theorem filledTemplate_alike (lang : Language) (o o' : Options) (source : String)
    (htarget : o.target = o'.target) (hname : o.name = o'.name) :
    Template.Alike (filledTemplate lang o source)
      (({ options := o' } : Template).addDocument lang (parseTemplate lang o source).document).1 := by
  have hstart : Template.Alike { options := o } { options := o' } := ⟨htarget, rfl⟩
  exact hstart.addDocument hname lang _

/-- Filled templates are tracked. -/
theorem tracked_filledTemplate (lang : Language) (o : Options) (source : String) :
    (filledTemplate lang o source).Tracked (Style.contentHash lang.hash) o :=
  (Template.tracked_empty _ o).addDocument _

/-- A template that can be read is compiled. -/
theorem exists_compile {lang : Language} {o : Options} {source : String}
    (hvalid : o.validate = .ok ()) (hread : (parseTemplate lang o source).error = none) :
    ∃ r, compile lang o source = .ok r := by
  unfold compile
  simp only [hvalid, hread]
  exact ⟨_, rfl⟩

/-- What is compiled with an external style sheet is the styles of the template. -/
theorem compile_styles {lang : Language} {o : Options} {source : String} {r : Compiled}
    (h : compile lang o source = .ok r) (hplacement : o.css.placement = .external) :
    r.css = Template.renderStyles [] (filledTemplate lang o source).components := by
  unfold compile at h
  split at h
  · cases h
  · dsimp only at h
    split at h
    · cases h
    · cases h
      have hfresh := fresh_filledTemplate lang o source
      have houtput := hfresh.output
      have hoptions := hfresh.options
      unfold filledTemplate at houtput hoptions ⊢
      simp only [Template.generate, houtput, Template.render, hoptions, hplacement]

/-- Where compiling succeeds, the bounds of the digest are in order. -/
theorem validate_of_compile {lang : Language} {o : Options} {source : String} {r : Compiled}
    (h : compile lang o source = .ok r) :
    1 ≤ o.css.hash.min ∧ o.css.hash.min ≤ o.css.hash.max := by
  cases hvalid : o.validate with
  | error f => simp [compile, hvalid] at h
  | ok u =>
      unfold Options.validate at hvalid
      split at hvalid
      · cases hvalid
      · split at hvalid
        · cases hvalid
        · omega

/-- **A style is lost exactly if it is crowded out.**  The style sheet that is compiled is the
confined styles of some components of the template, in order, no two with the same style or the same
hash.  A component with a style has one of them with its style and its hash if and only if, at some
length within the bounds, the hash of its style belonged to no other style when it was added. -/
theorem compile_css {lang : Language} {o : Options} {source : String} {r : Compiled}
    (h : compile lang o source = .ok r) (hplacement : o.css.placement = .external) :
    ∃ printed : List Component,
      printed.Sublist (filledTemplate lang o source).components ∧
      r.css = String.join (printed.map Component.scopedStyle) ∧
      (printed.Pairwise fun a b => a.styleText ≠ b.styleText ∧ a.styleHash ≠ b.styleHash) ∧
      ∀ before c after, (filledTemplate lang o source).components = before ++ c :: after →
        c.styleText ≠ "" →
        ((∃ e ∈ printed, e.styleText = c.styleText ∧ e.styleHash = c.styleHash) ↔
          ∃ n, o.css.hash.min ≤ n ∧ n ≤ o.css.hash.max ∧
            ¬ Foreign before c.styleText (shortHash (Style.contentHash lang.hash c.styleText) n)) := by
  have htracked := tracked_filledTemplate lang o source
  have hcss := compile_styles h hplacement
  obtain ⟨hpositive, hbounds⟩ := validate_of_compile h
  generalize filledTemplate lang o source = t at htracked hcss ⊢
  have hmin : t.minLength = o.css.hash.min := by
    rw [Template.minLength, htracked.options, Nat.max_eq_left hpositive]
  have hmax : t.maxLength = o.css.hash.max := by
    rw [Template.maxLength, hmin, htracked.options, Nat.max_eq_left hbounds]
  refine ⟨Template.printed [] t.components, Template.printed_sublist _ _, ?_, ?_, ?_⟩
  · rw [hcss, Template.renderStyles_eq]
  · exact htracked.printed_styles_ne.and (Template.printed_hashes_ne _ _)
  · intro before c after hsplit hstyle
    rw [htracked.exists_printed_iff hsplit hstyle, hmin, hmax]

/-- Two components whose styles have hashes with the same first character. -/
def twoSheets : String :=
  "<a><style>i\x7ba:b\x7d</style></a><b @name=\"B\"><style>b\x7ba:b\x7d</style></b>"

/-- With hashes of six characters, both styles are there. -/
theorem compile_css_twoSheets :
    ∃ (r : Compiled) (printed : List Component), compile Script.javaScript {} twoSheets = .ok r ∧
      r.css = String.join (printed.map Component.scopedStyle) ∧
      ∀ text ∈ ["i\x7ba:b\x7d", "b\x7ba:b\x7d"], ∃ e ∈ printed, e.styleText = text := by
  obtain ⟨hread, hstyles⟩ : (parseTemplate Script.javaScript {} twoSheets).error.isNone = true ∧
      (filledTemplate Script.javaScript {} twoSheets).components.map
        (fun c => (c.styleText, c.styleHash)) =
          [("i\x7ba:b\x7d", some "1antp0"), ("b\x7ba:b\x7d", some "1pw9jk")] := by
    decide +kernel
  have hdigest : shortHash (Digest.ofText "b\x7ba:b\x7d") 6 = "1pw9jk" := by decide +kernel
  obtain ⟨r, hcompiled⟩ := exists_compile (o := {}) rfl (Option.isNone_iff_eq_none.mp hread)
  obtain ⟨printed, -, hcss, -, hiff⟩ := compile_css hcompiled rfl
  obtain ⟨a, rest, hcomponents, ha, hrest⟩ := List.map_eq_cons_iff.mp hstyles
  obtain ⟨b, rest, rfl, hb, hnil⟩ := List.map_eq_cons_iff.mp hrest
  obtain rfl := List.map_eq_nil_iff.mp hnil
  obtain ⟨hatext, hahash⟩ := Prod.mk.inj ha
  obtain ⟨hbtext, -⟩ := Prod.mk.inj hb
  have hprinted₁ := (hiff [] a [b] hcomponents (by rw [hatext]; decide)).mpr
    ⟨6, by decide, by decide, by rintro ⟨_, hnone, -⟩; cases hnone⟩
  have hprinted₂ := (hiff [a] b [] hcomponents (by rw [hbtext]; decide)).mpr
    ⟨6, by decide, by decide, by
      rintro ⟨owner, howner, -⟩
      simp [owner?, hbtext, Script.contentHash_javaScript, hdigest, hahash] at howner⟩
  refine ⟨r, printed, hcompiled, hcss, ?_⟩
  simp only [List.forall_mem_cons, List.not_mem_nil, false_implies, implies_true, and_true]
  obtain ⟨e₁, he₁, htext₁, -⟩ := hprinted₁
  obtain ⟨e₂, he₂, htext₂, -⟩ := hprinted₂
  exact ⟨⟨e₁, he₁, htext₁.trans hatext⟩, e₂, he₂, htext₂.trans hbtext⟩

/-- Hashes of one character. -/
def oneCharacter : Options := { css := { hash := { min := 1, max := 1 } } }

/-- With hashes of one character, the second style is lost. -/
theorem compile_loses_style :
    ∃ (r : Compiled) (c : Component), compile Script.javaScript oneCharacter twoSheets = .ok r ∧
      oneCharacter.css.placement = .external ∧
      c ∈ (filledTemplate Script.javaScript oneCharacter twoSheets).components ∧
      c.styleText = "b\x7ba:b\x7d" ∧ ¬ c.scopedStyle.toList <:+: r.css.toList := by
  obtain ⟨hread, hothers⟩ :
      (parseTemplate Script.javaScript oneCharacter twoSheets).error.isNone = true ∧
      ((({ options := {} } : Template).addDocument Script.javaScript
        (parseTemplate Script.javaScript oneCharacter twoSheets).document).1.components.map
          fun c => (c.name, c.style)).map (fun s => (s.2.print, (s.2.scoped "1").print)) =
        [("i\x7ba:b\x7d", "[this=\"1\"] i,i[this=\"1\"]\x7ba:b\x7d"),
          ("b\x7ba:b\x7d", "[this=\"1\"] b,b[this=\"1\"]\x7ba:b\x7d")] := by
    decide +kernel
  obtain ⟨r, hcompiled⟩ := exists_compile (o := oneCharacter) rfl (Option.isNone_iff_eq_none.mp hread)
  have hcss := compile_styles hcompiled rfl
  have htracked := tracked_filledTemplate Script.javaScript oneCharacter twoSheets
  -- the styles are those that there are with other bounds
  have halike := filledTemplate_alike Script.javaScript oneCharacter {} twoSheets rfl rfl
  rw [← halike.components] at hothers
  have hfirst : shortHash (Digest.ofText "i\x7ba:b\x7d") 1 = "1" := by decide +kernel
  have hsecond : shortHash (Digest.ofText "b\x7ba:b\x7d") 1 = "1" := by decide +kernel
  generalize filledTemplate Script.javaScript oneCharacter twoSheets = t at hcss htracked hothers ⊢
  rw [List.map_map] at hothers
  obtain ⟨a, rest, hcomponents, ha, hrest⟩ := List.map_eq_cons_iff.mp hothers
  obtain ⟨b, rest, rfl, hb, hnil⟩ := List.map_eq_cons_iff.mp hrest
  obtain rfl := List.map_eq_nil_iff.mp hnil
  obtain ⟨hatext, hascoped⟩ := Prod.mk.inj ha
  obtain ⟨hbtext, hbscoped⟩ := Prod.mk.inj hb
  change a.styleText = _ at hatext
  change b.styleText = _ at hbtext
  have hshort : ∀ before c after, t.components = before ++ c :: after → c.styleText ≠ "" →
      shortHash (Digest.ofText c.styleText) 1 = "1" → c.styleHash = some "1" := by
    intro before c after hsplit hne hone
    rw [← Script.contentHash_javaScript] at hone
    obtain ⟨n, hn⟩ := htracked.hashed before c after hsplit hne
    have hlow := hn.low
    have hhigh := hn.high
    simp only [Template.minLength, Template.maxLength, htracked.options] at hlow hhigh
    obtain rfl : n = 1 := Nat.le_antisymm hhigh hlow
    rw [hn.hash, hone]
  have hahash : a.styleHash = some "1" :=
    hshort [] a [b] hcomponents (by rw [hatext]; decide) (by rw [hatext, hfirst])
  have hbhash : b.styleHash = some "1" :=
    hshort [a] b [] hcomponents (by rw [hbtext]; decide) (by rw [hbtext, hsecond])
  have hsheet : r.css = "[this=\"1\"] i,i[this=\"1\"]\x7ba:b\x7d" := by
    rw [hcss, hcomponents]
    simp only [Template.renderStyles, hahash, hbhash, Component.scopedStyle]
    simpa using hascoped
  refine ⟨r, b, hcompiled, rfl, by simp [hcomponents], hbtext, ?_⟩
  rw [hsheet, Component.scopedStyle, hbhash]
  change ¬ (b.style.scoped "1").print.toList <:+: _
  rw [hbscoped]
  decide +kernel

end Stencil
