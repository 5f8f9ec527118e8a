import Mathlib.Data.List.Induction
import Mathlib.Order.Bounds.Defs
import Mathlib.Tactic.ByContra
import Stencil.Template

/-!
# Hashes of styles

Styles are registered with a template one after another, and each is given a part of its digest as
its hash.  `Registers` says once what registering a style can do: it finds the shortest length at
which no other style is in the way, or it finds none and registers nothing.  Entries are only added
(`styles_registerAll_grow`), so what is in the way stays there, and a style that is registered again
is given the same hash (`hashAfter_eq_of_called`).
-/

namespace Stencil

variable {styles more : List (String × String)} {css full hash : String} {length count n : Nat}

/-- The hash is registered for another style. -/
def TakenFrom (styles : List (String × String)) (css hash : String) : Prop :=
  ∃ owner, styles.lookup hash = some owner ∧ owner ≠ css

/-- An entry stays what it is when others are added behind it. -/
theorem lookup_grown (h : styles <+: more) {owner : String}
    (howner : styles.lookup hash = some owner) : more.lookup hash = some owner := by
  obtain ⟨added, rfl⟩ := h
  rw [List.lookup_append, howner, Option.some_or]

/-- A taken name stays taken when more styles are registered. -/
theorem TakenFrom.mono (h : TakenFrom styles css hash) (hmore : styles <+: more) :
    TakenFrom more css hash := by
  obtain ⟨owner, howner, hne⟩ := h
  exact ⟨owner, lookup_grown hmore howner, hne⟩

/-- The name of a stylesheet is not taken from it. -/
theorem not_takenFrom_of_lookup (h : styles.lookup hash = some css) :
    ¬ TakenFrom styles css hash := by
  rintro ⟨owner, howner, hne⟩
  exact hne (Option.some.inj (howner.symm.trans h))

/-- A name not taken from a stylesheet is free or its own. -/
theorem lookup_of_not_takenFrom (h : ¬ TakenFrom styles css hash) :
    styles.lookup hash = none ∨ styles.lookup hash = some css := by
  cases howner : styles.lookup hash with
  | none => exact .inl rfl
  | some owner =>
      right
      by_contra hne
      exact h ⟨owner, howner, fun heq => hne (by rw [heq])⟩

/-- The length that is found is free, and all below it are taken. -/
theorem freeLength?_eq_some (h : freeLength? styles css full length count = some n) :
    length ≤ n ∧ n < length + count ∧ ¬ TakenFrom styles css (shortHash full n) ∧
      ∀ k, length ≤ k → k < n → TakenFrom styles css (shortHash full k) := by
  induction count generalizing length with
  | zero => simp [freeLength?] at h
  | succ count ih =>
      simp only [freeLength?] at h
      split at h
      · next hnone =>
          obtain rfl := Option.some.inj h
          refine ⟨Nat.le_refl _, by omega, ?_, fun k hk hlt => absurd hk (by omega)⟩
          rintro ⟨owner, howner, -⟩
          simp [hnone] at howner
      · next owner howner =>
          split at h
          · next heq =>
              obtain rfl := Option.some.inj h
              rw [beq_iff_eq] at heq
              refine ⟨Nat.le_refl _, by omega, ?_, fun k hk hlt => absurd hk (by omega)⟩
              exact not_takenFrom_of_lookup (heq ▸ howner)
          · next hne =>
              obtain ⟨hlow, hhigh, hfree, htaken⟩ := ih h
              refine ⟨by omega, by omega, hfree, ?_⟩
              intro k hk hlt
              rcases Nat.lt_or_eq_of_le hk with hlater | rfl
              · exact htaken k hlater hlt
              · exact ⟨owner, howner, by simpa using hne⟩

/-- If no length is found, all are taken. -/
theorem freeLength?_eq_none (h : freeLength? styles css full length count = none) :
    ∀ k, length ≤ k → k < length + count → TakenFrom styles css (shortHash full k) := by
  induction count generalizing length with
  | zero =>
      intro k hk hlt
      omega
  | succ count ih =>
      simp only [freeLength?] at h
      split at h
      · simp at h
      · next owner howner =>
          split at h
          · simp at h
          · next hne =>
              intro k hk hlt
              rcases Nat.lt_or_eq_of_le hk with hlater | rfl
              · exact ih h k hlater (by omega)
              · exact ⟨owner, howner, by simpa using hne⟩

/-- The least free length is the one that is found. -/
theorem freeLength?_of_least (hlow : length ≤ n) (hhigh : n < length + count)
    (hfree : ¬ TakenFrom styles css (shortHash full n))
    (htaken : ∀ k, length ≤ k → k < n → TakenFrom styles css (shortHash full k)) :
    freeLength? styles css full length count = some n := by
  cases hfound : freeLength? styles css full length count with
  | none => exact absurd (freeLength?_eq_none hfound n hlow hhigh) hfree
  | some m =>
      obtain ⟨hlow', -, hfree', htaken'⟩ := freeLength?_eq_some hfound
      rcases Nat.lt_trichotomy m n with hlt | rfl | hgt
      · exact absurd (htaken m hlow' hlt) hfree'
      · rfl
      · exact absurd (htaken' n hlow hgt) hfree

/-- Where every length is taken, none is free. -/
theorem freeLength?_of_taken
    (h : ∀ k, length ≤ k → k < length + count → TakenFrom styles css (shortHash full k)) :
    freeLength? styles css full length count = none := by
  cases hfound : freeLength? styles css full length count with
  | none => rfl
  | some m =>
      obtain ⟨hlow, hhigh, hfree, -⟩ := freeLength?_eq_some hfound
      exact absurd (h m hlow hhigh) hfree

namespace Template

variable {digest : String → String} {t t' : Template}

/-- At every length within the bounds, the hash of the style is registered for another one. -/
def Crowded (digest : String → String) (t : Template) (css : String) : Prop :=
  ∀ n, t.minLength ≤ n → n ≤ t.maxLength → TakenFrom t.styles css (shortHash (digest css) n)

/-- What registering a style can do, with the hash that is given and the template after it. -/
inductive Registers (digest : String → String) (t : Template) (css : String) :
    String → Template → Prop
  /-- The shortest free hash is given; it is the style's own already, or becomes so. -/
  | found {n : Nat} {styles : List (String × String)} (hlow : t.minLength ≤ n)
      (hhigh : n ≤ t.maxLength) (hfree : ¬ TakenFrom t.styles css (shortHash (digest css) n))
      (htaken : ∀ k, t.minLength ≤ k → k < n → TakenFrom t.styles css (shortHash (digest css) k))
      (hstyles : t.styles.lookup (shortHash (digest css) n) = some css ∧ styles = t.styles ∨
        t.styles.lookup (shortHash (digest css) n) = none ∧
          styles = t.styles ++ [(shortHash (digest css) n, css)]) :
      Registers digest t css (shortHash (digest css) n) { t with styles }
  /-- No hash is free; the longest is given and nothing is registered. -/
  | crowded (h : Crowded digest t css) :
      Registers digest t css (shortHash (digest css) t.maxLength) t

/-- The shortest name is not longer than the longest. -/
theorem minLength_le_maxLength (t : Template) : t.minLength ≤ t.maxLength := Nat.le_max_right _ _

/-- **One step.**  Registering a style does nothing else. -/
theorem registerStyle_registers (digest : String → String) (t : Template) (css : String) :
    Registers digest t css (t.registerStyle digest css).1.1 (t.registerStyle digest css).2 := by
  have hbounds := t.minLength_le_maxLength
  simp only [registerStyle]
  split
  · next n hn =>
      obtain ⟨hlow, hhigh, hfree, htaken⟩ := freeLength?_eq_some hn
      refine .found hlow (by omega) hfree htaken ?_
      rcases lookup_of_not_takenFrom hfree with hnone | hown
      · exact .inr ⟨hnone, by simp [hnone]⟩
      · exact .inl ⟨hown, by simp [hown]⟩
  · next hnone =>
      refine .crowded fun k hlow hhigh => freeLength?_eq_none hnone k hlow (by omega)

/-- The hash of a style is settled by what is taken from it. -/
theorem hash_of_least (hlow : t.minLength ≤ n) (hhigh : n ≤ t.maxLength)
    (hfree : ¬ TakenFrom t.styles css (shortHash (digest css) n))
    (htaken : ∀ k, t.minLength ≤ k → k < n → TakenFrom t.styles css (shortHash (digest css) k)) :
    (t.registerStyle digest css).1.1 = shortHash (digest css) n := by
  have hfound : freeLength? t.styles css (digest css) t.minLength
      (t.maxLength - t.minLength + 1) = some n :=
    freeLength?_of_least hlow (by omega) hfree htaken
  simp [registerStyle, hfound]

/-- A crowded stylesheet gets the name of the longest length. -/
theorem hash_of_crowded (h : Crowded digest t css) :
    (t.registerStyle digest css).1.1 = shortHash (digest css) t.maxLength := by
  have hbounds := t.minLength_le_maxLength
  have hnone : freeLength? t.styles css (digest css) t.minLength
      (t.maxLength - t.minLength + 1) = none :=
    freeLength?_of_taken fun k hlow hhigh => h k hlow (by omega)
  simp [registerStyle, hnone]

/-- A registration only adds styles. -/
theorem Registers.styles_grow (h : Registers digest t css hash t') : t.styles <+: t'.styles := by
  cases h with
  | found hlow hhigh hfree htaken hstyles =>
      rcases hstyles with ⟨-, rfl⟩ | ⟨-, rfl⟩
      · exact List.prefix_rfl
      · exact List.prefix_append _ _
  | crowded => exact List.prefix_rfl

/-- A registration keeps the options. -/
theorem Registers.options_eq (h : Registers digest t css hash t') : t'.options = t.options := by
  cases h <;> rfl

/-- The style owns the hash that it is given, unless it is crowded out. -/
theorem Registers.owned_or_crowded (h : Registers digest t css hash t') :
    t'.styles.lookup hash = some css ∨
      Crowded digest t css ∧ hash = shortHash (digest css) t.maxLength := by
  cases h with
  | found hlow hhigh hfree htaken hstyles =>
      left
      rcases hstyles with ⟨hown, rfl⟩ | ⟨hnone, rfl⟩
      · exact hown
      · simp [List.lookup_append, hnone]
  | crowded h => exact .inr ⟨h, rfl⟩

/-- No hash has two entries. -/
theorem Registers.nodup (h : Registers digest t css hash t')
    (hnodup : (t.styles.map Prod.fst).Nodup) : (t'.styles.map Prod.fst).Nodup := by
  cases h with
  | found hlow hhigh hfree htaken hstyles =>
      rcases hstyles with ⟨-, rfl⟩ | ⟨hnone, rfl⟩
      · exact hnodup
      · rw [List.lookup_eq_none_iff] at hnone
        rw [List.map_append, List.nodup_append]
        refine ⟨hnodup, by simp, ?_⟩
        rintro key hkey last hlast rfl
        obtain ⟨entry, hentry, rfl⟩ := List.mem_map.mp hkey
        have hne := hnone entry hentry
        simp_all
  | crowded => exact hnodup

/-- A new entry is the hash that was given and the style it was given to. -/
theorem Registers.mem_or_eq (h : Registers digest t css hash t') {entry : String × String}
    (hentry : entry ∈ t'.styles) : entry ∈ t.styles ∨ entry = (hash, css) := by
  cases h with
  | found hlow hhigh hfree htaken hstyles =>
      rcases hstyles with ⟨-, rfl⟩ | ⟨-, rfl⟩
      · exact .inl hentry
      · simpa using hentry
  | crowded => exact .inl hentry

/-- The template after some styles have been registered one after another. -/
def registerAll (digest : String → String) (t : Template) (calls : List String) : Template :=
  calls.foldl (fun t css => (t.registerStyle digest css).2) t

/-- The hash that a style is given after some others have been registered. -/
def hashAfter (digest : String → String) (t : Template) (calls : List String) (css : String) :
    String := ((t.registerAll digest calls).registerStyle digest css).1.1

/-- The last of several registrations comes on top of the others. -/
theorem registerAll_concat (digest : String → String) (t : Template) (calls : List String)
    (css : String) : t.registerAll digest (calls ++ [css]) =
      ((t.registerAll digest calls).registerStyle digest css).2 := by
  simp [registerAll]

/-- Registering one more style, as a step. -/
theorem registerAll_registers (digest : String → String) (t : Template) (calls : List String)
    (css : String) : Registers digest (t.registerAll digest calls) css
      (t.hashAfter digest calls css) (t.registerAll digest (calls ++ [css])) := by
  rw [registerAll_concat]
  exact registerStyle_registers digest _ css

/-- **The whole run.**  Entries are added and never changed. -/
theorem styles_registerAll_grow (digest : String → String) (t : Template) {calls later : List String}
    (h : calls <+: later) :
    (t.registerAll digest calls).styles <+: (t.registerAll digest later).styles := by
  obtain ⟨added, rfl⟩ := h
  induction added using List.reverseRecOn with
  | nil => simp
  | append_singleton added css ih =>
      rw [← List.append_assoc]
      exact ih.trans (registerAll_registers digest t (calls ++ added) css).styles_grow

/-- Registrations keep the options. -/
theorem options_registerAll (digest : String → String) (t : Template) (calls : List String) :
    (t.registerAll digest calls).options = t.options := by
  induction calls using List.reverseRecOn with
  | nil => rfl
  | append_singleton calls css ih =>
      rw [(registerAll_registers digest t calls css).options_eq, ih]

/-- Registrations keep the shortest length. -/
theorem minLength_registerAll (digest : String → String) (t : Template) (calls : List String) :
    (t.registerAll digest calls).minLength = t.minLength := by
  rw [minLength, minLength, options_registerAll]

/-- Registrations keep the longest length. -/
theorem maxLength_registerAll (digest : String → String) (t : Template) (calls : List String) :
    (t.registerAll digest calls).maxLength = t.maxLength := by
  rw [maxLength, maxLength, options_registerAll, minLength_registerAll]

/-- No name is registered twice. -/
theorem nodup_registerAll (digest : String → String) (t : Template)
    (h : (t.styles.map Prod.fst).Nodup) (calls : List String) :
    ((t.registerAll digest calls).styles.map Prod.fst).Nodup := by
  induction calls using List.reverseRecOn with
  | nil => exact h
  | append_singleton calls css ih => exact (registerAll_registers digest t calls css).nodup ih

/-- Every entry was made when its style was registered, and is the hash that was given then. -/
theorem exists_call_of_mem (digest : String → String) (t : Template) (h : t.styles = [])
    {calls : List String} {entry : String × String}
    (hentry : entry ∈ (t.registerAll digest calls).styles) :
    ∃ before, before ++ [entry.2] <+: calls ∧ t.hashAfter digest before entry.2 = entry.1 := by
  induction calls using List.reverseRecOn with
  | nil => simp [registerAll, h] at hentry
  | append_singleton calls css ih =>
      rcases (registerAll_registers digest t calls css).mem_or_eq hentry with hold | rfl
      · obtain ⟨before, hbefore, hhash⟩ := ih hold
        exact ⟨before, hbefore.trans (List.prefix_append _ _), hhash⟩
      · exact ⟨calls, List.prefix_rfl, rfl⟩

/-- What is looked up is registered. -/
theorem mem_of_lookup {owner : String} (h : styles.lookup hash = some owner) :
    (hash, owner) ∈ styles := by
  obtain ⟨front, back, rfl, -⟩ := List.lookup_eq_some_iff.mp h
  simp

/-- Crowds do not go away. -/
theorem Crowded.later {calls later : List String} (h : Crowded digest (t.registerAll digest calls) css)
    (hlater : calls <+: later) : Crowded digest (t.registerAll digest later) css := by
  intro n hlow hhigh
  rw [minLength_registerAll] at hlow
  rw [maxLength_registerAll] at hhigh
  refine (h n ?_ ?_).mono (styles_registerAll_grow digest t hlater)
  · rwa [minLength_registerAll]
  · rwa [maxLength_registerAll]

/-- **A style that is registered again is given the same hash.** -/
theorem hashAfter_eq_of_called (digest : String → String) (t : Template) {calls later : List String}
    (h : calls ++ [css] <+: later) : t.hashAfter digest later css = t.hashAfter digest calls css := by
  have hgrows := styles_registerAll_grow digest t ((List.prefix_append calls [css]).trans h)
  have howned := styles_registerAll_grow digest t h
  have hstep := registerAll_registers digest t calls css
  generalize hhash : t.hashAfter digest calls css = hash at hstep
  generalize t.registerAll digest (calls ++ [css]) = after at hstep howned
  cases hstep with
  | @found n styles hlow hhigh hfree htaken hstyles =>
      -- the length that was found is the style's own now, and those below are taken still
      have hown : styles.lookup (shortHash (digest css) n) = some css := by
        rcases hstyles with ⟨hown, rfl⟩ | ⟨hnone, rfl⟩
        · exact hown
        · simp [List.lookup_append, hnone]
      rw [minLength_registerAll] at hlow htaken
      rw [maxLength_registerAll] at hhigh
      refine hash_of_least ?_ ?_ (not_takenFrom_of_lookup (lookup_grown howned hown)) ?_
      · rwa [minLength_registerAll]
      · rwa [maxLength_registerAll]
      · intro k hk hlt
        rw [minLength_registerAll] at hk
        exact (htaken k hk hlt).mono hgrows
  | crowded hcrowded =>
      have hlater := hcrowded.later ((List.prefix_append calls [css]).trans h)
      rw [hashAfter, hash_of_crowded hlater, maxLength_registerAll, maxLength_registerAll]

/-- The style owns its hash after any later calls, unless it was crowded out when it was registered. -/
theorem lookup_or_crowded (digest : String → String) (t : Template) {before calls : List String}
    (h : before ++ [css] <+: calls) :
    (t.registerAll digest calls).styles.lookup (t.hashAfter digest before css) = some css ∨
      Crowded digest (t.registerAll digest before) css ∧
        t.hashAfter digest before css = shortHash (digest css) t.maxLength := by
  rcases (registerAll_registers digest t before css).owned_or_crowded with hown | hcrowded
  · exact .inl (lookup_grown (styles_registerAll_grow digest t h) hown)
  · rw [maxLength_registerAll] at hcrowded
    exact .inr hcrowded

/-- **Two styles share a hash only if the later one is crowded out.**  Here `first` are the calls
before the first call with the one style, and `second` those before the first call with the other. -/
theorem crowded_of_hash_eq (digest : String → String) (t : Template) (hempty : t.styles = [])
    {first second : List String} {a b : String} (hne : a ≠ b) (hfirst : first ++ [a] <+: second)
    (hnew : b ∉ second) (hhash : t.hashAfter digest first a = t.hashAfter digest second b) :
    Crowded digest (t.registerAll digest second) b := by
  have hstep := registerAll_registers digest t second b
  rw [← hhash] at hstep
  rcases hstep.owned_or_crowded with hown | ⟨hcrowded, -⟩
  · exfalso
    -- the hash was registered before the second style came, hence for another one
    have htaken : ∃ owner, (t.registerAll digest second).styles.lookup
        (t.hashAfter digest first a) = some owner := by
      rcases lookup_or_crowded digest t hfirst with ha | ⟨hcrowded, hlongest⟩
      · exact ⟨a, ha⟩
      · have hlonger := hcrowded.later ((List.prefix_append first [a]).trans hfirst)
        obtain ⟨owner, howner, -⟩ := hlonger t.maxLength
          (by rw [minLength_registerAll]; exact t.minLength_le_maxLength)
          (Nat.le_of_eq (maxLength_registerAll digest t second).symm)
        exact ⟨owner, by rw [hlongest, howner]⟩
    obtain ⟨owner, howner⟩ := htaken
    have hsame := lookup_grown hstep.styles_grow howner
    obtain rfl : owner = b := Option.some.inj (hsame.symm.trans hown)
    obtain ⟨before, hbefore, -⟩ := exists_call_of_mem digest t hempty (mem_of_lookup howner)
    exact hnew (hbefore.subset (by simp))
  · exact hcrowded

/-- The calls before and at a position come before a later one. -/
theorem take_concat_grow {calls : List String} (i : Fin calls.length) {j : Nat} (h : (i : Nat) < j) :
    calls.take i ++ [calls[i]] <+: calls.take j := by
  have hconcat := List.take_concat_get i.isLt
  rw [List.concat_eq_append] at hconcat
  show calls.take i ++ [calls[(i : Nat)]] <+: calls.take j
  rw [hconcat]
  exact List.take_prefix_take_left h

/-- A stylesheet is not among the calls in front of its first one. -/
theorem not_mem_take_idxOf (calls : List String) (css : String) :
    css ∉ calls.take (calls.idxOf css) := by
  intro hmem
  have hlt := List.idxOf_lt_length_of_mem hmem
  have hsame : calls.idxOf css = (calls.take (calls.idxOf css)).idxOf css := by
    conv_lhs => rw [← List.take_append_drop (calls.idxOf css) calls]
    rw [List.idxOf_append, if_pos hmem]
  rw [← hsame, List.length_take] at hlt
  omega

/-- The first call of a stylesheet is not behind any other. -/
theorem idxOf_le {calls : List String} (i : Fin calls.length) : calls.idxOf calls[i] ≤ i := by
  by_contra hlt
  apply not_mem_take_idxOf calls calls[i]
  exact List.mem_take_iff_getElem.mpr ⟨i, by omega, rfl⟩

/-- The first call with the style of a call. -/
theorem exists_first {calls : List String} (i : Fin calls.length) :
    ∃ first : Fin calls.length, (first : Nat) = calls.idxOf calls[i] ∧ calls[first] = calls[i] := by
  have hlt : calls.idxOf calls[i] < calls.length := List.idxOf_lt_length_of_mem (by simp)
  exact ⟨⟨_, hlt⟩, rfl, List.getElem_idxOf hlt⟩

/-- **Hashes of styles are stable, and no two styles share one within the bounds.**  For every digest,
all bounds and all calls on a fresh template: equal styles are given equal hashes; a hash is cut from
the digest at the least length within the bounds at which it is not registered for another style, and
at the greatest if there is none; of two styles with the same hash, the one that came later found
every length registered for another style; and a hash has one entry, which never changes. -/
theorem registerStyle_stable (digest : String → String) (o : Options) (calls : List String) :
    let t : Template := { options := o }
    let lo := max o.css.hash.min 1
    let hi := max o.css.hash.max lo
    let found (i : Fin calls.length) : Template := t.registerAll digest (calls.take i)
    let hash (i : Fin calls.length) : String := ((found i).registerStyle digest calls[i]).1.1
    let cut (i : Fin calls.length) (n : Nat) : String := shortHash (digest calls[i]) n
    let taken (i : Fin calls.length) (n : Nat) : Prop :=
      TakenFrom (found i).styles calls[i] (cut i n)
    (∀ i j, calls[i] = calls[j] → hash i = hash j) ∧
    (∀ i, (∃ n, IsLeast {n | lo ≤ n ∧ n ≤ hi ∧ ¬ taken i n} n ∧ hash i = cut i n) ∨
      (∀ n, lo ≤ n → n ≤ hi → taken i n) ∧ hash i = cut i hi) ∧
    (∀ i j, calls[i] ≠ calls[j] → hash i = hash j → calls.idxOf calls[i] < calls.idxOf calls[j] →
      ∀ n, lo ≤ n → n ≤ hi → taken j n) ∧
    ((t.registerAll digest calls).styles.map Prod.fst).Nodup ∧
    ∀ i j : Nat, i ≤ j → (t.registerAll digest (calls.take i)).styles <+:
      (t.registerAll digest (calls.take j)).styles := by
  intro t lo hi found hash cut taken
  have hmin : ∀ i, (found i).minLength = lo := fun i => minLength_registerAll digest t _
  have hmax : ∀ i, (found i).maxLength = hi := fun i => maxLength_registerAll digest t _
  have hlater : ∀ i j : Fin calls.length, i < j → calls[i] = calls[j] → hash i = hash j := by
    intro i j hij heq
    have hprefix := take_concat_grow i hij
    rw [heq] at hprefix
    have hsame := hashAfter_eq_of_called digest t hprefix
    show t.hashAfter digest _ calls[i] = t.hashAfter digest _ calls[j]
    rw [heq, hsame]
  have hequal : ∀ i j, calls[i] = calls[j] → hash i = hash j := by
    intro i j heq
    rcases Nat.lt_trichotomy i j with hij | hij | hji
    · exact hlater i j hij heq
    · rw [Fin.ext hij]
    · exact (hlater j i hji heq.symm).symm
  refine ⟨hequal, ?_, ?_, nodup_registerAll digest t .nil calls, ?_⟩
  · intro i
    have hstep := registerStyle_registers digest (found i) calls[i]
    change Registers digest (found i) calls[i] (hash i) _ at hstep
    generalize hash i = given, ((found i).registerStyle digest calls[i]).2 = after at hstep
    cases hstep with
    | @found n styles hlow hhigh hfree htaken hstyles =>
        rw [hmin] at hlow htaken
        rw [hmax] at hhigh
        refine .inl ⟨n, ⟨⟨hlow, hhigh, hfree⟩, ?_⟩, rfl⟩
        rintro k ⟨hk, -, hfree'⟩
        by_contra hlt
        exact hfree' (htaken k hk (by omega))
    | crowded hcrowded =>
        refine .inr ⟨fun n hlow hhigh => hcrowded n ?_ ?_, by rw [hmax]⟩
        · rwa [hmin]
        · rwa [hmax]
  · intro i j hne hsame horder n hlow hhigh
    -- the first calls with the two styles return the same hashes as these
    obtain ⟨first, hfirst, hfirstOf⟩ := exists_first i
    obtain ⟨second, hsecond, hsecondOf⟩ := exists_first j
    have hbefore : (first : Nat) < second := by omega
    have hprefix := take_concat_grow first hbefore
    have hhash : t.hashAfter digest (calls.take first) calls[first] =
        t.hashAfter digest (calls.take second) calls[second] :=
      (hequal first i hfirstOf).trans (hsame.trans (hequal j second hsecondOf.symm))
    have hnew : calls[second] ∉ calls.take second := by
      rw [hsecondOf, hsecond]
      exact not_mem_take_idxOf calls calls[j]
    have hcrowded := crowded_of_hash_eq digest t rfl (by rwa [hfirstOf, hsecondOf]) hprefix hnew hhash
    rw [hsecondOf] at hcrowded
    have hle : (second : Nat) ≤ j := by
      rw [hsecond]
      exact idxOf_le j
    refine hcrowded.later (List.take_prefix_take_left hle) n ?_ ?_
    · rwa [hmin j]
    · rwa [hmax j]
  · intro i j hij
    exact styles_registerAll_grow digest t (List.take_prefix_take_left hij)

end Template

end Stencil
