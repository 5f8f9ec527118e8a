import Stencil.Proofs.Minified

/-!
# Strings in minified declarations

Braces are paired with backslashes that take the next character of a string with them, and to the
minifier a backslash is a character like any other.  So a string that has its own mark inside ends
too early for the minifier, which takes what follows for blanks and marks outside.  Whatever it
takes a string for, it prints a string (`Lexed.minifyFrom`), and the string is the same if and only
if the blanks that it takes for blanks outside are such as it keeps (`minifyDeclarations_keeps`).
-/

namespace Stencil.Style

open Stencil.Text

variable {marks out cs body : List Char} {l l' : Layout} {c m : Char} {ls : List Lexeme}

/-! ### What is printed of a string -/

/-- The body of a string stays one with plain characters in front. -/
theorem Inner.prepend (h : Inner m body) (hout : ∀ x ∈ out, x ≠ m ∧ x ≠ '\\') :
    Inner m (out ++ body) := by
  induction out with
  | nil => exact h
  | cons x out ih =>
      obtain ⟨⟨hmark, hslash⟩, hrest⟩ := List.forall_mem_cons.mp hout
      exact .plain hmark hslash (ih hrest)

/-- A space is no string mark. -/
theorem isStringMark_ne_space (h : isStringMark m = true) : ' ' ≠ m := by
  rintro rfl
  exact absurd h (by decide)

/-- A space is kept beside a backslash, where the marks are plain. -/
theorem PlainMarks.keepsSpace_slash (h : PlainMarks marks) : KeepsSpace marks '\\' :=
  ⟨by decide, fun hmem => (h _ hmem).2.2 rfl⟩

/-- A character that keeps spaces is printed outside strings, behind the pending space if there is
one. -/
theorem minifyFrom_of_keepsSpace (h : KeepsSpace marks c) (spaced absorbs : Bool)
    (rest : List Char) : minifyFrom marks ⟨none, spaced, absorbs⟩ (c :: rest) =
      (if spaced && !absorbs then [' '] else []) ++
        c :: minifyFrom marks ⟨if isStringMark c then some c else none, false, false⟩ rest := by
  obtain ⟨out, l', htakes, heq⟩ := minifyFrom_takes marks ⟨none, spaced, absorbs⟩ c
  rw [heq]
  cases htakes with
  | blank _ _ hblank => simp [h.1] at hblank
  | mark _ _ _ hmark => exact absurd hmark h.2
  | plain => rw [List.append_assoc, List.singleton_append]

/-- A character that keeps spaces is printed from every layout. -/
theorem Layout.Takes.exists_gap (h : l.Takes marks c out l') (hkeeps : KeepsSpace marks c) :
    ∃ gap, out = gap ++ [c] ∧ ∀ x ∈ gap, x = ' ' := by
  cases h with
  | quoted mark spaced absorbs => exact ⟨[], rfl, by simp⟩
  | blank spaced absorbs hblank => simp [hkeeps.1] at hblank
  | mark spaced absorbs hblank hmark => exact absurd hmark hkeeps.2
  | plain spaced absorbs hkeeps => exact ⟨_, rfl, fun x hx => eq_space_of_mem hx⟩

/-- A character beside which spaces are kept is taken as it is where none is pending. -/
theorem Layout.Takes.eq_singleton (h : l.Takes marks c out l') (hkeeps : KeepsSpace marks c)
    (hspaced : l.spaced = false) : out = [c] := by
  cases h with
  | quoted mark spaced absorbs => rfl
  | blank spaced absorbs hblank => simp [hkeeps.1] at hblank
  | mark spaced absorbs hblank hmark => rfl
  | plain spaced absorbs _ =>
      obtain rfl : spaced = false := hspaced
      rfl

/-- A layout behind a character that was printed: the next one is not printed behind a space. -/
def Layout.Tight (l : Layout) : Prop := l.quote ≠ none ∨ l = ⟨none, false, false⟩

/-- A backslash that is taken leaves a tight layout. -/
theorem Layout.Takes.tight (h : l.Takes marks '\\' out l') (hplain : PlainMarks marks)
    (hl : l.Sound) : l'.Tight := by
  have hkeeps := hplain.keepsSpace_slash
  cases h with
  | quoted mark spaced absorbs =>
      have hne : '\\' ≠ mark := Ne.symm (isStringMark_ne_slash (hl mark rfl).1)
      exact .inl (by simp [hne])
  | blank spaced absorbs hblank => simp [hkeeps.1] at hblank
  | mark spaced absorbs hblank hmark => exact absurd hmark hkeeps.2
  | plain spaced absorbs hkeeps => exact .inr (by simp [isStringMark])

/-- What is printed of the rest of a string, the second mark included, is the rest of a string: from
every layout, and behind a blank that is not printed yet, where one more character comes first. -/
structure Ends (marks : List Char) (m : Char) (body : List Char) : Prop where
  now : ∀ l : Layout, l.Sound →
    ∃ body', minifyFrom marks l (body ++ [m]) = body' ++ [m] ∧ Inner m body'
  later : ∃ x body', minifyFrom marks ⟨none, true, false⟩ (body ++ [m]) = x :: (body' ++ [m]) ∧
    Inner m body'

/-- The character behind a backslash is printed, or in its place the first character behind it. -/
theorem Ends.escaped (h : Ends marks m body) (hl : l.Sound) (htight : l.Tight) (c : Char) :
    ∃ x body', minifyFrom marks l (c :: (body ++ [m])) = x :: (body' ++ [m]) ∧ Inner m body' := by
  obtain ⟨out, l', htakes, heq⟩ := minifyFrom_takes marks l c
  obtain ⟨body', hbody, hinner⟩ := h.now l' (htakes.sound hl)
  rw [heq]
  cases htakes with
  | quoted mark spaced absorbs => exact ⟨c, body', by rw [hbody]; rfl, hinner⟩
  | blank spaced absorbs hblank =>
      rcases htight with hsome | hnone
      · exact absurd rfl hsome
      · cases hnone
        exact h.later
  | mark spaced absorbs hblank hmark => exact ⟨c, body', by rw [hbody]; rfl, hinner⟩
  | plain spaced absorbs hkeeps =>
      rcases htight with hsome | hnone
      · exact absurd rfl hsome
      · cases hnone
        exact ⟨c, body', by rw [hbody]; rfl, hinner⟩

/-- The second mark of a string is printed.  A space in front of it is one more character inside. -/
theorem ends_nil (hplain : PlainMarks marks) (hmark : isStringMark m = true) : Ends marks m [] := by
  have hkeeps := hplain.keepsSpace hmark
  constructor
  · intro l hl
    obtain ⟨out, l', htakes, heq⟩ := minifyFrom_takes marks l m
    obtain ⟨gap, rfl, hgap⟩ := htakes.exists_gap hkeeps
    refine ⟨gap, by rw [List.nil_append, heq, minifyFrom, List.append_nil], ?_⟩
    rw [← List.append_nil gap]
    exact Inner.nil.prepend fun x hx => by
      rw [hgap x hx]
      exact ⟨isStringMark_ne_space hmark, by decide⟩
  · exact ⟨' ', [], minifyFrom_of_keepsSpace hkeeps true false [], .nil⟩

namespace Ends

/-- A plain character in front of a body that ends its string leaves it so. -/
theorem plain (h : Ends marks m body) (hmark : isStringMark m = true) (hne : c ≠ m)
    (hslash : c ≠ '\\') : Ends marks m (c :: body) := by
  constructor
  · intro l hl
    obtain ⟨out, l', htakes, heq⟩ := minifyFrom_takes marks l c
    obtain ⟨body', hbody, hinner⟩ := h.now l' (htakes.sound hl)
    refine ⟨out ++ body', by rw [List.cons_append, heq, hbody, List.append_assoc], ?_⟩
    refine hinner.prepend fun x hx => ?_
    rcases htakes.eq_of_mem hx with rfl | rfl
    · exact ⟨isStringMark_ne_space hmark, by decide⟩
    · exact ⟨hne, hslash⟩
  · obtain ⟨out, l', htakes, heq⟩ := minifyFrom_takes marks ⟨none, true, false⟩ c
    obtain ⟨body', hbody, hinner⟩ := h.now l' (htakes.sound (Layout.sound_outside true false))
    rw [List.cons_append, heq]
    cases htakes with
    | blank spaced absorbs hblank => exact h.later
    | mark spaced absorbs hblank hmem => exact ⟨c, body', by rw [hbody]; rfl, hinner⟩
    | plain spaced absorbs _ =>
        exact ⟨' ', c :: body', by rw [hbody]; rfl, .plain hne hslash hinner⟩

/-- An escaped character in front of a body that ends its string leaves it so. -/
theorem escape (h : Ends marks m body) (hplain : PlainMarks marks) (hmark : isStringMark m = true)
    (c : Char) : Ends marks m ('\\' :: c :: body) := by
  have hslash := hplain.keepsSpace_slash
  constructor
  · intro l hl
    obtain ⟨out, l', htakes, heq⟩ := minifyFrom_takes marks l '\\'
    obtain ⟨x, body', hbody, hinner⟩ := h.escaped (htakes.sound hl) (htakes.tight hplain hl) c
    obtain ⟨gap, rfl, hgap⟩ := htakes.exists_gap hslash
    refine ⟨gap ++ '\\' :: x :: body', ?_, (Inner.escape x hinner).prepend fun y hy => ?_⟩
    · rw [List.cons_append, List.cons_append, heq, hbody]
      simp
    · rw [hgap y hy]
      exact ⟨isStringMark_ne_space hmark, by decide⟩
  · obtain ⟨x, body', hbody, hinner⟩ := h.escaped (Layout.sound_outside false false) (.inr rfl) c
    refine ⟨' ', '\\' :: x :: body', ?_, .escape x hinner⟩
    rw [List.cons_append, List.cons_append, minifyFrom_of_keepsSpace hslash, List.cons_append,
      List.cons_append, ← hbody]
    rfl

end Ends

/-- A body that is one ends its string. -/
theorem Inner.ends (hplain : PlainMarks marks) (hmark : isStringMark m = true) (h : Inner m body) :
    Ends marks m body := by
  induction h with
  | nil => exact ends_nil hplain hmark
  | plain hne hslash _ ih => exact ih.plain hmark hne hslash
  | escape c _ ih => exact ih.escape hplain hmark c

/-- A pending space is printed in front of a character that keeps it, and has no other effect. -/
theorem exists_minifyFrom_tight (hl : l.Sound) (hkeeps : KeepsSpace marks c) (rest : List Char) :
    ∃ gap, minifyFrom marks l (c :: rest) =
      gap ++ minifyFrom marks { l with spaced := false } (c :: rest) ∧ ∀ x ∈ gap, x = ' ' := by
  obtain ⟨quote, spaced, absorbs⟩ := l
  cases quote with
  | some mark =>
      obtain rfl : spaced = false := (hl mark rfl).2.1
      exact ⟨[], rfl, by simp⟩
  | none =>
      refine ⟨if spaced && !absorbs then [' '] else [], ?_, fun x hx => eq_space_of_mem hx⟩
      rw [minifyFrom_of_keepsSpace hkeeps, minifyFrom_of_keepsSpace hkeeps]
      rfl

/-- **A string is printed as a string**, behind a space perhaps.  It is the same string exactly if
it is compact as the minifier reads it. -/
theorem exists_minifyFrom_stringText (hplain : PlainMarks marks) (hl : l.Sound)
    (hmark : isStringMark m = true) (h : Inner m body) : ∃ gap body',
      minifyFrom marks l (stringText m body) = gap ++ stringText m body' ∧ (∀ x ∈ gap, x = ' ') ∧
        Inner m body' ∧
        (stringText m body' = stringText m body ↔
          Compact marks [] l.quoting (stringText m body)) := by
  have hkeeps := hplain.keepsSpace hmark
  have hsound : Layout.Sound { l with spaced := false } :=
    fun mark hquote => ⟨(hl mark hquote).1, rfl, (hl mark hquote).2.2⟩
  obtain ⟨gap, hgap, hspaces⟩ := exists_minifyFrom_tight hl hkeeps (body ++ [m])
  obtain ⟨out, l', htakes, heq⟩ := minifyFrom_takes marks { l with spaced := false } m
  obtain ⟨body', hbody, hinner⟩ := (h.ends hplain hmark).now l' (htakes.sound hsound)
  have hout : out = [m] := htakes.eq_singleton hkeeps rfl
  have hstring : minifyFrom marks { l with spaced := false } (stringText m body) =
      stringText m body' := by
    rw [stringText, heq, hout, hbody]
    rfl
  refine ⟨gap, body', by rw [← hstring]; exact hgap, hspaces, hinner, ?_⟩
  -- what stands in front of the string matters for nothing but its first mark
  have hlead : (Layout.absorbs l = false) ↔
      ∃ x ∈ (if l.absorbs then [] else [m]).getLast?, KeepsSpace marks x := by
    cases l.absorbs <;> simp [hkeeps]
  rw [← hstring, minifyFrom_eq_self_iff hplain hsound rfl fun _ => hlead]
  exact compact_cons_congr hkeeps.1

/-! ### What is printed of a text -/

/-- Going through the lexemes, each string is compact as the minifier reads it. -/
def Tidy (marks : List Char) (q : Quoting) (ls : List Lexeme) : Prop :=
  ∀ front w back, ls = front ++ .string w :: back →
    Compact marks [] ((front.flatMap Lexeme.text).foldl Quoting.toggle q) w

/-- No lexemes are tidy. -/
theorem tidy_nil {q : Quoting} : Tidy marks q [] := by
  intro front w back h
  simp at h

/-- Lexemes are tidy exactly if the first is compact, should it be a string, and the others are
tidy. -/
theorem tidy_cons_iff {q : Quoting} {x : Lexeme} : Tidy marks q (x :: ls) ↔
    (∀ w, x = .string w → Compact marks [] q w) ∧
      Tidy marks (x.text.foldl Quoting.toggle q) ls := by
  constructor
  · intro h
    refine ⟨fun w hw => h [] w ls (by rw [hw]; rfl), fun front w back hls => ?_⟩
    have hback := h (x :: front) w back (by rw [hls]; rfl)
    rwa [List.flatMap_cons, List.foldl_append] at hback
  · rintro ⟨hfirst, hrest⟩ front w back hls
    cases front with
    | nil => exact hfirst w (List.cons.inj hls).1
    | cons y front =>
        obtain ⟨rfl, hback⟩ := List.cons.inj hls
        rw [List.flatMap_cons, List.foldl_append]
        exact hrest front w back hback

/-- Spaces in front of a text are lexemes, and are no ink. -/
theorem Lexed.spaces {gap : List Char} (hgap : ∀ x ∈ gap, x = ' ') (h : Lexed cs ls) : ∃ spaces,
    Lexed (gap ++ cs) (spaces ++ ls) ∧ spaces.filter Lexeme.isInk = [] ∧
      spaces.filterMap Lexeme.string? = [] := by
  induction gap with
  | nil => exact ⟨[], h, rfl, rfl⟩
  | cons x gap ih =>
      obtain ⟨rfl, hrest⟩ := List.forall_mem_cons.mp hgap
      obtain ⟨spaces, hlexed, hink, hstrings⟩ := ih hrest
      exact ⟨.char ' ' :: spaces, .char (by decide) hlexed,
        by simpa [Lexeme.isInk, isBlank] using hink, by simpa [Lexeme.string?] using hstrings⟩

/-- **A text is printed as a text** whose strings are closed.  If all strings are compact as the
minifier reads them, then the same lexemes are printed but for blanks; and if the same strings are
printed, then they are compact. -/
theorem Lexed.minifyFrom (hplain : PlainMarks marks) (hl : l.Sound) (h : Lexed cs ls) : ∃ printed,
    Lexed (minifyFrom marks l cs) printed ∧
      (Tidy marks l.quoting ls → printed.filter Lexeme.isInk = ls.filter Lexeme.isInk) ∧
      (printed.filterMap Lexeme.string? = ls.filterMap Lexeme.string? →
        Tidy marks l.quoting ls) := by
  induction h generalizing l with
  | nil => exact ⟨[], .nil, fun _ => rfl, fun _ => tidy_nil⟩
  | @char c rest ls hmark _ ih =>
      obtain ⟨out, l', htakes, heq⟩ := minifyFrom_takes marks l c
      obtain ⟨printed, hlexed, hink, htidy⟩ := ih (htakes.sound hl)
      have hfirst : Tidy marks l.quoting (.char c :: ls) ↔ Tidy marks l'.quoting ls := by
        rw [tidy_cons_iff, htakes.quoting hplain]
        simp [Lexeme.text]
      rw [heq, hfirst]
      cases htakes with
      | quoted mark spaced absorbs =>
          refine ⟨.char c :: printed, .char hmark hlexed, fun h => ?_, fun h => htidy h⟩
          rw [List.filter_cons, List.filter_cons, hink h]
      | blank spaced absorbs hblank =>
          refine ⟨printed, hlexed, fun h => ?_, fun h => htidy h⟩
          rw [hink h, List.filter_cons_of_neg (by simp [Lexeme.isInk, hblank])]
      | mark spaced absorbs hblank hmem =>
          refine ⟨.char c :: printed, .char hmark hlexed, fun h => ?_, fun h => htidy h⟩
          rw [List.filter_cons, List.filter_cons, hink h]
      | plain spaced absorbs hkeeps =>
          obtain ⟨spaces, hspaces, hnoInk, hnoStrings⟩ :=
            (Lexed.char hmark hlexed).spaces fun x hx => @eq_space_of_mem (spaced && !absorbs) x hx
          rw [List.append_assoc, List.singleton_append]
          refine ⟨_, hspaces, fun h => ?_, fun h => ?_⟩
          · rw [List.filter_append, hnoInk, List.nil_append, List.filter_cons, List.filter_cons,
              hink h]
          · rw [List.filterMap_append, hnoStrings] at h
            exact htidy h
  | @string m body rest ls hmark hinner _ ih =>
      obtain ⟨gap, body', htext, hgap, hinner', hsame⟩ :=
        exists_minifyFrom_stringText hplain hl hmark hinner
      obtain ⟨l', hl', hquoting, hrest⟩ := minifyFrom_append hplain hl (stringText m body)
      obtain ⟨printed, hlexed, hink, htidy⟩ := ih hl'
      obtain ⟨spaces, hspaces, hnoInk, hnoStrings⟩ :=
        (Lexed.string hmark hinner' hlexed).spaces hgap
      have hfirst : Tidy marks l.quoting (.string (stringText m body) :: ls) ↔
          stringText m body' = stringText m body ∧ Tidy marks l'.quoting ls := by
        rw [tidy_cons_iff, hsame, hquoting]
        simp [Lexeme.text]
      rw [hrest, htext, hfirst, List.append_assoc]
      refine ⟨_, hspaces, ?_, fun h => ?_⟩
      · rintro ⟨htextEq, h⟩
        rw [List.filter_append, hnoInk, List.nil_append, htextEq, List.filter_cons,
          List.filter_cons, hink h]
      · rw [List.filterMap_append, hnoStrings, List.nil_append,
          List.filterMap_cons_some (f := Lexeme.string?) rfl,
          List.filterMap_cons_some (f := Lexeme.string?) rfl] at h
        obtain ⟨htextEq, hstrings⟩ := List.cons.inj h
        exact ⟨htextEq, htidy hstrings⟩

/-! ### Without the semicolons -/

/-- A text whose strings are closed has closed strings without its last character too, if that is no
mark. -/
theorem Lexed.of_concat (hc : isStringMark c = false) (h : Lexed (cs ++ [c]) ls) :
    ∃ ls', Lexed cs ls' := by
  generalize htext : cs ++ [c] = text at h
  induction h generalizing cs with
  | nil => simp at htext
  | char hmark _ ih =>
      cases cs with
      | nil => exact ⟨[], .nil⟩
      | cons d cs =>
          obtain ⟨rfl, hrest⟩ := List.cons.inj htext
          obtain ⟨ls', hls'⟩ := ih hrest
          exact ⟨_, .char hmark hls'⟩
  | @string m body rest ls hmark hinner _ ih =>
      rcases List.eq_nil_or_concat rest with rfl | ⟨front, d, rfl⟩
      · rw [List.append_nil, stringText, ← List.cons_append] at htext
        obtain ⟨-, hlast⟩ := List.append_inj' htext rfl
        obtain rfl : c = m := by simpa using hlast
        rw [hmark] at hc
        exact absurd hc (by decide)
      · rw [List.concat_eq_append, ← List.append_assoc] at htext
        obtain ⟨rfl, hlast⟩ := List.append_inj' htext rfl
        obtain ⟨ls', hls'⟩ := ih (by rw [hlast, List.concat_eq_append])
        exact ⟨_, .string hmark hinner hls'⟩

/-- The lexemes between the semicolons at both ends of a text. -/
theorem Lexed.of_semicolons {front back : Nat}
    (h : Lexed (List.replicate front ';' ++ cs ++ List.replicate back ';') ls) : ∃ kept,
      Lexed cs kept ∧
        ls = List.replicate front (.char ';') ++ kept ++ List.replicate back (.char ';') := by
  have hsemicolons : ∀ n, Lexed (List.replicate n ';') (List.replicate n (.char ';')) :=
    Lexed.replicate (by decide)
  have hfront : ∃ ls', Lexed (List.replicate front ';' ++ cs) ls' := by
    have hback : ∀ n ls, Lexed (List.replicate front ';' ++ cs ++ List.replicate n ';') ls →
        ∃ ls', Lexed (List.replicate front ';' ++ cs) ls' := by
      intro n
      induction n with
      | zero => exact fun ls h => ⟨ls, by simpa using h⟩
      | succ n ih =>
          intro ls h
          rw [List.replicate_succ', ← List.append_assoc] at h
          obtain ⟨ls', hls'⟩ := h.of_concat (by decide)
          exact ih ls' hls'
    exact hback back ls h
  obtain ⟨_, hlexed⟩ := hfront
  have hfold := hlexed.foldl_step
  rw [List.foldl_append, (hsemicolons front).foldl_step] at hfold
  obtain ⟨kept, hkept⟩ := exists_lexed hfold
  refine ⟨kept, hkept, ?_⟩
  rw [← h.lexemes_eq, (((hsemicolons front).append hkept).append (hsemicolons back)).lexemes_eq]

/-! ### Strings that are kept -/

/-- The strings are among the lexemes that have ink. -/
theorem filterMap_filter_isInk (ls : List Lexeme) :
    (ls.filter Lexeme.isInk).filterMap Lexeme.string? = ls.filterMap Lexeme.string? := by
  rw [List.filterMap_filter]
  congr 1
  funext x
  cases x with
  | char c => cases hink : (Lexeme.char c).isInk <;> rfl
  | string w => rfl

/-- With strings read as braces are paired, they are all kept as they are and in order, and outside
them nothing is dropped but blanks, and semicolons at both ends. -/
structure KeepsStrings (cs out : List Char) : Prop where
  strings : (lexemes Quoting.step out).filterMap Lexeme.string? =
    (lexemes Quoting.step cs).filterMap Lexeme.string?
  layout : ∃ front back, (lexemes Quoting.step cs).filter Lexeme.isInk =
    List.replicate front (.char ';') ++ (lexemes Quoting.step out).filter Lexeme.isInk ++
      List.replicate back (.char ';')

/-- A string without its own mark inside is compact: no blank in it is taken for one outside. -/
theorem compact_stringText (hplain : PlainMarks marks) (hmark : isStringMark m = true)
    (h : m ∉ body) : Compact marks [] .none (stringText m body) := by
  have hm := (hplain.keepsSpace hmark).1
  have hinside : ∀ lead, Compact marks lead (.inside m) (body ++ [m]) := by
    induction body with
    | nil =>
        intro lead
        exact compact_cons_iff.mpr ⟨fun hblank => by simp [hm] at hblank, compact_nil⟩
    | cons c rest ih =>
        obtain ⟨hc, hrest⟩ := not_or.mp (mt List.mem_cons.mpr h)
        intro lead
        rw [List.cons_append, compact_cons_iff, Quoting.toggle_of_ne (Ne.symm hc)]
        exact ⟨fun _ hquote => by simp at hquote, ih hrest [c]⟩
  rw [stringText, compact_cons_iff, Quoting.toggle_of_mark hmark]
  exact ⟨fun hblank => by simp [hm] at hblank, hinside [m]⟩

/-- A string whose mark is not in it leaves no string open. -/
theorem foldl_toggle_stringText (hmark : isStringMark m = true) (h : m ∉ body) :
    (stringText m body).foldl Quoting.toggle .none = .none := by
  have hinside : body.foldl Quoting.toggle (.inside m) = .inside m := by
    induction body with
    | nil => rfl
    | cons c rest ih =>
        obtain ⟨hc, hrest⟩ := not_or.mp (mt List.mem_cons.mpr h)
        rw [List.foldl_cons, Quoting.toggle_of_ne (Ne.symm hc), ih hrest]
  rw [stringText, List.foldl_cons, Quoting.toggle_of_mark hmark, List.foldl_append, hinside]
  exact Quoting.toggle_self m

/-- Where both readings agree, all strings are compact. -/
theorem Lexed.tidy (hplain : PlainMarks marks) (h : Lexed cs ls)
    (hmarks : ∀ m body, .string (stringText m body) ∈ ls → m ∉ body) : Tidy marks .none ls := by
  induction h with
  | nil => exact tidy_nil
  | @char c rest ls hc _ ih =>
      have hrest := ih fun m body hmem => hmarks m body (List.mem_cons_of_mem _ hmem)
      rw [tidy_cons_iff]
      refine ⟨by simp, ?_⟩
      rwa [Lexeme.text, List.foldl_cons, Quoting.toggle_of_not_mark hc]
  | @string m body rest ls hmark _ _ ih =>
      have hrest := ih fun m body hmem => hmarks m body (List.mem_cons_of_mem _ hmem)
      have hbody : m ∉ body := hmarks m body List.mem_cons_self
      rw [tidy_cons_iff]
      refine ⟨fun w hw => ?_, ?_⟩
      · rw [← Lexeme.string.inj hw]
        exact compact_stringText hplain hmark hbody
      · rwa [Lexeme.text, foldl_toggle_stringText hmark hbody]

/-- The strings of declarations are kept exactly if all are compact as the minifier reads them. -/
theorem Lexed.keepsStrings_iff {text : String} (h : Lexed text.toList ls) :
    KeepsStrings text.toList (minifyDeclarations text).toList ↔
      Tidy declarationMarks .none ls := by
  obtain ⟨printed, hprinted, hink, htidy⟩ :=
    h.minifyFrom plainMarks_declaration (Layout.sound_outside false true)
  obtain ⟨front, back, htext, -⟩ := exists_semicolons text
  rw [← minifyChars, htext] at hprinted
  obtain ⟨kept, hkept, rfl⟩ := hprinted.of_semicolons
  have hnoStrings : ∀ n, (List.replicate n (Lexeme.char ';')).filterMap Lexeme.string? = [] := by
    intro n
    rw [List.filterMap_replicate_of_none rfl]
  have hallInk : ∀ n, (List.replicate n (Lexeme.char ';')).filter Lexeme.isInk =
      List.replicate n (.char ';') := by
    intro n
    rw [List.filter_replicate_of_pos rfl]
  have hstrings : (List.replicate front (Lexeme.char ';') ++ kept ++
      List.replicate back (Lexeme.char ';')).filterMap Lexeme.string? =
        kept.filterMap Lexeme.string? := by
    rw [List.filterMap_append, List.filterMap_append, hnoStrings, hnoStrings, List.nil_append,
      List.append_nil]
  constructor
  · intro hkeeps
    have hsame := hkeeps.strings
    rw [h.lexemes_eq, hkept.lexemes_eq] at hsame
    exact htidy (hstrings.trans hsame)
  · intro hall
    have hsame := hink hall
    constructor
    · rw [h.lexemes_eq, hkept.lexemes_eq, ← hstrings, ← filterMap_filter_isInk, hsame,
        filterMap_filter_isInk]
    · refine ⟨front, back, ?_⟩
      rw [h.lexemes_eq, hkept.lexemes_eq, ← hsame, List.filter_append, List.filter_append, hallInk,
        hallInk]

/-- **Strings of minified declarations.**  In a text whose strings are closed where braces are
paired, they are kept exactly if those that end too early for the minifier hold no blanks that it
drops.  They are kept where it reads the same strings, and it does exactly if no string has its own
mark inside. -/
theorem minifyDeclarations_keeps {text : String}
    (hclosed : text.toList.foldl Quoting.step .none = .none) :
    (KeepsStrings text.toList (minifyDeclarations text).toList ↔
      Tidy declarationMarks .none (lexemes Quoting.step text.toList)) ∧
    (lexemes Quoting.toggle text.toList = lexemes Quoting.step text.toList →
      KeepsStrings text.toList (minifyDeclarations text).toList) ∧
    (lexemes Quoting.toggle text.toList = lexemes Quoting.step text.toList ↔
      ∀ m body, .string (stringText m body) ∈ lexemes Quoting.step text.toList → m ∉ body) := by
  obtain ⟨ls, hls⟩ := exists_lexed hclosed
  rw [hls.lexemes_eq]
  refine ⟨hls.keepsStrings_iff, fun hagree => ?_, hls.lexemes_toggle_iff⟩
  exact hls.keepsStrings_iff.mpr
    (hls.tidy plainMarks_declaration (hls.lexemes_toggle_iff.mp hagree))

theorem minifyDeclarations_keeps_blanks :
    KeepsStrings "content : \"a  b\" ;".toList (minifyDeclarations "content : \"a  b\" ;").toList :=
  (minifyDeclarations_keeps rfl).2.1 (by decide)

/-- A space behind an escaped mark is dropped in front of a colon, although the string goes on. -/
theorem minifyDeclarations_changes_string :
    "content:\"a\\\" :b\"".toList.foldl Quoting.step .none = .none ∧
    minifyDeclarations "content:\"a\\\" :b\"" = "content:\"a\\\":b\"" ∧
    ¬ KeepsStrings "content:\"a\\\" :b\"".toList
      (minifyDeclarations "content:\"a\\\" :b\"").toList := by
  refine ⟨rfl, by decide, fun h => ?_⟩
  exact absurd h.strings (by decide)

end Stencil.Style
