import Mathlib.Data.List.Basic
import Stencil.Proofs.Unquoted

/-!
# Strings of a stylesheet

A text of a stylesheet is made of characters outside strings and of strings (`Lexeme`).  Where a string
ends depends on how it is read.  Braces are paired with backslashes that take the next character with
them (`Quoting.step`), and blanks are dropped as if there were none (`Quoting.toggle`).  A text whose
strings are all closed by the first reading can be taken apart into its lexemes (`Lexed`), and the second
reading finds the same ones exactly if no string has its own mark inside (`Lexed.lexemes_toggle_iff`).
-/

namespace Stencil.Style

/-- One of the two marks that begin a string. -/
def isStringMark (c : Char) : Bool := c == '"' || c == '\''

/-- The quoting after a character if backslashes have no meaning. -/
def Quoting.toggle (q : Quoting) (c : Char) : Quoting :=
  match q with
  | .none => if isStringMark c then .inside c else .none
  | .inside mark => if c == mark then .none else .inside mark
  | .escaped mark => .inside mark

/-- A character outside strings, or a string with its marks.  At the end of a text the second mark may be
missing. -/
inductive Lexeme where
  | char (c : Char)
  | string (text : List Char)
  deriving DecidableEq, Repr

namespace Lexeme

/-- The text of a lexeme. -/
def text : Lexeme → List Char
  | .char c => [c]
  | .string text => text

/-- The string, if the lexeme is one. -/
def string? : Lexeme → Option (List Char)
  | .char _ => none
  | .string text => some text

end Lexeme

/-- The lexemes of a text that is read on from a quoting; `read` is what was read of the string so
far. -/
def lexemesFrom (step : Quoting → Char → Quoting) (q : Quoting) (read : List Char) :
    List Char → List Lexeme
  | [] => if q.isNone then [] else [.string read]
  | c :: rest =>
      let next := step q c
      if q.isNone && next.isNone then .char c :: lexemesFrom step next [] rest
      else if next.isNone then .string (read ++ [c]) :: lexemesFrom step next [] rest
      else lexemesFrom step next (read ++ [c]) rest

/-- The lexemes of a text. -/
def lexemes (step : Quoting → Char → Quoting) (cs : List Char) : List Lexeme :=
  lexemesFrom step .none [] cs

/-! ### One step of reading -/

section Step

variable {c m : Char} {read rest : List Char} {step : Quoting → Char → Quoting} {q next : Quoting}

/-- A string mark is no backslash. -/
theorem isStringMark_ne_slash (h : isStringMark m = true) : m ≠ '\\' := by
  rintro rfl
  exact absurd h (by decide)

/-- A string mark opens a string. -/
theorem Quoting.toggle_of_mark (h : isStringMark m = true) : Quoting.none.toggle m = .inside m := by
  simp [toggle, h]

/-- Only a string mark opens a string. -/
theorem Quoting.toggle_of_not_mark (h : isStringMark c = false) : Quoting.none.toggle c = .none := by
  simp [toggle, h]

/-- The mark of a string closes it. -/
theorem Quoting.toggle_self (m : Char) : (Quoting.inside m).toggle m = .none := by
  simp [toggle]

/-- Only its own mark closes a string. -/
theorem Quoting.toggle_of_ne (h : c ≠ m) : (Quoting.inside m).toggle c = .inside m := by
  simp [toggle, h]

/-- A string mark opens a string, where backslashes count, too. -/
theorem Quoting.step_of_mark (h : isStringMark m = true) : Quoting.none.step m = .inside m :=
  toggle_of_mark h

/-- Only a string mark opens a string, where backslashes count, too. -/
theorem Quoting.step_of_not_mark (h : isStringMark c = false) : Quoting.none.step c = .none :=
  toggle_of_not_mark h

/-- The mark of a string closes it, where backslashes count, too. -/
theorem Quoting.step_self (h : isStringMark m = true) : (Quoting.inside m).step m = .none := by
  simp [step, isStringMark_ne_slash h]

/-- A character that is neither the mark nor a backslash stays in the string. -/
theorem Quoting.step_of_ne_mark (hmark : c ≠ m) (hslash : c ≠ '\\') :
    (Quoting.inside m).step c = .inside m := by
  simp [step, hmark, hslash]

/-- Outside a string a character is a lexeme of its own. -/
theorem lexemesFrom_char (h : step .none c = .none) :
    lexemesFrom step .none read (c :: rest) = .char c :: lexemes step rest := by
  simp [lexemesFrom, lexemes, h, Quoting.isNone]

/-- A character after which a string is still open is read into it. -/
theorem lexemesFrom_next (h : step q c = next) (hnext : next.isNone = false) :
    lexemesFrom step q read (c :: rest) = lexemesFrom step next (read ++ [c]) rest := by
  simp [lexemesFrom, h, hnext]

/-- What a character adds does not depend on the text behind it. -/
theorem lexemesFrom_cons (step : Quoting → Char → Quoting) (q : Quoting) (read : List Char)
    (c : Char) : ∃ done read', (step q c = .none → read' = []) ∧ ∀ rest,
      lexemesFrom step q read (c :: rest) = done ++ lexemesFrom step (step q c) read' rest := by
  cases hnext : (step q c).isNone with
  | false =>
      refine ⟨[], read ++ [c], fun h => ?_, fun rest => by simp [lexemesFrom, hnext]⟩
      rw [h] at hnext
      exact absurd hnext (by decide)
  | true =>
      cases hq : q.isNone with
      | false =>
          exact ⟨[.string (read ++ [c])], [], fun _ => rfl, fun rest => by
            simp [lexemesFrom, hq, hnext]⟩
      | true => exact ⟨[.char c], [], fun _ => rfl, fun rest => by simp [lexemesFrom, hq, hnext]⟩

/-- The character that ends a string ends its lexeme. -/
theorem lexemesFrom_close (hq : q.isNone = false) (h : step q c = .none) :
    lexemesFrom step q read (c :: rest) = .string (read ++ [c]) :: lexemes step rest := by
  have hnone : Quoting.none.isNone = true := rfl
  simp [lexemesFrom, lexemes, h, hq, hnone]

end Step

/-! ### Closed strings -/

/-- What stands between the two marks of a string: the mark itself only where a backslash takes it
along. -/
inductive Inner (m : Char) : List Char → Prop
  | nil : Inner m []
  | plain {c : Char} {rest : List Char} (hmark : c ≠ m) (hslash : c ≠ '\\') :
      Inner m rest → Inner m (c :: rest)
  | escape {rest : List Char} (c : Char) : Inner m rest → Inner m ('\\' :: c :: rest)

/-- A string between two marks. -/
def stringText (m : Char) (body : List Char) : List Char := m :: (body ++ [m])

/-- The text is made of the lexemes, and all its strings are closed. -/
inductive Lexed : List Char → List Lexeme → Prop
  | nil : Lexed [] []
  | char {c : Char} {rest : List Char} {ls : List Lexeme} (h : isStringMark c = false) :
      Lexed rest ls → Lexed (c :: rest) (.char c :: ls)
  | string {m : Char} {body rest : List Char} {ls : List Lexeme} (hmark : isStringMark m = true)
      (hinner : Inner m body) :
      Lexed rest ls → Lexed (stringText m body ++ rest) (.string (stringText m body) :: ls)

variable {m : Char} {body cs : List Char} {ls : List Lexeme}

/-- A string in front of a text begins with its mark. -/
theorem stringText_append (m : Char) (body rest : List Char) :
    stringText m body ++ rest = m :: (body ++ m :: rest) := by
  simp [stringText]

/-- The body of a string does not close it. -/
theorem Inner.foldl_step (h : Inner m body) : body.foldl Quoting.step (.inside m) = .inside m := by
  induction h with
  | nil => rfl
  | plain hmark hslash _ ih => rw [List.foldl_cons, Quoting.step_of_ne_mark hmark hslash, ih]
  | escape c _ ih => exact ih

/-- A string is read up to its second mark. -/
theorem Inner.lexemesFrom_eq (h : Inner m body) (hmark : isStringMark m = true)
    (read rest : List Char) :
    lexemesFrom Quoting.step (.inside m) read (body ++ m :: rest) =
      .string (read ++ body ++ [m]) :: lexemes Quoting.step rest := by
  induction h generalizing read with
  | nil => rw [List.nil_append, List.append_nil, lexemesFrom_close rfl (Quoting.step_self hmark)]
  | plain hne hslash _ ih =>
      rw [List.cons_append, lexemesFrom_next (Quoting.step_of_ne_mark hne hslash) rfl, ih]
      simp
  | escape c _ ih =>
      have hslash : (Quoting.inside m).step '\\' = .escaped m := rfl
      have hescaped : (Quoting.escaped m).step c = .inside m := rfl
      rw [List.cons_append, List.cons_append, lexemesFrom_next hslash rfl,
        lexemesFrom_next hescaped rfl, ih]
      simp

namespace Lexed

/-- The lexemes that a text is made of are those that are read. -/
theorem lexemes_eq (h : Lexed cs ls) : lexemes Quoting.step cs = ls := by
  induction h with
  | nil => rfl
  | char h _ ih =>
      rw [lexemes, lexemesFrom_char (Quoting.step_of_not_mark h), ih]
  | string hmark hinner _ ih =>
      rw [stringText_append, lexemes, lexemesFrom_next (Quoting.step_of_mark hmark) rfl,
        hinner.lexemesFrom_eq hmark, ih]
      rfl

/-- A text with lexemes leaves no string open. -/
theorem foldl_step (h : Lexed cs ls) : cs.foldl Quoting.step .none = .none := by
  induction h with
  | nil => rfl
  | char h _ ih => rwa [List.foldl_cons, Quoting.step_of_not_mark h]
  | string hmark hinner _ ih =>
      rwa [stringText_append, List.foldl_cons, Quoting.step_of_mark hmark, List.foldl_append,
        hinner.foldl_step, List.foldl_cons, Quoting.step_self hmark]

/-- Lexemes of texts joined are joined. -/
theorem append {a b : List Char} {la lb : List Lexeme} (ha : Lexed a la) (hb : Lexed b lb) :
    Lexed (a ++ b) (la ++ lb) := by
  induction ha with
  | nil => exact hb
  | char h _ ih => exact .char h ih
  | string hmark hinner _ ih =>
      rw [List.append_assoc]
      exact .string hmark hinner ih

/-- A repeated character that is no mark is that many lexemes. -/
theorem replicate {c : Char} (h : isStringMark c = false) (n : Nat) :
    Lexed (List.replicate n c) (List.replicate n (.char c)) := by
  induction n with
  | zero => exact .nil
  | succ n ih => exact .char h ih

end Lexed

/-- A text that ends outside strings is made of lexemes.  If it starts inside a string, or behind a
backslash there, then it first goes on with that string. -/
theorem exists_lexed_from (cs : List Char) :
    (cs.foldl Quoting.step .none = .none → ∃ ls, Lexed cs ls) ∧
    (∀ m, isStringMark m = true → cs.foldl Quoting.step (.inside m) = .none →
      ∃ body rest ls, cs = body ++ m :: rest ∧ Inner m body ∧ Lexed rest ls) ∧
    (∀ m, isStringMark m = true → cs.foldl Quoting.step (.escaped m) = .none →
      ∃ c body rest ls, cs = c :: (body ++ m :: rest) ∧ Inner m body ∧ Lexed rest ls) := by
  induction cs with
  | nil => exact ⟨fun _ => ⟨[], .nil⟩, by simp, by simp⟩
  | cons c rest ih =>
      obtain ⟨houtside, hinside, hescaped⟩ := ih
      refine ⟨fun h => ?_, fun m hmark h => ?_, fun m hmark h => ?_⟩
      · rw [List.foldl_cons] at h
        cases hc : isStringMark c with
        | true =>
            rw [Quoting.step_of_mark hc] at h
            obtain ⟨body, after, ls, rfl, hinner, hafter⟩ := hinside c hc h
            rw [← stringText_append]
            exact ⟨_, .string hc hinner hafter⟩
        | false =>
            rw [Quoting.step_of_not_mark hc] at h
            obtain ⟨ls, hls⟩ := houtside h
            exact ⟨_, .char hc hls⟩
      · rw [List.foldl_cons] at h
        by_cases hslash : c = '\\'
        · subst hslash
          obtain ⟨d, body, after, ls, rfl, hinner, hafter⟩ := hescaped m hmark h
          exact ⟨'\\' :: d :: body, after, ls, rfl, .escape d hinner, hafter⟩
        · by_cases hm : c = m
          · subst hm
            rw [Quoting.step_self hmark] at h
            obtain ⟨ls, hls⟩ := houtside h
            exact ⟨[], rest, ls, rfl, .nil, hls⟩
          · rw [Quoting.step_of_ne_mark hm hslash] at h
            obtain ⟨body, after, ls, rfl, hinner, hafter⟩ := hinside m hmark h
            exact ⟨c :: body, after, ls, rfl, .plain hm hslash hinner, hafter⟩
      · obtain ⟨body, after, ls, rfl, hinner, hafter⟩ := hinside m hmark h
        exact ⟨c, body, after, ls, rfl, hinner, hafter⟩

/-- A text that leaves no string open has lexemes. -/
theorem exists_lexed (h : cs.foldl Quoting.step .none = .none) : ∃ ls, Lexed cs ls :=
  (exists_lexed_from cs).1 h

/-! ### Reading without escapes -/

/-- Without escapes a string goes up to the next mark. -/
theorem lexemesFrom_toggle_eq (h : m ∉ body) (read rest : List Char) :
    lexemesFrom Quoting.toggle (.inside m) read (body ++ m :: rest) =
      .string (read ++ body ++ [m]) :: lexemes Quoting.toggle rest := by
  induction body generalizing read with
  | nil => rw [List.nil_append, List.append_nil, lexemesFrom_close rfl (Quoting.toggle_self m)]
  | cons c more ih =>
      obtain ⟨hc, hmore⟩ := not_or.mp (mt List.mem_cons.mpr h)
      rw [List.cons_append, lexemesFrom_next (Quoting.toggle_of_ne (Ne.symm hc)) rfl, ih hmore]
      simp

/-- A string without backslashes counting is one lexeme. -/
theorem lexemes_toggle_stringText (hmark : isStringMark m = true) (h : m ∉ body) (rest : List Char) :
    lexemes Quoting.toggle (stringText m body ++ rest) =
      .string (stringText m body) :: lexemes Quoting.toggle rest := by
  rw [stringText_append, lexemes, lexemesFrom_next (Quoting.toggle_of_mark hmark) rfl,
    lexemesFrom_toggle_eq h]
  rfl

/-- Strings are equal exactly if mark and body are. -/
theorem stringText_inj {m' : Char} {body' : List Char} :
    stringText m body = stringText m' body' ↔ m = m' ∧ body = body' := by
  constructor
  · intro h
    obtain ⟨rfl, hrest⟩ := List.cons.inj h
    exact ⟨rfl, List.append_cancel_right hrest⟩
  · rintro ⟨rfl, rfl⟩
    rfl

/-- **Both readings agree** on a text with closed strings exactly if no string has its own mark
inside. -/
theorem Lexed.lexemes_toggle_iff (h : Lexed cs ls) : lexemes Quoting.toggle cs = ls ↔
    ∀ m body, .string (stringText m body) ∈ ls → m ∉ body := by
  induction h with
  | nil => simp [lexemes, lexemesFrom, Quoting.isNone]
  | char h _ ih =>
      rw [lexemes, lexemesFrom_char (Quoting.toggle_of_not_mark h), List.cons.injEq, ih]
      simp
  | @string m body rest ls hmark _ _ ih =>
      have hmem : (∀ m' body', Lexeme.string (stringText m' body') ∈
          Lexeme.string (stringText m body) :: ls → m' ∉ body') ↔
            m ∉ body ∧ ∀ m' body', .string (stringText m' body') ∈ ls → m' ∉ body' := by
        simp only [List.mem_cons, Lexeme.string.injEq, stringText_inj]
        constructor
        · exact fun hall => ⟨hall m body (.inl ⟨rfl, rfl⟩), fun m' body' hls => hall m' body' (.inr hls)⟩
        · rintro ⟨hfirst, hrest⟩ m' body' (⟨rfl, rfl⟩ | hls)
          · exact hfirst
          · exact hrest m' body' hls
      rw [hmem]
      by_cases hm : m ∈ body
      · -- the string that is read without escapes ends at the first mark inside
        obtain ⟨front, back, rfl, hfront⟩ := List.eq_append_cons_of_mem hm
        have htext : stringText m (front ++ m :: back) ++ rest =
            stringText m front ++ (back ++ m :: rest) := by
          simp [stringText]
        rw [htext, lexemes_toggle_stringText hmark hfront, List.cons.injEq, Lexeme.string.injEq,
          stringText_inj]
        simp
      · rw [lexemes_toggle_stringText hmark hm, List.cons.injEq, ih]
        simp [hm]

end Stencil.Style
