import Stencil.Proofs.Collapse
import Stencil.Proofs.Tiling

/-!
# Which spans in braces are found

A balanced span is an opening brace, then plain bytes, strings and smaller spans, then a closing
brace: `BalancedBytes` is this grammar, over the bytes of a text.  The scan for a closing brace does
not know it.  It counts open braces and remembers the string it is in.  `ByteTally` is what it knows
after some bytes, and the grammar is what a tally goes through between an opening brace and the
first time that no brace is open (`BalancedBytes.tally`, `balanced_of_leavesOne`).  So the closing
brace that is found is the end of the one balanced span that starts at the opening brace, if there
is one (`closingBrace?_findsSpan`).
-/

namespace Stencil.Markup

open Stencil.Text

/-! ### The grammar -/

/-- The bytes of some characters in UTF-8. -/
def bytes (cs : List Char) : List UInt8 := cs.flatMap String.utf8EncodeChar

/-- The bytes that open and close strings. -/
def quoteBytes : List UInt8 := ['\''.toUInt8, '"'.toUInt8, '\x60'.toUInt8]

/-- The bytes that count outside strings: both braces and the quotes. -/
def markBytes : List UInt8 := '\x7b'.toUInt8 :: '\x7d'.toUInt8 :: quoteBytes

/-- The inside of a string: bytes other than its quote and a backslash, and any bytes behind a
backslash. -/
inductive StringInside (quote : UInt8) : List UInt8 → Prop
  | nil : StringInside quote []
  | plain {b : UInt8} {rest : List UInt8} (hquote : b ≠ quote) (hslash : b ≠ '\\'.toUInt8)
      (tail : StringInside quote rest) : StringInside quote (b :: rest)
  | escaped (b : UInt8) {rest : List UInt8} (tail : StringInside quote rest) :
      StringInside quote ('\\'.toUInt8 :: b :: rest)

/-- The inside of a balanced span: plain bytes, strings and balanced spans, one after another. -/
inductive BalancedBytes : List UInt8 → Prop
  | nil : BalancedBytes []
  | plain {b : UInt8} {rest : List UInt8} (hplain : b ∉ markBytes) (tail : BalancedBytes rest) :
      BalancedBytes (b :: rest)
  | string {quote : UInt8} {inside rest : List UInt8} (hquote : quote ∈ quoteBytes)
      (hinside : StringInside quote inside) (tail : BalancedBytes rest) :
      BalancedBytes (quote :: (inside ++ quote :: rest))
  | span {inside rest : List UInt8} (hinside : BalancedBytes inside) (tail : BalancedBytes rest) :
      BalancedBytes ('\x7b'.toUInt8 :: (inside ++ '\x7d'.toUInt8 :: rest))

/-- The bytes are a balanced span, braces included. -/
def IsSpan (span : List UInt8) : Prop :=
  ∃ inside, BalancedBytes inside ∧ span = '\x7b'.toUInt8 :: (inside ++ ['\x7d'.toUInt8])

/-- The bytes from one offset to another, both included, are a balanced span. -/
def SpanAt (source : List UInt8) (start stop : Nat) : Prop :=
  ∃ before span after, source = before ++ span ++ after ∧ before.length = start ∧
    (before ++ span).length = stop + 1 ∧ IsSpan span

/-! ### What the scan knows -/

/-- What a scan for a closing brace knows after some bytes. -/
structure ByteTally where
  /-- Opening braces less closing ones, outside strings. -/
  depth : Int := 0
  /-- The quote of the string that is open. -/
  quote : Option UInt8 := none
  /-- Just after a backslash in a string. -/
  escaped : Bool := false
  deriving DecidableEq, Repr

namespace ByteTally

/-- What the scan knows after one more byte. -/
def next (t : ByteTally) (b : UInt8) : ByteTally :=
  match t.quote with
  | some quote =>
      if t.escaped then { t with escaped := false }
      else if b = '\\'.toUInt8 then { t with escaped := true }
      else if b = quote then { t with quote := none }
      else t
  | none =>
      if b ∈ quoteBytes then { t with quote := some b }
      else if b = '\x7b'.toUInt8 then { t with depth := t.depth + 1 }
      else if b = '\x7d'.toUInt8 then { t with depth := t.depth - 1 }
      else t

/-- What the scan knows after some more bytes. -/
def run (t : ByteTally) (bs : List UInt8) : ByteTally := bs.foldl next t

/-- No bytes change nothing. -/
@[simp] theorem run_nil (t : ByteTally) : t.run [] = t := rfl

/-- Bytes are counted one by one. -/
@[simp] theorem run_cons (t : ByteTally) (b : UInt8) (bs : List UInt8) :
    t.run (b :: bs) = (t.next b).run bs := rfl

/-- Two lists of bytes are counted one after the other. -/
@[simp] theorem run_append (t : ByteTally) (a b : List UInt8) : t.run (a ++ b) = (t.run a).run b :=
  List.foldl_append

/-- Some brace is open before, between and after the bytes. -/
def Open (t : ByteTally) (bs : List UInt8) : Prop := ∀ part, part <+: bs → 0 < (t.run part).depth

/-- Where a brace is open, it is at once. -/
theorem Open.nil {t : ByteTally} (h : 0 < t.depth) : t.Open [] := by
  intro part hpart
  rwa [List.prefix_nil.mp hpart]

/-- Where a brace stays open, one is open at the start. -/
theorem Open.depth_pos {t : ByteTally} {bs : List UInt8} (h : t.Open bs) : 0 < t.depth :=
  h [] List.nil_prefix

/-- A brace stays open if it is open and stays so behind the first byte. -/
theorem open_cons {t : ByteTally} {b : UInt8} {bs : List UInt8} :
    t.Open (b :: bs) ↔ 0 < t.depth ∧ (t.next b).Open bs := by
  constructor
  · exact fun h => ⟨h.depth_pos, fun part hpart => h (b :: part) (by simpa using hpart)⟩
  · rintro ⟨hpos, hrest⟩ part hpart
    rcases List.prefix_cons_iff.mp hpart with rfl | ⟨more, rfl, hmore⟩
    · exact hpos
    · exact hrest more hmore

/-- A brace stays open through two lists if it does through each. -/
theorem Open.append {t : ByteTally} {a b : List UInt8} (ha : t.Open a) (hb : (t.run a).Open b) :
    t.Open (a ++ b) := by
  induction a generalizing t with
  | nil => exact hb
  | cons c rest ih =>
      obtain ⟨hpos, hrest⟩ := open_cons.mp ha
      exact open_cons.mpr ⟨hpos, ih hrest hb⟩

end ByteTally

/-- The tally outside strings. -/
abbrev inCode (depth : Int) : ByteTally := ⟨depth, none, false⟩

/-- The tally in a string. -/
abbrev inString (depth : Int) (quote : UInt8) : ByteTally := ⟨depth, some quote, false⟩

/-- A byte that is no mark changes nothing in code. -/
theorem next_plain {b : UInt8} (hb : b ∉ markBytes) (depth : Int) :
    (inCode depth).next b = inCode depth := by
  simp only [markBytes, List.mem_cons, not_or] at hb
  simp only [ByteTally.next, hb, if_false]

/-- An opening brace opens one more in code. -/
theorem next_open (depth : Int) : (inCode depth).next '\x7b'.toUInt8 = inCode (depth + 1) := rfl

/-- A closing brace closes one in code. -/
theorem next_close (depth : Int) : (inCode depth).next '\x7d'.toUInt8 = inCode (depth - 1) := rfl

/-- A quote in code starts a string. -/
theorem next_quote {q : UInt8} (hq : q ∈ quoteBytes) (depth : Int) :
    (inCode depth).next q = inString depth q := by
  simp [ByteTally.next, hq]

/-- Quotes are no backslashes. -/
theorem quote_ne_slash {q : UInt8} (hq : q ∈ quoteBytes) : q ≠ '\\'.toUInt8 := by
  rintro rfl
  revert hq
  decide

/-- The same quote ends the string. -/
theorem next_endQuote {q : UInt8} (hq : q ∈ quoteBytes) (depth : Int) :
    (inString depth q).next q = inCode depth := by
  simp [ByteTally.next, quote_ne_slash hq]

/-! ### The grammar and the tally -/

/-- The inside of a string leaves the string open and the braces as they are. -/
theorem StringInside.tally {q : UInt8} {inside : List UInt8} (h : StringInside q inside) {depth : Int}
    (hdepth : 0 < depth) :
    (inString depth q).run inside = inString depth q ∧ (inString depth q).Open inside := by
  induction h with
  | nil => exact ⟨rfl, .nil hdepth⟩
  | @plain b rest hquote hslash tail ih =>
      have hnext : (inString depth q).next b = inString depth q := by
        simp [ByteTally.next, hquote, hslash]
      rw [ByteTally.run_cons, ByteTally.open_cons, hnext]
      exact ⟨ih.1, hdepth, ih.2⟩
  | escaped b tail ih =>
      have hnext : ((inString depth q).next '\\'.toUInt8).next b = inString depth q := by
        simp [ByteTally.next]
      rw [ByteTally.run_cons, ByteTally.run_cons, ByteTally.open_cons, ByteTally.open_cons, hnext]
      exact ⟨ih.1, hdepth, by simpa [ByteTally.next] using hdepth, ih.2⟩

/-- **The inside of a balanced span** opens as many braces as it closes, and never closes more. -/
theorem BalancedBytes.tally {inside : List UInt8} (h : BalancedBytes inside) {depth : Int}
    (hdepth : 0 < depth) :
    (inCode depth).run inside = inCode depth ∧ (inCode depth).Open inside := by
  induction h generalizing depth with
  | nil => exact ⟨rfl, .nil hdepth⟩
  | plain hplain tail ih =>
      rw [ByteTally.run_cons, ByteTally.open_cons, next_plain hplain]
      exact ⟨(ih hdepth).1, hdepth, (ih hdepth).2⟩
  | @string q inside rest hquote hinside tail ih =>
      obtain ⟨hrun, hopen⟩ := hinside.tally hdepth
      rw [ByteTally.run_cons, ByteTally.open_cons, next_quote hquote, ByteTally.run_append, hrun,
        ByteTally.run_cons, next_endQuote hquote]
      refine ⟨(ih hdepth).1, hdepth, hopen.append ?_⟩
      rw [hrun, ByteTally.open_cons, next_endQuote hquote]
      exact ⟨hdepth, (ih hdepth).2⟩
  | @span inside rest hinside tail ihinside ih =>
      have hmore : 0 < depth + 1 := by omega
      obtain ⟨hrun, hopen⟩ := ihinside hmore
      have hless : (inCode (depth + 1)).next '\x7d'.toUInt8 = inCode depth := by
        rw [next_close, Int.add_sub_cancel]
      rw [ByteTally.run_cons, ByteTally.open_cons, next_open, ByteTally.run_append, hrun,
        ByteTally.run_cons, hless]
      refine ⟨(ih hdepth).1, hdepth, hopen.append ?_⟩
      rw [hrun, ByteTally.open_cons, hless]
      exact ⟨hmore, (ih hdepth).2⟩

/-- Insides of spans with closing braces between them: what stands in front of the closing brace of the
outermost of some open spans. -/
def Nested : Nat → List UInt8 → Prop
  | 0, bs => BalancedBytes bs
  | depth + 1, bs => ∃ inside rest, bs = inside ++ '\x7d'.toUInt8 :: rest ∧ BalancedBytes inside ∧
      Nested depth rest

/-- The rest of a string, and what stands behind it. -/
def NestedString (q : UInt8) (depth : Nat) (bs : List UInt8) : Prop :=
  ∃ inside rest, bs = inside ++ q :: rest ∧ StringInside q inside ∧ Nested depth rest

namespace Nested

variable {depth : Nat} {bs : List UInt8}

/-- What may stand in front of the inside of a span may stand in front of more of them. -/
theorem prepend (front : List UInt8)
    (hfront : ∀ inside, BalancedBytes inside → BalancedBytes (front ++ inside))
    (h : Nested depth bs) : Nested depth (front ++ bs) := by
  cases depth with
  | zero => exact hfront bs h
  | succ depth =>
      obtain ⟨inside, rest, rfl, hinside, hrest⟩ := h
      exact ⟨front ++ inside, rest, (List.append_assoc ..).symm, hfront inside hinside, hrest⟩

/-- A plain byte may stand in front of nested code. -/
theorem plain {b : UInt8} (hplain : b ∉ markBytes) (h : Nested depth bs) : Nested depth (b :: bs) :=
  h.prepend [b] fun _ => .plain hplain

/-- An opening brace may stand in front of code with one more to close. -/
theorem openBrace (h : Nested (depth + 1) bs) : Nested depth ('\x7b'.toUInt8 :: bs) := by
  obtain ⟨inside, rest, rfl, hinside, hrest⟩ := h
  have hspan := hrest.prepend ('\x7b'.toUInt8 :: (inside ++ ['\x7d'.toUInt8]))
    fun _ htail => by simpa using BalancedBytes.span hinside htail
  simpa using hspan

/-- A closing brace may stand in front of code with one less to close. -/
theorem closeBrace (h : Nested depth bs) : Nested (depth + 1) ('\x7d'.toUInt8 :: bs) :=
  ⟨[], bs, rfl, .nil, h⟩

/-- A quote may stand in front of a string and the code behind it. -/
theorem openQuote {q : UInt8} (hq : q ∈ quoteBytes) (h : NestedString q depth bs) :
    Nested depth (q :: bs) := by
  obtain ⟨inside, rest, rfl, hinside, hrest⟩ := h
  have hstring := hrest.prepend (q :: (inside ++ [q]))
    fun _ htail => by simpa using BalancedBytes.string hq hinside htail
  simpa using hstring

end Nested

namespace NestedString

variable {q : UInt8} {depth : Nat} {bs : List UInt8}

/-- A quote ends the string in front of nested code. -/
theorem closeQuote (h : Nested depth bs) : NestedString q depth (q :: bs) :=
  ⟨[], bs, rfl, .nil, h⟩

/-- A plain byte may stand in a string. -/
theorem plain {b : UInt8} (hquote : b ≠ q) (hslash : b ≠ '\\'.toUInt8) (h : NestedString q depth bs) :
    NestedString q depth (b :: bs) := by
  obtain ⟨inside, rest, rfl, hinside, hrest⟩ := h
  exact ⟨b :: inside, rest, rfl, .plain hquote hslash hinside, hrest⟩

/-- Any byte behind a backslash may stand in a string. -/
theorem escaped (b : UInt8) (h : NestedString q depth bs) :
    NestedString q depth ('\\'.toUInt8 :: b :: bs) := by
  obtain ⟨inside, rest, rfl, hinside, hrest⟩ := h
  exact ⟨'\\'.toUInt8 :: b :: inside, rest, rfl, .escaped b hinside, hrest⟩

end NestedString

/-- While the bytes are read some brace is open, and behind them only the outermost. -/
def ByteTally.LeavesOne (t : ByteTally) (bs : List UInt8) : Prop := t.Open bs ∧ t.run bs = inCode 1

/-- What leaves one brace open does so behind a list in which braces stay open. -/
theorem ByteTally.Open.leavesOne {t : ByteTally} {a b : List UInt8} (ha : t.Open a)
    (hb : (t.run a).LeavesOne b) : t.LeavesOne (a ++ b) :=
  ⟨ha.append hb.1, (ByteTally.run_append ..).trans hb.2⟩

/-- What leaves one brace open is decided byte by byte. -/
theorem leavesOne_cons {t : ByteTally} {b : UInt8} {bs : List UInt8} :
    t.LeavesOne (b :: bs) ↔ 0 < t.depth ∧ (t.next b).LeavesOne bs := by
  rw [ByteTally.LeavesOne, ByteTally.open_cons, ByteTally.run_cons, and_assoc]
  rfl

/-- What is read until only the outermost brace is open are nested insides of spans.  The cases are
what the scan is inside of: no string, a string, or an escape in a string. -/
theorem nested_of_leavesOne (bs : List UInt8) (depth : Nat) :
    ((inCode (depth + 1)).LeavesOne bs → Nested depth bs) ∧
      (∀ q ∈ quoteBytes, (inString (depth + 1) q).LeavesOne bs → NestedString q depth bs) ∧
      ∀ q ∈ quoteBytes, (⟨depth + 1, some q, true⟩ : ByteTally).LeavesOne bs →
        ∃ b rest, bs = b :: rest ∧ NestedString q depth rest := by
  induction bs generalizing depth with
  | nil =>
      refine ⟨fun ⟨_, hrun⟩ => ?_, fun q _ ⟨_, hrun⟩ => ?_, fun q _ ⟨_, hrun⟩ => ?_⟩
      · have hzero : depth = 0 := by
          have := congrArg ByteTally.depth hrun
          simp only [ByteTally.run_nil] at this
          omega
        subst hzero
        exact .nil
      · exact absurd (congrArg ByteTally.quote hrun) (by simp)
      · exact absurd (congrArg ByteTally.quote hrun) (by simp)
  | cons b rest ih =>
      refine ⟨fun h => ?_, fun q hq h => ?_, fun q hq h => ?_⟩ <;>
        obtain ⟨-, h⟩ := leavesOne_cons.mp h
      · by_cases hb : b ∈ markBytes
        · rcases List.mem_cons.mp hb with rfl | hb
          · rw [next_open] at h
            exact ((ih (depth + 1)).1 h).openBrace
          · rcases List.mem_cons.mp hb with rfl | hq
            · rw [next_close, Int.add_sub_cancel] at h
              cases depth with
              | zero => exact absurd h.1.depth_pos (by simp)
              | succ depth => exact ((ih depth).1 h).closeBrace
            · rw [next_quote hq] at h
              exact .openQuote hq ((ih depth).2.1 b hq h)
        · rw [next_plain hb] at h
          exact ((ih depth).1 h).plain hb
      · by_cases hslash : b = '\\'.toUInt8
        · have hnext : (inString (depth + 1) q).next b = ⟨depth + 1, some q, true⟩ := by
            simp [ByteTally.next, hslash]
          rw [hnext] at h
          obtain ⟨c, more, rfl, hmore⟩ := (ih depth).2.2 q hq h
          exact hslash ▸ hmore.escaped c
        · by_cases hquote : b = q
          · rw [hquote, next_endQuote hq] at h
            exact hquote ▸ .closeQuote ((ih depth).1 h)
          · have hnext : (inString (depth + 1) q).next b = inString (depth + 1) q := by
              simp [ByteTally.next, hslash, hquote]
            rw [hnext] at h
            exact ((ih depth).2.1 q hq h).plain hquote hslash
      · have hnext : (⟨depth + 1, some q, true⟩ : ByteTally).next b = inString (depth + 1) q := by
          simp [ByteTally.next]
        rw [hnext] at h
        exact ⟨b, rest, rfl, (ih depth).2.1 q hq h⟩

/-- **Counting finds the grammar**: what is read while some brace is open, until only the outermost one
is, is the inside of a balanced span. -/
theorem balanced_of_leavesOne {bs : List UInt8} (h : (inCode 1).LeavesOne bs) : BalancedBytes bs :=
  (nested_of_leavesOne bs 0).1 h

/-! ### Characters and their bytes -/

/-- The bytes of a text are those of its characters. -/
theorem bytes_cons (c : Char) (rest : List Char) :
    bytes (c :: rest) = String.utf8EncodeChar c ++ bytes rest := rfl

/-- The bytes of two texts are those of one behind those of the other. -/
@[simp] theorem bytes_append (a b : List Char) : bytes (a ++ b) = bytes a ++ bytes b :=
  List.flatMap_append

/-- A text has as many bytes as its size says. -/
@[simp] theorem length_bytes (cs : List Char) : (bytes cs).length = byteSize cs := by
  induction cs with
  | nil => rfl
  | cons c rest ih =>
      rw [bytes_cons, List.length_append, String.length_utf8EncodeChar, ih, byteSize_cons]

/-- A character is one byte, or several that are no ASCII characters. -/
theorem utf8EncodeChar_cases (c : Char) :
    (c.toNat < 128 ∧ String.utf8EncodeChar c = [c.toUInt8]) ∨
      (128 ≤ c.toNat ∧ ∀ b ∈ String.utf8EncodeChar c, 128 ≤ b.toNat) := by
  have hone : c.val.toNat = c.toNat := rfl
  unfold String.utf8EncodeChar
  rw [hone]
  by_cases hc : c.toNat ≤ 127
  · exact .inl ⟨by omega, by simp only [hc, if_true]; rfl⟩
  · refine .inr ⟨by omega, ?_⟩
    simp only [hc, if_false]
    split
    · simp; omega
    · split <;> simp <;> omega

/-- ASCII characters are told apart by their bytes. -/
theorem toUInt8_inj {c d : Char} (hc : c.toNat < 128) (hd : d.toNat < 128) :
    c.toUInt8 = d.toUInt8 ↔ c = d := by
  constructor
  · intro h
    have hnat : c.toNat % 256 = d.toNat % 256 := congrArg UInt8.toNat h
    exact Char.toNat_inj.mp (by omega)
  · exact congrArg Char.toUInt8

/-- Quotes are characters of one byte. -/
theorem isQuote_iff {c : Char} : isQuote c = true ↔ c.toNat < 128 ∧ c.toUInt8 ∈ quoteBytes := by
  constructor
  · intro h
    simp only [isQuote, Bool.or_eq_true, beq_iff_eq] at h
    rcases h with (rfl | rfl) | rfl <;> decide
  · rintro ⟨hc, h⟩
    simp only [quoteBytes, List.mem_cons, List.not_mem_nil, or_false] at h
    rw [toUInt8_inj hc (by decide), toUInt8_inj hc (by decide), toUInt8_inj hc (by decide)] at h
    simpa [isQuote, or_assoc] using h

/-- Bytes that are no ASCII characters change nothing, unless a backslash stands in front of them. -/
theorem next_of_high {t : ByteTally} (hescaped : t.escaped = false)
    (hquote : ∀ q ∈ t.quote, q ∈ quoteBytes)
    {b : UInt8} (hb : 128 ≤ b.toNat) : t.next b = t := by
  have hne : ∀ m : UInt8, m.toNat < 128 → b ≠ m := by
    rintro m hm rfl
    omega
  have hmarks : ∀ m ∈ markBytes, m.toNat < 128 := by
    have hall : markBytes.all (·.toNat < 128) = true := by decide
    simpa using hall
  have hnone : ∀ m ∈ markBytes, b ≠ m := fun m hm => hne m (hmarks m hm)
  obtain ⟨depth, quote, escaped⟩ := t
  obtain rfl : escaped = false := hescaped
  cases quote with
  | none => exact next_plain (fun hmem => hnone b hmem rfl) depth
  | some q =>
      have hq : b ≠ q := hnone q (List.mem_cons_of_mem _ (List.mem_cons_of_mem _ (hquote q rfl)))
      have hslash : b ≠ '\\'.toUInt8 := hne _ (by decide)
      simp [ByteTally.next, hq, hslash]

/-- Bytes of characters beyond the first 128 change nothing. -/
theorem run_of_high {t : ByteTally} (hescaped : t.escaped = false)
    (hquote : ∀ q ∈ t.quote, q ∈ quoteBytes)
    (hdepth : 0 < t.depth) {bs : List UInt8} (hbs : ∀ b ∈ bs, 128 ≤ b.toNat) :
    t.run bs = t ∧ t.Open bs := by
  induction bs with
  | nil => exact ⟨rfl, .nil hdepth⟩
  | cons b rest ih =>
      obtain ⟨hb, hrest⟩ := List.forall_mem_cons.mp hbs
      rw [ByteTally.run_cons, ByteTally.open_cons, next_of_high hescaped hquote hb]
      exact ⟨(ih hrest).1, hdepth, (ih hrest).2⟩

/-! ### The scan over characters -/

/-- What is known where the scan is inside of something, with some braces open besides the
outermost. -/
def Inside.tally (depth : Nat) : Inside → ByteTally
  | .code => inCode (depth + 1)
  | .string quote => inString (depth + 1) quote.toUInt8
  | .escape quote => ⟨depth + 1, some quote.toUInt8, true⟩

/-- In front of each character a brace is open. -/
theorem Inside.depth_tally_pos (depth : Nat) (inside : Inside) : 0 < (inside.tally depth).depth := by
  cases inside <;> simp only [tally] <;> omega

/-- The quote of an open string is one of the three. -/
theorem Inside.Quoted.mem_quoteBytes {inside : Inside} (h : inside.Quoted) (depth : Nat) :
    ∀ q ∈ (inside.tally depth).quote, q ∈ quoteBytes := by
  cases inside with
  | code => simp [tally]
  | string quote => simpa [tally] using (isQuote_iff.mp h).2
  | escape quote => simpa [tally] using (isQuote_iff.mp h).2

/-- Reading the bytes of a character, with some brace open all the while, leads to what the scan is
inside of next. -/
def Inside.Goes (depth : Nat) (inside : Inside) (c : Char) (depth' : Nat) (inside' : Inside) : Prop :=
  inside'.Quoted ∧ (inside.tally depth).Open (String.utf8EncodeChar c) ∧
    (inside.tally depth).run (String.utf8EncodeChar c) = inside'.tally depth'

/-- A character of one byte leads to where its byte does. -/
theorem Inside.Goes.of_ascii {depth depth' : Nat} {inside inside' : Inside} {c : Char}
    (hc : String.utf8EncodeChar c = [c.toUInt8]) (hquoted : inside'.Quoted)
    (hnext : (inside.tally depth).next c.toUInt8 = inside'.tally depth') :
    inside.Goes depth c depth' inside' := by
  refine ⟨hquoted, ?_, ?_⟩
  · rw [hc, ByteTally.open_cons, hnext]
    exact ⟨depth_tally_pos _ _, .nil (depth_tally_pos _ _)⟩
  · rw [hc, ByteTally.run_cons, hnext, ByteTally.run_nil]

/-- A character of several bytes leads nowhere, unless a backslash stands in front of it. -/
theorem Inside.Goes.of_high {depth : Nat} {inside : Inside} {c : Char} (hquoted : inside.Quoted)
    (hc : ∀ b ∈ String.utf8EncodeChar c, 128 ≤ b.toNat)
    (hescape : (inside.tally depth).escaped = false) :
    inside.Goes depth c depth inside := by
  obtain ⟨hrun, hopen⟩ :=
    run_of_high hescape (hquoted.mem_quoteBytes depth) (depth_tally_pos depth inside) hc
  exact ⟨hquoted, hopen, hrun⟩

/-- Whatever stands behind a backslash is part of the string.  Only the first byte of the character
stands behind it, the others lead nowhere. -/
theorem Inside.goes_escape (depth : Nat) {quote : Char} (hquoted : (Inside.escape quote).Quoted)
    (c : Char) : (Inside.escape quote).Goes depth c depth (.string quote) := by
  have hstring : ∀ b,
      ((Inside.escape quote).tally depth).next b = (Inside.string quote).tally depth :=
    fun b => by simp [Inside.tally, ByteTally.next]
  rcases utf8EncodeChar_cases c with ⟨-, hc⟩ | ⟨-, hc⟩
  · exact .of_ascii hc hquoted (hstring _)
  · cases hbytes : String.utf8EncodeChar c with
    | nil => exact absurd (congrArg List.length hbytes) (by simp [c.utf8Size_pos.ne'])
    | cons b bs =>
        have hhigh : ∀ b ∈ bs, 128 ≤ b.toNat :=
          fun b hb => hc b (hbytes ▸ List.mem_cons_of_mem _ hb)
        obtain ⟨hrun, hopen⟩ := run_of_high rfl
          ((show (Inside.string quote).Quoted from hquoted).mem_quoteBytes depth)
          (Inside.depth_tally_pos depth _) hhigh
        refine ⟨hquoted, ?_, ?_⟩
        · rw [hbytes, ByteTally.open_cons, hstring]
          exact ⟨Inside.depth_tally_pos _ _, hopen⟩
        · rw [hbytes, ByteTally.run_cons, hstring, hrun]

/-- A character in a string goes on as the grammar says. -/
theorem Inside.goes_string (depth : Nat) {quote : Char} (hquoted : (Inside.string quote).Quoted)
    (c : Char) : (Inside.string quote).Goes depth c depth (afterInString quote c) := by
  obtain ⟨hquote, hmem⟩ := isQuote_iff.mp hquoted
  unfold afterInString
  rcases utf8EncodeChar_cases c with ⟨hsmall, hc⟩ | ⟨hlarge, hc⟩
  · have hslash : c.toUInt8 = '\\'.toUInt8 ↔ c = '\\' := toUInt8_inj hsmall (by decide)
    have hend : c.toUInt8 = quote.toUInt8 ↔ c = quote := toUInt8_inj hsmall hquote
    by_cases h₁ : c = '\\'
    · rw [if_pos (by simpa using h₁)]
      exact .of_ascii hc hquoted (by simp [Inside.tally, ByteTally.next, h₁])
    · rw [if_neg (by simpa using h₁)]
      by_cases h₂ : c = quote
      · rw [if_pos (by simpa using h₂)]
        exact .of_ascii hc trivial (by rw [h₂]; exact next_endQuote hmem _)
      · rw [if_neg (by simpa using h₂)]
        exact .of_ascii hc hquoted (by simp [Inside.tally, ByteTally.next, hslash, hend, h₁, h₂])
  · have h₁ : c ≠ '\\' := by rintro rfl; exact absurd hlarge (by decide)
    have h₂ : c ≠ quote := by rintro rfl; omega
    rw [if_neg (by simpa using h₁), if_neg (by simpa using h₂)]
    exact .of_high hquoted hc rfl

/-- A quote in code opens a string. -/
theorem Inside.goes_quote (depth : Nat) {c : Char} (hquote : isQuote c = true) :
    Inside.code.Goes depth c depth (.string c) := by
  obtain ⟨hsmall, hmem⟩ := isQuote_iff.mp hquote
  have hc : String.utf8EncodeChar c = [c.toUInt8] :=
    (utf8EncodeChar_cases c).elim And.right fun h => absurd h.1 (by omega)
  exact .of_ascii hc hquote (next_quote hmem _)

/-- A character of code that is no brace and no quote leads nowhere. -/
theorem Inside.goes_plain (depth : Nat) {c : Char} (hopen : c ≠ '\x7b') (hclose : c ≠ '\x7d')
    (hquote : isQuote c = false) : Inside.code.Goes depth c depth .code := by
  rcases utf8EncodeChar_cases c with ⟨hsmall, hc⟩ | ⟨-, hc⟩
  · refine .of_ascii hc trivial (next_plain ?_ _)
    simp only [markBytes, List.mem_cons, toUInt8_inj hsmall (show '\x7b'.toNat < 128 by decide),
      toUInt8_inj hsmall (show '\x7d'.toNat < 128 by decide), hopen, hclose, false_or]
    intro hmem
    rw [isQuote_iff.mpr ⟨hsmall, hmem⟩] at hquote
    cases hquote
  · exact .of_high trivial hc rfl

/-- **One character**: it is the closing brace of the outermost span, or the scan goes on behind it. -/
theorem closing_cons_cases (depth : Nat) {inside : Inside} (hquoted : inside.Quoted) (c : Char) :
    (inside = .code ∧ depth = 0 ∧ c = '\x7d') ∨
      ∃ depth' inside', inside.Goes depth c depth' inside' ∧ ∀ rest,
        closing depth inside (c :: rest) =
          (closing depth' inside' rest).map fun p => (c :: p.1, p.2) := by
  cases inside with
  | escape quote => exact .inr ⟨depth, _, Inside.goes_escape depth hquoted c, fun _ => rfl⟩
  | string quote => exact .inr ⟨depth, _, Inside.goes_string depth hquoted c, fun _ => rfl⟩
  | code =>
      by_cases hclose : c = '\x7d'
      · cases depth with
        | zero => exact .inl ⟨rfl, rfl, hclose⟩
        | succ depth =>
            subst hclose
            refine .inr ⟨depth, .code, .of_ascii rfl trivial ?_, fun rest => by simp [closing]⟩
            show inCode ((depth + 1 : Nat) + 1 - 1) = inCode (depth + 1)
            rw [Int.add_sub_cancel, Int.natCast_add_one]
      · by_cases hopen : c = '\x7b'
        · subst hopen
          exact .inr ⟨depth + 1, .code, .of_ascii rfl trivial (next_open _),
            fun rest => by simp [closing]⟩
        · cases hquote : isQuote c with
          | true =>
              exact .inr ⟨depth, .string c, Inside.goes_quote depth hquote,
                fun rest => by simp [closing, hclose, hopen, hquote]⟩
          | false =>
              exact .inr ⟨depth, .code, Inside.goes_plain depth hopen hclose hquote,
                fun rest => by simp [closing, hclose, hopen, hquote]⟩

/-- **The scan counts.**  Up to the closing brace that it finds some brace is open, and in front of
it only the outermost one; if it finds none, some brace stays open. -/
theorem closing_tally (cs : List Char) (depth : Nat) {inside : Inside} (hquoted : inside.Quoted) :
    (∀ inner rest, closing depth inside cs = some (inner, rest) →
        (inside.tally depth).LeavesOne (bytes inner)) ∧
      (closing depth inside cs = none → (inside.tally depth).Open (bytes cs)) := by
  induction cs generalizing depth inside with
  | nil => exact ⟨by simp [closing], fun _ => .nil (Inside.depth_tally_pos _ _)⟩
  | cons c rest ih =>
      rcases closing_cons_cases depth hquoted c with ⟨rfl, rfl, rfl⟩ | ⟨d, i, ⟨hi, hopen, hrun⟩, hgo⟩
      · refine ⟨fun inner after h => ?_, fun h => by simp [closing] at h⟩
        obtain rfl : [] = inner := by
          simp only [closing, beq_self_eq_true, if_true, Option.some.injEq, Prod.mk.injEq] at h
          exact h.1
        exact ⟨.nil (Inside.depth_tally_pos _ _), rfl⟩
      · obtain ⟨hfound, hnone⟩ := ih d hi
        refine ⟨fun inner after h => ?_, fun h => ?_⟩
        · rw [hgo] at h
          obtain ⟨⟨more, after⟩, hmore, heq⟩ := Option.map_eq_some_iff.mp h
          obtain ⟨rfl, rfl⟩ := Prod.mk.inj heq
          rw [bytes_cons]
          exact hopen.leavesOne (hrun ▸ hfound more after hmore)
        · rw [hgo, Option.map_eq_none_iff] at h
          rw [bytes_cons]
          exact hopen.append (hrun ▸ hnone h)

/-! ### Spans in a text -/

/-- A cut of the bytes in front of or behind an ASCII character is a cut of the characters. -/
theorem exists_of_bytes_eq {cs : List Char} {before after : List UInt8} {m : Char} (hm : m.toNat < 128)
    (h : bytes cs = before ++ m.toUInt8 :: after) :
    ∃ front back, cs = front ++ m :: back ∧ bytes front = before ∧ bytes back = after := by
  induction cs generalizing before with
  | nil => simp [bytes] at h
  | cons c rest ih =>
      rw [bytes_cons] at h
      rcases utf8EncodeChar_cases c with ⟨hsmall, hc⟩ | ⟨-, hc⟩
      · rw [hc, List.singleton_append] at h
        cases before with
        | nil =>
            obtain ⟨hhead, rfl⟩ := List.cons.inj h
            exact ⟨[], rest, by rw [(toUInt8_inj hsmall hm).mp hhead]; rfl, rfl, rfl⟩
        | cons b before =>
            obtain ⟨rfl, htail⟩ := List.cons.inj h
            obtain ⟨front, back, rfl, rfl, hback⟩ := ih htail
            exact ⟨c :: front, back, rfl, by rw [bytes_cons, hc]; rfl, hback⟩
      · -- the byte is none of the character's, so it stands behind all of them
        have hbehind : ∃ more, before = String.utf8EncodeChar c ++ more ∧
            bytes rest = more ++ m.toUInt8 :: after := by
          rcases List.append_eq_append_iff.mp h with ⟨more, rfl, hrest⟩ | ⟨more, hchar, hmore⟩
          · exact ⟨more, rfl, hrest⟩
          · cases more with
            | nil => exact ⟨[], by simpa using hchar.symm, hmore.symm⟩
            | cons b more =>
                have hhigh := hc m.toUInt8 (by rw [hchar, (List.cons.inj hmore).1]; simp)
                have hlow : m.toUInt8.toNat = m.toNat % 256 := rfl
                omega
        obtain ⟨more, rfl, hrest⟩ := hbehind
        obtain ⟨front, back, rfl, rfl, hback⟩ := ih hrest
        exact ⟨c :: front, back, rfl, rfl, hback⟩

/-- Where only the outermost brace is open, a closing brace closes it. -/
theorem not_open_of_close {t : ByteTally} {a b : List UInt8} (hrun : t.run a = inCode 1) :
    ¬ t.Open (a ++ '\x7d'.toUInt8 :: b) := by
  intro hopen
  have hdepth := hopen (a ++ ['\x7d'.toUInt8]) (by simp)
  rw [ByteTally.run_append, hrun] at hdepth
  exact absurd hdepth (by decide)

/-- A closing brace is one byte. -/
theorem bytes_close (cs : List Char) : bytes ('\x7d' :: cs) = '\x7d'.toUInt8 :: bytes cs := rfl

/-- An opening brace is one byte. -/
theorem bytes_open (cs : List Char) : bytes ('\x7b' :: cs) = '\x7b'.toUInt8 :: bytes cs := rfl

/-- The inside of a balanced span ends at the closing brace that is found. -/
theorem closing_of_balanced {inner : List Char} (h : BalancedBytes (bytes inner)) (after : List Char) :
    closing 0 .code (inner ++ '\x7d' :: after) = some (inner, after) := by
  obtain ⟨hrun, hopen⟩ := h.tally (show (0 : Int) < 1 by decide)
  obtain ⟨hfound, hnone⟩ :=
    closing_tally (inner ++ '\x7d' :: after) 0 (show Inside.code.Quoted from trivial)
  cases hclosing : closing 0 .code (inner ++ '\x7d' :: after) with
  | none =>
      have hstays := hnone hclosing
      rw [bytes_append, bytes_close] at hstays
      exact absurd hstays (not_open_of_close hrun)
  | some found =>
      obtain ⟨inner', after'⟩ := found
      obtain ⟨hopen', hrun'⟩ := hfound inner' after' hclosing
      -- of two different closing braces the scan would have passed the first one
      rcases List.append_eq_append_iff.mp (closing_eq hclosing) with
        ⟨more, hinner, hmore⟩ | ⟨more, hinner, hmore⟩
      · cases more with
        | nil => simp_all
        | cons c more =>
            obtain ⟨rfl, -⟩ := List.cons.inj hmore
            rw [hinner, bytes_append, bytes_close] at hopen'
            exact absurd hopen' (not_open_of_close hrun)
      · cases more with
        | nil => simp_all
        | cons c more =>
            obtain ⟨rfl, -⟩ := List.cons.inj hmore
            rw [hinner, bytes_append, bytes_close] at hopen
            exact absurd hopen (not_open_of_close hrun')

/-- Where a closing brace is found: behind an opening brace and the inside of a span. -/
theorem closingBrace?_eq_some {text : String} {start stop : Nat}
    (h : closingBrace? text start = some stop) :
    ∃ before inner after, text.toList = before ++ '\x7b' :: (inner ++ '\x7d' :: after) ∧
      byteSize before = start ∧ stop = start + 1 + byteSize inner ∧
      closing 0 .code (inner ++ '\x7d' :: after) = some (inner, after) := by
  unfold closingBrace? at h
  split at h
  · next before rest hcut =>
      obtain ⟨htext, hsize⟩ := cutAt?_eq hcut
      obtain ⟨⟨inner, after⟩, hspan, rfl⟩ := Option.map_eq_some_iff.mp h
      unfold braceSpan at hspan
      split at hspan
      · next tail =>
          have htail := closing_eq hspan
          subst htail
          exact ⟨before, inner, after, htext, hsize, rfl, hspan⟩
      · cases hspan
  · cases h

/-- Behind some characters, the answer is that of the span that starts there. -/
theorem closingBrace?_append {text : String} {before rest : List Char}
    (h : text.toList = before ++ rest) :
    closingBrace? text (byteSize before) =
      (braceSpan rest).map fun span => byteSize before + 1 + byteSize span.1 := by
  rw [closingBrace?, h, cutAt?_append]

/-- **The span that is found**: an offset is found exactly if the bytes up to it are a balanced
span. -/
theorem closingBrace?_eq_some_iff {text : String} {start stop : Nat} :
    closingBrace? text start = some stop ↔ SpanAt (bytes text.toList) start stop := by
  constructor
  · intro h
    obtain ⟨before, inner, after, htext, rfl, rfl, hclosing⟩ := closingBrace?_eq_some h
    have hinner : (inCode 1).LeavesOne (bytes inner) :=
      (closing_tally _ 0 (show Inside.code.Quoted from trivial)).1 inner after hclosing
    refine ⟨bytes before, '\x7b'.toUInt8 :: (bytes inner ++ ['\x7d'.toUInt8]), bytes after, ?_, by simp,
      ?_, bytes inner, balanced_of_leavesOne hinner, rfl⟩
    · simp [htext, bytes_open, bytes_close]
    · simp only [List.length_append, List.length_cons, List.length_nil, length_bytes]
      omega
  · rintro ⟨front, _, back, hsource, rfl, hstop, inside, hinside, rfl⟩
    obtain ⟨before, rest, htext, rfl, hrest⟩ := exists_of_bytes_eq (m := '\x7b') (by decide)
      (show bytes text.toList = front ++ '\x7b'.toUInt8 :: (inside ++ '\x7d'.toUInt8 :: back) by
        simpa using hsource)
    obtain ⟨inner, after, rfl, rfl, -⟩ := exists_of_bytes_eq (m := '\x7d') (by decide) hrest
    rw [length_bytes, closingBrace?_append htext, braceSpan, closing_of_balanced hinside]
    simp only [List.length_append, List.length_cons, List.length_nil, length_bytes] at hstop
    simp only [Option.map_some, Option.some.injEq]
    omega

/-- The bytes of a text, as it is stored. -/
theorem toList_data_toUTF8 (text : String) : text.toUTF8.data.toList = bytes text.toList := by
  have hstored : text.toUTF8 = text.toList.utf8Encode := by
    rw [← String.toByteArray_ofList, String.ofList_toList, String.toUTF8_eq_toByteArray]
  rw [hstored, List.utf8Encode, List.data_toByteArray]
  rfl

/-- Between two offsets there is at most one span that starts at the first. -/
theorem SpanAt.eq {text : String} {start stop stop' : Nat} (h : SpanAt (bytes text.toList) start stop)
    (h' : SpanAt (bytes text.toList) start stop') : stop = stop' :=
  Option.some.inj ((closingBrace?_eq_some_iff.mpr h).symm.trans (closingBrace?_eq_some_iff.mpr h'))

/-- A span is one wherever else its bytes stand. -/
theorem SpanAt.moved {source other : List UInt8} {start stop start' : Nat}
    (h : SpanAt source start stop)
    (heq : (other.drop start').take (stop + 1 - start) = (source.drop start).take (stop + 1 - start)) :
    SpanAt other start' (start' + (stop - start)) := by
  obtain ⟨before, span, after, rfl, rfl, hstop, hspan⟩ := h
  have hsize : stop + 1 - before.length = span.length := by
    rw [List.length_append] at hstop
    omega
  obtain ⟨inside, hinside, hbraces⟩ := hspan
  have hpos : 0 < span.length := by simp [hbraces]
  rw [hsize, List.append_assoc, List.drop_left, List.take_left] at heq
  have hshort : start' ≤ other.length := by
    by_contra hlong
    rw [List.drop_eq_nil_of_le (by omega), List.take_nil] at heq
    simp [← heq] at hpos
  refine ⟨other.take start', span, (other.drop start').drop span.length, ?_, ?_, ?_, inside,
    hinside, hbraces⟩
  · conv_lhs =>
      rw [← List.take_append_drop start' other,
        ← List.take_append_drop span.length (other.drop start')]
    rw [heq, List.append_assoc]
  · exact List.length_take_of_le hshort
  · rw [List.length_append, List.length_take, Nat.min_eq_left hshort]
    omega

/-- While braces are counted, no more of them are closed than have been opened. -/
theorem depth_run_nonneg {text : String} {before part after : List UInt8}
    (hsource : bytes text.toList = before ++ ('\x7b'.toUInt8 :: part ++ after))
    (hread : ∀ stop, closingBrace? text before.length = some stop →
      before.length + part.length ≤ stop) :
    0 ≤ ((inCode 0).run ('\x7b'.toUInt8 :: part)).depth := by
  obtain ⟨front, rest, htext, rfl, hrest⟩ := exists_of_bytes_eq (m := '\x7b') (by decide)
    (show bytes text.toList = before ++ '\x7b'.toUInt8 :: (part ++ after) by simpa using hsource)
  rw [ByteTally.run_cons, next_open, Int.zero_add]
  rw [length_bytes, closingBrace?_append htext] at hread
  obtain ⟨hfound, hnone⟩ := closing_tally rest 0 (show Inside.code.Quoted from trivial)
  cases hclosing : closing 0 .code rest with
  | none =>
      have hopen := hnone hclosing
      rw [hrest] at hopen
      exact Int.le_of_lt (hopen part (List.prefix_append ..))
  | some found =>
      obtain ⟨inner, tail⟩ := found
      obtain ⟨hopen, hrun⟩ : (inCode 1).LeavesOne (bytes inner) := hfound inner tail hclosing
      have hlength := hread _ (by rw [braceSpan, hclosing]; rfl)
      have hbytes : part ++ after = bytes inner ++ '\x7d'.toUInt8 :: bytes tail := by
        rw [← hrest, closing_eq hclosing, bytes_append, bytes_close]
      rcases List.append_eq_append_iff.mp hbytes with ⟨more, hinner, -⟩ | ⟨more, hpart, hmore⟩
      · exact Int.le_of_lt (hopen part ⟨more, hinner.symm⟩)
      · -- the part ends with the closing brace at the latest
        have hshort : more.length ≤ 1 := by
          rw [hpart, List.length_append, length_bytes] at hlength
          simp only [] at hlength
          omega
        rcases more with _ | ⟨b, _ | ⟨c, more⟩⟩
        · simp [hpart, hrun]
        · obtain ⟨rfl, -⟩ := List.cons.inj hmore
          rw [hpart, ByteTally.run_append, hrun]
          decide
        · simp at hshort

/-- The closing brace of a text and an offset is that of the balanced span that starts there. -/
structure FindsSpan (text : String) (start : Nat) : Prop where
  /-- The offsets that are found are those of the last bytes of balanced spans. -/
  found : ∀ stop, closingBrace? text start = some stop ↔ SpanAt text.toUTF8.data.toList start stop
  unique : ∀ stop stop', SpanAt text.toUTF8.data.toList start stop →
    SpanAt text.toUTF8.data.toList start stop' → stop = stop'
  /-- Nothing is found only if there is no span. -/
  missing : closingBrace? text start = none ↔ ∀ stop, ¬ SpanAt text.toUTF8.data.toList start stop
  /-- From the opening brace up to the brace that is found, or else up to the end, the count of open
  braces never falls below zero. -/
  counted : ∀ before part after,
    text.toUTF8.data.toList = before ++ ('\x7b'.toUInt8 :: part ++ after) → before.length = start →
    (∀ stop, closingBrace? text start = some stop → start + part.length ≤ stop) →
    0 ≤ ((inCode 0).run ('\x7b'.toUInt8 :: part)).depth
  /-- A character starts at the offset that is found: the closing brace. -/
  boundary : ∀ stop, closingBrace? text start = some stop →
    ∃ before after, text.toList = before ++ '\x7d' :: after ∧ byteSize before = stop
  /-- What stands in front of the opening brace does not count. -/
  before : ∀ other start', other.toUTF8.data.toList.drop start' = text.toUTF8.data.toList.drop start →
    closingBrace? other start' = (closingBrace? text start).map fun stop => start' + (stop - start)
  /-- Nor does what stands behind the closing brace. -/
  behind : ∀ stop, closingBrace? text start = some stop → ∀ other start',
    (other.toUTF8.data.toList.drop start').take (stop + 1 - start) =
      (text.toUTF8.data.toList.drop start).take (stop + 1 - start) →
    closingBrace? other start' = some (start' + (stop - start))

/-- **Brace matching accepts exactly its grammar**, at every offset of every text. -/
theorem closingBrace?_findsSpan (text : String) (start : Nat) : FindsSpan text start := by
  have hbehind : ∀ {text : String} {start stop : Nat}, closingBrace? text start = some stop →
      ∀ other start', ((bytes other.toList).drop start').take (stop + 1 - start) =
        ((bytes text.toList).drop start).take (stop + 1 - start) →
      closingBrace? other start' = some (start' + (stop - start)) := fun h other start' heq =>
    closingBrace?_eq_some_iff.mpr ((closingBrace?_eq_some_iff.mp h).moved heq)
  have hstored := toList_data_toUTF8
  constructor <;> (try simp only [hstored])
  · exact fun stop => closingBrace?_eq_some_iff
  · exact fun stop stop' => SpanAt.eq
  · simp only [← closingBrace?_eq_some_iff, Option.eq_none_iff_forall_ne_some, ne_eq]
  · rintro before part after hsource rfl hread
    exact depth_run_nonneg hsource hread
  · intro stop h
    obtain ⟨before, inner, after, htext, rfl, rfl, -⟩ := closingBrace?_eq_some h
    have hone : '\x7b'.utf8Size = 1 := rfl
    refine ⟨before ++ '\x7b' :: inner, after, by simpa using htext, ?_⟩
    simp only [byteSize_append, byteSize_cons, hone]
    omega
  · intro other start' heq
    cases h : closingBrace? text start with
    | some stop => exact hbehind h other start' (by rw [heq])
    | none =>
        cases h' : closingBrace? other start' with
        | none => rfl
        | some stop' => exact absurd (h.symm.trans (hbehind h' text start (by rw [heq]))) (by simp)
  · exact fun stop h other start' heq => hbehind h other start' heq

end Stencil.Markup
