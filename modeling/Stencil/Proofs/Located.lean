import Mathlib.Data.Prod.Lex
import Stencil.Proofs.Balanced
import Stencil.Source.Location

/-!
# Locations of all offsets

The starts of the lines are 0 and the offsets just behind the line feeds, and they increase
(`Lines.table`).  A location is found by the last start up to its offset, so every offset, inside of
characters and behind the end of the source too, has the location that the bytes before it give it
(`Lines.location_exact`).  Searching the table by bisection finds the same lines (`Search.Right`).
-/

namespace Stencil.Source

open Stencil.Text
open Stencil.Markup (bytes bytes_cons length_bytes toUInt8_inj toList_data_toUTF8 utf8EncodeChar_cases)

/-- The byte of a line feed. -/
def feed : UInt8 := '\n'.toUInt8

/-- Where all lines start, the first one too. -/
def Lines.table (l : Lines) : List Nat := 0 :: l.starts

/-- The line of an offset starts here: at the start of the text or behind a line feed, and no line feed
follows before the offset. -/
structure LineStart (bs : List UInt8) (offset start : Nat) : Prop where
  le : start ≤ offset
  behind : start = 0 ∨ ∃ i, start = i + 1 ∧ bs[i]? = some feed
  last : ∀ i, start ≤ i → i < offset → bs[i]? ≠ some feed

/-! ### Starts of lines, byte by byte -/

/-- Offsets just behind the line feeds of some bytes that start at the given offset. -/
def feedEnds (offset : Nat) : List UInt8 → List Nat
  | [] => []
  | b :: rest =>
      if b = feed then (offset + 1) :: feedEnds (offset + 1) rest else feedEnds (offset + 1) rest

theorem feedEnds_append_of_notMem {bs : List UInt8} (h : feed ∉ bs) (offset : Nat)
    (rest : List UInt8) : feedEnds offset (bs ++ rest) = feedEnds (offset + bs.length) rest := by
  induction bs generalizing offset with
  | nil => rfl
  | cons b more ih =>
      obtain ⟨hb, hmore⟩ := not_or.mp (mt List.mem_cons.mpr h)
      rw [List.cons_append, feedEnds, if_neg (Ne.symm hb), ih hmore, List.length_cons,
        Nat.add_assoc, Nat.add_comm 1]

/-- Line feeds are one byte, and no other character has that byte. -/
theorem startsFrom_eq (offset : Nat) (cs : List Char) :
    startsFrom offset cs = feedEnds offset (bytes cs) := by
  induction cs generalizing offset with
  | nil => rfl
  | cons c rest ih =>
      have hsize := String.length_utf8EncodeChar c
      rw [startsFrom, bytes_cons]
      rcases utf8EncodeChar_cases c with ⟨hsmall, hc⟩ | ⟨hlarge, hc⟩
      · have hfeed : c.toUInt8 = feed ↔ c = '\n' := toUInt8_inj hsmall (by decide)
        rw [hc, List.length_singleton] at hsize
        rw [hc, List.singleton_append, feedEnds, ← hsize]
        simp only [hfeed, beq_iff_eq, ih]
      · have hnotMem : feed ∉ String.utf8EncodeChar c := fun h => absurd (hc feed h) (by decide)
        have hne : c ≠ '\n' := by
          rintro rfl
          exact absurd hlarge (by decide)
        rw [feedEnds_append_of_notMem hnotMem, hsize]
        simp only [beq_iff_eq, hne, if_false, ih]

theorem starts_of (source : String) :
    (Lines.of source).starts = feedEnds 0 source.toUTF8.data.toList := by
  rw [toList_data_toUTF8]
  exact startsFrom_eq 0 source.toList

theorem mem_feedEnds_iff {n offset : Nat} {bs : List UInt8} :
    n ∈ feedEnds offset bs ↔ ∃ i, n = offset + i + 1 ∧ bs[i]? = some feed := by
  induction bs generalizing offset with
  | nil => simp [feedEnds]
  | cons b rest ih =>
      -- the first byte is at index 0, and the others are one further than in the rest
      have hsplit : (∃ i, n = offset + i + 1 ∧ (b :: rest)[i]? = some feed) ↔
          (n = offset + 1 ∧ b = feed) ∨ ∃ i, n = offset + 1 + i + 1 ∧ rest[i]? = some feed := by
        constructor
        · rintro ⟨_ | i, hn, hi⟩
          · exact .inl ⟨hn, by simpa using hi⟩
          · exact .inr ⟨i, by omega, by simpa using hi⟩
        · rintro (⟨hn, hb⟩ | ⟨i, hn, hi⟩)
          · exact ⟨0, hn, by simp [hb]⟩
          · exact ⟨i + 1, by omega, by simpa using hi⟩
      rw [hsplit, feedEnds]
      by_cases hb : b = feed
      · rw [if_pos hb, List.mem_cons, ih]
        simp [hb]
      · rw [if_neg hb, ih]
        simp [hb]

theorem pairwise_feedEnds (offset : Nat) (bs : List UInt8) :
    (feedEnds offset bs).Pairwise (· < ·) := by
  induction bs generalizing offset with
  | nil => exact .nil
  | cons b rest ih =>
      rw [feedEnds]
      split
      · refine List.pairwise_cons.mpr ⟨fun n hn => ?_, ih _⟩
        obtain ⟨i, rfl, -⟩ := mem_feedEnds_iff.mp hn
        omega
      · exact ih _

/-- **The table of lines** increases. -/
theorem Lines.pairwise_table (source : String) : (Lines.of source).table.Pairwise (· < ·) := by
  refine List.pairwise_cons.mpr ⟨fun n hn => ?_, ?_⟩
  · rw [starts_of] at hn
    obtain ⟨i, rfl, -⟩ := mem_feedEnds_iff.mp hn
    omega
  · rw [starts_of]
    exact pairwise_feedEnds 0 _

/-- As many lines start up to an offset as there are line feeds before it. -/
theorem countP_feedEnds (offset n : Nat) (bs : List UInt8) :
    (feedEnds offset bs).countP (· ≤ n) = (bs.take (n - offset)).count feed := by
  induction bs generalizing offset with
  | nil => simp [feedEnds]
  | cons b rest ih =>
      have hrest := ih (offset + 1)
      rcases Nat.lt_or_ge offset n with hlt | hge
      · obtain ⟨k, hk⟩ : ∃ k, n - offset = k + 1 := ⟨n - offset - 1, by omega⟩
        rw [show n - (offset + 1) = k by omega] at hrest
        rw [hk, List.take_succ_cons, feedEnds, List.count_cons]
        by_cases hb : b = feed
        · rw [if_pos hb, List.countP_cons_of_pos (by simpa using Nat.succ_le_of_lt hlt), hrest]
          simp [hb]
        · rw [if_neg hb, hrest]
          simp [hb]
      · rw [Nat.sub_eq_zero_of_le hge, List.take_zero, List.count_nil, List.countP_eq_zero]
        intro m hm
        obtain ⟨i, rfl, -⟩ := mem_feedEnds_iff.mp hm
        simp only [decide_eq_true_eq]
        omega

/-! ### Going through the table -/

/-- Going through an increasing table ends at its last entry up to the offset, and the column is
counted from there. -/
theorem locateFrom_eq {offset start : Nat} {starts : List Nat} (line : Nat)
    (hsorted : (start :: starts).Pairwise (· < ·)) (hstart : start ≤ offset) :
    ∃ last, (start :: starts)[starts.countP (· ≤ offset)]? = some last ∧ last ≤ offset ∧
      (∀ m ∈ starts, m ≤ offset → m ≤ last) ∧
      locateFrom offset line start starts =
        ⟨offset, line + starts.countP (· ≤ offset), offset - last⟩ := by
  induction starts generalizing line start with
  | nil => exact ⟨start, rfl, hstart, by simp, rfl⟩
  | cons next rest ih =>
      obtain ⟨hfirst, hrest⟩ := List.pairwise_cons.mp hsorted
      by_cases hnext : next ≤ offset
      · obtain ⟨last, hlast, hle, hall, hlocate⟩ := ih (line + 1) hrest hnext
        have hcount : (next :: rest).countP (· ≤ offset) = rest.countP (· ≤ offset) + 1 :=
          List.countP_cons_of_pos (by simpa using hnext)
        have hmem : last ∈ next :: rest := List.mem_of_getElem? hlast
        refine ⟨last, by rw [hcount, List.getElem?_cons_succ, hlast], hle, ?_, ?_⟩
        · refine List.forall_mem_cons.mpr ⟨fun _ => ?_, hall⟩
          rcases List.mem_cons.mp hmem with rfl | hmem
          · exact Nat.le_refl _
          · exact ((List.pairwise_cons.mp hrest).1 last hmem).le
        · rw [locateFrom, if_pos hnext, hlocate, hcount, Nat.add_assoc, Nat.add_comm 1]
      · -- the starts behind are greater still
        have hbehind : ∀ m ∈ next :: rest, ¬ m ≤ offset := by
          refine List.forall_mem_cons.mpr ⟨hnext, fun m hm => ?_⟩
          have := (List.pairwise_cons.mp hrest).1 m hm
          omega
        have hcount : (next :: rest).countP (· ≤ offset) = 0 :=
          List.countP_eq_zero.mpr fun m hm => by simpa using hbehind m hm
        refine ⟨start, by rw [hcount, List.getElem?_cons_zero], hstart,
          fun m hm hle => absurd hle (hbehind m hm), ?_⟩
        rw [locateFrom, if_neg hnext, hcount, Nat.add_zero]

variable {source : String} {offset : Nat}

/-- **The location of an offset** is that of the last line that starts up to it. -/
theorem Lines.location_eq (source : String) (offset : Nat) : ∃ start,
    LineStart source.toUTF8.data.toList offset start ∧
    (Lines.of source).table[(source.toUTF8.data.toList.take offset).count feed]? = some start ∧
    (Lines.of source).location offset =
      ⟨offset, (source.toUTF8.data.toList.take offset).count feed, offset - start⟩ := by
  have hsorted : (0 :: (Lines.of source).starts).Pairwise (· < ·) := pairwise_table source
  obtain ⟨start, hstart, hle, hlast, hlocate⟩ :=
    locateFrom_eq 0 hsorted (Nat.zero_le offset)
  have hcount : (Lines.of source).starts.countP (· ≤ offset) =
      (source.toUTF8.data.toList.take offset).count feed := by
    rw [starts_of, countP_feedEnds, Nat.sub_zero]
  rw [hcount] at hstart hlocate
  refine ⟨start, ⟨hle, ?_, ?_⟩, hstart, by rw [location, hlocate, Nat.zero_add]⟩
  · rcases List.mem_cons.mp (List.mem_of_getElem? hstart) with rfl | hmem
    · exact .inl rfl
    · rw [starts_of] at hmem
      obtain ⟨i, hi, hfeed⟩ := mem_feedEnds_iff.mp hmem
      exact .inr ⟨i, by omega, hfeed⟩
  · intro i hi hlt hfeed
    have hmem : i + 1 ∈ (Lines.of source).starts := by
      rw [starts_of]
      exact mem_feedEnds_iff.mpr ⟨i, by omega, hfeed⟩
    have := hlast (i + 1) hmem (by omega)
    omega

/-- A later offset has a later location: on a later line, or in a later column of the same line. -/
theorem Lines.location_strictMono (source : String) : StrictMono fun offset =>
    toLex (((Lines.of source).location offset).line, ((Lines.of source).location offset).column) := by
  intro a b hab
  obtain ⟨start, hstart, htable, ha⟩ := location_eq source a
  obtain ⟨start', -, htable', hb⟩ := location_eq source b
  have hlines : (source.toUTF8.data.toList.take a).count feed ≤
      (source.toUTF8.data.toList.take b).count feed :=
    ((List.take_prefix_take_left (Nat.le_of_lt hab)).sublist).count_le feed
  rw [Prod.Lex.toLex_lt_toLex, ha, hb]
  rcases Nat.lt_or_eq_of_le hlines with hlt | heq
  · exact .inl hlt
  · rw [heq, htable'] at htable
    obtain rfl : start' = start := Option.some.inj htable
    have := hstart.le
    exact .inr ⟨heq, by show a - start' < b - start'; omega⟩

/-! ### Searching the table -/

/-- What a search for a number in an increasing table answers: the place where it stands, or the place
where it would have to be put in. -/
inductive Search where
  | found (i : Nat)
  | missing (i : Nat)

namespace Search

/-- The answer is right. -/
def Right (table : List Nat) (n : Nat) : Search → Prop
  | .found i => table[i]? = some n
  | .missing i =>
      i ≤ table.length ∧ (∀ m ∈ table.take i, m < n) ∧ ∀ m ∈ table.drop i, n < m

/-- The line of an offset by the answer of the search for it. -/
def line : Search → Nat
  | .found i => i
  | .missing i => i - 1

variable {table : List Nat} {n : Nat}

/-- A right answer knows how many entries are no greater than the number. -/
theorem Right.countP_le {a : Search} (h : a.Right table n) (hsorted : table.Pairwise (· < ·)) :
    table.countP (· ≤ n) = match a with | .found i => i + 1 | .missing i => i := by
  have hcount : ∀ {i} {front back : List Nat}, table = front ++ back → front.length = i →
      (∀ m ∈ front, m ≤ n) → (∀ m ∈ back, n < m) → table.countP (· ≤ n) = i := by
    rintro i front back rfl rfl hfront hback
    rw [List.countP_append, List.countP_eq_length.mpr (by simpa using hfront),
      List.countP_eq_zero.mpr (by simpa using hback), Nat.add_zero]
  cases a with
  | found i =>
      obtain ⟨hi, hn⟩ := List.getElem?_eq_some_iff.mp h
      have hcut : table = (table.take i ++ [n]) ++ table.drop (i + 1) := by
        rw [List.append_assoc, List.singleton_append, ← hn, List.getElem_cons_drop,
          List.take_append_drop]
      rw [hcut, List.append_assoc, List.pairwise_append, List.singleton_append,
        List.pairwise_cons] at hsorted
      obtain ⟨-, ⟨hback, -⟩, hfront⟩ := hsorted
      refine hcount hcut (by simp; omega) (fun m hm => ?_) hback
      rcases List.mem_append.mp hm with hm | hm
      · exact (hfront m hm n List.mem_cons_self).le
      · exact (List.mem_singleton.mp hm).le
  | missing i =>
      obtain ⟨hi, hfront, hback⟩ := h
      exact hcount (List.take_append_drop i table).symm (List.length_take_of_le hi)
        (fun m hm => (hfront m hm).le) hback

/-- In an increasing table every number is found or has a place. -/
theorem exists_right (hsorted : table.Pairwise (· < ·)) (n : Nat) :
    ∃ a : Search, a.Right table n := by
  induction table with
  | nil => exact ⟨.missing 0, Nat.le_refl 0, by simp, by simp⟩
  | cons m rest ih =>
      obtain ⟨hm, hrest⟩ := List.pairwise_cons.mp hsorted
      rcases Nat.lt_trichotomy n m with hlt | rfl | hgt
      · refine ⟨.missing 0, Nat.zero_le _, by simp, ?_⟩
        exact List.forall_mem_cons.mpr ⟨hlt, fun k hk => hlt.trans (hm k hk)⟩
      · exact ⟨.found 0, rfl⟩
      · obtain ⟨a, ha⟩ := ih hrest
        cases a with
        | found i => exact ⟨.found (i + 1), ha⟩
        | missing i =>
            obtain ⟨hi, hfront, hback⟩ := ha
            exact ⟨.missing (i + 1), Nat.succ_le_succ hi, List.forall_mem_cons.mpr ⟨hgt, hfront⟩, hback⟩

end Search

/-- Some line starts up to every offset, so a right answer never is the place in front of the table, and
it gives the line of the offset. -/
theorem Search.Right.line_eq {a : Search} (h : a.Right (Lines.of source).table offset) :
    (∀ i, a = .missing i → 0 < i) ∧ a.line = ((Lines.of source).location offset).line := by
  have hcount : (Lines.of source).table.countP (· ≤ offset) =
      ((Lines.of source).location offset).line + 1 := by
    obtain ⟨start, -, -, hlocation⟩ := Lines.location_eq source offset
    rw [hlocation, Lines.table, List.countP_cons_of_pos (by simp), starts_of, countP_feedEnds,
      Nat.sub_zero]
  have ha := h.countP_le (Lines.pairwise_table source)
  rw [hcount] at ha
  cases a with
  | found i => exact ⟨by simp, (Nat.succ.inj ha).symm⟩
  | missing i =>
      have hi : ((Lines.of source).location offset).line + 1 = i := ha
      refine ⟨?_, by show i - 1 = _; omega⟩
      rintro j hj
      cases hj
      omega

/-- **Locations are exact**, for every offset, also inside of a character and behind the end.  The line
of an offset is the number of line feeds before it, the column is its distance from the start of that
line, and the start and the column give the offset back, so no subtraction is cut off.  Later offsets
have later locations.  Searching the table of lines, which increases, gives the line: a start that is
found is that of the line, and the place of one that is missing is behind the line and never the first. -/
theorem Lines.location_exact (source : String) :
    (Lines.of source).table.Pairwise (· < ·) ∧
    (∀ offset, ∃ start, LineStart source.toUTF8.data.toList offset start ∧
      ((Lines.of source).location offset).offset = offset ∧
      ((Lines.of source).location offset).line =
        (source.toUTF8.data.toList.take offset).count feed ∧
      (Lines.of source).table[((Lines.of source).location offset).line]? = some start ∧
      start + ((Lines.of source).location offset).column = offset) ∧
    (∀ offset, (∃ a : Search, a.Right (Lines.of source).table offset) ∧
      ∀ a : Search, a.Right (Lines.of source).table offset → (∀ i, a = .missing i → 0 < i) ∧
        a.line = ((Lines.of source).location offset).line) ∧
    StrictMono fun offset => toLex (((Lines.of source).location offset).line,
      ((Lines.of source).location offset).column) := by
  refine ⟨pairwise_table source, fun offset => ?_,
    fun offset => ⟨Search.exists_right (pairwise_table source) offset, fun a h => h.line_eq⟩,
    location_strictMono source⟩
  obtain ⟨start, hstart, htable, hlocation⟩ := location_eq source offset
  have hle := hstart.le
  rw [hlocation]
  exact ⟨start, hstart, rfl, rfl, htable, Nat.add_sub_cancel' hle⟩

end Stencil.Source
