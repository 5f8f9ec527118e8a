import Mathlib.Data.List.TakeWhile
import Stencil.Proofs.Attached

/-!
# Where nodes stand in the source

A location is right if its line and column are those of its offset (`Location.Marks`), and the table
of lines finds right locations only (`Lines.location_marks`).  The position of a node is that of a run
of tokens (`Node.Placed`): an element stands where its opening tag and perhaps its closing tag are, a
text where the texts are that were joined.  Offsets and locations of a position agree, but for a text
that was joined from several, whose location ends where the first of them ends (`parse_positions`).
-/

namespace Stencil.Source

open Stencil.Text

/-- The location is that of its offset: as many lines end before it as it says, and its column is the
number of bytes since the last of them. -/
def Location.Marks (l : Location) (source : String) : Prop :=
  ∃ before after, source.toList = before ++ after ∧ l.offset = byteSize before ∧
    l.line = before.count '\n' ∧ l.column = byteSize (before.reverse.takeWhile (· != '\n'))

/-- A text has as many bytes backwards. -/
theorem byteSize_reverse (cs : List Char) : byteSize cs.reverse = byteSize cs := by
  induction cs with
  | nil => rfl
  | cons c rest ih =>
      rw [List.reverse_cons, byteSize_append, ih, byteSize_cons, byteSize_cons, byteSize_nil]
      omega

/-- The lines found behind an offset start behind it. -/
theorem lt_of_mem_startsFrom {offset n : Nat} {cs : List Char} (h : n ∈ startsFrom offset cs) :
    offset < n := by
  induction cs generalizing offset with
  | nil => simp [startsFrom] at h
  | cons c rest ih =>
      have hpos := c.utf8Size_pos
      simp only [startsFrom] at h
      split at h
      · rcases List.mem_cons.mp h with rfl | h
        · omega
        · exact Nat.lt_trans (by omega) (ih h)
      · exact Nat.lt_trans (by omega) (ih h)

/-- What is left of a line in front of a place does not depend on the lines before it. -/
theorem takeWhile_reverse_append (front lead : List Char) :
    ((front ++ '\n' :: lead).reverse.takeWhile (· != '\n')) =
      lead.reverse.takeWhile (· != '\n') := by
  rw [List.reverse_append, List.reverse_cons, List.append_assoc, List.takeWhile_append]
  split
  · next hall =>
      have hwhole := (List.takeWhile_prefix _).eq_of_length hall
      simp [hwhole]
  · rfl

/-- Going through the starts of lines finds the line and the column of a place; `lead` is what stands
on the current line already. -/
theorem locateFrom_startsFrom (line start : Nat) (lead before after : List Char)
    (hlead : '\n' ∉ lead) :
    locateFrom (start + byteSize lead + byteSize before) line start
        (startsFrom (start + byteSize lead) (before ++ after)) =
      ⟨start + byteSize lead + byteSize before, line + before.count '\n',
        byteSize ((lead ++ before).reverse.takeWhile (· != '\n'))⟩ := by
  induction before generalizing line start lead with
  | nil =>
      have hnext : locateFrom (start + byteSize lead) line start
          (startsFrom (start + byteSize lead) after) =
            ⟨start + byteSize lead, line, start + byteSize lead - start⟩ := by
        cases hstarts : startsFrom (start + byteSize lead) after with
        | nil => rfl
        | cons next rest =>
            have hlt := lt_of_mem_startsFrom (hstarts ▸ List.mem_cons_self)
            rw [locateFrom, if_neg (by omega)]
      have hwhole : lead.reverse.takeWhile (· != '\n') = lead.reverse := by
        rw [List.takeWhile_eq_self_iff]
        intro c hc
        rw [bne_iff_ne]
        rintro rfl
        exact hlead (List.mem_reverse.mp hc)
      simp [hnext, hwhole, byteSize_reverse]
  | cons c before ih =>
      by_cases hc : c = '\n'
      · subst hc
        -- a new line starts here, with nothing on it
        have hrest := ih (line + 1) (start + byteSize lead + 1) [] (by simp)
        have hsize : '\n'.utf8Size = 1 := by decide
        rw [takeWhile_reverse_append, List.cons_append, startsFrom]
        simp only [byteSize_nil, Nat.add_zero, List.nil_append] at hrest
        simp only [beq_self_eq_true, if_true, hsize, byteSize_cons, List.count_cons_self]
        rw [locateFrom, if_pos (by omega), ← Nat.add_assoc, hrest, Nat.add_right_comm line,
          Nat.add_assoc line]
      · have hrest := ih line start (lead ++ [c]) (by simp [hlead, Ne.symm hc])
        have hplace : start + byteSize (lead ++ [c]) = start + byteSize lead + c.utf8Size := by
          simp [Nat.add_assoc]
        rw [List.append_assoc, List.singleton_append, hplace] at hrest
        rw [List.cons_append, startsFrom]
        simp only [beq_iff_eq, hc, if_false, byteSize_cons]
        rw [← Nat.add_assoc, hrest, List.count_cons_of_ne hc]

/-- The location of an offset has that offset. -/
@[simp] theorem Lines.offset_location (l : Lines) (offset : Nat) :
    (l.location offset).offset = offset := by
  have hlocate : ∀ (starts : List Nat) (line start : Nat),
      (locateFrom offset line start starts).offset = offset := by
    intro starts
    induction starts with
    | nil => simp [locateFrom]
    | cons next rest ih =>
        intro line start
        rw [locateFrom]
        split
        · exact ih _ _
        · rfl
  exact hlocate l.starts 0 0

/-- A place between two characters of the source, or at one of its ends. -/
def Boundary (source : String) (n : Nat) : Prop :=
  ∃ before after, source.toList = before ++ after ∧ n = byteSize before

/-- A boundary is within the source. -/
theorem Boundary.le {source : String} {n : Nat} (h : Boundary source n) :
    n ≤ byteSize source.toList := by
  obtain ⟨before, after, heq, rfl⟩ := h
  rw [heq, byteSize_append]
  exact Nat.le_add_right _ _

/-- A slice starts and stops between characters. -/
theorem boundary_of_slice? {source : String} {start stop : Nat} {part : List Char}
    (h : slice? start stop source.toList = some part) :
    Boundary source start ∧ Boundary source stop ∧ start ≤ stop := by
  unfold slice? at h
  split at h
  · next hle =>
      split at h
      · next before after hcut =>
          obtain ⟨⟨part', rest⟩, hcut', rfl⟩ := Option.map_eq_some_iff.mp h
          obtain ⟨hsource, hbefore⟩ := cutAt?_eq hcut
          obtain ⟨hafter, hpart⟩ := cutAt?_eq hcut'
          refine ⟨⟨before, after, hsource, hbefore.symm⟩, ⟨before ++ part', rest, ?_, ?_⟩, hle⟩
          · rw [hsource, hafter, List.append_assoc]
          · rw [byteSize_append]
            omega
      · simp at h
  · simp at h

/-- **Lines and columns.**  The table of lines finds the location of every place in the source. -/
theorem Lines.location_marks {source : String} {n : Nat} (h : Boundary source n) :
    ((Lines.of source).location n).Marks source := by
  obtain ⟨before, after, h, rfl⟩ := h
  have hlocate := locateFrom_startsFrom 0 0 [] before after (by simp)
  simp only [byteSize_nil, Nat.zero_add, List.nil_append] at hlocate
  rw [location, of, h, hlocate]
  exact ⟨before, after, h, rfl, rfl, rfl⟩

end Stencil.Source

namespace Stencil.Markup

open Stencil.Text Stencil.Source

/-- The position of what starts and stops at two offsets, in both forms. -/
def Position.whole (lines : Lines) (start stop : Nat) : Position :=
  ⟨some start, some stop, some (lines.span start stop)⟩

/-- With both settings on, a position is whole. -/
theorem Context.position_eq {c : Context} (hindex : c.settings.index = true)
    (hloc : c.settings.loc = true) (start stop : Nat) :
    c.position start stop = some (.whole c.lines start stop) := by
  simp [Context.position, Position.whole, hindex, hloc]

/-- The position is that of an attribute of a tag. -/
def AttributePlaced (lines : Lines) (read : List Token) (position : Option Position) : Prop :=
  ∃ t ∈ read, ∃ name attributes selfClosing, t.lexeme = .opening name attributes selfClosing ∧
    ∃ a ∈ attributes, position = some (.whole lines a.start a.stop)

/-- The node stands where some of the tokens that have been read are. -/
inductive Node.Placed (lines : Lines) (read : List Token) (n : Node) : Prop
  | comment {t : Token} {content : String} (ht : t ∈ read) (hcontent : n.content = .comment content)
      (hposition : n.position = some (.whole lines t.start t.stop))
  /-- From an opening tag to its end, or to the end of a closing tag. -/
  | element {first : Token} {more : List Token} {e : Element}
      (hread : (first :: more).Sublist read) (hcontent : n.content = .element e)
      (hposition : n.position = some (.whole lines first.start (more.getLastD first).stop))
      (hattributes : ∀ a ∈ e.attributes, AttributePlaced lines read a.position)
  /-- From the first of the texts that were joined to the last of them, but for the location. -/
  | text {first : Token} {more : List Token} {content : TextContent}
      (hread : (first :: more).Sublist read) (htexts : ∀ t ∈ first :: more, t.lexeme.isText = true)
      (hcontent : n.content = .text content)
      (hposition : n.position = some
        { Position.whole lines first.start first.stop with
          stop := some (more.getLastD first).stop })

/-- All nodes stand where tokens are, the root apart. -/
structure Document.Placed (lines : Lines) (read : List Token) (d : Document) : Prop where
  root : (d.node 0).position = none
  nodes : ∀ i, 0 < i → i < d.size → (d.node i).Placed lines read

section Placed

variable {lines : Lines} {read : List Token} {n n' : Node}

/-- A placed attribute stays placed when more is read. -/
theorem AttributePlaced.mono {position : Option Position}
    (h : AttributePlaced lines read position) (t : Token) :
    AttributePlaced lines (read ++ [t]) position := by
  obtain ⟨u, hu, hrest⟩ := h
  exact ⟨u, List.mem_append_left _ hu, hrest⟩

/-- Reading on leaves a node where it is. -/
theorem Node.Placed.mono (h : n.Placed lines read) (t : Token) :
    n.Placed lines (read ++ [t]) := by
  have hsub := List.sublist_append_left read [t]
  cases h with
  | comment ht hcontent hposition => exact .comment (hsub.subset ht) hcontent hposition
  | element hread hcontent hposition hattributes =>
      exact .element (hread.trans hsub) hcontent hposition fun a ha => (hattributes a ha).mono t
  | text hread htexts hcontent hposition =>
      exact .text (hread.trans hsub) htexts hcontent hposition

/-- A node stays placed while its content and position stay. -/
theorem Node.Placed.congr (h : n.Placed lines read) (hcontent : n'.content = n.content)
    (hposition : n'.position = n.position) : n'.Placed lines read := by
  cases h with
  | comment ht hcontent' hposition' =>
      exact .comment ht (hcontent.trans hcontent') (hposition.trans hposition')
  | element hread hcontent' hposition' hattributes =>
      exact .element hread (hcontent.trans hcontent') (hposition.trans hposition') hattributes
  | text hread htexts hcontent' hposition' =>
      exact .text hread htexts (hcontent.trans hcontent') (hposition.trans hposition')

/-- Text that is read behind a text goes on with it. -/
theorem Node.Placed.widen {content : TextContent} (h : n.Placed lines read)
    (hn : n.content = .text content) {t : Token} (ht : t.lexeme.isText = true)
    (more : TextContent) :
    Node.Placed lines (read ++ [t])
      { n with
        content := .text more
        position := n.position.map fun p => { p with stop := some t.stop } } := by
  cases h with
  | comment _ hcontent _ => rw [hcontent] at hn; cases hn
  | element _ hcontent _ _ => rw [hcontent] at hn; cases hn
  | @text first before _ hread htexts _ hposition =>
      have hread' : (first :: (before ++ [t])).Sublist (read ++ [t]) :=
        hread.append (List.Sublist.refl [t])
      refine .text hread' ?_ rfl (by simp [hposition])
      rw [← List.cons_append]
      exact List.forall_mem_append.mpr ⟨htexts, List.forall_mem_singleton.mpr ht⟩

/-- What an element is filled with does not move it. -/
theorem Node.Placed.mapElement (h : n.Placed lines read) {f : Element → Element}
    (hf : ∀ e, (f e).attributes = e.attributes) : (n.mapElement f).Placed lines read := by
  unfold Node.mapElement
  cases h with
  | comment ht hcontent hposition =>
      rw [hcontent]
      exact .comment ht hcontent hposition
  | @element first more e hread hcontent hposition hattributes =>
      rw [hcontent]
      exact .element hread rfl hposition (hf e ▸ hattributes)
  | text hread htexts hcontent hposition =>
      rw [hcontent]
      exact .text hread htexts hcontent hposition

/-- A change to an element keeps the position of its node. -/
theorem Node.position_mapElement (n : Node) (f : Element → Element) :
    (n.mapElement f).position = n.position := by
  unfold Node.mapElement
  split <;> rfl

/-- A closing tag moves the end of an element. -/
theorem Node.Placed.close {c : Context} (h : n.Placed c.lines read)
    (hn : n.content.type = .element) (hindex : c.settings.index = true) (t : Token) :
    Node.Placed c.lines (read ++ [t])
      { n with position := n.position.map (Builder.endAt c t.stop) } := by
  cases h with
  | comment _ hcontent _ =>
      rw [hcontent] at hn
      cases hn
  | @element first more e hread hcontent hposition hattributes =>
      have hread' : (first :: (more ++ [t])).Sublist (read ++ [t]) :=
        hread.append (List.Sublist.refl [t])
      refine .element hread' hcontent ?_ fun a ha => (hattributes a ha).mono t
      simp [hposition, Builder.endAt, Position.whole, hindex, Lines.span]
  | text _ _ hcontent _ =>
      rw [hcontent] at hn
      cases hn

variable {d : Document}

/-- A placed document stays placed when more is read. -/
theorem Document.Placed.mono (h : d.Placed lines read) (t : Token) :
    d.Placed lines (read ++ [t]) :=
  ⟨h.root, fun i hpos hlt => (h.nodes i hpos hlt).mono t⟩

/-- A placed document stays placed when a placed node is added. -/
theorem Document.Placed.append (h : d.Placed lines read) {parent : Nat} (hparent : parent < d.size)
    (hn : n.Placed lines read) : (d.append parent n).Placed lines read := by
  have hold : ∀ i, i < d.size → ∃ children, (d.append parent n).node i =
      { d.node i with children } := by
    intro i hi
    by_cases hne : i = parent
    · rw [hne]
      exact ⟨_, Document.node_append_parent hparent n⟩
    · rw [Document.node_append_of_ne n hi hne]
      exact ⟨_, rfl⟩
  constructor
  · obtain ⟨children, hnode⟩ := hold 0 (Nat.zero_lt_of_lt hparent)
    rw [hnode]
    exact h.root
  · intro i hpos hlt
    rw [Document.size_append] at hlt
    by_cases hi : i < d.size
    · obtain ⟨children, hnode⟩ := hold i hi
      rw [hnode]
      exact (h.nodes i hpos hi).congr rfl rfl
    · obtain rfl : i = d.size := by omega
      rw [Document.node_append_self hparent]
      exact hn

/-- One node is changed, which is not the root. -/
theorem Document.Placed.update (h : d.Placed lines read) {id : Nat} {f : Node → Node} (t : Token)
    (hroot : id = 0 → (f (d.node 0)).position = none)
    (hf : (d.node id).Placed lines read → (f (d.node id)).Placed lines (read ++ [t])) :
    (d.update id f).Placed lines (read ++ [t]) := by
  constructor
  · rcases Document.node_update_cases d id f 0 with hnode | ⟨hid, hnode⟩
    · rw [hnode]
      exact h.root
    · rw [hnode]
      exact hroot hid.symm
  · intro i hpos hlt
    rw [Document.size_update] at hlt
    have hi := h.nodes i hpos hlt
    rcases Document.node_update_cases d id f i with hnode | ⟨rfl, hnode⟩
    · rw [hnode]
      exact hi.mono t
    · rw [hnode]
      exact hf hi

end Placed

namespace Builder

variable {b : Builder} {c : Context} {read : List Token}

/-- The attributes of a tag stand where they are written. -/
theorem attributePlaced_opening (hindex : c.settings.index = true) (hloc : c.settings.loc = true)
    {t : Token} {name : String} {attributes : List AttributeToken} {selfClosing : Bool}
    (ht : t.lexeme = .opening name attributes selfClosing) :
    ∀ a ∈ attributes.map (attributeOf c), AttributePlaced c.lines (read ++ [t]) a.position := by
  intro a ha
  obtain ⟨u, hu, rfl⟩ := List.mem_map.mp ha
  exact ⟨t, by simp, name, attributes, selfClosing, ht, u, hu, c.position_eq hindex hloc _ _⟩

/-- The token alone. -/
theorem singleton_sublist_append (read : List Token) (t : Token) : [t].Sublist (read ++ [t]) :=
  List.sublist_append_right read [t]


/-- **A token** leaves all nodes where tokens are. -/
theorem Ordered.placed_step (ho : b.Ordered) (hindex : c.settings.index = true)
    (hloc : c.settings.loc = true) (h : b.document.Placed c.lines read) (t : Token) :
    (b.step c t).document.Placed c.lines (read ++ [t]) := by
  have hparent := ho.shape.parent_lt
  have hposition := c.position_eq hindex hloc
  obtain ⟨lexeme, start, stop⟩ := t
  cases lexeme with
  | text text =>
      simp only [Builder.step, Builder.addText]
      split
      · next last before hlast =>
          have hcontent := content_of_lastText? hlast
          refine h.update _ ?_ fun hplaced => ?_
          · rintro rfl
            have hroot := ho.root
            rw [hcontent] at hroot
            cases hroot
          · simp only [hindex, if_true]
            exact hplaced.widen hcontent rfl _
      · refine (h.mono _).append hparent (.text (singleton_sublist_append read _) ?_ rfl ?_)
        · simp [Lexeme.isText]
        · exact hposition start stop
  | comment content =>
      simp only [Builder.step, Builder.addComment]
      split
      · exact (h.mono _).append hparent
          (.comment (List.mem_append_right _ List.mem_cons_self) rfl (hposition start stop))
      · exact h.mono _
  | opening name attributes selfClosing =>
      have hadd := (h.mono ⟨.opening name attributes selfClosing, start, stop⟩).append hparent
        (.element (n := opened c name attributes selfClosing start stop)
          (singleton_sublist_append read _) rfl (hposition start stop)
          (attributePlaced_opening hindex hloc rfl))
      simp only [Builder.step, openElement_eq]
      split <;> exact hadd
  | raw text =>
      refine h.update _ (fun _ => ?_) fun hplaced => (hplaced.mono _).mapElement fun _ => rfl
      rw [Node.position_mapElement, h.root]
  | closing name =>
      simp only [Builder.step, Builder.closeElement]
      split
      · split <;> exact h.mono _
      · next id outer hdrop =>
          have hsuffix := List.dropWhile_suffix (l := b.stack)
            fun id => !(closes (b.nameOf id) name)
          have htag := ho.tags id (hsuffix.subset (hdrop ▸ List.mem_cons_self))
          rw [reportUnclosed_document]
          refine h.update _ ?_ fun hplaced => hplaced.close htag hindex _
          rintro rfl
          rw [ho.root] at htag
          cases htag

/-- **All tokens** leave all nodes where tokens are. -/
theorem Ordered.placed_run (ho : b.Ordered) (hindex : c.settings.index = true)
    (hloc : c.settings.loc = true) (h : b.document.Placed c.lines read) {tokens : List Token}
    (ht : ∀ t ∈ tokens, t.lexeme.Named) :
    (tokens.foldl (Builder.step c) b).document.Placed c.lines (read ++ tokens) := by
  induction tokens generalizing b read with
  | nil => rwa [List.append_nil]
  | cons t rest ih =>
      obtain ⟨hfirst, hrest⟩ := List.forall_mem_cons.mp ht
      rw [List.append_cons]
      exact ih (ho.step c hfirst) (ho.placed_step hindex hloc h t) hrest

end Builder

variable {s : Settings} {source : String}

/-- The nodes of a document that was read stand where the tokens of its source are. -/
theorem parse_placed (source : String) (hindex : s.index = true) (hloc : s.loc = true) :
    (parse s source).1.Placed (.of source) (scan source).1 := by
  have hempty : Document.empty.Placed (.of source) [] := by
    refine ⟨rfl, fun i hpos hlt => ?_⟩
    exact absurd hlt (by simp [Document.empty, Document.size]; omega)
  have hstart := Builder.ordered_empty ((scan source).2.map (Context.diagnostic ⟨s, .of source⟩))
  have hbuilt : (built s source).document.Placed (.of source) (scan source).1 :=
    hstart.placed_run (c := ⟨s, .of source⟩) hindex hloc hempty (scan_named source)
  have hprunes := prunes_parse s source
  have hsize : (parse s source).1.size = (built s source).document.size := by
    rw [parse_document]
    split
    · exact (Document.keeps_trimBlanks _).size
    · rfl
  constructor
  · obtain ⟨children, hnode⟩ := hprunes.node 0
    rw [hnode]
    exact hbuilt.root
  · intro i hpos hlt
    obtain ⟨children, hnode⟩ := hprunes.node i
    rw [hnode]
    exact (hbuilt.nodes i hpos (hsize ▸ hlt)).congr rfl rfl

/-! ### What the offsets and locations are -/

/-- The position starts and stops at two offsets, and its location starts with it and ends at a place
up to its end; all of them are inside the source, and lines and columns are those of the offsets. -/
structure Position.Covers (source : String) (p : Position) (a upTo b : Nat) : Prop where
  start : p.start = some a
  stop : p.stop = some b
  loc : ∃ first last, p.loc = some ⟨first, last⟩ ∧ first.offset = a ∧ last.offset = upTo ∧
    first.Marks source ∧ last.Marks source
  ordered : a ≤ upTo ∧ upTo ≤ b
  within : b ≤ byteSize source.toList

/-- A position covers its source between boundaries in order. -/
theorem Position.covers {start upTo stop : Nat} (hstart : Boundary source start)
    (hupTo : Boundary source upTo) (hstop : Boundary source stop)
    (hordered : start ≤ upTo ∧ upTo ≤ stop) :
    Position.Covers source ⟨some start, some stop, some ((Lines.of source).span start upTo)⟩
      start upTo stop :=
  ⟨rfl, rfl, ⟨_, _, rfl, Lines.offset_location _ _, Lines.offset_location _ _,
    Lines.location_marks hstart, Lines.location_marks hupTo⟩, hordered, hstop.le⟩

/-- Each token is behind those before it. -/
theorem Consecutive.pairwise {start stop : Nat} {tokens : List Token}
    (h : Consecutive start tokens stop) (hforward : ∀ t ∈ tokens, t.start ≤ t.stop) :
    tokens.Pairwise (fun t u => t.stop ≤ u.start) ∧ ∀ t ∈ tokens, start ≤ t.start := by
  induction tokens generalizing start with
  | nil => simp
  | cons t rest ih =>
      obtain ⟨hstart, hrest⟩ := h
      obtain ⟨hfirst, hlater⟩ := List.forall_mem_cons.mp hforward
      obtain ⟨hpairwise, hbehind⟩ := ih hrest hlater
      refine ⟨List.pairwise_cons.mpr ⟨hbehind, hpairwise⟩, List.forall_mem_cons.mpr ⟨?_, ?_⟩⟩
      · exact Nat.le_of_eq hstart.symm
      · intro u hu
        exact Nat.le_trans (hstart ▸ hfirst) (hbehind u hu)

/-- Tokens start and stop at boundaries. -/
theorem scan_boundary {t : Token} (ht : t ∈ (scan source).1) :
    Boundary source t.start ∧ Boundary source t.stop ∧ t.start ≤ t.stop := by
  obtain ⟨part, hslice, -⟩ := (scan_tiling source).spelled t ht
  exact boundary_of_slice? hslice

/-- No token starts before the one in front has stopped. -/
theorem scan_pairwise (source : String) :
    (scan source).1.Pairwise fun t u => t.stop ≤ u.start :=
  ((scan_tiling source).consecutive.pairwise fun _ ht => (scan_boundary ht).2.2).1

/-- The last of some tokens of a source is the first one or stands behind it. -/
theorem getLastD_of_sublist {first : Token} {more : List Token}
    (h : (first :: more).Sublist (scan source).1) : more.getLastD first ∈ (scan source).1 ∧
      (more ≠ [] → first.stop ≤ (more.getLastD first).start) := by
  refine ⟨h.subset List.getLastD_mem_cons, fun hne => ?_⟩
  have hlast : more.getLastD first ∈ more := by
    rw [List.getLastD_eq_getLast?, List.getLast?_eq_some_getLast hne, Option.getD_some]
    exact List.getLast_mem hne
  exact (List.pairwise_cons.mp ((scan_pairwise source).sublist h)).1 _ hlast

/-- A position from the start of a token to the end of itself or a later one. -/
theorem covers_of_sublist {first : Token} {more : List Token}
    (h : (first :: more).Sublist (scan source).1) :
    Boundary source first.start ∧ Boundary source first.stop ∧
      Boundary source (more.getLastD first).stop ∧ first.start ≤ first.stop ∧
        first.stop ≤ (more.getLastD first).stop := by
  obtain ⟨hstart, hstop, hle⟩ := scan_boundary (h.subset List.mem_cons_self)
  obtain ⟨hmem, hbehind⟩ := getLastD_of_sublist h
  obtain ⟨-, hlast, hle'⟩ := scan_boundary hmem
  refine ⟨hstart, hstop, hlast, hle, ?_⟩
  by_cases hmore : more = []
  · rw [hmore]
    exact Nat.le_refl _
  · exact Nat.le_trans (hbehind hmore) hle'

/-- An attribute of a tag of the source is a piece of the source. -/
theorem AttributePlaced.covers {position : Option Position}
    (h : AttributePlaced (.of source) (scan source).1 position) :
    ∃ p a b, position = some p ∧ p.Covers source a b b := by
  obtain ⟨t, ht, name, attributes, selfClosing, hlexeme, u, hu, rfl⟩ := h
  obtain ⟨cs, -, hspelled⟩ := (scan_tiling source).spelled t ht
  simp only [Token.Spelled, hlexeme] at hspelled
  obtain ⟨hstart, hstop, hle⟩ := boundary_of_slice? (hspelled.2.2.slices u hu)
  exact ⟨_, _, _, rfl, Position.covers hstart hstop hstop ⟨hle, Nat.le_refl _⟩⟩

/-- **Positions.**  Every node but the root has a position inside the source.  Its offsets agree with
its location, unless it is a text: that one was joined from the texts `first :: more`, and while the
offsets are those of all of them, the location is that of the first, so that they agree exactly if
there are no more.  The positions of attributes agree. -/
theorem parse_positions (source : String) (hindex : s.index = true) (hloc : s.loc = true) :
    ((parse s source).1.node 0).position = none ∧
      ∀ i, 0 < i → i < (parse s source).1.size → ∃ p, ((parse s source).1.node i).position = some p ∧
        (((parse s source).1.node i).content.type ≠ .text →
          ∃ start stop, p.Covers source start stop stop) ∧
        (((parse s source).1.node i).content.type = .text → ∃ first more,
          (first :: more).Sublist ((scan source).1.filter fun t => t.lexeme.isText) ∧
            p.Covers source first.start first.stop (more.getLastD first).stop ∧
              (first.stop = (more.getLastD first).stop ↔ more = [])) ∧
        ∀ e, ((parse s source).1.node i).element? = some e → ∀ a ∈ e.attributes,
          ∃ p start stop, a.position = some p ∧ p.Covers source start stop stop := by
  have hplaced := parse_placed source hindex hloc
  refine ⟨hplaced.root, fun i hpos hlt => ?_⟩
  cases hplaced.nodes i hpos hlt with
  | @comment t content ht hcontent hposition =>
      obtain ⟨hstart, hstop, hle⟩ := scan_boundary ht
      have hcovers := Position.covers hstart hstop hstop ⟨hle, Nat.le_refl _⟩
      refine ⟨_, hposition, fun _ => ⟨_, _, hcovers⟩, ?_, ?_⟩
      · intro htype
        rw [hcontent] at htype
        cases htype
      · simp [Node.element?, hcontent]
  | @element first more e hread hcontent hposition hattributes =>
      obtain ⟨hstart, -, hstop, hle, hle'⟩ := covers_of_sublist hread
      have hcovers := Position.covers hstart hstop hstop ⟨Nat.le_trans hle hle', Nat.le_refl _⟩
      refine ⟨_, hposition, fun _ => ⟨_, _, hcovers⟩, ?_, ?_⟩
      · intro htype
        rw [hcontent] at htype
        cases htype
      · intro e' he
        obtain rfl : e = e' := by simpa [Node.element?, hcontent] using he
        exact fun a ha => (hattributes a ha).covers
  | @text first more content hread htexts hcontent hposition =>
      obtain ⟨hstart, hupTo, hstop, hle, hle'⟩ := covers_of_sublist hread
      refine ⟨_, hposition, ?_, fun _ => ⟨first, more, ?_, ?_, ?_⟩, ?_⟩
      · intro htype
        rw [hcontent] at htype
        exact absurd rfl htype
      · have hfilter := hread.filter fun t => t.lexeme.isText
        rwa [List.filter_eq_self.mpr htexts] at hfilter
      · exact Position.covers hstart hupTo hstop ⟨hle, hle'⟩
      · constructor
        · intro hsame
          by_contra hmore
          obtain ⟨hmem, hbehind⟩ := getLastD_of_sublist hread
          have htext := htexts _ List.getLastD_mem_cons
          have hlt' := (scan_tiling source).nonempty _ hmem (by
            cases hlexeme : (more.getLastD first).lexeme <;> simp_all [Lexeme.isText, Lexeme.isRaw])
          have := hbehind hmore
          omega
        · rintro rfl
          rfl
      · simp [Node.element?, hcontent]

/-- Both forms of positions are asked for, and comments are left out. -/
def uncommented : Settings :=
  { affix := true, keepBlanks := false, trim := true, comments := false, index := true, loc := true }

/-- The position of a text that was joined across a comment. -/
theorem parse_positions_uncommented : uncommented.index = true ∧ uncommented.loc = true ∧
    ∃ p, ((parse uncommented "a<!--x-->b").1.node 1).position = some p ∧ ∃ first more,
      (first :: more).Sublist ((scan "a<!--x-->b").1.filter fun t => t.lexeme.isText) ∧
        p.Covers "a<!--x-->b" first.start first.stop (more.getLastD first).stop := by
  refine ⟨rfl, rfl, ?_⟩
  obtain ⟨p, hposition, -, htext, -⟩ :=
    (parse_positions (s := uncommented) "a<!--x-->b" rfl rfl).2 1 (by decide)
      (by decide +kernel)
  obtain ⟨first, more, hsub, hcovers, -⟩ := htext (by decide +kernel)
  exact ⟨p, hposition, first, more, hsub, hcovers⟩

/-- The text behind the comment is joined to that before it, and the location does not follow. -/
theorem not_positions_agree_uncommented :
    ¬ ∃ p start stop, ((parse uncommented "a<!--x-->b").1.node 1).position = some p ∧
      p.Covers "a<!--x-->b" start stop stop := by
  have hnode : ((parse uncommented "a<!--x-->b").1.node 1).position =
      some ⟨some 0, some 10, some ⟨⟨0, 0, 0⟩, ⟨1, 0, 1⟩⟩⟩ := by decide +kernel
  rintro ⟨p, start, stop, hposition, hcovers⟩
  obtain rfl := Option.some.inj (hnode.symm.trans hposition)
  obtain ⟨first, last, hloc, -, hlast, -⟩ := hcovers.loc
  have hstop := hcovers.stop
  simp only [Option.some.injEq, Span.mk.injEq] at hloc hstop
  obtain ⟨-, rfl⟩ := hloc
  have hsame : 1 = 10 := hlast.trans hstop.symm
  omega

end Stencil.Markup
