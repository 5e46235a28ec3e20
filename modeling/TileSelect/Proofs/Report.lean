import Mathlib.Data.List.Forall2
import TileSelect.Proofs.Pattern.Places
import TileSelect.Proofs.Text.Lines
import TileSelect.Report
/-!
Reports point at the error.

A report is a row of entries, one for each error, and each entry is a message, a place and perhaps
a line with carets under it. The line number, the column, the text of the line and the number of
carets are found in four different ways: by counting line feeds, by looking back for the last one,
by cutting the source into lines, and by cutting the text of the span into lines. What they have
in common is a split of the source at the place, into the lines before, what stands on the line in
front of the place, and the rest.

For any span at all, that split exists and the first three agree on it (`Entry.Locates`). The
carets agree with them where the span is solid. The text of the span may then go on over several
lines, but where its first line ends, the line of the source ends as well: the span does not stop
between the two characters of an ending.
-/

set_option autoImplicit false

namespace TileSelect

namespace Report

/-! ## Entries -/

/-- A line of the source as an entry shows it, with blanks and then carets under it. -/
structure Excerpt where
  number : Nat
  line : List Char
  indent : Nat
  carets : Nat

/-- The excerpt in full. In front of the line and of what is under it there is the same number of
characters. -/
def Excerpt.render (x : Excerpt) : String :=
  let number := x.number.repr
  let margin := row number.length ' '
  margin ++ " |\n"
    ++ number ++ " | " ++ String.ofList x.line ++ "\n"
    ++ margin ++ " | " ++ row x.indent ' ' ++ row x.carets '^' ++ "\n"

/-- What is reported of one error. -/
structure Entry where
  message : String
  line : Nat
  column : Nat
  excerpt : Option Excerpt

/-- The entry in full. -/
def Entry.render (path : String) (e : Entry) : String :=
  "error: " ++ e.message ++ "\n  --> " ++ path ++ ":" ++ e.line.repr ++ ":" ++ e.column.repr ++ "\n"
    ++ match e.excerpt with
      | some x => x.render
      | none => ""

/-- An entry says where a span starts. In front of the place are the lines `before` and, on its own
line, `head`; a place that is not between two characters of the source counts as its end. The line
is shown unless there is nothing on it and nothing behind it. -/
structure Entry.Locates (e : Entry) (source : List Char) (span : Span) (message : String)
    (before head rest : List Char) : Prop where
  source_eq : source = before ++ (head ++ rest)
  starts : StartsLine before
  inside : '\n' ∉ head
  place : byteLength (before ++ head) = span.start ∨
    rest = [] ∧ ∀ p q, source = p ++ q → byteLength p ≠ span.start
  message_eq : e.message = message
  line_eq : e.line = before.count '\n' + 1
  column_eq : e.column = head.length + 1
  missing_iff : e.excerpt = none ↔ head ++ rest = []
  shown : ∀ x ∈ e.excerpt, x.number = e.line ∧ x.indent + 1 = e.column ∧ 1 ≤ x.carets ∧
    ∃ after, IsLine source before x.line after

/-- An excerpt underlines a span: under the part of the span that is on its first line, and under
nothing else, there are carets. -/
structure Excerpt.Underlines (x : Excerpt) (source : List Char) (span : Span)
    (before head marked tail after : List Char) : Prop where
  isLine : IsLine source before x.line after
  line_eq : x.line = head ++ (marked ++ tail)
  number_eq : x.number = before.count '\n' + 1
  indent_eq : x.indent = head.length
  carets_eq : x.carets = marked.length
  nonempty : marked ≠ []
  start_eq : span.start = byteLength (before ++ head)
  /-- The span stops behind `marked`, or goes on behind the end of the line. -/
  stop : span.stop = byteLength (before ++ (head ++ marked)) ∨
    tail = [] ∧ byteLength (before ++ x.line) < span.stop

/-- An entry points at a span: it underlines text, or it is about the end of the source. -/
inductive Entry.PointsAt (e : Entry) (source : List Char) : Span → Prop
  | text {span : Span} {x : Excerpt} {before head marked tail after : List Char}
      (nonempty : span.start < span.stop) (shown : e.excerpt = some x)
      (under : x.Underlines source span before head marked tail after) : PointsAt e source span
  | finish (single : ∀ x ∈ e.excerpt, x.carets = 1) : PointsAt e source (.point (byteLength source))

/-! ## The entry of a span -/

/-- The excerpt for a span. -/
def excerptOf (source : List Char) (span : Span) : Option Excerpt :=
  let position := positionOf source span.start
  (lines source)[position.line - 1]?.map fun line =>
    ⟨position.line, line, position.column - 1, caretCount source span⟩

/-- The entry for a span. -/
def entryOf (source : List Char) (span : Span) (message : String) : Entry :=
  let position := positionOf source span.start
  ⟨message, position.line, position.column, excerptOf source span⟩

/-- What the report says of an error is the entry, rendered. -/
theorem entry_eq (path : String) (source : List Char) (span : Span) (message : String) :
    entry path source span message = (entryOf source span message).render path := by
  unfold entry Entry.render entryOf excerpt excerptOf
  dsimp only
  congr 1
  cases (lines source)[(positionOf source span.start).line - 1]? <;> rfl

/-- The line that is shown is the one on which the place is, counted from one. -/
theorem excerptOf_of_isLine {source before head line after : List Char} {span : Span}
    (htext : textBefore source span.start = before ++ head) (hinside : '\n' ∉ head)
    (h : IsLine source before line after) (hne : line ++ after ≠ []) :
    excerptOf source span
      = some ⟨before.count '\n' + 1, line, head.length, caretCount source span⟩ := by
  rw [excerptOf, positionOf_eq htext h.starts hinside]
  simp only [Nat.add_sub_cancel, h.getElem?_lines hne, Option.map_some]

theorem one_le_caretCount (source : List Char) (span : Span) : 1 ≤ caretCount source span := by
  unfold caretCount
  split
  · exact Nat.le_max_left ..
  · exact Nat.le_refl 1

/-- **Every entry locates its span.** The line and the column are counted up to where the span
starts, also if it starts inside a character or behind the end. -/
theorem locates_entryOf (source : List Char) (span : Span) (message : String) :
    ∃ before head rest, (entryOf source span message).Locates source span message before head
      rest := by
  obtain ⟨rest, hsource, hplace⟩ := exists_textBefore source span.start
  obtain ⟨before, head, htext, hstarts, hinside⟩ := exists_startsLine (textBefore source span.start)
  have hposition := positionOf_eq htext hstarts hinside
  rw [htext] at hsource hplace
  rw [List.append_assoc] at hsource
  have hline : (entryOf source span message).line = before.count '\n' + 1 := by
    rw [entryOf, hposition]
  have hcolumn : (entryOf source span message).column = head.length + 1 := by
    rw [entryOf, hposition]
  by_cases hne : head ++ rest = []
  · -- Nothing is left, so the place is behind the last line feed.
    have hexcerpt : (entryOf source span message).excerpt = none := by
      rw [hne, List.append_nil] at hsource
      rw [entryOf, excerptOf, hposition, hsource]
      simp only [Nat.add_sub_cancel, getElem?_lines_finish hstarts, Option.map_none]
    refine ⟨before, head, rest, hsource, hstarts, hinside, hplace, rfl, hline, hcolumn,
      iff_of_true hexcerpt hne, ?_⟩
    intro x hx
    rw [hexcerpt] at hx
    cases hx
  · obtain ⟨line, after, hsplit, hnone, hends⟩ := exists_endsLine (head ++ rest)
    have hisLine : IsLine source before line after :=
      ⟨hsource.trans (congrArg (before ++ ·) hsplit), hstarts, hnone, hends⟩
    have hexcerpt := excerptOf_of_isLine htext hinside hisLine (hsplit ▸ hne)
    refine ⟨before, head, rest, hsource, hstarts, hinside, hplace, rfl, hline, hcolumn,
      iff_of_false (by simp [entryOf, hexcerpt]) hne, ?_⟩
    intro x hx
    cases hexcerpt.symm.trans hx
    exact ⟨hline.symm, hcolumn.symm, one_le_caretCount source span, after, hisLine⟩

/-! ## Carets -/

/-- The text of a solid span, in front of more text: its first line is at the front of the line that
it stands on, and is all of the text or ends where that line does. -/
theorem exists_marked {text : List Char} (rest : List Char) (hne : text ≠ [])
    (hfirst : ∀ c ∈ text.head?, isBlank c = false)
    (hlast : ∀ c ∈ text.getLast?, isBlank c = false) :
    ∃ marked tail after, text ++ rest = marked ++ (tail ++ after) ∧ '\n' ∉ marked ++ tail ∧
      EndsLine (marked ++ tail) after ∧ marked ≠ [] ∧ (lines text).head? = some marked ∧
      (marked = text ∨ tail = [] ∧ ∃ more, more ≠ [] ∧ text = marked ++ more) := by
  obtain ⟨line, after, hsplit, hinside, hends⟩ := exists_endsLine (text ++ rest)
  rcases List.append_eq_append_iff.1 hsplit with ⟨tail, rfl, -⟩ | ⟨more, rfl, rfl⟩
  · -- The span stops on the line it starts on.
    have hmarked : '\n' ∉ text := fun h => hinside (List.mem_append_left tail h)
    have hhead := head?_lines hmarked (.finish text) (by simpa using hne)
    rw [List.append_nil] at hhead
    rw [List.append_assoc] at hsplit
    exact ⟨text, tail, after, hsplit, hinside, hends, hne, hhead, .inl rfl⟩
  · -- The span goes on behind the line, or stops where the line does.
    have hmore : more.getLast? ≠ some '\r' := by
      intro h
      have hblank := hlast '\r' (by rw [List.getLast?_append, h, Option.some_or]; rfl)
      exact absurd hblank (by decide)
    have hline : line ≠ [] := by
      rintro rfl
      rw [List.nil_append] at hne hfirst
      obtain ⟨c, tail, rfl⟩ := List.exists_cons_of_ne_nil hne
      exact Bool.false_ne_true ((hfirst c rfl).symm.trans (hends.isBlank_head? c rfl))
    have hhead := head?_lines hinside (hends.of_append hmore) hne
    rw [← List.append_nil line] at hinside hends
    refine ⟨line, [], more ++ rest, List.append_assoc .., hinside, hends, hline, hhead, ?_⟩
    by_cases hnil : more = []
    · exact .inl (by rw [hnil, List.append_nil])
    · exact .inr ⟨rfl, more, hnil, rfl⟩

/-- There are as many carets as characters of the span on its first line, and no fewer than one. -/
theorem caretCount_of_cuts {span : Span} {source before text after marked : List Char}
    (h : span.Cuts source before text after) (hmarked : (lines text).head? = some marked)
    (hne : marked ≠ []) : caretCount source span = marked.length := by
  have hpos := List.length_pos_iff.2 hne
  rw [caretCount, charsIn?_of_cuts h]
  dsimp only
  rw [List.headD_eq_head?_getD, hmarked, Option.getD_some]
  omega

/-- **A solid span is underlined.** It is cut out of the source between two texts; the line it
starts on begins in the first of them and ends in the span or behind it. -/
theorem underlines_excerptOf {source : List Char} {span : Span} (h : span.Solid source) :
    ∃ x before head marked tail after, excerptOf source span = some x ∧
      x.Underlines source span before head marked tail after := by
  obtain ⟨front, text, rest, hcuts, hne, hfirst, hlast⟩ := h.cuts
  obtain ⟨before, head, rfl, hstarts, hhead⟩ := exists_startsLine front
  obtain ⟨marked, tail, after, hsplit, hinside, hends, hmarked, hlines, hstop⟩ :=
    exists_marked rest hne hfirst hlast
  -- The line: what is in front of the span, what is marked, and what is behind on the same line.
  have hline : IsLine source before (head ++ (marked ++ tail)) after := by
    refine ⟨?_, hstarts, ?_, hends.append_left (by simp [hmarked]) head⟩
    · rw [hcuts.source_eq, hsplit]
      simp
    · rw [List.mem_append]
      exact not_or.2 ⟨hhead, hinside⟩
  have htext : textBefore source span.start = before ++ head := by
    rw [hcuts.start_eq, hcuts.source_eq]
    exact textBefore_append _ _
  have hexcerpt := excerptOf_of_isLine htext hhead hline (by simp [hmarked])
  have hcarets := caretCount_of_cuts hcuts hlines hmarked
  refine ⟨_, before, head, marked, tail, after, hexcerpt, hline, rfl, rfl, rfl, hcarets, hmarked,
    hcuts.start_eq, ?_⟩
  rw [hcuts.stop_eq]
  -- The span ends on the line it starts on, or it goes on behind a line feed.
  rcases hstop with rfl | ⟨rfl, more, hmore, rfl⟩
  · exact .inl (by rw [List.append_assoc])
  · have hpos := byteLength_pos hmore
    refine .inr ⟨rfl, ?_⟩
    simp only [byteLength_append, byteLength_nil]
    omega

theorem pointsAt_of_solid {source : List Char} {span : Span} (h : span.Solid source)
    (message : String) : (entryOf source span message).PointsAt source span := by
  obtain ⟨x, before, head, marked, tail, after, hexcerpt, hunder⟩ := underlines_excerptOf h
  exact .text h.nonempty hexcerpt hunder

/-- An entry for the end of the source points there: it has a single caret, under whatever line it
shows. -/
theorem pointsAt_finish (source : List Char) (message : String) :
    (entryOf source (.point (byteLength source)) message).PointsAt source
      (.point (byteLength source)) := by
  apply Entry.PointsAt.finish
  intro x hx
  obtain ⟨line, -, rfl⟩ := Option.map_eq_some_iff.1 hx
  have hcuts : Span.Cuts (.point (byteLength source)) source source [] [] :=
    ⟨by simp, rfl, by simp [Span.point]⟩
  show caretCount source (.point (byteLength source)) = 1
  rw [caretCount, charsIn?_of_cuts hcuts]
  rfl

end Report

/-! ## Reports -/

/-- The errors that a report has an entry for, each with its span and message. -/
def CompileError.marks : CompileError → List (Span × String)
  | .form errors => errors.map fun s => (s.span, s.fault.message)
  | .definition d => [(d.span, d.message)]

/-- What a report says at the end: the number of errors of the form. -/
def CompileError.summary : CompileError → String
  | .form errors => (CompileError.form errors).message ++ "\n"
  | .definition _ => ""

namespace CompileError

open Report

/-- A report consists of its entries and of a summary, which there is only for errors of the form.
The entries come in the order of the errors. -/
theorem render_eq (path source : String) (e : CompileError) :
    e.render path source
      = String.join (e.marks.map fun mark => (entryOf source.toList mark.1 mark.2).render path)
        ++ e.summary := by
  cases e with
  | form errors =>
    simp only [render, marks, summary, List.map_map, entry_eq, Function.comp_def,
      String.append_assoc]
  | definition d =>
    simp [render, marks, summary, entry_eq]

/-- What is reported of a source is at text or at its end: errors of the form may be at the end, and
those of a pattern are at text. -/
theorem solid_of_ofSource {source : String} {e : CompileError}
    (h : Tables.ofSource source = .error e) {mark : Span × String} (hmark : mark ∈ e.marks) :
    mark.1.Solid source.toList ∨ mark.1 = .point (byteLength source.toList) := by
  rw [Tables.ofSource] at h
  split at h
  · rename_i errors hparse
    cases h
    obtain ⟨s, hs, rfl⟩ := List.mem_map.1 hmark
    exact Document.solid_of_parse hparse hs
  · rename_i document hparse
    split at h
    · rename_i d hpatterns
      cases h
      rw [List.mem_singleton.1 hmark]
      exact .inl (Document.solid_of_patterns hparse hpatterns)
    · cases h

/-- Errors of the form that are found in order are reported as they are found. Otherwise they would
be sorted by where they start. -/
theorem ofSource_of_sorted {s : String} {text : List Char} {errors : List SyntaxError}
    (h : s = String.ofList text)
    (hfound : (tokenize text).2
      ++ (Parser.groups (.point (byteLength text)) (tokenize text).1).2 = errors)
    (hsorted : errors.Pairwise fun a b => decide (a.span.start ≤ b.span.start) = true)
    (hne : errors.isEmpty = false) : Tables.ofSource s = .error (.form errors) := by
  have hparse : Document.parse text = .error errors := by
    rw [Document.parse]
    simp only [hfound, hne, List.mergeSort_of_pairwise hsorted]
    rfl
  rw [Tables.ofSource, h, String.toList_ofList, hparse]

/-- Why the patterns of a text are refused, if they are. -/
def refusal? (text : List Char) : Option DefinitionError :=
  match Document.parse text with
  | .error _ => none
  | .ok document =>
    match document.patterns with
    | .error e => some e
    | .ok _ => none

/-- A text whose patterns are refused is reported with the refusal, which is the first that the
compiler comes to. -/
theorem ofSource_of_refusal? {s : String} {text : List Char} {e : DefinitionError}
    (h : s = String.ofList text) (hrefused : refusal? text = some e) :
    Tables.ofSource s = .error (.definition e) := by
  unfold refusal? at hrefused
  rw [Tables.ofSource, h, String.toList_ofList]
  -- Neither the document nor its patterns are computed here.
  generalize Document.parse text = outcome at hrefused ⊢
  cases outcome with
  | error errors => cases hrefused
  | ok document =>
    dsimp only at hrefused ⊢
    generalize document.patterns = patterns at hrefused ⊢
    cases patterns with
    | ok ps => cases hrefused
    | error e =>
      cases hrefused
      rfl

/-- **Reports point at the error.** A report has one entry for each error, in order, and each entry
locates the span of its error, whatever that span is. For the errors of a source, the carets of an
entry are under the characters on the first line of the span and under no others, on the line that
the span starts on; an error at the end of the source has one caret or no excerpt. -/
theorem render_pointsAt (path source : String) (e : CompileError) :
    ∃ entries : List Report.Entry,
      e.render path source = String.join (entries.map (Report.Entry.render path)) ++ e.summary ∧
      List.Forall₂ (fun (mark : Span × String) entry => ∃ before head rest,
        entry.Locates source.toList mark.1 mark.2 before head rest) e.marks entries ∧
      (Tables.ofSource source = .error e →
        List.Forall₂ (fun (mark : Span × String) entry => entry.PointsAt source.toList mark.1)
          e.marks entries) := by
  -- One entry for each mark, in order.
  refine ⟨e.marks.map fun mark => entryOf source.toList mark.1 mark.2, ?_, ?_, ?_⟩
  · rw [render_eq, List.map_map]
    rfl
  · rw [List.forall₂_map_right_iff, List.forall₂_same]
    intro mark _
    exact locates_entryOf source.toList mark.1 mark.2
  · intro h
    rw [List.forall₂_map_right_iff, List.forall₂_same]
    intro mark hmark
    rcases solid_of_ofSource h hmark with hsolid | hfinish
    · exact pointsAt_of_solid hsolid mark.2
    · rw [hfinish]
      exact pointsAt_finish source.toList mark.2

/-- Characters of two bytes, one in a comment and one that starts nothing, and an end without a line
feed; and an expression that goes on behind a carriage return and line feed. -/
theorem render_pointsAt_samples :
    ∀ sample ∈ [
        ("// é\r\na: µ (x", CompileError.form [⟨.invalidCharacter "µ", ⟨10, 12⟩⟩,
          ⟨.unexpectedEnd .closingParen, ⟨15, 15⟩⟩]),
        ("a: (FOO\r\n b) -> [x];", .definition ⟨"a", 0, ⟨3, 12⟩, .unknownOperation "FOO"⟩)],
      Tables.ofSource sample.1 = .error sample.2 ∧
      ∃ entries, sample.2.render "a.isel" sample.1
          = String.join (entries.map (Report.Entry.render "a.isel")) ++ sample.2.summary ∧
        List.Forall₂ (fun (mark : Span × String) entry => ∃ before head rest,
          entry.Locates sample.1.toList mark.1 mark.2 before head rest) sample.2.marks entries ∧
        List.Forall₂ (fun (mark : Span × String) entry =>
          entry.PointsAt sample.1.toList mark.1) sample.2.marks entries := by
  intro sample hsample
  have hfails : Tables.ofSource sample.1 = .error sample.2 := by
    rcases List.mem_cons.1 hsample with rfl | hsample
    · exact ofSource_of_sorted rfl (by decide +kernel) (by decide) rfl
    · rw [List.mem_singleton.1 hsample]
      exact ofSource_of_refusal? rfl (by decide +kernel)
  obtain ⟨entries, hrender, hlocates, hpoints⟩ := render_pointsAt "a.isel" sample.1 sample.2
  exact ⟨hfails, entries, hrender, hlocates, hpoints hfails⟩

end CompileError

end TileSelect
