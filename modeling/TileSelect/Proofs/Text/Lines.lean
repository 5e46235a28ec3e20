import Mathlib.Data.List.Induction
import TileSelect.Proofs.Source.Partition
import TileSelect.Text.Lines
/-!
Lines and columns, by what stands where.

A line of a text is said here without counting anything: whole lines stand in front of it, it has
no line feed inside, and behind it the text ends or the line does (`IsLine`). How many lines are in
front is then a number of line feeds, and the place of a character is its distance from the front
of its line. The functions that count and cut agree with this.

The one ending with a choice in it is a carriage return before a line feed. It belongs to the
ending, so a line that ends in a line feed alone does not end in a carriage return, whereas the
last line of a text that just stops may.
-/

set_option autoImplicit false

namespace TileSelect

/-! ## Cuts -/

/-- A text is cut behind its front at the length of the front. The walk takes off the bytes of one
character after the other. -/
theorem cutAt_append (p q : List Char) : cutAt (byteLength p) (p ++ q) = some (p, q) := by
  induction p with
  | nil => simp [cutAt]
  | cons c p ih =>
    have hpos := c.utf8Size_pos
    obtain ⟨n, hn⟩ := Nat.exists_eq_succ_of_ne_zero (n := c.utf8Size + byteLength p) (by omega)
    have hrest : n + 1 - c.utf8Size = byteLength p := by omega
    rw [byteLength_cons, hn, List.cons_append, cutAt, if_pos (by omega), hrest, ih]
    rfl

/-- **A cut is where the bytes say.** There is none inside a character, and none behind the end, so
a cut determines the two texts. -/
theorem cutAt_eq_some_iff {n : Nat} {s p q : List Char} :
    cutAt n s = some (p, q) ↔ s = p ++ q ∧ byteLength p = n := by
  constructor
  · intro h
    fun_induction cutAt n s generalizing p q with
    | case1 =>
      cases h
      exact ⟨rfl, rfl⟩
    | case2 => cases h
    | case3 n c cs hfits ih =>
      obtain ⟨⟨p', q'⟩, hcut, heq⟩ := Option.map_eq_some_iff.1 h
      cases heq
      obtain ⟨rfl, hlength⟩ := ih hcut
      exact ⟨rfl, by rw [byteLength_cons, hlength]; omega⟩
    | case4 => cases h
  · rintro ⟨rfl, rfl⟩
    exact cutAt_append p q

/-- The text of a span is what it cuts out; a span that does not fall between characters has none.
-/
theorem charsIn?_of_cuts {span : Span} {source before text after : List Char}
    (h : span.Cuts source before text after) : charsIn? source span = some text := by
  have hstop := h.stop_eq
  rw [byteLength_append, ← h.start_eq] at hstop
  have hlength : span.stop - span.start = byteLength text := by omega
  rw [charsIn?, if_pos (by omega), h.start_eq, h.source_eq, cutAt_append]
  dsimp only
  rw [← h.start_eq, hlength, cutAt_append]
  rfl

/-- The text before a position is the front, if the position is its length. -/
theorem textBefore_append (p q : List Char) : textBefore (p ++ q) (byteLength p) = p := by
  rw [textBefore, byteLength_append, Nat.min_eq_left (Nat.le_add_right ..), cutAt_append]

/-- The text before a position is cut off there; where the text has no such cut, it is all of the
text. In both cases it is a front of the text. -/
theorem exists_textBefore (source : List Char) (offset : Nat) :
    ∃ rest, source = textBefore source offset ++ rest ∧
      (byteLength (textBefore source offset) = offset ∨
        rest = [] ∧ ∀ p q, source = p ++ q → byteLength p ≠ offset) := by
  unfold textBefore
  cases hcut : cutAt (min offset (byteLength source)) source with
  | none =>
    refine ⟨[], (List.append_nil source).symm, .inr ⟨rfl, ?_⟩⟩
    rintro p q rfl rfl
    rw [byteLength_append, Nat.min_eq_left (by omega), cutAt_append] at hcut
    cases hcut
  | some cut =>
    obtain ⟨p, q⟩ := cut
    obtain ⟨hsource, hlength⟩ := cutAt_eq_some_iff.1 hcut
    refine ⟨q, hsource, ?_⟩
    have htotal := congrArg byteLength hsource
    rw [byteLength_append] at htotal
    by_cases hinside : offset ≤ byteLength source
    · exact .inl (by dsimp only; omega)
    · -- Past the end, the cut is the end itself.
      have hnil : q = [] := by
        by_contra hne
        have := byteLength_pos hne
        omega
      refine .inr ⟨hnil, fun p' q' hsplit hp' => ?_⟩
      have hbound := congrArg byteLength hsplit
      rw [byteLength_append] at hbound
      omega

/-! ## Lines -/

/-- A text that a line may stand behind: it is empty or ends in a line feed. -/
def StartsLine (before : List Char) : Prop := ∀ c ∈ before.getLast?, c = '\n'

/-- A line ends here: the text does, or a line feed follows, alone or behind a carriage return. -/
inductive EndsLine : List Char → List Char → Prop
  | finish (line : List Char) : EndsLine line []
  | lineFeed {line : List Char} (rest : List Char) (h : line.getLast? ≠ some '\r') :
      EndsLine line ('\n' :: rest)
  | returned (line rest : List Char) : EndsLine line ('\r' :: '\n' :: rest)

/-- A line of a source, between what is before and what is after it. -/
structure IsLine (source before line after : List Char) : Prop where
  source_eq : source = before ++ (line ++ after)
  starts : StartsLine before
  inside : '\n' ∉ line
  ends : EndsLine line after

/-- Where a line ends does not depend on what is in front of it, unless it is empty: then the front
decides whether a carriage return belongs to it. -/
theorem EndsLine.append_left {line after : List Char} (h : EndsLine line after) (hne : line ≠ [])
    (front : List Char) : EndsLine (front ++ line) after := by
  cases h with
  | finish => exact .finish _
  | lineFeed rest hreturn =>
    apply EndsLine.lineFeed
    rwa [List.getLast?_append, Option.or_of_isSome (by simpa using hne)]
  | returned => exact .returned _ _

/-- Where a line ends does not depend on text that is cut off behind, either, unless the cut is in
the ending. -/
theorem EndsLine.of_append {line after rest : List Char} (h : EndsLine line (after ++ rest))
    (hcut : after.getLast? ≠ some '\r') : EndsLine line after := by
  generalize htext : after ++ rest = text at h
  cases after with
  | nil => exact .finish line
  | cons c after =>
    cases h with
    | finish => cases htext
    | lineFeed _ hreturn =>
      obtain ⟨rfl, -⟩ := List.cons.inj htext
      exact .lineFeed after hreturn
    | returned =>
      obtain ⟨rfl, hafter⟩ := List.cons.inj htext
      cases after with
      | nil => exact absurd rfl hcut
      | cons d after =>
        obtain ⟨rfl, -⟩ := List.cons.inj hafter
        exact .returned line after

theorem EndsLine.isBlank_head? {line after : List Char} (h : EndsLine line after) :
    ∀ c ∈ after.head?, isBlank c = true := by
  intro c hc
  cases h <;> cases hc <;> rfl

theorem startsLine_nil : StartsLine [] := by
  simp [StartsLine]

theorem startsLine_append_lineFeed (front : List Char) : StartsLine (front ++ ['\n']) := by
  simp [StartsLine]

theorem StartsLine.eq_nil_or {before : List Char} (h : StartsLine before) :
    before = [] ∨ ∃ front, before = front ++ ['\n'] := by
  cases hlast : before.getLast? with
  | none => exact .inl (List.getLast?_eq_none_iff.1 hlast)
  | some c =>
    obtain ⟨front, rfl⟩ := List.getLast?_eq_some_iff.1 hlast
    exact .inr ⟨front, by rw [h c hlast]⟩

/-- Every place is on a line: what is before it is whole lines and then the front of its line. The
front has no line feed in it. -/
theorem exists_startsLine (p : List Char) :
    ∃ before head, p = before ++ head ∧ StartsLine before ∧ '\n' ∉ head := by
  induction p using List.reverseRecOn with
  | nil => exact ⟨[], [], rfl, startsLine_nil, List.not_mem_nil⟩
  | append_singleton p c ih =>
    obtain ⟨before, head, rfl, hstarts, hinside⟩ := ih
    by_cases hc : c = '\n'
    · subst hc
      exact ⟨before ++ head ++ ['\n'], [], by simp, startsLine_append_lineFeed _,
        List.not_mem_nil⟩
    · refine ⟨before, head ++ [c], by simp, hstarts, ?_⟩
      simp [hinside, Ne.symm hc]

/-- Every text starts with a line, which may be empty. The line ends at the first ending, or with
the text. -/
theorem exists_endsLine (s : List Char) :
    ∃ line after, s = line ++ after ∧ '\n' ∉ line ∧ EndsLine line after := by
  have hs := List.takeWhile_append_dropWhile (p := (· ≠ '\n')) (l := s)
  have hinside : '\n' ∉ s.takeWhile (· ≠ '\n') := fun hmem => by simpa using mem_takeWhile _ hmem
  have hstop := stops_dropWhile (· ≠ '\n') s
  generalize s.takeWhile (· ≠ '\n') = run at *
  generalize s.dropWhile (· ≠ '\n') = rest at *
  cases rest with
  | nil => exact ⟨run, [], hs.symm, hinside, .finish run⟩
  | cons c rest =>
    have hc : c = '\n' := by simpa using stops_cons.1 hstop
    subst hc
    by_cases hreturn : run.getLast? = some '\r'
    · obtain ⟨line, rfl⟩ := List.getLast?_eq_some_iff.1 hreturn
      refine ⟨line, '\r' :: '\n' :: rest, by rw [← hs]; simp, ?_, .returned line rest⟩
      exact fun hmem => hinside (List.mem_append_left _ hmem)
    · exact ⟨run, '\n' :: rest, hs.symm, hinside, .lineFeed rest hreturn⟩

theorem linesAfter_append_lineFeed (current front rest : List Char) :
    linesAfter current (front ++ '\n' :: rest)
      = linesAfter current (front ++ ['\n']) ++ lines rest := by
  induction front generalizing current with
  | nil => simp [linesAfter, lines]
  | cons c front ih =>
    simp only [List.cons_append, linesAfter]
    split
    · rw [ih, List.cons_append]
    · exact ih _

theorem length_linesAfter_lineFeed (current front : List Char) :
    (linesAfter current (front ++ ['\n'])).length = front.count '\n' + 1 := by
  induction front generalizing current with
  | nil => simp [linesAfter]
  | cons c front ih =>
    simp only [List.cons_append, linesAfter]
    split
    · rename_i hc
      rw [hc, List.length_cons, ih, List.count_cons_self]
    · rename_i hc
      rw [ih, List.count_cons_of_ne hc]

/-- Behind whole lines, the lines go on as if the text started there. -/
theorem lines_append {before : List Char} (h : StartsLine before) (rest : List Char) :
    lines (before ++ rest) = lines before ++ lines rest := by
  rcases h.eq_nil_or with rfl | ⟨front, rfl⟩
  · rfl
  · rw [List.append_assoc]
    exact linesAfter_append_lineFeed [] front rest

theorem length_lines {before : List Char} (h : StartsLine before) :
    (lines before).length = before.count '\n' := by
  rcases h.eq_nil_or with rfl | ⟨front, rfl⟩
  · rfl
  · rw [lines, length_linesAfter_lineFeed]
    simp

theorem linesAfter_of_not_mem {line : List Char} (h : '\n' ∉ line) (current rest : List Char) :
    linesAfter current (line ++ rest) = linesAfter (line.reverse ++ current) rest := by
  induction line generalizing current with
  | nil => rfl
  | cons c line ih =>
    have hc : c ≠ '\n' := (List.ne_of_not_mem_cons h).symm
    simp only [List.cons_append, linesAfter, if_neg hc]
    rw [ih (List.not_mem_of_not_mem_cons h), List.reverse_cons, List.append_assoc,
      List.singleton_append]

/-- **The first line of a text** is what stands before the first ending, unless there is nothing at
all, in which case there are no lines. -/
theorem head?_lines {line after : List Char} (hinside : '\n' ∉ line) (hends : EndsLine line after)
    (hne : line ++ after ≠ []) : (lines (line ++ after)).head? = some line := by
  rw [lines, linesAfter_of_not_mem hinside, List.append_nil]
  cases hends with
  | finish =>
    have hrev : line.reverse.isEmpty = false := by simpa using hne
    rw [linesAfter, hrev]
    simp
  | lineFeed rest hreturn =>
    rw [linesAfter, if_pos rfl]
    · simp
    · intro front hrev
      rw [← List.head?_reverse, hrev] at hreturn
      exact hreturn rfl
  | returned => simp [linesAfter]

/-- The lines before a line are as many as there are line feeds. -/
theorem IsLine.getElem?_lines {source before line after : List Char}
    (h : IsLine source before line after) (hne : line ++ after ≠ []) :
    (lines source)[before.count '\n']? = some line := by
  have hlength := length_lines h.starts
  rw [h.source_eq, lines_append h.starts, List.getElem?_append_right (Nat.le_of_eq hlength),
    hlength, Nat.sub_self, ← List.head?_eq_getElem?]
  exact head?_lines h.inside h.ends hne

/-- Behind the last line feed there is a place, but no line. -/
theorem getElem?_lines_finish {source : List Char} (h : StartsLine source) :
    (lines source)[source.count '\n']? = none :=
  List.getElem?_eq_none (Nat.le_of_eq (length_lines h))

/-! ## Positions -/

/-- **A position is a line and a column.** The line is one more than the line feeds in front, and
the column counts characters and not bytes. -/
theorem positionOf_eq {source before head : List Char} {offset : Nat}
    (htext : textBefore source offset = before ++ head) (hstarts : StartsLine before)
    (hinside : '\n' ∉ head) :
    positionOf source offset = ⟨before.count '\n' + 1, head.length + 1⟩ := by
  have hcount : (before ++ head).count '\n' = before.count '\n' := by
    rw [List.count_append, List.count_eq_zero_of_not_mem hinside, Nat.add_zero]
  have hrun : ∀ c ∈ head.reverse, (c ≠ '\n' : Bool) = true := by
    intro c hc
    have hne : c ≠ '\n' := fun h => hinside (h ▸ List.mem_reverse.1 hc)
    simpa using hne
  have hstops : Stops (· ≠ '\n') before.reverse := by
    intro c hc
    rw [List.head?_reverse] at hc
    simpa using hstarts c hc
  rw [positionOf, htext, hcount, List.reverse_append, takeWhile_of_stops hrun hstops,
    List.length_reverse]

end TileSelect
