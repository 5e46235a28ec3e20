import Mathlib.Data.List.Pairwise
import TileSelect.Proofs.Source.Lexing
/-!
Cutting a text into tokens loses nothing.

The tokens and the errors of a text each have a span. Put in order, the spans leave gaps, and this
module says what stands in a span and what stands in a gap. The text of a span, taken alone, is cut
into the token or the error it stands for. A gap holds blanks and comments and nothing else. Since a
gap is what is left between two spans, every character of the text is accounted for once.

The run of the cutter is described by `Partitioned`: a gap, a piece that says something, and then
the rest, where the text read so far is kept. What was read matters for numbers only. A number that
does not fit is reported as a whole, so neither the character behind it nor the one before it may
belong to it; `Apart` says the latter and holds behind every piece.
-/

set_option autoImplicit false

namespace TileSelect

open Lexeme

/-! ## Places -/

/-- What a span cuts out of a source. The span starts and ends between characters, with `before`
in front of it, `text` in it and `after` behind it. -/
structure Span.Cuts (span : Span) (source before text after : List Char) : Prop where
  source_eq : source = before ++ (text ++ after)
  start_eq : span.start = byteLength before
  stop_eq : span.stop = byteLength (before ++ text)

/-- The span of a text behind another. -/
def Span.behind (before text : List Char) : Span := ⟨byteLength before, byteLength (before ++ text)⟩

theorem Span.cuts_behind (before text after : List Char) :
    (Span.behind before text).Cuts (before ++ (text ++ after)) before text after :=
  ⟨rfl, rfl, rfl⟩

/-- A text that is not empty has a length. -/
theorem byteLength_pos {text : List Char} (h : text ≠ []) : 0 < byteLength text := by
  cases text with
  | nil => contradiction
  | cons c cs =>
    have := c.utf8Size_pos
    rw [byteLength_cons]
    omega

/-- Where an item stands. -/
def LexedItem.span : LexedItem → Span
  | .token t => t.span
  | .error e => e.span

/-- The spans of the tokens and of the errors of a source, in the order of where they start. -/
def lexedSpans (source : List Char) : List Span :=
  ((tokenize source).1.map Located.span ++ (tokenize source).2.map SyntaxError.span).mergeSort
    fun a b => a.start ≤ b.start

/-- What spans leave between `start` and `stop`: before the first, between each two, and behind
the last. -/
def gaps (stop : Nat) : Nat → List Span → List Span
  | start, [] => [⟨start, stop⟩]
  | start, s :: ss => ⟨start, s.start⟩ :: gaps stop s.stop ss

/-! ## What stands there -/

/-- Text that is skipped, in front of the rest: blank characters, and comments that run up to a
line feed or to the end. -/
inductive Skipped : List Char → List Char → Prop
  | nil (rest : List Char) : Skipped [] rest
  | blank {c : Char} {gap rest : List Char} (h : isBlank c = true) (tail : Skipped gap rest) :
      Skipped (c :: gap) rest
  | comment {body gap rest : List Char} (inside : '\n' ∉ body)
      (stop : ∀ c ∈ (gap ++ rest).head?, c = '\n') (tail : Skipped gap rest) :
      Skipped ('/' :: '/' :: (body ++ gap)) rest

/-- A number that does not fit: all its digits, where the characters around it are none of its
own. -/
inductive Oversized (before after : List Char) : List Char → Prop
  | decimal {run : List Char} (inside : ∀ c ∈ run, isDecimal c = true)
      (large : 0x8000000000000000 ≤ digitsValue 10 run) (stop : Stops isDecimal after)
      (start : ∀ c ∈ before.getLast?, isNameRest c = false) : Oversized before after run
  | hexadecimal {run : List Char} (inside : ∀ c ∈ run, isHex c = true)
      (large : UInt64.size ≤ digitsValue 16 run) (stop : Stops isHex after)
      (start : ∀ c ∈ before.getLast?, isNameRest c = false) :
      Oversized before after ('0' :: 'x' :: run)

/-- What an item says about the text it was made of. -/
inductive LexedItem.Tells (before text after : List Char) : LexedItem → Prop
  | token {t : Token} (alone : tokenize text = ([⟨t, ⟨0, byteLength text⟩⟩], [])) :
      Tells before text after (.token ⟨t, .behind before text⟩)
  | error {fault : SyntaxFault} (alone : tokenize text = ([], [⟨fault, ⟨0, byteLength text⟩⟩]))
      (kind : (fault = .invalidNumber (String.ofList text) ∧ Oversized before after text) ∨
        (fault = .invalidCharacter (String.ofList text) ∧ ∃ c, text = [c])) :
      Tells before text after (.error ⟨fault, .behind before text⟩)

/-- How the text `s` behind `before` was cut. -/
inductive Partitioned : List Char → List Char → List LexedItem → Prop
  | done {before gap : List Char} (skipped : Skipped gap []) : Partitioned before gap []
  | item {before gap text rest : List Char} {i : LexedItem} {is : List LexedItem}
      (skipped : Skipped gap (text ++ rest)) (nonempty : text ≠ [])
      (tells : i.Tells (before ++ gap) text rest)
      (tail : Partitioned (before ++ gap ++ text) rest is) :
      Partitioned before (gap ++ (text ++ rest)) (i :: is)

/-! ## One piece -/

/-- A piece that ends like a word is not followed by a digit. Names and numbers would take the digit
in, and a comment ends at a line feed; the other pieces do not end like this. -/
theorem Lexeme.Form.stops {text rest : List Char} {kind : LexemeKind} (h : Form text rest kind)
    {c : Char} (hc : c ∈ text.getLast?) (hname : isNameRest c = true) : Stops isDecimal rest := by
  have hmem := List.mem_of_getLast? hc
  -- A name and a hexadecimal number go on with more than decimal digits, so they are not followed
  -- by one either.
  cases h with
  | blanks _ hinside =>
    have hblank := hinside c hmem
    rw [isBlank_iff] at hblank
    rw [isNameRest_iff, isNameStart_iff, isDecimal_iff] at hname
    omega
  | comment _ hstop =>
    refine hstop.mono fun d hd => ?_
    have hne : d ≠ '\n' := by
      rintro rfl
      exact absurd hd (by decide)
    simpa using hne
  | name _ _ hstop => exact hstop.mono fun d hd => isNameRest_iff.2 (.inr hd)
  | decimal _ _ hstop => exact hstop
  | hexadecimal _ _ hstop => exact hstop.mono fun d hd => isHex_iff.2 (.inl (isDecimal_iff.1 hd))
  | arrow =>
    cases hc
    exact absurd hname (by decide)
  | mark hknown =>
    obtain ⟨-, hstart, hdecimal, -⟩ := class_of_markToken? hknown
    cases hc
    simp [isNameRest, hstart, hdecimal] at hname
  | stray _ hnot =>
    cases hc
    exact absurd (hnot.symm.trans hname) Bool.false_ne_true

/-- What was read does not end like a word where a number comes next. -/
def Apart (before rest : List Char) : Prop :=
  ∀ c ∈ before.getLast?, isNameRest c = true → Stops isDecimal rest

/-- A piece and what follows it are not torn apart inside a word. -/
theorem Lexeme.Form.apart {text rest : List Char} {kind : LexemeKind} (h : Form text rest kind)
    (before : List Char) : Apart (before ++ text) rest := by
  intro c hc
  have hlast : text.getLast?.isSome = true := by simpa using h.ne_nil
  rw [List.getLast?_append, Option.or_of_isSome hlast] at hc
  exact h.stops hc

/-- A piece is the same piece if it stands alone: nothing is left that it could go on with. -/
theorem Lexeme.Form.alone {text rest : List Char} {kind : LexemeKind} (h : Form text rest kind) :
    Form text [] kind := by
  cases h with
  | blanks hne hinside => exact .blanks hne hinside (stops_nil _)
  | comment hinside => exact .comment hinside (stops_nil _)
  | name hstart hinside => exact .name hstart hinside (stops_nil _)
  | decimal hne hinside => exact .decimal hne hinside (stops_nil _) fun _ ⟨_, _, h, _⟩ => by cases h
  | hexadecimal hne hinside => exact .hexadecimal hne hinside (stops_nil _)
  | arrow => exact .arrow _
  | mark hknown => exact .mark hknown fun _ => stops_nil _
  | stray hblank hname hmark => exact .stray hblank hname hmark fun _ => stops_nil _

theorem Lexeme.Form.scan_alone {text rest : List Char} {kind : LexemeKind}
    (h : Form text rest kind) : scan text = [⟨kind, text⟩] := by
  have hscan := scan_of_form h.alone
  rwa [List.append_nil] at hscan

theorem ofNumber_ne (number : Option Token) :
    LexemeKind.ofNumber number ≠ .blank ∧ LexemeKind.ofNumber number ≠ .badCharacter := by
  cases number <;> simp [LexemeKind.ofNumber]

/-- Blanks in front of what is skipped are skipped with it. -/
theorem skipped_blanks {run gap rest : List Char} (h : ∀ c ∈ run, isBlank c = true)
    (hgap : Skipped gap rest) : Skipped (run ++ gap) rest := by
  induction run with
  | nil => exact hgap
  | cons c run ih =>
    obtain ⟨hc, hrun⟩ := List.forall_mem_cons.1 h
    exact .blank hc (ih hrun)

/-- What is skipped may begin with a piece that leaves no item: with blanks, or with a comment,
which goes on to the end of its line. -/
theorem skipped_of_form {text gap rest : List Char} (h : Form text (gap ++ rest) .blank)
    (hgap : Skipped gap rest) : Skipped (text ++ gap) rest := by
  generalize hkind : LexemeKind.blank = kind at h
  cases h with
  | blanks _ hinside => exact skipped_blanks hinside hgap
  | comment hinside hstop =>
    refine .comment (fun hmem => hinside _ hmem rfl) (fun c hc => ?_) hgap
    simpa using hstop c hc
  | decimal | hexadecimal => exact absurd hkind.symm (ofNumber_ne _).1
  | _ => cases hkind

/-- A number that does not fit is as long as it can be: what is in front of it and what is behind do
not go on with it, since neither is of the digits that it is made of. -/
theorem oversized_of_form {before text rest : List Char} (h : Form text rest .badNumber)
    (hapart : Apart before (text ++ rest)) : Oversized before rest text := by
  -- The number starts with a digit, so what was read does not end like a word.
  have hstart {c : Char} {cs : List Char} (hc : isDecimal c = true) (htext : text = c :: cs) :
      ∀ d ∈ before.getLast?, isNameRest d = false := by
    intro d hd
    rw [Bool.eq_false_iff]
    intro hname
    have hstop := hapart d hd hname
    rw [htext, List.cons_append, stops_cons] at hstop
    exact Bool.false_ne_true (hstop.symm.trans hc)
  -- A number is decimal or hexadecimal.
  generalize hkind : LexemeKind.badNumber = kind at h
  cases h with
  | decimal hne hinside hstop =>
    have hlarge : 0x8000000000000000 ≤ digitsValue 10 text := by
      unfold decimalToken? at hkind
      dsimp only at hkind
      split at hkind
      · cases hkind
      · omega
    cases text with
    | nil => contradiction
    | cons c cs => exact .decimal hinside hlarge hstop (hstart (hinside c (by simp)) rfl)
  | @hexadecimal run _ hne hinside hstop =>
    have hlarge : UInt64.size ≤ digitsValue 16 run := by
      unfold hexToken? at hkind
      dsimp only at hkind
      split at hkind
      · cases hkind
      · omega
    exact .hexadecimal hinside hlarge hstop (hstart (by decide) rfl)
  | _ => cases hkind

/-- A character that starts nothing is a piece of its own. -/
theorem exists_of_badCharacter {text rest : List Char} (h : Form text rest .badCharacter) :
    ∃ c, text = [c] := by
  generalize hkind : LexemeKind.badCharacter = kind at h
  cases h with
  | @stray c => exact ⟨c, rfl⟩
  | decimal | hexadecimal => exact absurd hkind.symm (ofNumber_ne _).2
  | _ => cases hkind

/-- **A piece is what its item says.** Cut alone it gives the same token or the same error, and an
error says what is wrong with the piece. -/
theorem tells_of_form {before text rest : List Char} {kind : LexemeKind} {i : LexedItem}
    (h : Form text rest kind) (hapart : Apart before (text ++ rest))
    (hi : Lexeme.item? ⟨kind, text⟩ (.behind before text) = some i) : i.Tells before text rest := by
  have hscan := h.scan_alone
  cases kind with
  | blank => cases hi
  | token t =>
    cases hi
    exact .token (by simp [tokenize, hscan, locate, item?])
  | badNumber =>
    cases hi
    exact .error (by simp [tokenize, hscan, locate, item?])
      (.inl ⟨rfl, oversized_of_form h hapart⟩)
  | badCharacter =>
    cases hi
    exact .error (by simp [tokenize, hscan, locate, item?])
      (.inr ⟨rfl, exists_of_badCharacter h⟩)

/-- Only blanks give no item. -/
theorem eq_blank_of_item? {l : Lexeme} {span : Span} (h : l.item? span = none) :
    l.kind = .blank := by
  unfold item? at h
  split at h
  · assumption
  all_goals cases h

/-! ## The whole text -/

/-- What is skipped first belongs to the gap that follows, be it the gap in front of an item or the
one at the end. -/
theorem Partitioned.skip {before text rest : List Char} {is : List LexedItem}
    (hform : Form text rest .blank) (h : Partitioned (before ++ text) rest is) :
    Partitioned before (text ++ rest) is := by
  generalize hbefore : before ++ text = before' at h
  -- The gap to be widened is the last one, or the one in front of the next item.
  cases h with
  | done hskipped =>
    rw [← List.append_nil rest] at hform
    exact .done (skipped_of_form hform hskipped)
  | @item _ gap piece rest i is hskipped hne htells htail =>
    subst hbefore
    rw [← List.append_assoc text gap]
    refine .item (skipped_of_form hform hskipped) hne ?_ ?_
    · rwa [← List.append_assoc]
    · rwa [← List.append_assoc before]

/-- **The cutter partitions the text.** The induction is on the length of what is left. A piece
without an item widens the next gap, any other is an item of its own. -/
theorem partitioned_locate (before s : List Char) (hapart : Apart before s) :
    Partitioned before s (locate (byteLength before) (scan s)) := by
  -- The induction is on the text that is left; each piece is moved to what was read.
  induction hn : s.length using Nat.strongRecOn generalizing before s with
  | ind n ih =>
    cases s with
    | nil => exact .done (.nil [])
    | cons c cs =>
      have hlength := length_first_lt c cs
      have htext := text_first c cs
      have hform := form_first c cs
      rw [scan_cons, ← htext]
      rw [← htext] at hapart
      generalize first c cs = cut at *
      obtain ⟨⟨kind, text⟩, rest⟩ := cut
      have htail := ih _ (hn ▸ hlength) (before ++ text) rest (hform.apart before) rfl
      rw [byteLength_append] at htail
      have hspan : Span.mk (byteLength before) (byteLength before + byteLength text)
          = .behind before text := by rw [Span.behind, byteLength_append]
      rw [locate, hspan]
      cases hi : Lexeme.item? ⟨kind, text⟩ (.behind before text) with
      | none =>
        have hblank : kind = .blank := eq_blank_of_item? hi
        subst hblank
        exact htail.skip hform
      | some i =>
        have hskipped : Skipped [] (text ++ rest) := .nil _
        have htells := tells_of_form hform hapart hi
        refine .item hskipped hform.ne_nil ?_ ?_ <;> rwa [List.append_nil]

theorem partitioned_scan (source : List Char) : Partitioned [] source (locate 0 (scan source)) :=
  partitioned_locate [] source (by simp [Apart])

/-- A place in the text that is left is one in the whole, with what was read before in front of it.
-/
theorem Partitioned.tells {before s : List Char} {is : List LexedItem} (h : Partitioned before s is)
    {i : LexedItem} (hi : i ∈ is) :
    ∃ b text a, before ++ s = b ++ (text ++ a) ∧ text ≠ [] ∧ i.Tells b text a := by
  induction h with
  | done => cases hi
  | @item before gap text rest j is _ hne htells _ ih =>
    rcases List.mem_cons.1 hi with rfl | hi
    · exact ⟨before ++ gap, text, rest, by simp, hne, htells⟩
    · obtain ⟨b, t, a, hsplit, hrest⟩ := ih hi
      exact ⟨b, t, a, by rw [← hsplit]; simp, hrest⟩

theorem LexedItem.Tells.span_eq {before text after : List Char} {i : LexedItem}
    (h : i.Tells before text after) : i.span = .behind before text := by
  cases h <;> rfl

/-- An item cuts its text out of the source. -/
theorem cuts_item {source : List Char} {i : LexedItem} (h : i ∈ locate 0 (scan source)) :
    ∃ before text after, i.span.Cuts source before text after := by
  obtain ⟨before, text, after, hsource, -, htells⟩ := (partitioned_scan source).tells h
  rw [List.nil_append] at hsource
  rw [htells.span_eq, hsource]
  exact ⟨before, text, after, Span.cuts_behind ..⟩

/-- The items stand in order, behind what was read. None is empty, so each starts behind the start
of the one before. -/
theorem Partitioned.ordered {before s : List Char} {is : List LexedItem}
    (h : Partitioned before s is) :
    (is.map LexedItem.span).Pairwise (fun a b => a.stop ≤ b.start) ∧
      ∀ span ∈ is.map LexedItem.span,
        byteLength before ≤ span.start ∧ span.start < span.stop := by
  induction h with
  | done => simp
  | @item before gap text rest i is _ hne htells _ ih =>
    -- The items behind the first start where it stops or later.
    obtain ⟨hpairs, hbehind⟩ := ih
    have hpos := byteLength_pos hne
    simp only [byteLength_append] at hbehind
    rw [List.map_cons, List.pairwise_cons, List.forall_mem_cons, htells.span_eq]
    simp only [Span.behind, byteLength_append]
    refine ⟨⟨fun span hspan => (hbehind span hspan).1, hpairs⟩, ⟨by omega, by omega⟩, ?_⟩
    intro span hspan
    obtain ⟨hstart, hstop⟩ := hbehind span hspan
    exact ⟨by omega, hstop⟩

/-- What is left between the items is skipped: in front of the first, between two of them and behind
the last there are only blanks and comments. -/
theorem Partitioned.skipped {before s : List Char} {is : List LexedItem}
    (h : Partitioned before s is) {gap : Span}
    (hgap : gap ∈ gaps (byteLength (before ++ s)) (byteLength before) (is.map LexedItem.span)) :
    ∃ b text a, gap.Cuts (before ++ s) b text a ∧ Skipped text a := by
  induction h with
  | @done before text hskipped =>
    rw [List.map_nil, gaps, List.mem_singleton] at hgap
    subst hgap
    exact ⟨before, text, [], ⟨by simp, rfl, rfl⟩, hskipped⟩
  | @item before skipped text rest i is hskipped hne htells _ ih =>
    rw [List.map_cons, gaps, htells.span_eq] at hgap
    -- The gap is the one in front of the first item, or one of those behind it.
    rcases List.mem_cons.1 hgap with rfl | hgap
    · exact ⟨before, skipped, text ++ rest, Span.cuts_behind .., hskipped⟩
    · have hsplit : before ++ skipped ++ text ++ rest = before ++ (skipped ++ (text ++ rest)) := by
        simp
      rw [← hsplit] at hgap ⊢
      exact ih hgap

/-! ## Tokens and errors -/

/-- The tokens and the errors together are the items, but in another order: all tokens, and then all
errors. -/
theorem perm_spans (is : List LexedItem) :
    ((is.filterMap LexedItem.token?).map Located.span ++
      (is.filterMap LexedItem.error?).map SyntaxError.span).Perm (is.map LexedItem.span) := by
  induction is with
  | nil => exact .refl _
  | cons i is ih =>
    cases i with
    | token t => exact ih.cons t.span
    | error e => exact List.perm_middle.trans (ih.cons e.span)

/-- Of spans that stand in order, no two start at one place. The first of two ends before the second
starts, and it is not empty. -/
theorem eq_of_start_eq {spans : List Span} (hpairs : spans.Pairwise fun a b => a.stop ≤ b.start)
    (hsome : ∀ span ∈ spans, span.start < span.stop) {a b : Span} (ha : a ∈ spans)
    (hb : b ∈ spans) (h : a.start = b.start) : a = b := by
  have : Std.Symm fun a b : Span => a.start = b.start → a = b := ⟨fun _ _ h e => (h e.symm).symm⟩
  have hdistinct : spans.Pairwise fun a b => a.start = b.start → a = b := by
    refine hpairs.imp_of_mem fun {a b} ha _ hab heq => ?_
    have := hsome a ha
    omega
  exact hdistinct.forall_of_forall (fun _ _ _ => rfl) ha hb h

/-- Sorting by where things start puts them into that order. -/
theorem pairwise_mergeSort_start {α : Type} (start : α → Nat) (l : List α) :
    (l.mergeSort fun a b => start a ≤ start b).Pairwise fun a b => start a ≤ start b := by
  refine (List.pairwise_mergeSort ?_ ?_ l).imp of_decide_eq_true
  · simp only [decide_eq_true_eq]
    omega
  · simp only [Bool.or_eq_true, decide_eq_true_eq]
    omega

/-- In the order of where they start, the spans are those of the items as they come. Sorting tokens
and errors together restores the order of the text. -/
theorem lexedSpans_eq (source : List Char) :
    lexedSpans source = (locate 0 (scan source)).map LexedItem.span := by
  obtain ⟨hpairs, hbehind⟩ := (partitioned_scan source).ordered
  have hperm : (lexedSpans source).Perm ((locate 0 (scan source)).map LexedItem.span) :=
    (List.mergeSort_perm _ _).trans (perm_spans _)
  have hsorted : (lexedSpans source).Pairwise fun a b => a.start ≤ b.start :=
    pairwise_mergeSort_start Span.start _
  -- Both lists are in order and no two of the spans start at one place.
  refine List.Perm.eq_of_pairwise ?_ hsorted ?_ hperm
  · intro a b ha hb hab hba
    exact eq_of_start_eq hpairs (fun span hspan => (hbehind span hspan).2) (hperm.mem_iff.1 ha) hb
      (Nat.le_antisymm hab hba)
  · refine hpairs.imp_of_mem fun {a b} ha _ hab => ?_
    have := hbehind a ha
    omega

/-- **Cutting a text loses nothing.** The spans of the tokens and errors of a source are not empty,
lie between characters of the source, and stand one after the other; what is left between them is
blank characters and comments. The text of a token's span alone is cut into that token, and the
text of an error's span into that error: a number that does not fit, with all its digits, or a
single character. -/
theorem tokenize_partitions (source : List Char) :
    (∀ span ∈ lexedSpans source, span.start < span.stop ∧
        ∃ before text after, span.Cuts source before text after) ∧
      (lexedSpans source).Pairwise (fun a b => a.stop ≤ b.start) ∧
      (∀ gap ∈ gaps (byteLength source) 0 (lexedSpans source),
        ∃ before text after, gap.Cuts source before text after ∧ Skipped text after) ∧
      (∀ t ∈ (tokenize source).1, ∃ before text after, t.span.Cuts source before text after ∧
        tokenize text = ([⟨t.token, ⟨0, byteLength text⟩⟩], [])) ∧
      ∀ e ∈ (tokenize source).2, ∃ before text after, e.span.Cuts source before text after ∧
        tokenize text = ([], [⟨e.fault, ⟨0, byteLength text⟩⟩]) ∧
        ((e.fault = .invalidNumber (String.ofList text) ∧ Oversized before after text) ∨
          (e.fault = .invalidCharacter (String.ofList text) ∧ ∃ c, text = [c])) := by
  have h := partitioned_scan source
  obtain ⟨hpairs, hbehind⟩ := h.ordered
  -- All parts are read off the items in the order of the text.
  rw [lexedSpans_eq]
  refine ⟨fun span hspan => ⟨(hbehind span hspan).2, ?_⟩, hpairs, fun gap => h.skipped, ?_, ?_⟩
  · obtain ⟨i, hi, rfl⟩ := List.mem_map.1 hspan
    exact cuts_item hi
  · intro t ht
    obtain ⟨before, text, after, hsource, -, htells⟩ := h.tells (mem_tokens_iff.1 ht)
    rw [List.nil_append] at hsource
    cases htells with
    | token halone => exact ⟨before, text, after, hsource ▸ Span.cuts_behind .., halone⟩
  · intro e he
    obtain ⟨before, text, after, hsource, -, htells⟩ := h.tells (mem_errors_iff.1 he)
    rw [List.nil_append] at hsource
    cases htells with
    | error halone hkind =>
      exact ⟨before, text, after, hsource ▸ Span.cuts_behind .., halone, hkind⟩

/-- A character of two bytes, a number one bit too long, and a comment that the end cuts off. -/
theorem tokenize_partitions_cutOff :
    let source := "a->é 0x1ffffffffffffffff//b".toList
    let number : SyntaxError := ⟨.invalidNumber "0x1ffffffffffffffff", ⟨6, 25⟩⟩
    number ∈ (tokenize source).2 ∧ ⟨25, 28⟩ ∈ gaps (byteLength source) 0 (lexedSpans source) ∧
      (∃ before text after, number.span.Cuts source before text after ∧
        tokenize text = ([], [⟨number.fault, ⟨0, byteLength text⟩⟩]) ∧
        ((number.fault = .invalidNumber (String.ofList text) ∧ Oversized before after text) ∨
          (number.fault = .invalidCharacter (String.ofList text) ∧ ∃ c, text = [c]))) ∧
      ∃ before text after, Span.Cuts ⟨25, 28⟩ source before text after ∧ Skipped text after := by
  intro source number
  have hnumber : number ∈ (tokenize source).2 := by decide
  -- The last gap is the comment, up to the end of the text.
  have hgap : ⟨25, 28⟩ ∈ gaps (byteLength source) 0 (lexedSpans source) := by
    rw [lexedSpans_eq]
    decide
  obtain ⟨-, -, hgaps, -, herrors⟩ := tokenize_partitions source
  exact ⟨hnumber, hgap, herrors number hnumber, hgaps _ hgap⟩

end TileSelect
