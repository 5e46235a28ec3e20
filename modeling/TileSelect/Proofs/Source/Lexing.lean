import TileSelect.Source.Lexeme
/-!
What a lexeme may be, and what a text that is laid out piece by piece is cut into.

The cutter decides about a piece from its first character or two and takes as much as it can. Both
are said here without a cutter: `Form text rest kind` lists the forms that a piece of text has in
front of the rest of the text, and where a form could go on, the rest does not let it. The forms
are those the cutter finds, and each of them is found (`first_eq_iff`), so that every text has
exactly one piece at its front.

A writer does not produce the longest pieces: it writes a space where a run of spaces could stand,
and does not care what blanks come next. `Laid` allows for that. Text that was laid out is cut into
the same tokens at the same places, whatever is behind it (`locate_scan_of_laid`).
-/

set_option autoImplicit false

namespace TileSelect

/-! ## Character classes -/

/-- Characters are the same if their numbers are. The tests on characters become statements about
numbers in this way. -/
theorem eq_iff_toNat {c d : Char} : c = d ↔ c.toNat = d.toNat := Char.toNat_inj.symm

theorem isBlank_iff {c : Char} : isBlank c = true ↔
    c.toNat = 32 ∨ c.toNat = 9 ∨ c.toNat = 13 ∨ c.toNat = 10 ∨ c.toNat = 12 := by
  simp only [isBlank, Bool.or_eq_true, beq_iff_eq, eq_iff_toNat, or_assoc]
  rfl

theorem isDecimal_iff {c : Char} : isDecimal c = true ↔ 48 ≤ c.toNat ∧ c.toNat ≤ 57 := by
  simp only [isDecimal, Bool.and_eq_true, decide_eq_true_eq, Char.le_def, UInt32.le_iff_toNat_le]
  rfl

/-- What a name may start with, by numbers: letters and the underscore. -/
theorem isNameStart_iff {c : Char} : isNameStart c = true ↔
    (97 ≤ c.toNat ∧ c.toNat ≤ 122) ∨ (65 ≤ c.toNat ∧ c.toNat ≤ 90) ∨ c.toNat = 95 := by
  simp only [isNameStart, Bool.or_eq_true, Bool.and_eq_true, decide_eq_true_eq, Char.le_def,
    UInt32.le_iff_toNat_le, beq_iff_eq, eq_iff_toNat, or_assoc]
  rfl

/-- The hexadecimal digits, by their numbers: the ten digits and the first six letters, small or
capital. -/
theorem isHex_iff {c : Char} : isHex c = true ↔
    (48 ≤ c.toNat ∧ c.toNat ≤ 57) ∨ (97 ≤ c.toNat ∧ c.toNat ≤ 102) ∨
      (65 ≤ c.toNat ∧ c.toNat ≤ 70) := by
  have h : isHex c = true ↔ (('0' ≤ c && c ≤ '9') = true ∨ ('a' ≤ c && c ≤ 'f') = true ∨
      ('A' ≤ c && c ≤ 'F') = true) := by
    -- The value of a digit is found range by range, and a character outside of all three has none.
    unfold isHex hexValue?
    split
    · simp_all
    split
    · simp_all
    split <;> simp_all
  simp only [h, Bool.and_eq_true, decide_eq_true_eq, Char.le_def, UInt32.le_iff_toNat_le]
  rfl

/-- A name goes on with what it may start with, and with digits. -/
theorem isNameRest_iff {c : Char} :
    isNameRest c = true ↔ isNameStart c = true ∨ isDecimal c = true := by
  rw [isNameRest, Bool.or_eq_true]

/-! ## Runs -/

/-- What follows does not go on with a run of the characters that a test lets through. -/
def Stops (p : Char → Bool) (rest : List Char) : Prop := ∀ c ∈ rest.head?, p c = false

theorem stops_nil (p : Char → Bool) : Stops p [] := by
  simp [Stops]

/-- A character that a test does not let through stops a run. -/
theorem stops_cons {p : Char → Bool} {c : Char} {cs : List Char} :
    Stops p (c :: cs) ↔ p c = false := by
  simp [Stops]

theorem stops_dropWhile (p : Char → Bool) (s : List Char) : Stops p (s.dropWhile p) := by
  intro c hc
  have h := List.head?_dropWhile_not p s
  rw [Option.mem_def.1 hc] at h
  exact h

/-- What stops a run stops a run of fewer characters. -/
theorem Stops.mono {p q : Char → Bool} {rest : List Char} (h : Stops p rest)
    (hpq : ∀ c, q c = true → p c = true) : Stops q rest := by
  intro c hc
  rw [Bool.eq_false_iff]
  intro hq
  exact Bool.false_ne_true ((h c hc).symm.trans (hpq c hq))

/-- A run that is stopped is the longest one. -/
theorem takeWhile_of_stops {p : Char → Bool} {run rest : List Char}
    (hrun : ∀ c ∈ run, p c = true) (hrest : Stops p rest) : (run ++ rest).takeWhile p = run := by
  rw [List.takeWhile_append_of_pos hrun]
  cases rest with
  | nil => simp
  | cons c cs => simp [stops_cons.1 hrest]

theorem dropWhile_of_stops {p : Char → Bool} {run rest : List Char}
    (hrun : ∀ c ∈ run, p c = true) (hrest : Stops p rest) : (run ++ rest).dropWhile p = rest := by
  rw [List.dropWhile_append_of_pos hrun]
  cases rest with
  | nil => simp
  | cons c cs => simp [stops_cons.1 hrest]

theorem mem_takeWhile {p : Char → Bool} {s : List Char} : ∀ c ∈ s.takeWhile p, p c = true :=
  List.all_eq_true.1 List.all_takeWhile

/-! ## Forms -/

namespace Lexeme

/-- A zero that a hexadecimal number could start with: an `x` and a digit follow. -/
def StartsHex (rest : List Char) : Prop := ∃ d ds, rest = 'x' :: d :: ds ∧ isHex d = true

/-- The forms that a piece of text has in front of the rest of the text. -/
inductive Form : List Char → List Char → LexemeKind → Prop
  | blanks {run rest : List Char} (nonempty : run ≠ []) (inside : ∀ c ∈ run, isBlank c = true)
      (stop : Stops isBlank rest) : Form run rest .blank
  /-- A comment runs up to the line feed that ends the line. -/
  | comment {body rest : List Char} (inside : ∀ c ∈ body, c ≠ '\n')
      (stop : Stops (· ≠ '\n') rest) : Form ('/' :: '/' :: body) rest .blank
  | name {c : Char} {tail rest : List Char} (start : isNameStart c = true)
      (inside : ∀ d ∈ tail, isNameRest d = true) (stop : Stops isNameRest rest) :
      Form (c :: tail) rest (.token (.identifier (String.ofList (c :: tail))))
  | decimal {run rest : List Char} (nonempty : run ≠ []) (inside : ∀ c ∈ run, isDecimal c = true)
      (stop : Stops isDecimal rest) (short : run = ['0'] → ¬ StartsHex rest) :
      Form run rest (.ofNumber (decimalToken? run))
  | hexadecimal {run rest : List Char} (nonempty : run ≠ []) (inside : ∀ c ∈ run, isHex c = true)
      (stop : Stops isHex rest) : Form ('0' :: 'x' :: run) rest (.ofNumber (hexToken? run))
  | arrow (rest : List Char) : Form ['-', '>'] rest (.token .arrow)
  | mark {c : Char} {t : Token} {rest : List Char} (known : markToken? c = some t)
      (alone : c = '-' → Stops (· == '>') rest) : Form [c] rest (.token t)
  /-- A character that starts nothing. -/
  | stray {c : Char} {rest : List Char} (blank : isBlank c = false) (name : isNameRest c = false)
      (mark : markToken? c = none) (alone : c = '/' → Stops (· == '/') rest) :
      Form [c] rest .badCharacter

theorem class_of_markToken? {c : Char} {t : Token} (h : markToken? c = some t) :
    isBlank c = false ∧ isNameStart c = false ∧ isDecimal c = false ∧ c ≠ '/' := by
  unfold markToken? at h
  split at h
  all_goals first | exact ⟨by decide, by decide, by decide, by decide⟩ | cases h

/-- **The cutter finds a form.** What it takes off the front of a text is a comment, a name, a
number, an arrow, a mark, a run of blanks or a stray character, and the rest is one that such a
piece ends at. -/
theorem form_first (c : Char) (cs : List Char) :
    Form (first c cs).1.text (first c cs).2 (first c cs).1.kind := by
  unfold first
  split
  · rename_i hblank
    exact .blanks (by simp) (List.forall_mem_cons.2 ⟨hblank, mem_takeWhile⟩) (stops_dropWhile _ _)
  rename_i hblank
  split
  · rename_i hname
    exact .name hname mem_takeWhile (stops_dropWhile _ _)
  rename_i hname
  split
  · rename_i hdecimal
    split
    · rename_i d ds
      split
      · rename_i hhex
        exact .hexadecimal (by simp) (List.forall_mem_cons.2 ⟨hhex, mem_takeWhile⟩)
          (stops_dropWhile _ _)
      · rename_i hhex
        refine .decimal (by simp) (by simpa using hdecimal) (stops_cons.2 (by decide)) ?_
        rintro - ⟨_, _, hrest, hd⟩
        cases hrest
        exact hhex hd
    · rename_i hother
      refine .decimal (by simp) (List.forall_mem_cons.2 ⟨hdecimal, mem_takeWhile⟩)
        (stops_dropWhile _ _) ?_
      -- A lone zero is followed by what follows it in the text.
      rintro hzero ⟨d, ds, hrest, hd⟩
      obtain ⟨rfl, hrun⟩ := List.cons.inj hzero
      have hrest : cs.dropWhile isDecimal = 'x' :: d :: ds := hrest
      have hcs : cs = 'x' :: d :: ds := by
        rw [← List.takeWhile_append_dropWhile (p := isDecimal) (l := cs), hrun, hrest]
        rfl
      exact hother d ds rfl hcs
  · rename_i hdecimal
    split
    · exact .comment (fun c hc => by simpa using mem_takeWhile c hc) (stops_dropWhile _ _)
    · exact .arrow _
    · rename_i hcomment harrow
      have halone : ∀ {d e : Char}, (∀ ds, c = d → cs = e :: ds → False) →
          c = d → Stops (· == e) cs := by
        intro d e h hc
        cases cs with
        | nil => exact stops_nil _
        | cons x xs =>
          refine stops_cons.2 (beq_eq_false_iff_ne.2 ?_)
          rintro rfl
          exact h xs hc rfl
      split
      · rename_i t hmark
        exact .mark hmark (halone harrow)
      · rename_i hmark
        refine .stray (by simpa using hblank) ?_ hmark (halone hcomment)
        simp_all [isNameRest]

/-- A form is found wherever it stands. The first character tells which kind of piece begins, and
the condition on the rest says that the cutter stops where the form ends. -/
theorem first_of_form {c : Char} {tail rest : List Char} {kind : LexemeKind}
    (h : Form (c :: tail) rest kind) : first c (tail ++ rest) = (⟨kind, c :: tail⟩, rest) := by
  generalize htext : c :: tail = text at h
  cases h with
  | @blanks run rest _ hinside hstop =>
    subst htext
    obtain ⟨hc, htail⟩ := List.forall_mem_cons.1 hinside
    unfold first
    rw [if_pos hc, takeWhile_of_stops htail hstop, dropWhile_of_stops htail hstop]
  | @comment body rest hinside hstop =>
    cases htext
    have hbody : ∀ d ∈ body, (d ≠ '\n' : Bool) = true := fun d hd => by simpa using hinside d hd
    unfold first
    rw [if_neg (by decide), if_neg (by decide), if_neg (by decide)]
    simp only [List.cons_append, takeWhile_of_stops hbody hstop, dropWhile_of_stops hbody hstop]
  | name hstart hinside hstop =>
    cases htext
    have hblank : ¬ isBlank c = true := by
      rw [isBlank_iff]
      rw [isNameStart_iff] at hstart
      omega
    unfold first
    rw [if_neg hblank, if_pos hstart]
    simp only [takeWhile_of_stops hinside hstop, dropWhile_of_stops hinside hstop]
  | @decimal run rest hne hinside hstop hshort =>
    subst htext
    obtain ⟨hc, htail⟩ := List.forall_mem_cons.1 hinside
    have hblank : ¬ isBlank c = true := by
      rw [isBlank_iff]
      rw [isDecimal_iff] at hc
      omega
    have hname : ¬ isNameStart c = true := by
      rw [isNameStart_iff]
      rw [isDecimal_iff] at hc
      omega
    unfold first
    rw [if_neg hblank, if_neg hname, if_pos hc]
    split
    · -- No digit is an `x`, so it follows the number, and no hexadecimal digit follows it.
      rename_i d ds htext
      cases tail with
      | nil =>
        have hhex : ¬ isHex d = true := fun hd => hshort rfl ⟨d, ds, htext, hd⟩
        rw [if_neg hhex]
        exact congrArg _ htext.symm
      | cons x tail =>
        obtain ⟨rfl, -⟩ := List.cons.inj htext
        have hx : isDecimal 'x' = true := htail 'x' (by simp)
        exact absurd hx (by decide)
    · simp only [takeWhile_of_stops htail hstop, dropWhile_of_stops htail hstop]
  | @hexadecimal run rest hne hinside hstop =>
    cases htext
    cases run with
    | nil => contradiction
    | cons d ds =>
      obtain ⟨hd, hds⟩ := List.forall_mem_cons.1 hinside
      unfold first
      rw [if_neg (by decide), if_neg (by decide), if_pos (by decide)]
      simp only [List.cons_append, if_pos hd, takeWhile_of_stops hds hstop,
        dropWhile_of_stops hds hstop]
  | arrow rest =>
    cases htext
    rfl
  | @mark _ t rest hknown halone =>
    cases htext
    obtain ⟨hblank, hname, hdecimal, hslash⟩ := class_of_markToken? hknown
    unfold first
    simp only [hblank, hname, hdecimal, Bool.false_eq_true, if_false, List.nil_append]
    split
    · contradiction
    · exact absurd (stops_cons.1 (halone rfl)) (by decide)
    · rw [hknown]
  | @stray _ rest hblank hname hmark halone =>
    cases htext
    obtain ⟨hstart, hdecimal⟩ := Bool.or_eq_false_iff.1 hname
    unfold first
    simp only [hblank, hstart, hdecimal, Bool.false_eq_true, if_false, List.nil_append]
    split
    · exact absurd (stops_cons.1 (halone rfl)) (by decide)
    · exact absurd hmark (by decide)
    · rw [hmark]

/-- No form is empty, so that every piece takes the lexer further. -/
theorem Form.ne_nil {text rest : List Char} {kind : LexemeKind} (h : Form text rest kind) :
    text ≠ [] := by
  cases h with
  | blanks hne => exact hne
  | decimal hne => exact hne
  | _ => simp

/-- **The pieces are the forms.** A text is cut at its front into a piece and a rest if it is the
two, and the piece has a form in front of the rest. -/
theorem first_eq_iff {c : Char} {cs rest : List Char} {l : Lexeme} :
    first c cs = (l, rest) ↔ l.text ++ rest = c :: cs ∧ Form l.text rest l.kind := by
  -- Left to right, the cutter finds a form. Right to left, a form determines what the cutter finds.
  constructor
  · intro h
    have hform := form_first c cs
    have htext := text_first c cs
    rw [h] at hform htext
    exact ⟨htext, hform⟩
  · rintro ⟨htext, hform⟩
    obtain ⟨kind, text⟩ := l
    cases text with
    | nil => exact absurd rfl hform.ne_nil
    | cons d tail =>
      obtain ⟨rfl, rfl⟩ := List.cons.inj htext
      exact first_of_form hform

/-- A text is scanned into its first piece, and then what is behind. -/
theorem scan_of_form {text rest : List Char} {kind : LexemeKind} (h : Form text rest kind) :
    scan (text ++ rest) = ⟨kind, text⟩ :: scan rest := by
  cases text with
  | nil => exact absurd rfl h.ne_nil
  | cons c tail => rw [List.cons_append, scan_cons, first_of_form h]

/-- The pieces of a text are forms. The induction is on the length of the text, of which every piece
takes at least one character. -/
theorem form_of_mem_scan {s : List Char} {l : Lexeme} (h : l ∈ scan s) :
    ∃ rest, Form l.text rest l.kind := by
  induction hn : s.length using Nat.strongRecOn generalizing s with
  | ind n ih =>
    cases s with
    | nil => cases h
    | cons c cs =>
      rw [scan_cons] at h
      rcases List.mem_cons.1 h with rfl | h
      · exact ⟨_, form_first c cs⟩
      · exact ih _ (hn ▸ length_first_lt c cs) h rfl

end Lexeme

/-! ## Text that is laid out -/

open Lexeme

theorem locate_blank {l : Lexeme} (h : l.kind = .blank) (start : Nat) (ls : List Lexeme) :
    locate start (l :: ls) = locate (start + byteLength l.text) ls := by
  simp [locate, item?, h]

/-- Blanks at the front leave no trace but their length: the items behind them are the same, and
stand as many bytes further on. -/
theorem locate_scan_dropWhile (start : Nat) (s : List Char) :
    locate start (scan s) = locate (start + byteLength (s.takeWhile isBlank))
      (scan (s.dropWhile isBlank)) := by
  -- If there are blanks they are one piece, and it leaves no item.
  by_cases hrun : s.takeWhile isBlank = []
  · have hs := List.takeWhile_append_dropWhile (p := isBlank) (l := s)
    rw [hrun, List.nil_append] at hs
    rw [hrun, hs, byteLength_nil, Nat.add_zero]
  · have hform := Form.blanks hrun mem_takeWhile (stops_dropWhile isBlank s)
    have hscan := scan_of_form hform
    rw [List.takeWhile_append_dropWhile] at hscan
    rw [hscan, locate_blank rfl]

/-- A run of blanks in front leaves no trace but its length, however it is cut. -/
theorem locate_scan_blanks {run : List Char} (h : ∀ c ∈ run, isBlank c = true) (start : Nat)
    (s : List Char) :
    locate start (scan (run ++ s)) = locate (start + byteLength run) (scan s) := by
  rw [locate_scan_dropWhile start (run ++ s), locate_scan_dropWhile _ s,
    List.takeWhile_append_of_pos h, List.dropWhile_append_of_pos h, byteLength_append,
    Nat.add_assoc]

/-- Lexemes in front of a rest of the text: each has its form in front of what follows it, but a
run of blanks may be continued by what follows. -/
inductive Laid : List Lexeme → List Char → Prop
  | nil (rest : List Char) : Laid [] rest
  | blanks {l : Lexeme} {ls : List Lexeme} {rest : List Char} (kind : l.kind = .blank)
      (inside : ∀ c ∈ l.text, isBlank c = true) (tail : Laid ls rest) : Laid (l :: ls) rest
  | piece {l : Lexeme} {ls : List Lexeme} {rest : List Char}
      (form : Form l.text (ls.flatMap Lexeme.text ++ rest) l.kind) (tail : Laid ls rest) :
      Laid (l :: ls) rest

/-- **Text is cut into what it was laid out of**, whatever follows it. The induction is on the
layout. Blanks that are laid side by side become one piece, but leave no items. -/
theorem locate_scan_of_laid {ls : List Lexeme} {rest : List Char} (h : Laid ls rest)
    (start : Nat) :
    locate start (scan (ls.flatMap Lexeme.text ++ rest))
      = locate start ls ++ locate (start + byteLength (ls.flatMap Lexeme.text)) (scan rest) := by
  induction h generalizing start with
  | nil rest => rfl
  | @blanks l ls rest hkind hinside _ ih =>
    rw [List.flatMap_cons, List.append_assoc, locate_scan_blanks hinside, ih,
      locate_blank hkind, byteLength_append, Nat.add_assoc]
  | @piece l ls rest hform _ ih =>
    rw [List.flatMap_cons, List.append_assoc, scan_of_form hform, locate, ih, locate,
      byteLength_append, Nat.add_assoc, List.append_assoc]

/-- Pieces that are laid behind others are laid with them, if the first were laid with the text of
the others in view. -/
theorem Laid.append {ls ms : List Lexeme} {rest : List Char}
    (h : Laid ls (ms.flatMap Lexeme.text ++ rest)) (h' : Laid ms rest) : Laid (ls ++ ms) rest := by
  generalize hs : ms.flatMap Lexeme.text ++ rest = s at h
  induction h with
  | nil => exact h'
  | blanks hkind hinside _ ih => exact .blanks hkind hinside (ih hs)
  | piece hform _ ih =>
    rw [List.cons_append]
    refine .piece ?_ (ih hs)
    rw [List.flatMap_append, List.append_assoc, hs]
    exact hform

/-! ## In front of a line feed -/

theorem Stops.append {p : Char → Bool} {s t : List Char} (hs : Stops p s) (ht : Stops p t) :
    Stops p (s ++ t) := by
  cases s with
  | nil => exact ht
  | cons c s => exact stops_cons.2 (stops_cons.1 hs)

/-- A form stays one if a line feed is put behind the rest, but for a run of blanks that it may
continue. No other piece goes on with a line feed. -/
theorem Lexeme.Form.before_lineFeed {text rest : List Char} {kind : LexemeKind}
    (h : Form text rest kind) (more : List Char) :
    (kind = .blank ∧ ∀ c ∈ text, isBlank c = true) ∨ Form text (rest ++ '\n' :: more) kind := by
  have hstops {p : Char → Bool} (hp : p '\n' = false) (hstop : Stops p rest) :
      Stops p (rest ++ '\n' :: more) := hstop.append (stops_cons.2 hp)
  cases h with
  | blanks _ hinside => exact .inl ⟨rfl, hinside⟩
  | comment hinside hstop => exact .inr (.comment hinside (hstops (by decide) hstop))
  | name hstart hinside hstop => exact .inr (.name hstart hinside (hstops (by decide) hstop))
  | decimal hne hinside hstop hshort =>
    refine .inr (.decimal hne hinside (hstops (by decide) hstop) fun hzero hhex => ?_)
    -- A zero must not become a hexadecimal number: what would follow it are an x and a digit, and a
    -- line feed is neither.
    obtain ⟨d, ds, hrest, hd⟩ := hhex
    rcases rest with _ | ⟨x, _ | ⟨y, rest⟩⟩
    · exact absurd (List.cons.inj hrest).1 (by decide)
    · obtain ⟨rfl, -⟩ := List.cons.inj (List.cons.inj hrest).2
      exact absurd hd (by decide)
    · obtain ⟨rfl, htail⟩ := List.cons.inj hrest
      obtain ⟨rfl, -⟩ := List.cons.inj htail
      exact hshort hzero ⟨y, rest, rfl, hd⟩
  | hexadecimal hne hinside hstop =>
    exact .inr (.hexadecimal hne hinside (hstops (by decide) hstop))
  | arrow => exact .inr (.arrow _)
  | mark hknown halone => exact .inr (.mark hknown fun hc => hstops (by decide) (halone hc))
  | stray hblank hname hmark halone =>
    exact .inr (.stray hblank hname hmark fun hc => hstops (by decide) (halone hc))

/-- A text and a line feed do not run into each other: the pieces of the text are laid in front of
the line feed as they were in front of nothing. -/
theorem laid_scan (s more : List Char) : Laid (scan s) ('\n' :: more) := by
  -- The induction is on the length: what is left behind the first piece is shorter.
  induction hn : s.length using Nat.strongRecOn generalizing s with
  | ind n ih =>
    cases s with
    | nil => exact .nil _
    | cons c cs =>
      have hlength := length_first_lt c cs
      have htail := ih _ (hn ▸ hlength) (first c cs).2 rfl
      rw [scan_cons]
      rcases (form_first c cs).before_lineFeed more with ⟨hkind, hblank⟩ | hform
      · exact .blanks hkind hblank htail
      · refine .piece ?_ htail
        rw [flatten_scan]
        exact hform

/-- **Cutting goes on at a line feed as if it started there.** -/
theorem locate_scan_lineFeed (start : Nat) (s more : List Char) :
    locate start (scan (s ++ '\n' :: more))
      = locate start (scan s) ++ locate (start + byteLength s) (scan ('\n' :: more)) := by
  have h := locate_scan_of_laid (laid_scan s more) start
  rwa [flatten_scan] at h

/-! ## Tokens and errors -/

/-- The token that an item is. -/
def LexedItem.token? : LexedItem → Option Located
  | .token t => some t
  | .error _ => none

/-- The error that an item is. -/
def LexedItem.error? : LexedItem → Option SyntaxError
  | .error e => some e
  | .token _ => none

theorem tokenize_eq (source : List Char) :
    tokenize source = ((locate 0 (scan source)).filterMap LexedItem.token?,
      (locate 0 (scan source)).filterMap LexedItem.error?) := rfl

/-- A token of a source is an item that is a token. The tokens are picked out of the items, in
order. -/
theorem mem_tokens_iff {source : List Char} {t : Located} :
    t ∈ (tokenize source).1 ↔ LexedItem.token t ∈ locate 0 (scan source) := by
  rw [tokenize_eq, List.mem_filterMap]
  constructor
  · rintro ⟨i, hi, ht⟩
    cases i <;> cases ht
    exact hi
  · intro h
    exact ⟨_, h, rfl⟩

/-- An error of a source is an item that is an error. The errors are picked out of the items like
the tokens. -/
theorem mem_errors_iff {source : List Char} {e : SyntaxError} :
    e ∈ (tokenize source).2 ↔ LexedItem.error e ∈ locate 0 (scan source) := by
  rw [tokenize_eq, List.mem_filterMap]
  constructor
  · rintro ⟨i, hi, he⟩
    cases i <;> cases he
    exact hi
  · intro h
    exact ⟨_, h, rfl⟩

/-- The token that a lexeme is, wherever it stands. -/
def Lexeme.token? (l : Lexeme) : Option Token :=
  match l.kind with
  | .token t => some t
  | _ => none

/-- What is wrong with a lexeme, wherever it stands. -/
def Lexeme.fault? (l : Lexeme) : Option SyntaxFault :=
  match l.kind with
  | .badNumber => some (.invalidNumber (String.ofList l.text))
  | .badCharacter => some (.invalidCharacter (String.ofList l.text))
  | _ => none

/-- The tokens do not depend on where the text starts. Only their places do. -/
theorem map_token_locate (start : Nat) (ls : List Lexeme) :
    ((locate start ls).filterMap LexedItem.token?).map Located.token
      = ls.filterMap Lexeme.token? := by
  induction ls generalizing start with
  | nil => rfl
  | cons l ls ih =>
    obtain ⟨kind, text⟩ := l
    cases kind with
    | token t => exact congrArg (t :: ·) (ih _)
    | _ => exact ih _

/-- What is wrong with the pieces of a text does not depend on where the text starts either. -/
theorem map_fault_locate (start : Nat) (ls : List Lexeme) :
    ((locate start ls).filterMap LexedItem.error?).map SyntaxError.fault
      = ls.filterMap Lexeme.fault? := by
  induction ls generalizing start with
  | nil => rfl
  | cons l ls ih =>
    obtain ⟨kind, text⟩ := l
    cases kind with
    | badNumber | badCharacter => exact congrArg (_ :: ·) (ih _)
    | _ => exact ih _

/-- A token comes from a lexeme that is one, and the text of that lexeme has the form that stands
for the token. -/
theorem exists_of_mem_tokens {source : List Char} {t : Located} (h : t ∈ (tokenize source).1) :
    ∃ text rest, Form text rest (.token t.token) := by
  have htoken : t.token ∈ (scan source).filterMap Lexeme.token? := by
    rw [← map_token_locate 0]
    exact List.mem_map_of_mem h
  obtain ⟨⟨kind, text⟩, hl, hkind⟩ := List.mem_filterMap.1 htoken
  cases kind <;> cases hkind
  obtain ⟨rest, hform⟩ := form_of_mem_scan hl
  exact ⟨text, rest, hform⟩

end TileSelect
