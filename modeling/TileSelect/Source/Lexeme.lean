import TileSelect.Source.SyntaxError
/-!
From text to tokens.

A text is first cut into lexemes, each a non-empty piece of the text together with what it is:
a blank, a token, a number that does not fit, or a character that starts nothing. The pieces
put together again are the text (`flatten_scan`), so nothing is read twice and nothing is
skipped unseen. Each piece is as long as its kind allows: a run of blanks, digits or letters
ends only where the run ends, `->` is not `-` and `>`, and a comment runs up to the line's end.

Positions are not the cutter's business. They are assigned afterwards, from left to right, by
adding up the lengths of the pieces.
-/

set_option autoImplicit false

namespace TileSelect

/-! ## Character classes -/

/-- Space, tab, carriage return, line feed and form feed. -/
def isBlank (c : Char) : Bool :=
  c == ' ' || c == '\t' || c == '\r' || c == '\n' || c == '\x0c'

/-- The decimal digits. -/
def isDecimal (c : Char) : Bool := '0' ≤ c && c ≤ '9'

/-- The value of a hexadecimal digit. -/
def hexValue? (c : Char) : Option Nat :=
  if '0' ≤ c && c ≤ '9' then some (c.toNat - '0'.toNat)
  else if 'a' ≤ c && c ≤ 'f' then some (c.toNat - 'a'.toNat + 10)
  else if 'A' ≤ c && c ≤ 'F' then some (c.toNat - 'A'.toNat + 10)
  else none

/-- The hexadecimal digits. -/
def isHex (c : Char) : Bool := (hexValue? c).isSome

/-- What may start an identifier: a letter of the alphabet or an underscore. -/
def isNameStart (c : Char) : Bool :=
  ('a' ≤ c && c ≤ 'z') || ('A' ≤ c && c ≤ 'Z') || c == '_'

/-- What may continue an identifier. -/
def isNameRest (c : Char) : Bool := isNameStart c || isDecimal c

/-- The token that a punctuation character is when it stands alone. -/
def markToken? (c : Char) : Option Token :=
  match c with
  | '(' => some .leftParen
  | ')' => some .rightParen
  | '[' => some .leftBracket
  | ']' => some .rightBracket
  | '<' => some .less
  | '>' => some .greater
  | ':' => some .colon
  | ';' => some .semicolon
  | '|' => some .pipe
  | ',' => some .comma
  | '.' => some .dot
  | '+' => some .plus
  | '-' => some .minus
  | '*' => some .star
  | '@' => some .atSign
  | _ => none

/-! ## Numbers -/

/-- The number that digits spell in a base. -/
def digitsValue (base : Nat) (digits : List Char) : Nat :=
  digits.foldl (fun n c => n * base + (hexValue? c).getD 0) 0

/-- A decimal number, if it is below `2 ^ 63`. -/
def decimalToken? (digits : List Char) : Option Token :=
  let n := digitsValue 10 digits
  if n < 0x8000000000000000 then some (.number (Int64.ofNat n)) else none

/-- A hexadecimal number, if it is below `2 ^ 64`; its bits are read as a signed number. -/
def hexToken? (digits : List Char) : Option Token :=
  let n := digitsValue 16 digits
  if n < UInt64.size then some (.number (Int64.ofNat n)) else none

/-! ## Lexemes -/

/-- What a piece of text is. -/
inductive LexemeKind where
  | blank
  | token (token : Token)
  | badNumber
  | badCharacter
deriving DecidableEq

/-- A piece of text and what it is. -/
structure Lexeme where
  kind : LexemeKind
  text : List Char
deriving DecidableEq

/-- The kind of a number's spelling, given how it was read. -/
def LexemeKind.ofNumber : Option Token → LexemeKind
  | some t => .token t
  | none => .badNumber

/-- The piece that starts with `c` in the text `c :: cs`, and what follows it. -/
def Lexeme.first (c : Char) (cs : List Char) : Lexeme × List Char :=
  if isBlank c then
    (⟨.blank, c :: cs.takeWhile isBlank⟩, cs.dropWhile isBlank)
  else if isNameStart c then
    let tail := cs.takeWhile isNameRest
    (⟨.token (.identifier (String.ofList (c :: tail))), c :: tail⟩, cs.dropWhile isNameRest)
  else if isDecimal c then
    match c, cs with
    | '0', 'x' :: d :: ds =>
      if isHex d then
        let digits := d :: ds.takeWhile isHex
        (⟨.ofNumber (hexToken? digits), '0' :: 'x' :: digits⟩, ds.dropWhile isHex)
      else
        -- Without a digit after it, the `x` starts a name.
        (⟨.ofNumber (decimalToken? ['0']), ['0']⟩, 'x' :: d :: ds)
    | _, _ =>
      let digits := c :: cs.takeWhile isDecimal
      (⟨.ofNumber (decimalToken? digits), digits⟩, cs.dropWhile isDecimal)
  else
    match c, cs with
    | '/', '/' :: ds =>
      -- The line feed that ends a comment is not part of it.
      (⟨.blank, '/' :: '/' :: ds.takeWhile (· ≠ '\n')⟩, ds.dropWhile (· ≠ '\n'))
    | '-', '>' :: ds => (⟨.token .arrow, ['-', '>']⟩, ds)
    | _, _ =>
      match markToken? c with
      | some t => (⟨.token t, [c]⟩, cs)
      -- One character is skipped, so that it hides nothing that follows.
      | none => (⟨.badCharacter, [c]⟩, cs)

/-- **A cut loses nothing.** The piece and what follows it are the text, whatever kind of piece was
found: every cut is made with a pair of functions that take and leave the same characters. -/
theorem Lexeme.text_first (c : Char) (cs : List Char) :
    (first c cs).1.text ++ (first c cs).2 = c :: cs := by
  unfold first
  -- The cases are those of the first character, in the order in which they are tried.
  split
  · simp
  split
  · simp
  split
  · split
    · split <;> simp
    · simp
  · split
    · simp
    · simp
    · split <;> simp

/-- A piece is never empty, so what follows it is shorter than the text. This is what lets the
scanner stop after as many pieces as there are characters. -/
theorem Lexeme.length_first_lt (c : Char) (cs : List Char) :
    (first c cs).2.length < (c :: cs).length := by
  have nonempty : (first c cs).1.text ≠ [] := by
    unfold first
    split
    · simp
    split
    · simp
    split
    · split
      · split <;> simp
      · simp
    · split
      · simp
      · simp
      · split <;> simp
  -- The piece and the rest have the length of the text together, and the piece has at least one.
  have len := congrArg List.length (text_first c cs)
  rw [List.length_append] at len
  have := List.length_pos_iff.2 nonempty
  omega

/-- The first `n` lexemes of a text. -/
def scanUpTo : Nat → List Char → List Lexeme
  | 0, _ => []
  | _, [] => []
  | n + 1, c :: cs => (Lexeme.first c cs).1 :: scanUpTo n (Lexeme.first c cs).2

/-- The lexemes of a text: there are no more of them than characters. -/
def scan (s : List Char) : List Lexeme := scanUpTo s.length s

/-- Looking for more lexemes than there are characters finds the same ones. Both bounds are left
open, so that the induction can make each of them smaller at its own pace. -/
theorem scanUpTo_eq_scan {n : Nat} {s : List Char} (h : s.length ≤ n) : scanUpTo n s = scan s := by
  suffices key : ∀ n m : Nat, ∀ s : List Char, s.length ≤ n → s.length ≤ m →
      scanUpTo n s = scanUpTo m s from key n s.length s h (Nat.le_refl _)
  intro n
  induction n with
  | zero =>
    intro m s hn hm
    cases s with
    | nil => cases m <;> rfl
    | cons c cs => simp at hn
  | succ n ih =>
    intro m s hn hm
    cases s with
    | nil => cases m <;> rfl
    | cons c cs =>
      cases m with
      | zero => simp at hm
      | succ m =>
        -- The piece takes at least one character, so both bounds still cover what is left.
        have := Lexeme.length_first_lt c cs
        simp only [List.length_cons] at this hn hm
        rw [scanUpTo, scanUpTo, ih m _ (by omega) (by omega)]

@[simp] theorem scan_nil : scan [] = [] := rfl

/-- Scanning takes the first piece and goes on behind it; the bound on the pieces can be forgotten.
-/
theorem scan_cons (c : Char) (cs : List Char) :
    scan (c :: cs) = (Lexeme.first c cs).1 :: scan (Lexeme.first c cs).2 := by
  have := Lexeme.length_first_lt c cs
  rw [scan, List.length_cons, scanUpTo, scanUpTo_eq_scan (by simpa using Nat.le_of_lt_succ this)]

/-- **Scanning is a partition.** The pieces put together are the text. -/
theorem flatten_scan (s : List Char) : (scan s).flatMap Lexeme.text = s := by
  match s with
  | [] => rfl
  | c :: cs => rw [scan_cons, List.flatMap_cons, flatten_scan, Lexeme.text_first]
termination_by s.length
decreasing_by exact Lexeme.length_first_lt c cs

/-! ## Positions -/

/-- A lexeme that says something, with its place. -/
inductive LexedItem where
  | token (located : Located)
  | error (error : SyntaxError)

/-- What a lexeme at a span contributes; blanks contribute nothing. -/
def Lexeme.item? (l : Lexeme) (span : Span) : Option LexedItem :=
  match l.kind with
  | .blank => none
  | .token t => some (.token ⟨t, span⟩)
  | .badNumber => some (.error ⟨.invalidNumber (String.ofList l.text), span⟩)
  | .badCharacter => some (.error ⟨.invalidCharacter (String.ofList l.text), span⟩)

/-- The items of lexemes that stand one after the other, the first at byte `start`. -/
def locate (start : Nat) : List Lexeme → List LexedItem
  | [] => []
  | l :: ls =>
    let stop := start + byteLength l.text
    (l.item? ⟨start, stop⟩).toList ++ locate stop ls

/-- The tokens of a text and the errors found between them, each in order. -/
def tokenize (s : List Char) : List Located × List SyntaxError :=
  let items := locate 0 (scan s)
  (items.filterMap fun | .token t => some t | .error _ => none,
    items.filterMap fun | .error e => some e | .token _ => none)

end TileSelect
