import TileSelect.Source.Document
import TileSelect.Source.Lexeme
/-!
From tokens to the parse tree.

```text
document   := group*
group      := IDENT ':' conversion ('|' conversion)* ';'
conversion := expr '->' item+
expr       := '(' capture? TYPE? IDENT arg* ')' | capture? IDENT
arg        := expr | '-'? INT
capture    := '<' IDENT '>'
item       := '[' ( '@' IDENT | MNEMONIC ('.' IDENT)? operands? | operand ) ']'
operands   := operand (',' operand)*
operand    := atom ('*' '-'? INT)?
atom       := '<' IDENT ('.' IDENT)* (':' IDENT)? '>'
            | '[' term (('+' term) | ('-' INT))* ']'
            | '-'? INT | IDENT | '@' IDENT
term       := atom ('*' '-'? INT)?
```

Each rule is decided by the next token, or the next two, so the parser never takes a step back.
An error abandons its group only: reading goes on after the next `;`, so that one bad group does
not hide what is wrong with the others. For that, a failure carries the tokens that were left
when it arose.

Expressions and atoms nest. Every level of nesting starts with a token of its own, so the number
of tokens left bounds the depth, and the same number bounds how often a repetition runs; both
bounds are computed where the recursion starts and show nowhere else.
-/

set_option autoImplicit false

namespace TileSelect

namespace Parser

/-! ## Reading tokens -/

/-- Where a parser stands: the tokens left, the span of the token read last, and the span that
stands for the end of the input. -/
structure Cursor where
  rest : List Located
  last : Span
  finish : Span

/-- An error and the tokens that were left when it arose. -/
structure Failure where
  error : SyntaxError
  rest : List Located

end Parser

/-- Reads a construct from the front of the tokens. -/
abbrev Parser (α : Type) := StateT Parser.Cursor (Except Parser.Failure) α

namespace Parser

variable {α : Type}

/-- The next token. -/
def Cursor.peek (c : Cursor) : Option Token := c.rest.head?.map Located.token

/-- The span of the next token, or of the end. -/
def Cursor.span (c : Cursor) : Span :=
  match c.rest with
  | t :: _ => t.span
  | [] => c.finish

/-- The next token, left in place. -/
def peek : Parser (Option Token) := fun c => .ok (c.peek, c)

/-- The span of the next token, or of the end. -/
def here : Parser Span := fun c => .ok (c.span, c)

/-- The span of the token read last. -/
def lastSpan : Parser Span := fun c => .ok (c.last, c)

/-- Skips a token, if there is one. -/
def advance : Parser Unit := fun c =>
  match c.rest with
  | t :: rest => .ok ((), { c with rest := rest, last := t.span })
  | [] => .ok ((), c)

/-- Fails at the next token: something else was expected. -/
def expected (what : Expectation) : Parser α := fun c =>
  let fault :=
    match c.peek with
    | some found => .unexpectedToken what found
    | none => .unexpectedEnd what
  .error ⟨⟨fault, c.span⟩, c.rest⟩

/-- Skips the given token if it is next, and says whether it was. -/
def eat (t : Token) : Parser Bool := do
  if (← peek) = some t then
    advance
    return true
  else return false

/-- Reads the given token. -/
def expect (t : Token) (what : Expectation) : Parser Span := do
  let span ← here
  if (← peek) = some t then
    advance
    return span
  else expected what

/-- Reads an identifier. -/
def identifier (what : Expectation) : Parser Named := do
  let span ← here
  match ← peek with
  | some (.identifier name) =>
    advance
    return ⟨name, span⟩
  | _ => expected what

/-- Reads a number with an optional minus sign; negation wraps. -/
def integer (what : Expectation) : Parser (Int64 × Span) := do
  let start ← here
  let negative ← eat .minus
  match ← peek with
  | some (.number v) =>
    let span ← here
    advance
    return (if negative then -v else v, start.join span)
  | _ => expected what

/-- Runs a parser as often as the next token passes a test, at most `n` times. -/
def repeatAtMost (test : Option Token → Bool) (p : Parser α) : Nat → Parser (List α)
  | 0 => return []
  | n + 1 => do
    if test (← peek) then
      let a ← p
      let rest ← repeatAtMost test p n
      return a :: rest
    else return []

/-- Runs a parser as often as the next token passes a test. A parser that reads a token each
time runs at most once for every token left, and once more to fail at the end. -/
def repeatWhile (test : Option Token → Bool) (p : Parser α) : Parser (List α) := fun c =>
  repeatAtMost test p (c.rest.length + 1) c

/-- Reads `p` after each further `separator`. -/
def afterEach (separator : Token) (p : Parser α) : Parser (List α) :=
  repeatWhile (· == some separator) do
    advance
    p

/-! ## Names with a form of their own -/

/-- `I` followed by digits. Whether such a width exists is not asked here. -/
def looksLikeType (name : String) : Bool :=
  match name.toList with
  | 'I' :: digits => !digits.isEmpty && digits.all isDecimal
  | _ => false

/-- The capital letters. -/
def isCapital (c : Char) : Bool := 'A' ≤ c && c ≤ 'Z'

/-- Capital letters, digits and underscores, with at least one letter. -/
def isMnemonic (name : String) : Bool :=
  name.toList.any isCapital && name.toList.all fun c => isCapital c || isDecimal c || c == '_'

/-! ## Expressions -/

/-- `<name>`, if a `<` is next. -/
def capture : Parser (Option String) := do
  if ← eat .less then
    let name ← identifier .captureName
    let _ ← expect .greater .captureEnd
    return some name.name
  else return none

/-- A type and an operation name, or the latter alone: the first of two names is a type if it
has the form of one. -/
def typedOperation : Parser (Option Named × String) := do
  let first ← identifier .operationName
  match ← peek with
  | some (.identifier op) =>
    if looksLikeType first.name then
      advance
      return (some first, op)
    else return (none, first.name)
  | _ => return (none, first.name)

/-- An argument, given how expressions are read. -/
def argument (expr : Parser Expr) : Parser Expr := do
  match ← peek with
  -- Arguments end with a parenthesis, so that is what is missing at the end of the input.
  | none => expected .closingParen
  | some (.number _) | some .minus =>
    let (value, span) ← integer .number
    return .number value span
  | _ => expr

/-- An expression whose arguments are read by `inner`. -/
def exprWith (inner : Parser Expr) : Parser Expr := do
  let start ← here
  match ← peek with
  | some .leftParen =>
    advance
    let capture ← capture
    let (ty, op) ← typedOperation
    let args ← repeatWhile (· != some .rightParen) (argument inner)
    let stop ← expect .rightParen .closingParen
    return .op capture ty op args (start.join stop)
  | some .less | some (.identifier _) =>
    let capture ← capture
    let name ← identifier .groupOrIdentifier
    return .name capture name.name (start.join name.span)
  | _ => expected .expression

/-- An expression that nests at most `depth` deep. -/
def exprAt : Nat → Parser Expr
  | 0 => expected .expression
  | depth + 1 => exprWith (exprAt depth)

/-- An expression. -/
def expr : Parser Expr := fun c => exprAt (c.rest.length + 1) c

/-! ## Operands -/

/-- `* scale`, if a `*` is next. -/
def scale : Parser (Option (Int64 × Span)) := do
  if ← eat .star then
    let s ← integer .scale
    return some s
  else return none

/-- A term of an address, given how atoms are read. -/
def term (atom : Parser Operand) : Parser Term := do
  let a ← atom
  let s ← scale
  return (a, s.map Prod.fst)

/-- A further term of an address: after a plus sign, or a number after a minus sign. -/
def furtherTerm (atom : Parser Operand) : Parser Term := do
  if ← eat .plus then term atom
  else
    -- The minus sign belongs to the number and is read with it.
    let (value, span) ← integer .offset
    return (.number value span, none)

/-- `: type`, if a `:` is next. -/
def typeSuffix : Parser (Option Named) := do
  if ← eat .colon then
    let ty ← identifier .typeName
    return some ty
  else return none

/-- An atom whose terms are made of atoms read by `inner`. -/
def atomWith (inner : Parser Operand) : Parser Operand := do
  let start ← here
  match ← peek with
  | some .less =>
    advance
    let head ← identifier .identifier
    let members ← afterEach .dot (identifier .memberIdentifier)
    let ty ← typeSuffix
    let stop ← expect .greater .referenceEnd
    return .reference (head.name :: members.map Named.name) ty (start.join stop)
  | some .leftBracket =>
    advance
    let first ← term inner
    let further ←
      repeatWhile (fun t => t == some .plus || t == some .minus) (furtherTerm inner)
    let stop ← expect .rightBracket .termOrBracket
    return .memory (first :: further) (start.join stop)
  | some (.number _) | some .minus =>
    let (value, span) ← integer .number
    return .number value span
  | some (.identifier name) =>
    advance
    return .name name start
  | some .atSign =>
    advance
    let name ← identifier .labelName
    return .label name.name (start.join name.span)
  | _ => expected .operand

/-- An atom that nests at most `depth` deep. -/
def atomAt : Nat → Parser Operand
  | 0 => expected .operand
  | depth + 1 => atomWith (atomAt depth)

/-- An atom. -/
def atom : Parser Operand := fun c => atomAt (c.rest.length + 1) c

/-- An operand: an atom, scaled or not. -/
def operand : Parser Operand := do
  let a ← atom
  match ← scale with
  | some (s, stop) => return .scaled a s (a.span.join stop)
  | none => return a

/-! ## Templates -/

/-- What the tokens after a `[` begin. -/
inductive ItemHead where
  | label
  | instruction (mnemonic : String)
  | operand

/-- Decides what the tokens after a `[` begin. A name in the form of a mnemonic is one unless it
is scaled. -/
def ItemHead.of : List Located → ItemHead
  | ⟨.atSign, _⟩ :: _ => .label
  | ⟨.identifier name, _⟩ :: rest =>
    if isMnemonic name && rest.head?.map Located.token != some .star then .instruction name
    else .operand
  | _ => .operand

/-- What the next tokens begin. -/
def itemHead : Parser ItemHead := fun c => .ok (.of c.rest, c)

/-- `. name`, if a `.` is next. -/
def conditionSuffix : Parser (Option Named) := do
  if ← eat .dot then
    let name ← identifier .conditionCode
    return some name
  else return none

/-- The operands of an instruction, up to the closing bracket. -/
def operands : Parser (List Operand) := do
  if (← peek) = some .rightBracket then return []
  else
    let first ← operand
    let further ← afterEach .comma operand
    return first :: further

/-- An item between its brackets. -/
def item : Parser Item := do
  let start ← expect .leftBracket .openingBracket
  match ← itemHead with
  | .label =>
    advance
    let name ← identifier .labelName
    let stop ← expect .rightBracket .closingBracket
    return .label name.name (start.join stop)
  | .instruction mnemonic =>
    advance
    let condition ← conditionSuffix
    let operands ← operands
    let stop ← expect .rightBracket .commaOrBracket
    return .instruction mnemonic condition operands (start.join stop)
  | .operand =>
    let operand ← operand
    let _ ← expect .rightBracket .closingBracket
    return .operand operand

/-! ## Groups and documents -/

/-- `expr -> item item ...` -/
def conversion : Parser Conversion := do
  let e ← expr
  let _ ← expect .arrow .arrow
  if (← peek) = some .leftBracket then
    let template ← repeatWhile (· == some .leftBracket) item
    let stop ← lastSpan
    return ⟨e, template, e.span.join stop⟩
  else expected .templateItem

/-- `name: conversion | conversion ... ;` -/
def group : Parser Group := do
  let name ← identifier .groupName
  let _ ← expect .colon .colonAfterGroupName
  let first ← conversion
  let further ← afterEach .pipe conversion
  let stop ← expect .semicolon .barOrSemicolon
  return ⟨name.name, name.span.join stop, first :: further⟩

/-- What follows the next `;`; nothing if there is none. -/
def afterSemicolon (tokens : List Located) : List Located :=
  (tokens.dropWhile fun t => t.token != .semicolon).tail

/-- The groups of at most `n` segments of the tokens, and the errors of the others. -/
def groupsUpTo (finish : Span) : Nat → List Located → List Group × List SyntaxError
  | 0, _ => ([], [])
  | _, [] => ([], [])
  | n + 1, tokens =>
    match group ⟨tokens, finish, finish⟩ with
    | .ok (g, c) =>
      let (gs, es) := groupsUpTo finish n c.rest
      (g :: gs, es)
    | .error failure =>
      -- The token at which the failure arose may itself be the `;` that ends the segment.
      let (gs, es) := groupsUpTo finish n (afterSemicolon failure.rest)
      (gs, failure.error :: es)

/-- The groups that can be read from the tokens, and an error for each that cannot. -/
def groups (finish : Span) (tokens : List Located) : List Group × List SyntaxError :=
  groupsUpTo finish tokens.length tokens

end Parser

/-- Reads a document. All errors are reported, in the order of where they start; of two that
start at one place, the one found while cutting the text comes first. -/
def Document.parse (source : List Char) : Except (List SyntaxError) Document :=
  let (tokens, lexical) := tokenize source
  let (groups, structural) := Parser.groups (.point (byteLength source)) tokens
  let errors := lexical ++ structural
  if errors.isEmpty then .ok ⟨groups⟩
  else .error (errors.mergeSort fun a b => a.span.start ≤ b.span.start)

end TileSelect
