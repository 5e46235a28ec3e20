import TileSelect.Source.Parser
/-!
The grammar of pattern files, as a relation between tokens and trees.

```text
document   := group*
group      := IDENT ':' conversion ('|' conversion)* ';'
conversion := expr '->' item+
expr       := '(' capture? TYPE? IDENT arg* ')' | capture? IDENT
arg        := expr | '-'? INT
capture    := '<' IDENT '>'
item       := '[' ( '@' IDENT | MNEMONIC ('.' IDENT)? operands? | operand ) ']'
operands   := operand (',' operand)*
operand    := atom scale?
atom       := '<' IDENT ('.' IDENT)* (':' IDENT)? '>'
            | '[' term (('+' term) | ('-' INT))* ']'
            | '-'? INT | IDENT | '@' IDENT
term       := atom scale?
scale      := '*' '-'? INT
```

Every rule is one relation, `Written ts tree`: the tokens `ts` are derived by the rule, and `tree`
is the tree of that derivation. There is no cursor here and nothing is looked at ahead of time.
Where the text above leaves a choice, the side conditions settle it by what is written: a name in
the form of a type is one if a name follows it; an item that starts with `@` is a label; and an item
that starts with a mnemonic is an instruction unless the mnemonic is scaled.

The grammar speaks of spans as well. A construct in brackets reaches from its first token to its
last, a scaled operand from its index to its scale, and a conversion from its expression to the last
token of its template.
-/

set_option autoImplicit false

namespace TileSelect

namespace Grammar

variable {α : Type}

/-! ## Building rules from rules -/

/-- The first token of some tokens. -/
def next (ts : List Located) : Option Token := ts.head?.map Located.token

/-- The span of the last token, if there is one after the given place. -/
def lastSpan (before : Span) : List Located → Span
  | [] => before
  | t :: ts => lastSpan t.span ts

/-- `r?` -/
inductive Opt (r : List Located → α → Prop) : List Located → Option α → Prop
  | absent : Opt r [] none
  | present {ts : List Located} {a : α} (body : r ts a) : Opt r ts (some a)

/-- `r*` -/
inductive Star (r : List Located → α → Prop) : List Located → List α → Prop
  | nil : Star r [] []
  | cons {ts us : List Located} {a : α} {as : List α} (head : r ts a) (tail : Star r us as) :
      Star r (ts ++ us) (a :: as)

/-- `'mark' r` -/
inductive After (mark : Token) (r : List Located → α → Prop) : List Located → α → Prop
  | mk (s : Span) {ts : List Located} {a : α} (body : r ts a) : After mark r (⟨mark, s⟩ :: ts) a

/-- `r ('mark' r)*` -/
inductive Separated (mark : Token) (r : List Located → α → Prop) : List Located → List α → Prop
  | mk {ts us : List Located} {a : α} {as : List α} (head : r ts a)
      (tail : Star (After mark r) us as) : Separated mark r (ts ++ us) (a :: as)

/-! ## Names and numbers -/

/-- `IDENT` -/
inductive Identifier : List Located → Named → Prop
  | mk (name : String) (s : Span) : Identifier [⟨.identifier name, s⟩] ⟨name, s⟩

/-- `'-'? INT`; negation wraps. -/
inductive Integer : List Located → Int64 × Span → Prop
  | plain (v : Int64) (s : Span) : Integer [⟨.number v, s⟩] (v, s)
  | negated (v : Int64) (s t : Span) : Integer [⟨.minus, s⟩, ⟨.number v, t⟩] (-v, s.join t)

/-- `'<' IDENT '>'` -/
inductive Capture : List Located → String → Prop
  | mk (name : String) (s t u : Span) :
      Capture [⟨.less, s⟩, ⟨.identifier name, t⟩, ⟨.greater, u⟩] name

/-- `TYPE? IDENT`, where the tokens `after` follow. -/
inductive Head (after : List Located) : List Located → Option Named × String → Prop
  | typed {ty : String} (op : String) (s t : Span) (form : Parser.looksLikeType ty = true) :
      Head after [⟨.identifier ty, s⟩, ⟨.identifier op, t⟩] (some ⟨ty, s⟩, op)
  | untyped {op : String} (s : Span)
      (form : Parser.looksLikeType op = true → ∀ name, next after ≠ some (.identifier name)) :
      Head after [⟨.identifier op, s⟩] (none, op)

end Grammar

open Grammar

/-! ## Expressions -/

mutual

/-- `'(' capture? TYPE? IDENT arg* ')' | capture? IDENT` -/
inductive Expr.Written : List Located → Expr → Prop
  | op {cs hs as : List Located} {capture : Option String} {head : Option Named × String}
      {args : List Expr} (s t : Span) (captured : Opt Capture cs capture) (headed : Head as hs head)
      (arguments : Star Expr.WrittenArgument as args) :
      Expr.Written (⟨.leftParen, s⟩ :: (cs ++ (hs ++ (as ++ [⟨.rightParen, t⟩]))))
        (.op capture head.1 head.2 args (s.join t))
  | name (bare : String) (s : Span) : Expr.Written [⟨.identifier bare, s⟩] (.name none bare s)
  | captured (capture bare : String) (s t u v : Span) :
      Expr.Written
        [⟨.less, s⟩, ⟨.identifier capture, t⟩, ⟨.greater, u⟩, ⟨.identifier bare, v⟩]
        (.name (some capture) bare (s.join v))

/-- `expr | '-'? INT` -/
inductive Expr.WrittenArgument : List Located → Expr → Prop
  | expr {ts : List Located} {e : Expr} (body : Expr.Written ts e) : Expr.WrittenArgument ts e
  | number {ts : List Located} {n : Int64 × Span} (body : Integer ts n) :
      Expr.WrittenArgument ts (.number n.1 n.2)

end

/-! ## Operands -/

mutual

/-- `'<' IDENT ('.' IDENT)* (':' IDENT)? '>' | '[' term (('+' term) | ('-' INT))* ']'`, or a
number, a name or a label -/
inductive Operand.WrittenAtom : List Located → Operand → Prop
  | reference {ps ys : List Located} {path : List Named} {ty : Option Named} (s t : Span)
      (members : Separated .dot Identifier ps path) (typed : Opt (After .colon Identifier) ys ty) :
      Operand.WrittenAtom (⟨.less, s⟩ :: (ps ++ (ys ++ [⟨.greater, t⟩])))
        (.reference (path.map Named.name) ty (s.join t))
  | memory {fs rs : List Located} {first : Term} {further : List Term} (s t : Span)
      (head : Term.Written fs first) (tail : Star Term.WrittenFurther rs further) :
      Operand.WrittenAtom (⟨.leftBracket, s⟩ :: (fs ++ (rs ++ [⟨.rightBracket, t⟩])))
        (.memory (first :: further) (s.join t))
  | number {ts : List Located} {n : Int64 × Span} (body : Integer ts n) :
      Operand.WrittenAtom ts (.number n.1 n.2)
  | name (bare : String) (s : Span) : Operand.WrittenAtom [⟨.identifier bare, s⟩] (.name bare s)
  | label (bare : String) (s t : Span) :
      Operand.WrittenAtom [⟨.atSign, s⟩, ⟨.identifier bare, t⟩] (.label bare (s.join t))

/-- `atom scale?` -/
inductive Term.Written : List Located → Term → Prop
  | mk {ts ss : List Located} {atom : Operand} {scale : Option (Int64 × Span)}
      (body : Operand.WrittenAtom ts atom) (scaled : Opt (After .star Integer) ss scale) :
      Term.Written (ts ++ ss) (atom, scale.map Prod.fst)

/-- `('+' term) | ('-' INT)` -/
inductive Term.WrittenFurther : List Located → Term → Prop
  | plus {ts : List Located} {term : Term} (s : Span) (body : Term.Written ts term) :
      Term.WrittenFurther (⟨.plus, s⟩ :: ts) term
  | minus (v : Int64) (s t : Span) :
      Term.WrittenFurther [⟨.minus, s⟩, ⟨.number v, t⟩] (.number (-v) (s.join t), none)

end

/-- `atom scale?` -/
inductive Operand.Written : List Located → Operand → Prop
  | plain {ts : List Located} {atom : Operand} (body : Operand.WrittenAtom ts atom) :
      Operand.Written ts atom
  | scaled {ts ss : List Located} {atom : Operand} {scale : Int64 × Span}
      (body : Operand.WrittenAtom ts atom) (factor : After .star Integer ss scale) :
      Operand.Written (ts ++ ss) (.scaled atom scale.1 (atom.span.join scale.2))

/-! ## Templates -/

/-- Tokens between brackets that are neither a label nor an instruction. -/
structure Grammar.OperandOnly (ts : List Located) : Prop where
  label : next ts ≠ some .atSign
  instruction : ∀ name, next ts = some (.identifier name) → Parser.isMnemonic name = true →
    next ts.tail = some .star

/-- `'[' ( '@' IDENT | MNEMONIC ('.' IDENT)? operands? | operand ) ']'` -/
inductive Item.Written : List Located → Item → Prop
  | label (bare : String) (s t u v : Span) :
      Item.Written [⟨.leftBracket, s⟩, ⟨.atSign, t⟩, ⟨.identifier bare, u⟩, ⟨.rightBracket, v⟩]
        (.label bare (s.join v))
  | instruction {mnemonic : String} {cs os : List Located} {condition : Option Named}
      {operands : Option (List Operand)} (s t u : Span)
      (form : Parser.isMnemonic mnemonic = true)
      (conditioned : Opt (After .dot Identifier) cs condition)
      (body : Opt (Separated .comma Operand.Written) os operands) :
      Item.Written
        (⟨.leftBracket, s⟩ :: ⟨.identifier mnemonic, t⟩ :: (cs ++ (os ++ [⟨.rightBracket, u⟩])))
        (.instruction mnemonic condition (operands.getD []) (s.join u))
  | operand {os : List Located} {operand : Operand} (s t : Span)
      (body : Operand.Written os operand) (only : OperandOnly os) :
      Item.Written (⟨.leftBracket, s⟩ :: (os ++ [⟨.rightBracket, t⟩])) (.operand operand)

/-! ## Groups and documents -/

/-- `expr '->' item+` -/
inductive Conversion.Written : List Located → Conversion → Prop
  | mk {es is : List Located} {e : Expr} {item : Item} {items : List Item} (s : Span)
      (left : e.Written es) (right : Star Item.Written is (item :: items)) :
      Conversion.Written (es ++ ⟨.arrow, s⟩ :: is)
        ⟨e, item :: items, e.span.join (Grammar.lastSpan s is)⟩

/-- `IDENT ':' conversion ('|' conversion)* ';'` -/
inductive Group.Written : List Located → Group → Prop
  | mk {cs : List Located} {conversions : List Conversion} (name : String) (s t u : Span)
      (body : Separated .pipe Conversion.Written cs conversions) :
      Group.Written (⟨.identifier name, s⟩ :: ⟨.colon, t⟩ :: (cs ++ [⟨.semicolon, u⟩]))
        ⟨name, s.join u, conversions⟩

/-- `group*` -/
def Document.Written (ts : List Located) (d : Document) : Prop := Star Group.Written ts d.groups

end TileSelect
