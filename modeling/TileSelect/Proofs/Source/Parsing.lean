import TileSelect.Proofs.Source.Reading
/-!
The parser reads the grammar.

Both directions follow the parser rule by rule. Expressions and atoms are read with a bound on how
deep they nest. Soundness holds for every bound. Completeness needs one that is larger than the
number of tokens: inside a pair of brackets there are fewer tokens than outside, so the induction
is on the bound, and derivations are only ever taken apart one rule at a time.

Where the parser looks ahead, the grammar has a side condition. The parser sees all the tokens
that are left and the condition speaks of the construct alone, so each time a closing mark has to
be shown not to matter (`head_paren`, `operandOnly_bracket`).

That no tokens have two trees needs no argument of its own: the parser reads each of them.
-/

set_option autoImplicit false

namespace TileSelect

open Grammar

namespace Parser

variable {α β : Type}

/-! ## Expressions -/

/-- A capture is read as the grammar has it: a name between two marks, or nothing if the first mark
is missing. -/
theorem sound_capture : Sound (Opt Capture) capture := by
  intro c a c' h
  rw [capture] at h
  -- The mark decides. Behind it come a name and the other mark, or there is an error and no capture
  -- is read.
  by_cases hless : next c.rest = some .less
  · obtain ⟨s, rest, hrest⟩ := exists_of_next hless
    rw [eat_of_next hrest, if_pos rfl] at h
    obtain ⟨_, rest₁, _, ⟨name, t⟩, hrest₁, h⟩ := (sound_identifier _).bind_inv h
    obtain ⟨_, rest₂, u, rfl, hrest₂, h⟩ := (sound_expect _ _).bind_inv h
    obtain ⟨rfl, rfl⟩ := pure_inv h
    simp only [Cursor.past_rest] at hrest₁ hrest₂
    exact ⟨_, rest₂, .present (.mk name s t u), by rw [hrest, hrest₁, hrest₂]; rfl, by simp⟩
  · rw [eat_of_not_next hless] at h
    obtain ⟨rfl, rfl⟩ := pure_inv h
    exact ⟨[], c'.rest, .absent, rfl, rfl⟩

/-- Every capture is read, if what follows cannot be mistaken for one. That matters when there is
none. -/
theorem complete_capture : Complete (Opt Capture) (NotNext .less) capture := by
  intro c ts a rest hr hrest hnot
  rw [capture]
  cases hr with
  | absent =>
    have hrest : c.rest = rest := hrest
    rw [eat_of_not_next (by rw [hrest]; exact hnot), ← hrest]
    rfl
  | present hbody =>
    cases hbody with
    | mk _ s t u =>
      rw [eat_of_next hrest, if_pos rfl, (complete_identifier _).bind (.mk _ t) rfl trivial,
        (complete_expect _ _).bind (rfl : Mark .greater _ u) rfl trivial]
      simp only [Cursor.past_past]
      rfl

/-- The head that is read is one of the grammar. A name that looks like a type is one if a name
follows, and otherwise the operation itself. -/
theorem head_of_typedOperation {c c' : Cursor} {head : Option Named × String}
    (h : typedOperation c = .ok (head, c')) :
    ∃ hs rest, Head rest hs head ∧ c.rest = hs ++ rest ∧ c' = c.past hs rest := by
  rw [typedOperation] at h
  obtain ⟨_, rest, _, ⟨first, s⟩, hrest, h⟩ := (sound_identifier _).bind_inv h
  rw [bind_peek, Cursor.past_rest] at h
  cases hnext : next rest with
  | none =>
    rw [hnext] at h
    obtain ⟨rfl, rfl⟩ := pure_inv h
    exact ⟨_, rest, .untyped s (by simp [hnext]), hrest, rfl⟩
  | some token =>
    rw [hnext] at h
    cases token with
    | identifier op =>
      dsimp only at h
      -- A type with a name behind it, or a name alone.
      split at h
      · rename_i hform
        obtain ⟨t, rest', rfl⟩ := exists_of_next hnext
        rw [bind_advance rfl] at h
        obtain ⟨rfl, rfl⟩ := pure_inv h
        exact ⟨_, rest', .typed op s t hform, by rw [hrest]; rfl, by simp⟩
      · rename_i hform
        obtain ⟨rfl, rfl⟩ := pure_inv h
        exact ⟨_, rest, .untyped s fun h => absurd h hform, hrest, rfl⟩
    | _ =>
      obtain ⟨rfl, rfl⟩ := pure_inv h
      exact ⟨_, rest, .untyped s (by simp [hnext]), hrest, rfl⟩

/-- Every head of the grammar is read. The grammar says of a name without a type in front that it is
not followed by another if it looks like a type, which is what the parser goes by. -/
theorem typedOperation_of_head {c : Cursor} {hs rest : List Located}
    {head : Option Named × String} (h : Head rest hs head) (hrest : c.rest = hs ++ rest) :
    typedOperation c = .ok (head, c.past hs rest) := by
  rw [typedOperation]
  cases h with
  | typed op s t hform =>
    rw [(complete_identifier _).bind (.mk _ s) hrest trivial, bind_peek]
    simp only [Cursor.past_rest, next, List.head?_cons, Option.map_some, hform, if_true]
    rw [bind_advance rfl, Cursor.past_past]
    rfl
  | @untyped op s hform =>
    rw [(complete_identifier _).bind (.mk _ s) hrest trivial, bind_peek, Cursor.past_rest]
    -- Only another name could turn the first into a type, and then it does not look like one.
    cases hnext : next rest with
    | none => rfl
    | some token =>
      cases token with
      | identifier name =>
        have hno : ¬ looksLikeType op = true := fun h => hform h name hnext
        simp only [if_neg hno]
        rfl
      | _ => rfl

/-- A parenthesis is no name, so what counts is the arguments before it. The parser sees the
parenthesis as well, the grammar only the arguments. -/
theorem head_paren {as hs rest : List Located} {head : Option Named × String} {t : Span} :
    Head (as ++ ⟨.rightParen, t⟩ :: rest) hs head ↔ Head as hs head := by
  have hnext : ∀ name, next (as ++ ⟨.rightParen, t⟩ :: rest) = some (.identifier name) ↔
      next as = some (.identifier name) := by
    intro name
    cases as with
    | nil => simp [next]
    | cons a as => rfl
  constructor
  · intro h
    cases h with
    | typed op s t hform => exact .typed op s t hform
    | untyped s hform => exact .untyped s fun h name hname => hform h name ((hnext name).2 hname)
  · intro h
    cases h with
    | typed op s t hform => exact .typed op s t hform
    | untyped s hform => exact .untyped s fun h name hname => hform h name ((hnext name).1 hname)

/-- An argument that is read is one of the grammar, if nested expressions are. It is a number, with
or without a sign, or an expression. -/
theorem sound_argument {inner : Parser Expr} (hinner : Sound Expr.Written inner) :
    Sound Expr.WrittenArgument (argument inner) := by
  intro c e c' h
  rw [argument, bind_peek] at h
  have hexpr : inner c = .ok (e, c') →
      ∃ ts rest, Expr.WrittenArgument ts e ∧ c.rest = ts ++ rest ∧ c' = c.past ts rest := by
    intro h
    obtain ⟨ts, rest, he, hrest, hc⟩ := hinner c e c' h
    exact ⟨ts, rest, .expr he, hrest, hc⟩
  -- A number and a minus start a number; anything else is left to the nested parser.
  cases hnext : next c.rest with
  | none =>
    rw [hnext] at h
    cases h
  | some token =>
    rw [hnext] at h
    cases token with
    | number | minus =>
      obtain ⟨ts, rest, n, hn, hrest, h⟩ := (sound_integer _).bind_inv h
      obtain ⟨rfl, rfl⟩ := pure_inv h
      exact ⟨ts, rest, .number hn, hrest, rfl⟩
    | _ => exact hexpr h

/-- A bare name, captured or not. The span starts at the capture, if there is one. -/
theorem written_of_bareName {c c' : Cursor} {e : Expr}
    (h : (do
      let capture ← capture
      let name ← identifier .groupOrIdentifier
      return .name capture name.name (c.span.join name.span) : Parser Expr) c = .ok (e, c')) :
    ∃ ts rest, Expr.Written ts e ∧ c.rest = ts ++ rest ∧ c' = c.past ts rest := by
  obtain ⟨cs, rest, capture, hcapture, hrest, h⟩ := sound_capture.bind_inv h
  obtain ⟨_, rest₁, _, ⟨bare, v⟩, hrest₁, h⟩ := (sound_identifier _).bind_inv h
  obtain ⟨rfl, rfl⟩ := pure_inv h
  rw [Cursor.past_rest] at hrest₁
  subst hrest₁
  cases hcapture with
  | absent =>
    rw [Cursor.span_of_rest hrest, Span.join_self]
    exact ⟨_, rest₁, .name bare v, hrest, by simp⟩
  | present hbody =>
    cases hbody with
    | mk name s t u =>
      rw [Cursor.span_of_rest hrest]
      exact ⟨_, rest₁, .captured _ bare s t u v, hrest, by simp⟩

/-- One level of an expression, if the levels below are of the grammar. The tokens of the parts are
those that the parser has passed, one part after the other. -/
theorem sound_exprWith {inner : Parser Expr} (hinner : Sound Expr.Written inner) :
    Sound Expr.Written (exprWith inner) := by
  intro c e c' h
  rw [exprWith, bind_here, bind_peek] at h
  cases hnext : next c.rest with
  | none =>
    rw [hnext] at h
    cases h
  | some token =>
    rw [hnext] at h
    cases token with
    | leftParen =>
      -- The parts of an operation in turn: the capture, the head, the arguments and the closing
      -- parenthesis.
      obtain ⟨s, rest, hrest⟩ := exists_of_next hnext
      dsimp only at h
      rw [bind_advance hrest, Cursor.span_of_rest hrest] at h
      obtain ⟨cs, rest₁, capture, hcapture, hrest₁, h⟩ := sound_capture.bind_inv h
      obtain ⟨head, c₂, htyped, h⟩ := bind_inv h
      obtain ⟨hs, rest₂, hhead, hrest₂, rfl⟩ := head_of_typedOperation htyped
      have hall := sound_repeatWhile (· != some .rightParen)
        fun c a c' _ => sound_argument hinner c a c'
      obtain ⟨as, rest₃, args, hargs, hrest₃, h⟩ := hall.bind_inv h
      obtain ⟨_, rest₄, t, rfl, hrest₄, h⟩ := (sound_expect _ _).bind_inv h
      obtain ⟨rfl, rfl⟩ := pure_inv h
      simp only [Cursor.past_rest] at hrest₁ hrest₂ hrest₃ hrest₄
      subst hrest₄ hrest₃
      refine ⟨_, rest₄, .op s t hcapture (head_paren.1 hhead) hargs, ?_, by simp⟩
      rw [hrest, hrest₁, hrest₂]
      simp
    | less | identifier => exact written_of_bareName h
    | _ => cases h

/-- An expression that is read is one of the grammar, at every depth. The induction is on the depth.
-/
theorem sound_exprAt (depth : Nat) : Sound Expr.Written (exprAt depth) := by
  induction depth with
  | zero =>
    intro c e c' h
    cases h
  | succ depth ih => exact sound_exprWith ih

theorem sound_expr : Sound Expr.Written expr := fun c => sound_exprAt _ c

/-- Every argument of the grammar is read, if nested expressions are. Its first token tells the
parser which kind it is. -/
theorem complete_argument {inner : Parser Expr} {n : Nat}
    (hinner : Complete (Within n Expr.Written) Anything inner) :
    Complete (Within n Expr.WrittenArgument) Anything (argument inner) := by
  rintro c ts e rest ⟨he, hn⟩ hrest -
  rw [argument, bind_peek]
  cases he with
  | expr he =>
    have hgo := hinner c ts e rest ⟨he, hn⟩ hrest trivial
    -- An expression starts with none of the tokens of a number.
    cases he with
    | op | name | captured =>
      rw [hrest]
      exact hgo
  | number hnumber =>
    have hgo := (complete_integer .number).bind (f := fun x => pure (Expr.number x.1 x.2))
      hnumber hrest trivial
    cases hnumber with
    | plain | negated =>
      rw [hrest]
      exact hgo

/-- No argument starts with the parenthesis that closes the operation, so that the repetition goes
on as long as there are arguments. -/
theorem startsWith_argument (n : Nat) :
    StartsWith (· != some .rightParen) (Within n Expr.WrittenArgument) := by
  rintro ts e ⟨he, -⟩
  cases he with
  | expr he =>
    cases he with
    | op | name | captured => exact ⟨rfl, by simp⟩
  | number hnumber =>
    cases hnumber with
    | plain | negated => exact ⟨rfl, by simp⟩

/-- A capture in front of a name is read as such, or its absence is, as a name is no mark. -/
theorem bareName_of_capture {c : Cursor} {cs rest : List Located} {capture : Option String}
    {bare : String} {v : Span} (hcapture : Opt Capture cs capture)
    (hrest : c.rest = cs ++ ⟨.identifier bare, v⟩ :: rest) :
    (do
      let capture ← Parser.capture
      let name ← identifier .groupOrIdentifier
      return .name capture name.name (c.span.join name.span) : Parser Expr) c
      = .ok (.name capture bare (c.span.join v), c.past (cs ++ [⟨.identifier bare, v⟩]) rest) := by
  have hless : NotNext .less (⟨.identifier bare, v⟩ :: rest) := by simp [NotNext, next]
  rw [complete_capture.bind hcapture hrest hless,
    (complete_identifier _).bind (.mk bare v) rfl trivial, Cursor.past_past]
  rfl

/-- Every expression of the grammar is read, if the depth allows for it. The tokens of what is
nested are fewer, which is why a depth of their number is enough. -/
theorem complete_exprAt (n : Nat) : Complete (Within n Expr.Written) Anything (exprAt n) := by
  -- The depth that is left bounds the tokens that are left: arguments are shorter than the whole.
  induction n with
  | zero =>
    rintro c ts e rest ⟨-, hn⟩
    exact absurd hn (Nat.not_lt_zero _)
  | succ n ih =>
    rintro c ts e rest ⟨he, hn⟩ hrest -
    rw [exprAt, exprWith, bind_here, bind_peek]
    cases he with
    | @op cs hs as capture head args s t hcapture hhead hargs =>
      simp only [List.length_cons, List.length_append] at hn
      have hrest :
          c.rest = ⟨.leftParen, s⟩ :: (cs ++ (hs ++ (as ++ ⟨.rightParen, t⟩ :: rest))) := by
        rw [hrest]
        simp
      have hnext : next c.rest = some .leftParen := by rw [hrest]; rfl
      have hargs' := star_within (n := n) hargs (by omega)
      -- A head starts with an identifier, so a missing capture is not mistaken for one.
      have hless : NotNext .less (hs ++ (as ++ ⟨.rightParen, t⟩ :: rest)) := by
        cases hhead <;> simp [NotNext, next]
      rw [hnext]
      dsimp only
      rw [bind_advance hrest, Cursor.span_of_rest hrest, complete_capture.bind hcapture rfl hless,
        bind_of_ok (typedOperation_of_head (head_paren.2 hhead) rfl),
        (complete_repeatWhile (complete_argument ih) (startsWith_argument n)
          fun _ _ => trivial).bind hargs' rfl ⟨rfl, trivial⟩,
        (complete_expect _ _).bind (rfl : Mark .rightParen _ t) rfl trivial]
      simp only [Cursor.past_past, List.cons_append, List.nil_append, List.append_assoc]
      rfl
    | name bare s =>
      have hname := bareName_of_capture .absent hrest
      rw [Cursor.span_of_rest hrest, Span.join_self] at hname
      rw [hrest, Cursor.span_of_rest hrest]
      exact hname
    | captured capture bare s t u v =>
      have hname := bareName_of_capture (.present (.mk capture s t u)) hrest
      rw [Cursor.span_of_rest hrest] at hname
      rw [hrest, Cursor.span_of_rest hrest]
      exact hname

theorem complete_expr : Complete Expr.Written Anything expr := by
  intro c ts e rest he hrest _
  refine complete_exprAt _ c ts e rest ⟨he, ?_⟩ hrest trivial
  rw [hrest, List.length_append]
  omega

/-! ## Operands -/

theorem sound_scale : Sound (Opt (After .star Integer)) scale :=
  sound_optional .star (sound_integer .scale)

theorem complete_scale : Complete (Opt (After .star Integer)) (NotNext .star) scale :=
  complete_optional .star (complete_integer .scale)

/-- The type of a reference that is read is one of the grammar. -/
theorem sound_typeSuffix : Sound (Opt (After .colon Identifier)) typeSuffix :=
  sound_optional .colon (sound_identifier .typeName)

theorem complete_typeSuffix :
    Complete (Opt (After .colon Identifier)) (NotNext .colon) typeSuffix :=
  complete_optional .colon (complete_identifier .typeName)

/-- A term that is read is one of the grammar, if its atom is: an atom, with a scale behind it or
without one. -/
theorem sound_term {inner : Parser Operand} (hinner : Sound Operand.WrittenAtom inner) :
    Sound Term.Written (term inner) := by
  intro c a c' h
  obtain ⟨ts, rest, atom, hatom, hrest, h⟩ := hinner.bind_inv h
  obtain ⟨ss, rest₁, scale, hscale, hrest₁, h⟩ := sound_scale.bind_inv h
  obtain ⟨rfl, rfl⟩ := pure_inv h
  rw [Cursor.past_rest] at hrest₁
  exact ⟨_, rest₁, .mk hatom hscale, by rw [hrest, hrest₁, List.append_assoc], by simp⟩

/-- Every term of the grammar is read, if its atom is. A term without a scale must not be followed
by the mark of one. -/
theorem complete_term {inner : Parser Operand} {n : Nat}
    (hinner : Complete (Within n Operand.WrittenAtom) Anything inner) :
    Complete (Within n Term.Written) (NotNext .star) (term inner) := by
  rintro c _ _ rest ⟨⟨hatom, hscale⟩, hn⟩ hrest hstar
  rw [List.length_append] at hn
  rw [List.append_assoc] at hrest
  rw [term, hinner.bind ⟨hatom, by omega⟩ hrest trivial, complete_scale.bind hscale rfl hstar,
    Cursor.past_past]
  rfl

/-- The signs that go on with an address. -/
def isSign (t : Option Token) : Bool := t == some .plus || t == some .minus

/-- A further term that is read is one of the grammar: a plus in front of a term, or a minus in
front of a number. -/
theorem written_of_furtherTerm {inner : Parser Operand} (hinner : Sound Operand.WrittenAtom inner)
    {c c' : Cursor} {a : Term} (hsign : isSign (next c.rest) = true)
    (h : furtherTerm inner c = .ok (a, c')) :
    ∃ ts rest, Term.WrittenFurther ts a ∧ c.rest = ts ++ rest ∧ c' = c.past ts rest := by
  rw [furtherTerm] at h
  by_cases hplus : next c.rest = some .plus
  · obtain ⟨s, rest, hrest⟩ := exists_of_next hplus
    rw [eat_of_next hrest, if_pos rfl] at h
    obtain ⟨ts, rest₁, hterm, hrest₁, rfl⟩ := sound_term hinner _ _ _ h
    rw [Cursor.past_rest] at hrest₁
    exact ⟨_, rest₁, .plus s hterm, by rw [hrest, hrest₁]; rfl, by simp⟩
  · rw [eat_of_not_next hplus] at h
    obtain ⟨ts, rest, n, hn, hrest, h⟩ := (sound_integer _).bind_inv h
    obtain ⟨rfl, rfl⟩ := pure_inv h
    cases hn with
    | plain v s =>
      -- A number without a sign does not go on with an address.
      rw [hrest] at hsign
      cases hsign
    | negated v s t => exact ⟨_, rest, .minus v s t, hrest, rfl⟩

/-- Every further term of the grammar is read: a plus with a term, or a number with a minus, which
is a term of its own. -/
theorem complete_furtherTerm {inner : Parser Operand} {n : Nat}
    (hinner : Complete (Within n Operand.WrittenAtom) Anything inner) :
    Complete (Within n Term.WrittenFurther) (NotNext .star) (furtherTerm inner) := by
  rintro c _ a rest ⟨ha, hn⟩ hrest hstar
  rw [furtherTerm]
  cases ha with
  | plus s hterm =>
    rw [List.length_cons] at hn
    rw [eat_of_next hrest, if_pos rfl,
      complete_term hinner _ _ a rest ⟨hterm, by omega⟩ rfl hstar, Cursor.past_past]
    rfl
  | minus v s t =>
    -- A minus is not skipped: it is the sign of the number.
    have hplus : NotNext .plus c.rest := by rw [hrest]; simp [NotNext, next]
    rw [eat_of_not_next hplus]
    exact (complete_integer _).bind (.negated v s t) hrest trivial

/-- One level of an atom, if the levels below are of the grammar. The kinds of atoms are told apart
by their first token. -/
theorem sound_atomWith {inner : Parser Operand} (hinner : Sound Operand.WrittenAtom inner) :
    Sound Operand.WrittenAtom (atomWith inner) := by
  intro c a c' h
  rw [atomWith, bind_here, bind_peek] at h
  cases hnext : next c.rest with
  | none =>
    rw [hnext] at h
    cases h
  | some token =>
    rw [hnext] at h
    obtain ⟨s, rest, hrest⟩ := exists_of_next hnext
    rw [Cursor.span_of_rest hrest] at h
    cases token with
    -- A reference: a name, the members behind it and possibly a type.
    | less =>
      dsimp only at h
      rw [bind_advance hrest] at h
      obtain ⟨ns, rest₁, head, hhead, hrest₁, h⟩ := (sound_identifier _).bind_inv h
      obtain ⟨ms, rest₂, members, hmembers, hrest₂, h⟩ :=
        (sound_afterEach .dot (sound_identifier _)).bind_inv h
      obtain ⟨ys, rest₃, ty, hty, hrest₃, h⟩ := sound_typeSuffix.bind_inv h
      obtain ⟨_, rest₄, t, rfl, hrest₄, h⟩ := (sound_expect _ _).bind_inv h
      obtain ⟨rfl, rfl⟩ := pure_inv h
      simp only [Cursor.past_rest] at hrest₁ hrest₂ hrest₃ hrest₄
      refine ⟨_, rest₄, .reference s t (.mk hhead hmembers) hty, ?_, by simp⟩
      rw [hrest, hrest₁, hrest₂, hrest₃, hrest₄]
      simp
    -- Memory: a term, and as many more as start with a sign.
    | leftBracket =>
      dsimp only at h
      rw [bind_advance hrest] at h
      obtain ⟨fs, rest₁, first, hfirst, hrest₁, h⟩ := (sound_term hinner).bind_inv h
      have hall := sound_repeatWhile isSign fun _ _ _ => written_of_furtherTerm hinner
      obtain ⟨rs, rest₂, further, hfurther, hrest₂, h⟩ := hall.bind_inv h
      obtain ⟨_, rest₃, t, rfl, hrest₃, h⟩ := (sound_expect _ _).bind_inv h
      obtain ⟨rfl, rfl⟩ := pure_inv h
      simp only [Cursor.past_rest] at hrest₁ hrest₂ hrest₃
      refine ⟨_, rest₃, .memory s t hfirst hfurther, ?_, by simp⟩
      rw [hrest, hrest₁, hrest₂, hrest₃]
      simp
    | number | minus =>
      obtain ⟨ts, rest₁, n, hn, hrest₁, h⟩ := (sound_integer _).bind_inv h
      obtain ⟨rfl, rfl⟩ := pure_inv h
      exact ⟨ts, rest₁, .number hn, hrest₁, rfl⟩
    | identifier name =>
      dsimp only at h
      rw [bind_advance hrest] at h
      obtain ⟨rfl, rfl⟩ := pure_inv h
      exact ⟨_, rest, .name name s, hrest, rfl⟩
    | atSign =>
      dsimp only at h
      rw [bind_advance hrest] at h
      obtain ⟨_, rest₁, _, ⟨bare, t⟩, hrest₁, h⟩ := (sound_identifier _).bind_inv h
      obtain ⟨rfl, rfl⟩ := pure_inv h
      rw [Cursor.past_rest] at hrest₁
      exact ⟨_, rest₁, .label bare s t, by rw [hrest, hrest₁]; rfl, by simp⟩
    | _ => cases h

/-- An atom that is read is one of the grammar, at every depth. -/
theorem sound_atomAt (depth : Nat) : Sound Operand.WrittenAtom (atomAt depth) := by
  induction depth with
  | zero =>
    intro c a c' h
    cases h
  | succ depth ih => exact sound_atomWith ih

theorem sound_atom : Sound Operand.WrittenAtom atom := fun c => sound_atomAt _ c

/-- Whatever goes on with an address starts with a sign, and no sign is a `*`. -/
theorem startsWith_furtherTerm (n : Nat) : StartsWith isSign (Within n Term.WrittenFurther) := by
  rintro ts a ⟨ha, -⟩
  cases ha with
  | plus | minus => exact ⟨rfl, by simp⟩

theorem notNext_star_of_isSign {ts : List Located} (h : isSign (next ts) = true) :
    NotNext .star ts := by
  intro hstar
  rw [hstar] at h
  cases h

/-- All further terms of an address are read, up to the bracket. -/
theorem complete_furtherTerms {inner : Parser Operand} {n : Nat}
    (hinner : Complete (Within n Operand.WrittenAtom) Anything inner) :
    Complete (Star (Within n Term.WrittenFurther))
      (fun rest => isSign (next rest) = false ∧ NotNext .star rest)
      (repeatWhile (fun t => t == some .plus || t == some .minus) (furtherTerm inner)) :=
  complete_repeatWhile (complete_furtherTerm hinner) (startsWith_furtherTerm n)
    fun _ => notNext_star_of_isSign

/-- Every atom of the grammar is read, if the depth allows for it. The forms of the grammar are gone
through one by one; only an address has atoms inside. -/
theorem complete_atomAt (n : Nat) :
    Complete (Within n Operand.WrittenAtom) Anything (atomAt n) := by
  induction n with
  | zero =>
    rintro c ts a rest ⟨-, hn⟩
    exact absurd hn (Nat.not_lt_zero _)
  | succ n ih =>
    rintro c ts a rest ⟨ha, hn⟩ hrest -
    rw [atomAt, atomWith, bind_here, bind_peek]
    cases ha with
    | @reference ps ys path ty s t hpath hty =>
      cases hpath with
      | @mk ns ms head members hhead hmembers =>
        have hrest : c.rest =
            ⟨.less, s⟩ :: (ns ++ (ms ++ (ys ++ ⟨.greater, t⟩ :: rest))) := by
          rw [hrest]
          simp
        have hnext : next c.rest = some .less := by rw [hrest]; rfl
        -- A path ends where there is no dot, and a type is there if there is a colon.
        have hdot : NotNext .dot (ys ++ ⟨.greater, t⟩ :: rest) := by
          rcases hty with _ | ⟨⟨⟩⟩ <;> simp [NotNext, next]
        have hcolon : NotNext .colon (⟨.greater, t⟩ :: rest) := by simp [NotNext, next]
        rw [hnext]
        dsimp only
        rw [bind_advance hrest, Cursor.span_of_rest hrest,
          (complete_identifier _).bind hhead rfl trivial,
          (complete_afterEach .dot (complete_identifier _) fun _ _ => trivial).bind hmembers rfl
            ⟨hdot, trivial⟩,
          complete_typeSuffix.bind hty rfl hcolon,
          (complete_expect _ _).bind (rfl : Mark .greater _ t) rfl trivial]
        simp only [Cursor.past_past, List.cons_append, List.nil_append, List.append_assoc]
        rfl
    | @memory fs rs first further s t hfirst hfurther =>
      simp only [List.length_cons, List.length_append] at hn
      have hrest : c.rest = ⟨.leftBracket, s⟩ :: (fs ++ (rs ++ ⟨.rightBracket, t⟩ :: rest)) := by
        rw [hrest]
        simp
      have hnext : next c.rest = some .leftBracket := by rw [hrest]; rfl
      have hfurther' := star_within (n := n) hfurther (by omega)
      have hstop : NotNext .star (⟨.rightBracket, t⟩ :: rest) := by simp [NotNext, next]
      -- Behind the first term there is a sign or the end, and neither is a scale.
      have hstar : NotNext .star (rs ++ ⟨.rightBracket, t⟩ :: rest) :=
        follow_of_star (startsWith_furtherTerm n) (fun _ => notNext_star_of_isSign) hfurther' hstop
      rw [hnext]
      dsimp only
      rw [bind_advance hrest, Cursor.span_of_rest hrest,
        (complete_term ih).bind ⟨hfirst, by omega⟩ rfl hstar,
        (complete_furtherTerms ih).bind hfurther' rfl ⟨rfl, hstop⟩,
        (complete_expect _ _).bind (rfl : Mark .rightBracket _ t) rfl trivial]
      simp only [Cursor.past_past, List.cons_append, List.nil_append, List.append_assoc]
      rfl
    | number hnumber =>
      have hgo := (complete_integer .number).bind (f := fun x => pure (Operand.number x.1 x.2))
        hnumber hrest trivial
      cases hnumber with
      | plain | negated =>
        rw [hrest]
        exact hgo
    | name bare s =>
      have hnext : next c.rest = some (.identifier bare) := by rw [hrest]; rfl
      rw [hnext]
      dsimp only
      rw [bind_advance hrest, Cursor.span_of_rest hrest]
      rfl
    | label bare s t =>
      have hnext : next c.rest = some .atSign := by rw [hrest]; rfl
      rw [hnext]
      dsimp only
      rw [bind_advance hrest, (complete_identifier _).bind (.mk bare t) rfl trivial,
        Cursor.past_past, Cursor.span_of_rest hrest]
      rfl

theorem complete_atom : Complete Operand.WrittenAtom Anything atom := by
  intro c ts a rest ha hrest _
  refine complete_atomAt _ c ts a rest ⟨ha, ?_⟩ hrest trivial
  rw [hrest, List.length_append]
  omega

/-- An operand that is read is one of the grammar: an atom, or an atom with a scale. The span of the
second kind reaches to the end of the scale. -/
theorem sound_operand : Sound Operand.Written operand := by
  intro c o c' h
  obtain ⟨ts, rest, atom, hatom, hrest, h⟩ := sound_atom.bind_inv h
  obtain ⟨ss, rest₁, scale, hscale, hrest₁, h⟩ := sound_scale.bind_inv h
  rw [Cursor.past_rest] at hrest₁
  cases hscale with
  | absent =>
    obtain ⟨rfl, rfl⟩ := pure_inv h
    exact ⟨ts, rest₁, .plain hatom, by rw [hrest, hrest₁]; rfl, by simp⟩
  | present hfactor =>
    obtain ⟨rfl, rfl⟩ := pure_inv h
    exact ⟨_, rest₁, .scaled hatom hfactor, by rw [hrest, hrest₁, List.append_assoc], by simp⟩

/-- Every operand of the grammar is read. One without a scale must not be followed by the mark of
one. -/
theorem complete_operand : Complete Operand.Written (NotNext .star) operand := by
  intro c ts o rest ho hrest hstar
  rw [operand]
  cases ho with
  | plain hatom =>
    rw [complete_atom.bind hatom hrest trivial, complete_scale.bind .absent rfl hstar,
      Cursor.past_past, List.append_nil]
    rfl
  | scaled hatom hfactor =>
    rw [List.append_assoc] at hrest
    rw [complete_atom.bind hatom hrest trivial, complete_scale.bind (.present hfactor) rfl hstar,
      Cursor.past_past]
    rfl

/-! ## Templates -/

/-- The condition of an instruction that is read is one of the grammar. -/
theorem sound_conditionSuffix : Sound (Opt (After .dot Identifier)) conditionSuffix :=
  sound_optional .dot (sound_identifier .conditionCode)

theorem complete_conditionSuffix :
    Complete (Opt (After .dot Identifier)) (NotNext .dot) conditionSuffix :=
  complete_optional .dot (complete_identifier .conditionCode)

/-- Operands that may be missing, as a list. -/
def WrittenOperands (ts : List Located) (os : List Operand) : Prop :=
  ∃ operands, Opt (Separated .comma Operand.Written) ts operands ∧ os = operands.getD []

/-- Operands that are read are those of the grammar, separated by commas. A bracket right at the
start means that there are none. -/
theorem sound_operands : Sound WrittenOperands operands := by
  intro c os c' h
  rw [operands, bind_peek] at h
  split at h
  · obtain ⟨rfl, rfl⟩ := pure_inv h
    exact ⟨[], c'.rest, ⟨none, .absent, rfl⟩, rfl, rfl⟩
  · obtain ⟨ts, rest, first, hfirst, hrest, h⟩ := sound_operand.bind_inv h
    obtain ⟨us, rest₁, further, hfurther, hrest₁, h⟩ :=
      (sound_afterEach .comma sound_operand).bind_inv h
    obtain ⟨rfl, rfl⟩ := pure_inv h
    rw [Cursor.past_rest] at hrest₁
    exact ⟨_, rest₁, ⟨some _, .present (.mk hfirst hfurther), rfl⟩,
      by rw [hrest, hrest₁, List.append_assoc], by simp⟩

/-- An operand is not empty and starts with none of the marks that end or divide operands. So where
one begins can be told from the next token. -/
theorem next_operand {ts : List Located} {o : Operand} (h : Operand.Written ts o) :
    ts ≠ [] ∧ next ts ≠ some .rightBracket ∧ next ts ≠ some .star ∧ next ts ≠ some .dot := by
  have hatom : ∀ {us : List Located} {a : Operand}, Operand.WrittenAtom us a →
      us ≠ [] ∧ next us ≠ some .rightBracket ∧ next us ≠ some .star ∧ next us ≠ some .dot := by
    intro us a ha
    cases ha with
    | number hn => cases hn <;> simp [next]
    | _ => simp [next]
  -- A scale stands behind the atom, so the first token is that of the atom.
  cases h with
  | plain ha => exact hatom ha
  | scaled ha _ =>
    obtain ⟨hne, hnext⟩ := hatom ha
    rw [next_append hne]
    exact ⟨by simp [hne], hnext⟩

/-- All operands of an instruction are read, up to the bracket. What follows an operand is a comma
or the bracket, and neither continues it. -/
theorem complete_operands :
    Complete WrittenOperands (fun rest => next rest = some .rightBracket) operands := by
  rintro c ts _ rest ⟨os, hos, rfl⟩ hrest hclose
  rw [operands, bind_peek]
  -- None at all, or a first one and further ones after commas.
  cases hos with
  | absent =>
    have hrest : c.rest = rest := hrest
    rw [if_pos (by rw [hrest]; exact hclose), ← hrest]
    rfl
  | present hbody =>
    cases hbody with
    | @mk ts us first further hfirst hfurther =>
      obtain ⟨hne, hopen, -⟩ := next_operand hfirst
      rw [List.append_assoc] at hrest
      have hnext : ¬ next c.rest = some .rightBracket := by rw [hrest, next_append hne]; exact hopen
      have hcomma : ∀ us : List Located, next us = some .comma → NotNext .star us := by
        intro us hus
        simp [NotNext, hus]
      have hstar : NotNext .star (us ++ rest) :=
        notNext_after (by simp) hfurther (by simp [NotNext, hclose])
      rw [if_neg hnext, complete_operand.bind hfirst hrest hstar,
        (complete_afterEach .comma complete_operand hcomma).bind hfurther rfl
          ⟨by simp [NotNext, hclose], by simp [NotNext, hclose]⟩, Cursor.past_past]
      rfl

/-- Looking at what an item starts with reads nothing. -/
@[simp] theorem bind_itemHead (f : ItemHead → Parser β) (c : Cursor) :
    (itemHead >>= f) c = f (.of c.rest) c := rfl

/-- A label starts with its mark. -/
theorem next_of_label {ts : List Located} (h : ItemHead.of ts = .label) :
    next ts = some .atSign := by
  unfold ItemHead.of at h
  split at h
  · rfl
  · split at h <;> cases h
  · cases h

/-- An instruction starts with its mnemonic, and the parser takes a name for one by its form. -/
theorem next_of_instruction {ts : List Located} {mnemonic : String}
    (h : ItemHead.of ts = .instruction mnemonic) :
    next ts = some (.identifier mnemonic) ∧ isMnemonic mnemonic = true := by
  unfold ItemHead.of at h
  split at h
  · cases h
  · split at h
    · rename_i hform
      cases h
      exact ⟨rfl, (Bool.and_eq_true_iff.1 hform).1⟩
    · cases h
  · cases h

/-- An item is an operand exactly if its tokens cannot be a label or an instruction. A name that
could be a mnemonic is an operand if a scale follows it. -/
theorem of_eq_operand {ts : List Located} : ItemHead.of ts = .operand ↔ OperandOnly ts := by
  -- The cases are those of the look at the first two tokens: a label, a name, or neither.
  unfold ItemHead.of
  split
  · refine iff_of_false (by simp) fun h => h.label rfl
  · rename_i name s rest
    split
    · rename_i hform
      rw [Bool.and_eq_true_iff, bne_iff_ne] at hform
      refine iff_of_false (by simp) fun h => hform.2 (h.instruction name rfl hform.1)
    · rename_i hform
      rw [Bool.and_eq_true_iff, bne_iff_ne, not_and, Decidable.not_not] at hform
      refine iff_of_true rfl ⟨by simp [next], ?_⟩
      rintro _ hname
      cases hname
      exact hform
  · rename_i hlabel hname
    refine iff_of_true rfl ⟨fun h => ?_, fun name h => ?_⟩
    · obtain ⟨s, rest, rfl⟩ := exists_of_next h
      exact absurd rfl (hlabel s rest)
    · obtain ⟨s, rest, rfl⟩ := exists_of_next h
      exact absurd rfl (hname name s rest)

/-- A closing bracket is no `*`, so what counts is the operand before it. The parser sees the
bracket behind a name, the grammar sees nothing. -/
theorem operandOnly_bracket {os : List Located} {o : Operand} (t : Span) (rest : List Located)
    (h : Operand.Written os o) :
    OperandOnly (os ++ ⟨.rightBracket, t⟩ :: rest) ↔ OperandOnly os := by
  obtain ⟨hne, -⟩ := next_operand h
  have htail : next (os ++ ⟨.rightBracket, t⟩ :: rest).tail = some .star ↔
      next os.tail = some .star := by
    rcases os with _ | ⟨a, _ | ⟨b, os⟩⟩
    · contradiction
    · simp [next]
    · rfl
  have hnext := next_append hne (⟨.rightBracket, t⟩ :: rest)
  constructor
  · rintro ⟨hlabel, hinstruction⟩
    rw [hnext] at hlabel hinstruction
    exact ⟨hlabel, fun name hname hform => htail.1 (hinstruction name hname hform)⟩
  · rintro ⟨hlabel, hinstruction⟩
    rw [← hnext] at hlabel hinstruction
    exact ⟨hlabel, fun name hname hform => htail.2 (hinstruction name hname hform)⟩

/-- An item that is read is one of the grammar. What it starts with tells which of the three kinds
it is: a label, an instruction or an operand. -/
theorem sound_item : Sound Item.Written item := by
  intro c i c' h
  obtain ⟨_, rest, s, rfl, hrest, h⟩ := (sound_expect _ _).bind_inv h
  rw [bind_itemHead, Cursor.past_rest] at h
  cases hhead : ItemHead.of rest with
  -- The mark of a label, its name and the bracket.
  | label =>
    rw [hhead] at h
    obtain ⟨t, rest₁, rfl⟩ := exists_of_next (next_of_label hhead)
    dsimp only at h
    rw [bind_advance rfl] at h
    obtain ⟨_, rest₂, _, ⟨bare, u⟩, hrest₂, h⟩ := (sound_identifier _).bind_inv h
    obtain ⟨_, rest₃, v, rfl, hrest₃, h⟩ := (sound_expect _ _).bind_inv h
    obtain ⟨rfl, rfl⟩ := pure_inv h
    simp only [Cursor.past_rest] at hrest₂ hrest₃
    exact ⟨_, rest₃, .label bare s t u v, by rw [hrest, hrest₂, hrest₃]; rfl, by simp⟩
  -- A mnemonic, possibly with a condition, and its operands.
  | instruction mnemonic =>
    rw [hhead] at h
    obtain ⟨hnext, hform⟩ := next_of_instruction hhead
    obtain ⟨t, rest₁, rfl⟩ := exists_of_next hnext
    dsimp only at h
    rw [bind_advance rfl] at h
    obtain ⟨cs, rest₂, condition, hcondition, hrest₂, h⟩ := sound_conditionSuffix.bind_inv h
    obtain ⟨os, rest₃, _, ⟨operands, hoperands, rfl⟩, hrest₃, h⟩ := sound_operands.bind_inv h
    obtain ⟨_, rest₄, u, rfl, hrest₄, h⟩ := (sound_expect _ _).bind_inv h
    obtain ⟨rfl, rfl⟩ := pure_inv h
    simp only [Cursor.past_rest] at hrest₂ hrest₃ hrest₄
    refine ⟨_, rest₄, .instruction s t u hform hcondition hoperands, ?_, by simp⟩
    rw [hrest, hrest₂, hrest₃, hrest₄]
    simp
  -- An operand alone, which does not look like one of the others.
  | operand =>
    rw [hhead] at h
    obtain ⟨os, rest₁, operand, hoperand, hrest₁, h⟩ := sound_operand.bind_inv h
    obtain ⟨_, rest₂, t, rfl, hrest₂, h⟩ := (sound_expect _ _).bind_inv h
    obtain ⟨rfl, rfl⟩ := pure_inv h
    simp only [Cursor.past_rest] at hrest₁ hrest₂
    subst hrest₂ hrest₁
    have honly := (operandOnly_bracket _ _ hoperand).1 (of_eq_operand.1 hhead)
    exact ⟨_, rest₂, .operand s t hoperand honly, by rw [hrest]; simp, by simp⟩

/-- What follows the mnemonic is no scale, and no condition either unless one is written: it is an
operand or the bracket. -/
theorem notNext_operands {os : List Located} {operands : Option (List Operand)} (u : Span)
    (rest : List Located) (h : Opt (Separated .comma Operand.Written) os operands) :
    NotNext .star (os ++ ⟨.rightBracket, u⟩ :: rest)
      ∧ NotNext .dot (os ++ ⟨.rightBracket, u⟩ :: rest) := by
  cases h with
  | absent => simp [NotNext, next]
  | present hbody =>
    cases hbody with
    | mk hfirst _ =>
      obtain ⟨hne, -, hstar, hdot⟩ := next_operand hfirst
      rw [NotNext, NotNext, List.append_assoc, next_append hne]
      exact ⟨hstar, hdot⟩

/-- Every item of the grammar is read. Each of the three kinds starts in a way that the other two do
not. -/
theorem complete_item : Complete Item.Written Anything item := by
  intro c ts i rest hi hrest _
  rw [item]
  cases hi with
  | label bare s t u v =>
    have hrest : c.rest = [⟨.leftBracket, s⟩] ++ ⟨.atSign, t⟩ ::
        ⟨.identifier bare, u⟩ :: ⟨.rightBracket, v⟩ :: rest := hrest
    rw [(complete_expect _ _).bind rfl hrest trivial, bind_itemHead, Cursor.past_rest, ItemHead.of]
    dsimp only
    rw [bind_advance rfl, (complete_identifier _).bind (.mk bare u) rfl trivial,
      (complete_expect _ _).bind (rfl : Mark .rightBracket _ v) rfl trivial]
    simp only [Cursor.past_past]
    rfl
  | @instruction mnemonic cs os condition operands s t u hform hcondition hoperands =>
    have hrest : c.rest = [⟨.leftBracket, s⟩] ++ ⟨.identifier mnemonic, t⟩ ::
        (cs ++ (os ++ ⟨.rightBracket, u⟩ :: rest)) := by
      rw [hrest]
      simp
    obtain ⟨hstar, hdot⟩ := notNext_operands u rest hoperands
    have hhead : ItemHead.of (⟨.identifier mnemonic, t⟩ ::
        (cs ++ (os ++ ⟨.rightBracket, u⟩ :: rest))) = .instruction mnemonic := by
      -- Neither a condition nor an operand starts with `*`, so this is no scaled name.
      have hscaled : NotNext .star (cs ++ (os ++ ⟨.rightBracket, u⟩ :: rest)) := by
        rcases hcondition with _ | ⟨⟨⟩⟩
        · exact hstar
        · simp [NotNext, next]
      exact if_pos (Bool.and_eq_true_iff.2 ⟨hform, bne_iff_ne.2 hscaled⟩)
    rw [(complete_expect _ _).bind rfl hrest trivial, bind_itemHead, Cursor.past_rest, hhead]
    dsimp only
    rw [bind_advance rfl, complete_conditionSuffix.bind hcondition rfl hdot,
      complete_operands.bind ⟨operands, hoperands, rfl⟩ rfl rfl,
      (complete_expect _ _).bind (rfl : Mark .rightBracket _ u) rfl trivial]
    simp only [Cursor.past_past, List.cons_append, List.nil_append, List.append_assoc]
    rfl
  | @operand os operand s t hoperand honly =>
    have hrest : c.rest = [⟨.leftBracket, s⟩] ++ (os ++ ⟨.rightBracket, t⟩ :: rest) := by
      rw [hrest]
      simp
    have hhead := of_eq_operand.2 ((operandOnly_bracket t rest hoperand).2 honly)
    rw [(complete_expect _ _).bind rfl hrest trivial, bind_itemHead, Cursor.past_rest, hhead]
    dsimp only
    rw [complete_operand.bind hoperand rfl (by simp [NotNext, next]),
      (complete_expect _ _).bind (rfl : Mark .rightBracket _ t) rfl trivial]
    simp only [Cursor.past_past, List.cons_append, List.nil_append]
    rfl

/-! ## Groups and documents -/

@[simp] theorem bind_lastSpan (f : Span → Parser β) (c : Cursor) :
    (lastSpan >>= f) c = f c.last c := rfl

theorem startsWith_item : StartsWith (· == some .leftBracket) Item.Written := by
  intro ts i hi
  cases hi <;> exact ⟨rfl, by simp⟩

theorem complete_items : Complete (Star Item.Written) (NotNext .leftBracket)
    (repeatWhile (· == some .leftBracket) item) := by
  intro c ts is rest his hrest hnot
  exact complete_repeatWhile complete_item startsWith_item (fun _ _ => trivial) c ts is rest his
    hrest ⟨beq_eq_false_iff_ne.2 hnot, trivial⟩

/-- A repetition whose test passes runs at least once, for then the parser is run and its result put
in front. -/
theorem ne_nil_of_repeatWhile (test : Option Token → Bool) {p : Parser α} {c c' : Cursor}
    {as : List α} (htest : test (next c.rest) = true)
    (h : repeatWhile test p c = .ok (as, c')) : as ≠ [] := by
  rw [repeatWhile, repeatAtMost, bind_peek, if_pos htest] at h
  obtain ⟨a, c₁, -, h⟩ := bind_inv h
  obtain ⟨as', c₂, -, h⟩ := bind_inv h
  obtain ⟨rfl, -⟩ := pure_inv h
  simp

/-- A conversion that is read is one of the grammar: an expression, an arrow, and at least one item.
The parser makes sure of the first item before it repeats. -/
theorem sound_conversion : Sound Conversion.Written conversion := by
  intro c conv c' h
  obtain ⟨es, rest, e, he, hrest, h⟩ := sound_expr.bind_inv h
  obtain ⟨_, rest₁, s, rfl, hrest₁, h⟩ := (sound_expect _ _).bind_inv h
  rw [bind_peek] at h
  split at h
  · rename_i hnext
    obtain ⟨items, c₂, hitems, h⟩ := bind_inv h
    -- The grammar asks for at least one item; the bracket that was seen starts it.
    have hne := ne_nil_of_repeatWhile (· == some .leftBracket) (beq_iff_eq.2 hnext) hitems
    obtain ⟨is, rest₂, his, hrest₂, rfl⟩ :=
      sound_repeatWhile _ (fun c a c' _ => sound_item c a c') _ _ _ hitems
    rw [bind_lastSpan] at h
    obtain ⟨rfl, rfl⟩ := pure_inv h
    simp only [Cursor.past_rest] at hrest₁ hrest₂
    cases items with
    | nil => contradiction
    | cons item items =>
      exact ⟨_, rest₂, .mk s he his, by rw [hrest, hrest₁, hrest₂]; simp, by simp⟩
  · cases h

/-- Every conversion of the grammar is read, up to a token that does not start another item. -/
theorem complete_conversion : Complete Conversion.Written (NotNext .leftBracket) conversion := by
  rintro c _ _ rest ⟨s, he, his⟩ hrest hnot
  rename_i es is e item items
  have hrest : c.rest = es ++ ([⟨.arrow, s⟩] ++ (is ++ rest)) := by
    rw [hrest]
    simp
  -- There is at least one item, and it starts with a bracket.
  have hopen : next (is ++ rest) = some .leftBracket := by
    cases his with
    | cons hitem _ =>
      obtain ⟨hnext, hne⟩ := startsWith_item _ _ hitem
      rw [List.append_assoc, next_append hne]
      exact beq_iff_eq.1 hnext
  rw [conversion, complete_expr.bind he hrest trivial, (complete_expect _ _).bind rfl rfl trivial,
    bind_peek, Cursor.past_rest, if_pos hopen, complete_items.bind his rfl hnot, bind_lastSpan]
  simp only [Cursor.past_past, Cursor.past_last, List.append_assoc, Grammar.lastSpan_append]
  rfl

/-- A group that is read is one of the grammar: a name, and conversions that are separated by bars
and closed by a `;`. -/
theorem sound_group : Sound Group.Written group := by
  intro c g c' h
  obtain ⟨_, rest, _, ⟨name, s⟩, hrest, h⟩ := (sound_identifier _).bind_inv h
  obtain ⟨_, rest₁, t, rfl, hrest₁, h⟩ := (sound_expect _ _).bind_inv h
  obtain ⟨fs, rest₂, first, hfirst, hrest₂, h⟩ := sound_conversion.bind_inv h
  obtain ⟨rs, rest₃, further, hfurther, hrest₃, h⟩ :=
    (sound_afterEach .pipe sound_conversion).bind_inv h
  obtain ⟨_, rest₄, u, rfl, hrest₄, h⟩ := (sound_expect _ _).bind_inv h
  obtain ⟨rfl, rfl⟩ := pure_inv h
  simp only [Cursor.past_rest] at hrest₁ hrest₂ hrest₃ hrest₄
  refine ⟨_, rest₄, .mk name s t u (.mk hfirst hfurther), ?_, by simp⟩
  rw [hrest, hrest₁, hrest₂, hrest₃, hrest₄]
  simp

/-- Every group of the grammar is read. Behind a conversion there is a bar or the `;`, neither of
which continues it. -/
theorem complete_group : Complete Group.Written Anything group := by
  rintro c _ _ rest ⟨name, s, t, u, ⟨hfirst, hfurther⟩⟩ hrest -
  -- The first conversion and then the further ones, each after its mark.
  rename_i fs rs first further
  have hrest : c.rest = [⟨.identifier name, s⟩] ++ ([⟨.colon, t⟩] ++
      (fs ++ (rs ++ ([⟨.semicolon, u⟩] ++ rest)))) := by
    rw [hrest]
    simp
  have hstop : NotNext .leftBracket ([⟨.semicolon, u⟩] ++ rest) := by simp [NotNext, next]
  have hpipe : ∀ ts : List Located, next ts = some .pipe → NotNext .leftBracket ts := by
    intro ts hts
    simp [NotNext, hts]
  rw [group, (complete_identifier _).bind (.mk name s) hrest trivial,
    (complete_expect _ _).bind rfl rfl trivial,
    complete_conversion.bind hfirst rfl (notNext_after (by simp) hfurther hstop),
    (complete_afterEach .pipe complete_conversion hpipe).bind hfurther rfl
      ⟨by simp [NotNext, next], hstop⟩,
    (complete_expect _ _).bind rfl rfl trivial]
  simp only [Cursor.past_past, List.append_assoc]
  rfl

theorem length_pos_of_group {ts : List Located} {g : Group} (h : Group.Written ts g) :
    0 < ts.length := by
  cases h
  simp

/-- Groups without an error are groups of the grammar, if there are enough of them allowed. The
induction is on that number; every group takes at least one token. -/
theorem written_of_groupsUpTo {finish : Span} (n : Nat) : ∀ (ts : List Located) (gs : List Group),
    ts.length ≤ n → groupsUpTo finish n ts = (gs, []) → Star Group.Written ts gs := by
  induction n with
  | zero =>
    intro ts gs hn h
    have hts := List.eq_nil_of_length_eq_zero (Nat.le_zero.1 hn)
    rw [hts]
    cases h
    exact .nil
  | succ n ih =>
    intro ts gs hn h
    cases ts with
    | nil =>
      cases h
      exact .nil
    | cons t ts =>
      rw [groupsUpTo] at h
      · split at h
        · rename_i g c hgroup
          -- One group was read. What is left is shorter, so one less is enough for it.
          obtain ⟨us, rest, hg, hrest, rfl⟩ := sound_group _ _ _ hgroup
          have hrest : t :: ts = us ++ rest := hrest
          have hpos := length_pos_of_group hg
          have hlength := congrArg List.length hrest
          simp only [List.length_cons, List.length_append] at hlength hn
          obtain ⟨rfl, herrors⟩ := Prod.mk.inj h
          rw [hrest]
          exact .cons hg (ih rest _ (by omega) (Prod.ext rfl herrors))
        · cases (Prod.mk.inj h).2
      · simp

/-- Groups of the grammar are read one after the other, without an error, if as many are allowed as
there are tokens. -/
theorem groupsUpTo_of_written {finish : Span} {ts : List Located} {gs : List Group}
    (h : Star Group.Written ts gs) :
    ∀ n, ts.length ≤ n → groupsUpTo finish n ts = (gs, []) := by
  induction h with
  | nil =>
    intro n _
    cases n <;> rfl
  | @cons ts us g gs hg _ ih =>
    intro n hn
    have hpos := length_pos_of_group hg
    rw [List.length_append] at hn
    cases n with
    | zero => omega
    | succ n =>
      have hgroup := complete_group ⟨ts ++ us, finish, finish⟩ ts g us hg rfl trivial
      have hne : ts ++ us ≠ [] := by
        intro h
        simp [List.append_eq_nil_iff.1 h] at hpos
      rw [groupsUpTo, hgroup]
      · simp [ih n (by omega)]
      · exact hne

/-- **Tokens are groups without an error if the grammar derives them.** -/
theorem groups_eq_iff {finish : Span} {ts : List Located} {gs : List Group} :
    groups finish ts = (gs, []) ↔ Star Group.Written ts gs :=
  ⟨written_of_groupsUpTo _ ts gs (Nat.le_refl _),
    fun h => groupsUpTo_of_written h _ (Nat.le_refl _)⟩

end Parser

/-- A document is read where neither cutting the text nor a group gives an error. The groups are
then those of the grammar. -/
theorem Document.parse_eq_ok_iff {source : List Char} {d : Document} :
    Document.parse source = .ok d ↔ (tokenize source).2 = [] ∧ d.Written (tokenize source).1 := by
  rw [Document.Written, ← @Parser.groups_eq_iff (.point (byteLength source)), parse]
  dsimp only
  generalize Parser.groups (.point (byteLength source)) (tokenize source).1 = read
  obtain ⟨gs, structural⟩ := read
  -- Without any error the two sides are the same document; with one, neither side holds.
  by_cases hnone : (tokenize source).2 ++ structural = []
  · obtain ⟨hlexical, rfl⟩ := List.append_eq_nil_iff.1 hnone
    rw [hlexical]
    cases d
    simp
  · rw [if_neg (by simpa using hnone)]
    refine iff_of_false (by simp) ?_
    rintro ⟨hlexical, hread⟩
    exact hnone (List.append_eq_nil_iff.2 ⟨hlexical, (Prod.mk.inj hread).2⟩)

/-- Otherwise the errors of both are reported in order, by where they start. Among errors that start
at the same place those of the text come first. -/
theorem Document.errors_of_parse {source : List Char} {errors : List SyntaxError}
    (h : Document.parse source = .error errors) :
    errors = ((tokenize source).2
        ++ (Parser.groups (.point (byteLength source)) (tokenize source).1).2).mergeSort
      fun a b => a.span.start ≤ b.span.start := by
  rw [parse] at h
  dsimp only at h
  split at h
  · cases h
  · exact (Except.error.inj h).symm

/-- What is wrong with the text is reported, whatever the groups are: the groups are still read, and
their errors come in addition. -/
theorem Document.parse_of_mem_errors {source : List Char} {e : SyntaxError}
    (h : e ∈ (tokenize source).2) :
    ∃ errors, Document.parse source = .error errors ∧ e ∈ errors := by
  cases hparse : Document.parse source with
  | ok d =>
    rw [(Document.parse_eq_ok_iff.1 hparse).1] at h
    cases h
  | error errors =>
    refine ⟨errors, rfl, ?_⟩
    rw [Document.errors_of_parse hparse]
    exact List.mem_mergeSort.2 (List.mem_append_left _ h)

/-- **The texts that can be read are those of the grammar.** A text is read as a document if it
cuts into tokens without an error and the grammar derives the tokens with that document as their
tree, and no tokens have two trees. -/
theorem Document.parse_eq_ok_iff_written :
    (∀ (source : List Char) (d : Document), Document.parse source = .ok d ↔
        (tokenize source).2 = [] ∧ d.Written (tokenize source).1)
      ∧ ∀ (ts : List Located) (d d' : Document), d.Written ts → d'.Written ts → d = d' := by
  have hgroups : ∀ (finish : Span) (ts : List Located) (d : Document),
      Parser.groups finish ts = (d.groups, []) ↔ d.Written ts := fun _ _ _ => Parser.groups_eq_iff
  constructor
  · intro source d
    rw [← hgroups (.point (byteLength source)), parse]
    dsimp only
    generalize Parser.groups (.point (byteLength source)) (tokenize source).1 = read
    obtain ⟨gs, structural⟩ := read
    constructor
    · intro h
      split at h
      · rename_i hnone
        obtain ⟨hlexical, hstructural⟩ := List.append_eq_nil_iff.1 (List.isEmpty_iff.1 hnone)
        cases h
        exact ⟨hlexical, Prod.ext rfl hstructural⟩
      · cases h
    · rintro ⟨hlexical, hread⟩
      cases hread
      rw [hlexical]
      rfl
  · -- Both trees are what the parser makes of the tokens.
    intro ts d d' h h'
    have hd := (hgroups (.point 0) ts d).2 h
    rw [(hgroups (.point 0) ts d').2 h'] at hd
    cases d
    cases d'
    cases hd
    rfl

/-- A group with a type, nested arguments, each kind of item, a scaled index and negative
numbers. -/
def Grammar.allForms : List Char :=
  "a: (<x> I32 ADD b (SHL <k> c -2)) -> [@go] [LEA.e <x.lo:I16>, [<x> * 4 - 1]] [<k>];".toList

theorem Document.parse_eq_ok_iff_written_allForms :
    ∃ d : Document, Document.parse allForms = .ok d ∧ d.Written (tokenize allForms).1
      ∧ ∀ d' : Document, d'.Written (tokenize allForms).1 → d' = d := by
  have hread : (Document.parse allForms).isOk = true := by decide +kernel
  cases hd : Document.parse allForms with
  | error e =>
    rw [hd] at hread
    cases hread
  | ok d =>
    have hwritten := ((parse_eq_ok_iff_written.1 _ d).1 hd).2
    exact ⟨d, rfl, hwritten, fun d' h => parse_eq_ok_iff_written.2 _ d' d h hwritten⟩

end TileSelect
