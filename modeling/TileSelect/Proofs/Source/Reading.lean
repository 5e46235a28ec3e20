import TileSelect.Proofs.Faults
import TileSelect.Proofs.Source.Grammar
/-!
What it means that a parser reads a rule of the grammar.

A parser is *sound* for a rule if what it reads was derived by the rule, and *complete* if it reads
whatever the rule derives, given what may follow. Following matters: an operand may be scaled, so
it is read in full only where no `*` is left, and a repetition goes on for as long as the next
token lets it.

Both are stated about the place a parser gets to, so that they can be put in sequence: one step
for each thing that is read, forwards for completeness and backwards for soundness. The module
ends with what every rule is made of: single tokens, options and repetitions.
-/

set_option autoImplicit false

namespace TileSelect

open Grammar

/-! ## Spans and tokens -/

@[simp] theorem Span.join_self (s : Span) : s.join s = s := by
  simp [join]

namespace Grammar

theorem lastSpan_append (before : Span) (ts us : List Located) :
    lastSpan before (ts ++ us) = lastSpan (lastSpan before ts) us := by
  induction ts generalizing before with
  | nil => rfl
  | cons t ts ih => exact ih t.span

/-- The next token stands somewhere, and others follow. -/
theorem exists_of_next {ts : List Located} {t : Token} (h : next ts = some t) :
    ∃ s rest, ts = ⟨t, s⟩ :: rest := by
  cases ts with
  | nil => cases h
  | cons u rest =>
    cases h
    exact ⟨u.span, rest, rfl⟩

theorem next_append {ts : List Located} (h : ts ≠ []) (us : List Located) :
    next (ts ++ us) = next ts := by
  cases ts with
  | nil => contradiction
  | cons t ts => rfl

end Grammar

namespace Parser

variable {α β : Type}

/-! ## Where a parser gets to -/

/-- The cursor behind some tokens, where others are left. -/
def Cursor.past (c : Cursor) (ts rest : List Located) : Cursor :=
  ⟨rest, Grammar.lastSpan c.last ts, c.finish⟩

@[simp] theorem Cursor.past_rest (c : Cursor) (ts rest : List Located) :
    (c.past ts rest).rest = rest := rfl

/-- The last place is that of the last token that was read. -/
@[simp] theorem Cursor.past_last (c : Cursor) (ts rest : List Located) :
    (c.past ts rest).last = Grammar.lastSpan c.last ts := rfl

/-- Tokens that are read one after the other are read together. -/
@[simp] theorem Cursor.past_past (c : Cursor) (ts us rest rest' : List Located) :
    (c.past ts rest).past us rest' = c.past (ts ++ us) rest' := by
  simp [past, Grammar.lastSpan_append]

/-- The parser reads nothing but what the rule derives. -/
def Sound (r : List Located → α → Prop) (p : Parser α) : Prop :=
  ∀ c a c', p c = .ok (a, c') → ∃ ts rest, r ts a ∧ c.rest = ts ++ rest ∧ c' = c.past ts rest

/-- The parser reads everything that the rule derives, where `follow` allows what is left. -/
def Complete (r : List Located → α → Prop) (follow : List Located → Prop) (p : Parser α) : Prop :=
  ∀ c ts a rest, r ts a → c.rest = ts ++ rest → follow rest → p c = .ok (a, c.past ts rest)

/-- Nothing is asked of what follows. -/
def Anything (_ : List Located) : Prop := True

/-- What follows does not start with the token. -/
def NotNext (t : Token) (rest : List Located) : Prop := next rest ≠ some t

/-- Two parsers in sequence have read something if each of them has. -/
theorem bind_inv {p : Parser α} {f : α → Parser β} {c c' : Cursor} {b : β}
    (h : (p >>= f) c = .ok (b, c')) : ∃ a c₁, p c = .ok (a, c₁) ∧ f a c₁ = .ok (b, c') := by
  obtain ⟨⟨a, c₁⟩, ha, hb⟩ := bind_eq_ok.1 h
  exact ⟨a, c₁, ha, hb⟩

/-- Where the first parser has read something, the second goes on. -/
theorem bind_of_ok {p : Parser α} {f : α → Parser β} {c c₁ : Cursor} {a : α}
    (h : p c = .ok (a, c₁)) : (p >>= f) c = f a c₁ := by
  change (p c >>= fun x => f x.1 x.2) = _
  rw [h]
  rfl

/-- What a sound parser read before the next step. -/
theorem Sound.bind_inv {r : List Located → α → Prop} {p : Parser α} (hp : Sound r p)
    {f : α → Parser β} {c c' : Cursor} {b : β} (h : (p >>= f) c = .ok (b, c')) :
    ∃ ts rest a, r ts a ∧ c.rest = ts ++ rest ∧ f a (c.past ts rest) = .ok (b, c') := by
  obtain ⟨a, c₁, ha, hb⟩ := Parser.bind_inv h
  obtain ⟨ts, rest, hr, hc, rfl⟩ := hp c a c₁ ha
  exact ⟨ts, rest, a, hr, hc, hb⟩

/-- A complete parser reads its tokens and the next step goes on behind them. -/
theorem Complete.bind {r : List Located → α → Prop} {follow : List Located → Prop} {p : Parser α}
    (hp : Complete r follow p) {f : α → Parser β} {c : Cursor} {ts rest : List Located} {a : α}
    (hr : r ts a) (hc : c.rest = ts ++ rest) (hrest : follow rest) :
    (p >>= f) c = f a (c.past ts rest) :=
  bind_of_ok (hp c ts a rest hr hc hrest)

theorem pure_inv {a b : α} {c c' : Cursor} (h : (pure a : Parser α) c = .ok (b, c')) :
    b = a ∧ c' = c := by
  cases h
  exact ⟨rfl, rfl⟩

@[simp] theorem bind_peek (f : Option Token → Parser β) (c : Cursor) :
    (peek >>= f) c = f (next c.rest) c := rfl

@[simp] theorem bind_here (f : Span → Parser β) (c : Cursor) : (here >>= f) c = f c.span c := rfl

theorem Cursor.span_of_rest {c : Cursor} {t : Located} {rest : List Located}
    (h : c.rest = t :: rest) : c.span = t.span := by
  simp [span, h]

theorem bind_advance {f : Unit → Parser β} {c : Cursor} {t : Located} {rest : List Located}
    (h : c.rest = t :: rest) : (advance >>= f) c = f () (c.past [t] rest) := by
  apply bind_of_ok
  simp [advance, h, Cursor.past, Grammar.lastSpan]

/-! ## Tokens -/

/-- The rule of one token. -/
def Mark (t : Token) (ts : List Located) (s : Span) : Prop := ts = [⟨t, s⟩]

/-- A token that is asked for is read, and nothing else is taken. -/
theorem sound_expect (t : Token) (what : Expectation) : Sound (Mark t) (expect t what) := by
  intro c s c' h
  rw [expect, bind_here, bind_peek] at h
  split at h
  · rename_i hnext
    obtain ⟨s', rest, hrest⟩ := exists_of_next hnext
    rw [bind_advance hrest] at h
    obtain ⟨rfl, rfl⟩ := pure_inv h
    exact ⟨_, rest, by rw [Mark, Cursor.span_of_rest hrest], hrest, rfl⟩
  · cases h

/-- It is read whenever it is there. -/
theorem complete_expect (t : Token) (what : Expectation) :
    Complete (Mark t) Anything (expect t what) := by
  rintro c _ s rest rfl hrest -
  have hnext : next c.rest = some t := by rw [hrest]; rfl
  rw [expect, bind_here, bind_peek, if_pos hnext, bind_advance hrest, Cursor.span_of_rest hrest]
  rfl

/-- An identifier that is asked for is read, with its place. Any other token in its place is an
error. -/
theorem sound_identifier (what : Expectation) : Sound Identifier (identifier what) := by
  intro c n c' h
  rw [identifier, bind_here, bind_peek] at h
  -- Any other token fails, and so there is nothing to derive.
  cases hnext : next c.rest with
  | none =>
    rw [hnext] at h
    cases h
  | some token =>
    rw [hnext] at h
    cases token with
    | identifier name =>
      obtain ⟨s, rest, hrest⟩ := exists_of_next hnext
      dsimp only at h
      rw [bind_advance hrest] at h
      obtain ⟨rfl, rfl⟩ := pure_inv h
      rw [Cursor.span_of_rest hrest]
      exact ⟨_, rest, .mk name s, hrest, rfl⟩
    | _ => cases h

/-- An identifier is read whenever it is there, whatever follows it. -/
theorem complete_identifier (what : Expectation) :
    Complete Identifier Anything (identifier what) := by
  rintro c _ _ rest ⟨name, s⟩ hrest -
  have hnext : next c.rest = some (.identifier name) := by rw [hrest]; rfl
  rw [identifier, bind_here, bind_peek, hnext]
  dsimp only
  rw [bind_advance hrest, Cursor.span_of_rest hrest]
  rfl

/-- A mark that may be there is read if it is. -/
theorem eat_of_next {t : Token} {f : Bool → Parser β} {c : Cursor} {s : Span}
    {rest : List Located} (h : c.rest = ⟨t, s⟩ :: rest) :
    (eat t >>= f) c = f true (c.past [⟨t, s⟩] rest) := by
  apply bind_of_ok
  have hnext : next c.rest = some t := by rw [h]; rfl
  rw [eat, bind_peek, if_pos hnext, bind_advance h]
  rfl

theorem eat_of_not_next {t : Token} {f : Bool → Parser β} {c : Cursor} (h : NotNext t c.rest) :
    (eat t >>= f) c = f false c := by
  apply bind_of_ok
  rw [eat, bind_peek, if_neg h]
  rfl

/-- What is read behind the sign of a number: one token with a value, which is negated if there was
a sign. The span starts at the sign. -/
theorem digits_inv {start : Span} {negative : Bool} {what : Expectation} {c c' : Cursor}
    {n : Int64 × Span}
    (h : (do
      match ← peek with
      | some (.number v) =>
        let span ← here
        advance
        return (if negative then -v else v, start.join span)
      | _ => expected what : Parser (Int64 × Span)) c = .ok (n, c')) :
    ∃ v s rest, c.rest = ⟨.number v, s⟩ :: rest ∧ c' = c.past [⟨.number v, s⟩] rest
      ∧ n = (if negative then -v else v, start.join s) := by
  rw [bind_peek] at h
  cases hnext : next c.rest with
  | none =>
    rw [hnext] at h
    cases h
  | some token =>
    rw [hnext] at h
    cases token with
    | number v =>
      obtain ⟨s, rest, hrest⟩ := exists_of_next hnext
      dsimp only at h
      rw [bind_here, bind_advance hrest, Cursor.span_of_rest hrest] at h
      obtain ⟨rfl, rfl⟩ := pure_inv h
      exact ⟨v, s, rest, hrest, rfl, rfl⟩
    | _ => cases h

/-- A number that is read is one of the grammar, with its sign. Without a sign the span is that of
the token. -/
theorem sound_integer (what : Expectation) : Sound Integer (integer what) := by
  intro c n c' h
  rw [integer, bind_here] at h
  -- The sign is a token of its own in front of the digits.
  by_cases hminus : next c.rest = some .minus
  · obtain ⟨s, rest, hrest⟩ := exists_of_next hminus
    rw [eat_of_next hrest, Cursor.span_of_rest hrest] at h
    obtain ⟨v, t, rest', hrest', rfl, rfl⟩ := digits_inv h
    rw [Cursor.past_rest] at hrest'
    exact ⟨_, rest', .negated v s t, by rw [hrest, hrest']; rfl, by simp⟩
  · rw [eat_of_not_next hminus] at h
    obtain ⟨v, s, rest, hrest, rfl, rfl⟩ := digits_inv h
    rw [Cursor.span_of_rest hrest, Span.join_self]
    exact ⟨_, rest, .plain v s, hrest, rfl⟩

/-- Every number of the grammar is read, with a sign or without one, whatever follows it. -/
theorem complete_integer (what : Expectation) : Complete Integer Anything (integer what) := by
  intro c ts n rest hn hrest _
  rw [integer, bind_here]
  -- Without a sign, or with one.
  cases hn with
  | plain v s =>
    have hnext : next c.rest = some (.number v) := by rw [hrest]; rfl
    have hminus : NotNext .minus c.rest := by simp [NotNext, hnext]
    rw [eat_of_not_next hminus, bind_peek, hnext]
    dsimp only
    rw [bind_here, bind_advance hrest, Cursor.span_of_rest hrest, Span.join_self]
    rfl
  | negated v s t =>
    have hrest : c.rest = ⟨.minus, s⟩ :: ⟨.number v, t⟩ :: rest := hrest
    have hnext : next (c.past [⟨.minus, s⟩] (⟨.number v, t⟩ :: rest)).rest = some (.number v) := rfl
    rw [eat_of_next hrest, bind_peek, Cursor.span_of_rest hrest, hnext]
    dsimp only
    rw [bind_here, bind_advance rfl, Cursor.span_of_rest rfl, Cursor.past_past]
    rfl

/-! ## Options and repetitions -/

/-- Something after a mark, or nothing: whether the mark is there decides which of the two the
grammar has to derive. -/
theorem sound_optional {r : List Located → α → Prop} {p : Parser α} (mark : Token)
    (hp : Sound r p) :
    Sound (Opt (After mark r)) (do
      if ← eat mark then
        let a ← p
        return some a
      else return none) := by
  intro c a c' h
  -- With the mark there is something to read, without it there is nothing.
  by_cases hmark : next c.rest = some mark
  · obtain ⟨s, rest, hrest⟩ := exists_of_next hmark
    rw [eat_of_next hrest] at h
    obtain ⟨ts, rest', a', hr, hrest', h⟩ := hp.bind_inv h
    obtain ⟨rfl, rfl⟩ := pure_inv h
    rw [Cursor.past_rest] at hrest'
    exact ⟨_, rest', .present (.mk s hr), by rw [hrest, hrest']; rfl, by simp⟩
  · rw [eat_of_not_next hmark] at h
    obtain ⟨rfl, rfl⟩ := pure_inv h
    exact ⟨[], c'.rest, .absent, rfl, rfl⟩

/-- Something after a mark is read whenever it is there. If it is not, the mark must not be there
either, or the parser would go on to read it. -/
theorem complete_optional {r : List Located → α → Prop} {p : Parser α} (mark : Token)
    (hp : Complete r Anything p) :
    Complete (Opt (After mark r)) (NotNext mark) (do
      if ← eat mark then
        let a ← p
        return some a
      else return none) := by
  intro c ts a rest hr hrest hnot
  -- If the grammar has nothing, the mark does not follow, and nothing is taken.
  cases hr with
  | absent =>
    have hrest : c.rest = rest := hrest
    rw [eat_of_not_next (by rw [hrest]; exact hnot), ← hrest]
    rfl
  | present hafter =>
    cases hafter with
    | mk s hbody =>
      rw [eat_of_next hrest, if_pos rfl, hp.bind hbody rfl trivial, Cursor.past_past]
      rfl

/-- What a test lets through is read as often as the test does, by any bound. A bound that is too
low stops early, and what was read up to there is of the grammar. -/
theorem sound_repeatAtMost {r : List Located → α → Prop} {test : Option Token → Bool}
    {p : Parser α}
    (hp : ∀ c a c', test (next c.rest) = true → p c = .ok (a, c') →
      ∃ ts rest, r ts a ∧ c.rest = ts ++ rest ∧ c' = c.past ts rest)
    (n : Nat) : Sound (Star r) (repeatAtMost test p n) := by
  induction n with
  | zero =>
    intro c as c' h
    obtain ⟨rfl, rfl⟩ := pure_inv h
    exact ⟨[], c'.rest, .nil, rfl, rfl⟩
  | succ n ih =>
    intro c as c' h
    rw [repeatAtMost, bind_peek] at h
    -- The test lets one through and the rest is read by a bound less, or the repetition ends.
    split at h
    · rename_i htest
      obtain ⟨a, c₁, ha, h⟩ := bind_inv h
      obtain ⟨ts, rest, hr, hrest, rfl⟩ := hp c a c₁ htest ha
      obtain ⟨us, rest', as', hrs, hrest', h⟩ := ih.bind_inv h
      obtain ⟨rfl, rfl⟩ := pure_inv h
      rw [Cursor.past_rest] at hrest'
      exact ⟨_, rest', .cons hr hrs, by rw [hrest, hrest', List.append_assoc], by simp⟩
    · obtain ⟨rfl, rfl⟩ := pure_inv h
      exact ⟨[], c'.rest, .nil, rfl, rfl⟩

/-- A repetition reads nothing but what is repeated. The test has been passed each time. -/
theorem sound_repeatWhile {r : List Located → α → Prop} (test : Option Token → Bool)
    {p : Parser α}
    (hp : ∀ c a c', test (next c.rest) = true → p c = .ok (a, c') →
      ∃ ts rest, r ts a ∧ c.rest = ts ++ rest ∧ c' = c.past ts rest) :
    Sound (Star r) (repeatWhile test p) :=
  fun c => sound_repeatAtMost hp _ c

/-- A repetition after a mark reads the mark each time, so what it reads are marks with something
behind each. -/
theorem sound_afterEach {r : List Located → α → Prop} {p : Parser α} (mark : Token)
    (hp : Sound r p) : Sound (Star (After mark r)) (afterEach mark p) := by
  apply sound_repeatWhile
  intro c a c' htest h
  obtain ⟨s, rest, hrest⟩ := exists_of_next (beq_iff_eq.1 htest)
  rw [bind_advance hrest] at h
  obtain ⟨ts, rest', hr, hrest', rfl⟩ := hp _ _ _ h
  rw [Cursor.past_rest] at hrest'
  exact ⟨_, rest', .mk s hr, by rw [hrest, hrest']; rfl, by simp⟩

/-- Every text of a rule starts with a token that a test lets through. -/
def StartsWith (test : Option Token → Bool) (r : List Located → α → Prop) : Prop :=
  ∀ ts a, r ts a → test (next ts) = true ∧ ts ≠ []

/-- What follows is either the next of its kind or what follows them all. In both cases it is
something that may follow. -/
theorem follow_of_star {r : List Located → α → Prop} {follow : List Located → Prop}
    {test : Option Token → Bool} (hstart : StartsWith test r)
    (hfollow : ∀ ts, test (next ts) = true → follow ts) {ts rest : List Located} {as : List α}
    (h : Star r ts as) (hrest : follow rest) : follow (ts ++ rest) := by
  cases h with
  | nil => exact hrest
  | cons hr _ =>
    obtain ⟨htest, hne⟩ := hstart _ _ hr
    rw [List.append_assoc]
    exact hfollow _ (by rw [next_append hne]; exact htest)

/-- A repetition goes on as long as there is something of the rule left, and stops where the test
does. The bound has to exceed the number of tokens, each time taking at least one. -/
theorem complete_repeatAtMost {r : List Located → α → Prop} {follow : List Located → Prop}
    {test : Option Token → Bool} {p : Parser α} (hp : Complete r follow p)
    (hstart : StartsWith test r) (hfollow : ∀ ts, test (next ts) = true → follow ts)
    {ts : List Located} {as : List α} (h : Star r ts as) :
    ∀ (n : Nat) (c : Cursor) (rest : List Located), ts.length < n → c.rest = ts ++ rest →
      test (next rest) = false → follow rest →
      repeatAtMost test p n c = .ok (as, c.past ts rest) := by
  induction h with
  | nil =>
    intro n c rest hn hrest htest _
    have hrest : c.rest = rest := hrest
    cases n with
    | zero => contradiction
    | succ n =>
      rw [repeatAtMost, bind_peek, hrest, htest, ← hrest]
      rfl
  | @cons ts us a as hr htail ih =>
    -- Each repetition takes a token at least, so the bound is never reached.
    intro n c rest hn hrest htest hrestfollow
    obtain ⟨htest', hne⟩ := hstart ts a hr
    have hlength := List.length_pos_iff.2 hne
    rw [List.append_assoc] at hrest
    rw [List.length_append] at hn
    have hnext : follow (us ++ rest) := follow_of_star hstart hfollow htail hrestfollow
    cases n with
    | zero => contradiction
    | succ n =>
      have hgo : test (next c.rest) = true := by rw [hrest, next_append hne]; exact htest'
      rw [repeatAtMost, bind_peek, if_pos hgo, hp.bind hr hrest hnext,
        bind_of_ok (ih n _ rest (by omega) rfl htest hrestfollow), Cursor.past_past]
      rfl

/-- A repetition reads everything, if what is repeated starts with a token that the test lets
through and what follows does not. -/
theorem complete_repeatWhile {r : List Located → α → Prop} {follow : List Located → Prop}
    {test : Option Token → Bool} {p : Parser α} (hp : Complete r follow p)
    (hstart : StartsWith test r) (hfollow : ∀ ts, test (next ts) = true → follow ts) :
    Complete (Star r) (fun rest => test (next rest) = false ∧ follow rest)
      (repeatWhile test p) := by
  intro c ts as rest h hrest ⟨htest, hrestfollow⟩
  refine complete_repeatAtMost hp hstart hfollow h _ c rest ?_ hrest htest hrestfollow
  rw [hrest, List.length_append]
  omega

theorem startsWith_after (mark : Token) (r : List Located → α → Prop) :
    StartsWith (· == some mark) (After mark r) := by
  rintro _ a ⟨s, _⟩
  exact ⟨beq_self_eq_true _, by simp⟩

/-- Before and between repetitions after a mark there is that mark or what follows them all. -/
theorem notNext_after {r : List Located → α → Prop} {mark t : Token} (hne : mark ≠ t)
    {ts rest : List Located} {as : List α} (h : Star (After mark r) ts as)
    (hrest : NotNext t rest) : NotNext t (ts ++ rest) := by
  refine follow_of_star (startsWith_after mark r) (fun ts hts => ?_) h hrest
  rw [NotNext, beq_iff_eq.1 hts]
  exact fun heq => hne (Option.some.inj heq)

/-- A repetition after a mark reads everything, if the mark does not follow. What is repeated is
followed by a mark or by whatever follows the repetition. -/
theorem complete_afterEach {r : List Located → α → Prop} {follow : List Located → Prop}
    {p : Parser α} (mark : Token) (hp : Complete r follow p)
    (hfollow : ∀ ts, next ts = some mark → follow ts) :
    Complete (Star (After mark r)) (fun rest => NotNext mark rest ∧ follow rest)
      (afterEach mark p) := by
  -- One turn of the repetition, where the mark is known to be there.
  have hbody : Complete (After mark r) follow (do
      advance
      p) := by
    intro c _ a rest hr hrest hrestfollow
    cases hr with
    | mk s hbody =>
      rw [bind_advance hrest, hp _ _ a rest hbody rfl hrestfollow, Cursor.past_past]
      rfl
  intro c ts as rest h hrest ⟨hnot, hrestfollow⟩
  exact complete_repeatWhile hbody (startsWith_after mark r)
    (fun ts hts => hfollow ts (beq_iff_eq.1 hts)) c ts as rest h hrest
    ⟨beq_eq_false_iff_ne.2 hnot, hrestfollow⟩

/-- A rule, where there are fewer than `n` tokens. -/
def Within (n : Nat) (r : List Located → α → Prop) (ts : List Located) (a : α) : Prop :=
  r ts a ∧ ts.length < n

/-- What is repeated is not longer than the whole. -/
theorem star_within {n : Nat} {r : List Located → α → Prop} {ts : List Located} {as : List α}
    (h : Star r ts as) (hn : ts.length < n) : Star (Within n r) ts as := by
  induction h with
  | nil => exact .nil
  | cons hr _ ih =>
    rw [List.length_append] at hn
    exact .cons ⟨hr, by omega⟩ (ih (by omega))

end Parser

end TileSelect
