import TileSelect.Proofs.Source.Reading
/-!
Reading does not look behind a semicolon.

No rule below the group reads a `;`: where one is next, the rule ends or fails, and it does the
same whatever stands behind. This module says so about two runs. Their tokens have the same front,
and behind it both are at the end or both go on with the same `;`, each with a rest of its own. The
runs then yield the same value or fail with the same error, and what each leaves is a part of the
front followed by its own rest.

The two runs have different numbers of tokens left, hence different bounds on nesting and on
repetition. The bounds are never reached: each level of nesting and each repetition takes a token
of the front. So the rules come with how many tokens they take at least, and the two bounds need
only exceed the length of the front. Of two runs on the same tokens this says that the bounds do
not matter.
-/

set_option autoImplicit false

namespace TileSelect

open Grammar

namespace Parser

variable {α β : Type}

/-! ## Two runs -/

/-- What may stand behind the same front in two runs: nothing, or one `;` and then anything. -/
inductive Ends : List Located → List Located → Prop where
  | finish : Ends [] []
  | semicolon (s : Span) (x y : List Located) : Ends (⟨.semicolon, s⟩ :: x) (⟨.semicolon, s⟩ :: y)

/-- The outcomes of two runs that had the front `u`, followed by `x` and by `y`: the same value
behind `k` or more tokens of the front, or the same error. -/
inductive Agree (finish : Span) (x y u : List Located) (k : Nat) :
    Except Failure (α × Cursor) → Except Failure (α × Cursor) → Prop where
  | ok (a : α) (v : List Located) (last : Span) (hsuffix : v <:+ u)
      (hlength : v.length + k ≤ u.length) :
      Agree finish x y u k (.ok (a, ⟨v ++ x, last, finish⟩)) (.ok (a, ⟨v ++ y, last, finish⟩))
  | error (e : SyntaxError) (v : List Located) (hsuffix : v <:+ u) :
      Agree finish x y u k (.error ⟨e, v ++ x⟩) (.error ⟨e, v ++ y⟩)

/-- Two parsers agree on the front `u`, whatever is behind, and take `k` tokens or more. -/
def Alike (k : Nat) (u : List Located) (p q : Parser α) : Prop :=
  ∀ x y last finish, Ends x y →
    Agree finish x y u k (p ⟨u ++ x, last, finish⟩) (q ⟨u ++ y, last, finish⟩)

/-- What two agreeing outcomes are: both a value with the same rest of the front, or both an error
there. Each rest comes with what is behind the front in its own run. -/
theorem Agree.elim {finish : Span} {x y u : List Located} {k : Nat}
    {r r' : Except Failure (α × Cursor)} (h : Agree finish x y u k r r')
    {R : Except Failure (α × Cursor) → Except Failure (α × Cursor) → Prop}
    (hok : ∀ a v last, v <:+ u → v.length + k ≤ u.length →
      R (.ok (a, ⟨v ++ x, last, finish⟩)) (.ok (a, ⟨v ++ y, last, finish⟩)))
    (herror : ∀ e v, v <:+ u → R (.error ⟨e, v ++ x⟩) (.error ⟨e, v ++ y⟩)) : R r r' := by
  cases h with
  | ok a v last hsuffix hlength => exact hok a v last hsuffix hlength
  | error e v hsuffix => exact herror e v hsuffix

/-- More tokens may have been there, and fewer have to be taken of them. -/
theorem Agree.mono {finish : Span} {x y u u' : List Located} {j k : Nat}
    {r r' : Except Failure (α × Cursor)} (h : Agree finish x y u j r r') (hu : u <:+ u')
    (hlength : u.length + k ≤ u'.length + j) : Agree finish x y u' k r r' := by
  cases h with
  | ok a v last hsuffix hv => exact .ok a v last (hsuffix.trans hu) (by omega)
  | error e v hsuffix => exact .error e v (hsuffix.trans hu)

/-- Where nothing is behind the front, agreeing is being the same. -/
theorem Agree.eq_of_nil {finish : Span} {u : List Located} {k : Nat}
    {r r' : Except Failure (α × Cursor)} (h : Agree finish [] [] u k r r') : r = r' := by
  cases h with
  | ok => rfl
  | error => rfl

theorem Alike.mono {j k : Nat} {u : List Located} {p q : Parser α} (h : Alike j u p q)
    (hkj : k ≤ j) : Alike k u p q :=
  fun x y last finish hends =>
    (h x y last finish hends).mono (List.suffix_refl u) (by omega)

/-- What follows from two runs in sequence: the first failed, or the second goes on where the first
has stopped. -/
theorem Alike.elim_bind {k : Nat} {u : List Located} {p q : Parser α} {f g : α → Parser β}
    {R : Except Failure (β × Cursor) → Except Failure (β × Cursor) → Prop}
    (h : Alike k u p q) {x y : List Located} {last finish : Span} (hends : Ends x y)
    (hok : ∀ a v last, v <:+ u → v.length + k ≤ u.length →
      R (f a ⟨v ++ x, last, finish⟩) (g a ⟨v ++ y, last, finish⟩))
    (herror : ∀ e v, v <:+ u → R (.error ⟨e, v ++ x⟩) (.error ⟨e, v ++ y⟩)) :
    R ((p >>= f) ⟨u ++ x, last, finish⟩) ((q >>= g) ⟨u ++ y, last, finish⟩) :=
  (h x y last finish hends).elim
    (R := fun r r' => R (r >>= fun a => f a.1 a.2) (r' >>= fun a => g a.1 a.2)) hok herror

/-- In sequence, the tokens that are taken add up. The second parser runs on what the first has left
of the front. -/
theorem Alike.bind {j k : Nat} {u : List Located} {p q : Parser α} {f g : α → Parser β}
    (h : Alike j u p q)
    (hf : ∀ a v, v <:+ u → v.length + j ≤ u.length → Alike k v (f a) (g a)) :
    Alike (j + k) u (p >>= f) (q >>= g) := by
  intro x y last finish hends
  refine h.elim_bind hends ?_ ?_
  · intro a v last' hsuffix hlength
    exact (hf a v hsuffix hlength x y last' finish hends).mono hsuffix (by omega)
  · intro e v hsuffix
    exact .error e v hsuffix

theorem alike_pure (a : α) (u : List Located) : Alike 0 u (pure a) (pure a) :=
  fun _ _ last _ _ => .ok a u last (List.suffix_refl u) (by omega)

/-! ## Looking at tokens -/

/-- What may be seen where the front `u` is left: its first token, and behind it a `;` or the
end. -/
def Sees (u : List Located) (t : Option Token) : Prop :=
  match u with
  | [] => t = none ∨ t = some .semicolon
  | a :: _ => t = some a.token

/-- The next token is one of the front, or what ends it. Both ends of the front are seen as the same
token, or as none. -/
theorem Ends.next_eq {x y : List Located} (h : Ends x y) (u : List Located) :
    next (u ++ y) = next (u ++ x) ∧ Sees u (next (u ++ x)) := by
  cases u with
  | nil =>
    cases h with
    | finish => exact ⟨rfl, .inl rfl⟩
    | semicolon s x y => exact ⟨rfl, .inr rfl⟩
  | cons a u => exact ⟨rfl, rfl⟩

/-- The current place is the same in both runs, also at the end of the front, where it is the place
of a `;` or the end of the source. -/
theorem Ends.span_eq {x y : List Located} (h : Ends x y) (u : List Located)
    (last finish : Span) :
    Cursor.span ⟨u ++ y, last, finish⟩ = Cursor.span ⟨u ++ x, last, finish⟩ := by
  cases u with
  | nil =>
    cases h with
    | finish => rfl
    | semicolon s x y => rfl
  | cons a u => rfl

/-- A token other than a `;` was seen in the front, since a `;` or nothing is all that can be seen
behind it. -/
theorem Sees.exists_cons {u : List Located} {t : Token} (h : Sees u (some t))
    (ht : t ≠ .semicolon) : ∃ s v, u = ⟨t, s⟩ :: v := by
  cases u with
  | nil =>
    rcases h with h | h
    · cases h
    · exact absurd (Option.some.inj h) ht
  | cons a v =>
    cases Option.some.inj h
    exact ⟨a.span, v, rfl⟩

/-- What was expected and what was found are the same in both runs, so they report the same error
and leave the same front. -/
theorem Ends.expected_eq {x y : List Located} (h : Ends x y) (u : List Located) (last finish : Span)
    (what : Expectation) :
    ∃ e, (expected what : Parser α) ⟨u ++ x, last, finish⟩ = .error ⟨e, u ++ x⟩ ∧
      (expected what : Parser α) ⟨u ++ y, last, finish⟩ = .error ⟨e, u ++ y⟩ := by
  have hpeek : Cursor.peek ⟨u ++ y, last, finish⟩ = Cursor.peek ⟨u ++ x, last, finish⟩ :=
    (h.next_eq u).1
  refine ⟨_, rfl, ?_⟩
  rw [expected, hpeek, h.span_eq]

/-- A failure is the same in both runs. -/
theorem alike_expected (k : Nat) (u : List Located) (what : Expectation) :
    Alike k u (expected what : Parser α) (expected what) := by
  intro x y last finish hends
  obtain ⟨e, hx, hy⟩ := hends.expected_eq (α := α) u last finish what
  rw [hx, hy]
  exact .error e u (List.suffix_refl u)

theorem alike_here {k : Nat} {u : List Located} {f g : Span → Parser β}
    (h : ∀ s, Alike k u (f s) (g s)) : Alike k u (here >>= f) (here >>= g) := by
  intro x y last finish hends
  rw [bind_here, bind_here, hends.span_eq]
  exact h _ x y last finish hends

/-- Asking for the next token reads nothing, and sees a token of the front, a `;` or the end. -/
theorem alike_peek {k : Nat} {u : List Located} {f g : Option Token → Parser β}
    (h : ∀ t, Sees u t → Alike k u (f t) (g t)) : Alike k u (peek >>= f) (peek >>= g) := by
  intro x y last finish hends
  obtain ⟨hnext, hsees⟩ := hends.next_eq u
  rw [bind_peek, bind_peek, hnext]
  exact h _ hsees x y last finish hends

theorem alike_lastSpan {k : Nat} {u : List Located} {f g : Span → Parser β}
    (h : ∀ s, Alike k u (f s) (g s)) : Alike k u (lastSpan >>= f) (lastSpan >>= g) :=
  fun x y last finish hends => h last x y last finish hends

theorem alike_advance {k : Nat} {t : Located} {u : List Located} {f g : Unit → Parser β}
    (h : Alike k u (f ()) (g ())) : Alike (1 + k) (t :: u) (advance >>= f) (advance >>= g) := by
  intro x y last finish hends
  exact (h x y t.span finish hends).mono (List.suffix_cons t u) (by rw [List.length_cons]; omega)

theorem alike_skip (a : α) (t : Located) (u : List Located) :
    let p : Parser α := do
      advance
      return a
    Alike 1 (t :: u) p p :=
  alike_advance (k := 0) (alike_pure a u)

/-! ## Tokens -/

/-- A token other than a `;` may be next, and is then skipped. Both runs find it or miss it
together. -/
theorem alike_eat {k : Nat} {u : List Located} {t : Token} (ht : t ≠ .semicolon)
    {f g : Bool → Parser β} (htrue : ∀ s v, u = ⟨t, s⟩ :: v → Alike k v (f true) (g true))
    (hfalse : Alike k u (f false) (g false)) : Alike k u (eat t >>= f) (eat t >>= g) := by
  intro x y last finish hends
  obtain ⟨hnext, hsees⟩ := hends.next_eq u
  -- If the token is next it is the first of the front, and both runs skip it there.
  by_cases heq : next (u ++ x) = some t
  · rw [heq] at hsees
    obtain ⟨s, v, rfl⟩ := hsees.exists_cons ht
    rw [@eat_of_next _ _ _ _ _ (v ++ x) rfl, @eat_of_next _ _ _ _ _ (v ++ y) rfl]
    exact (htrue s v rfl x y s finish hends).mono (List.suffix_cons _ v) (by simp)
  · have heq' : next (u ++ y) ≠ some t := by rwa [hnext]
    rw [eat_of_not_next (c := ⟨u ++ x, last, finish⟩) heq,
      eat_of_not_next (c := ⟨u ++ y, last, finish⟩) heq']
    exact hfalse x y last finish hends

/-- A token that is asked for is one of the front. It must not be a `;`, since that may be what ends
the front. If it is missing both runs fail alike. -/
theorem alike_expect {t : Token} (ht : t ≠ .semicolon) (what : Expectation) (u : List Located) :
    Alike 1 u (expect t what) (expect t what) := by
  refine alike_here fun s => alike_peek fun next hnext => ?_
  by_cases heq : next = some t
  · subst heq
    obtain ⟨s', v, rfl⟩ := hnext.exists_cons ht
    rw [if_pos rfl]
    exact alike_skip s _ v
  · rw [if_neg heq]
    exact alike_expected 1 u what

/-- An identifier that is asked for is one of the front, as a `;` is none. -/
theorem alike_identifier (what : Expectation) (u : List Located) :
    Alike 1 u (identifier what) (identifier what) := by
  refine alike_here fun s => alike_peek fun next hnext => ?_
  -- What is next is the same in both runs; unless it is an identifier both of them fail.
  cases next with
  | none => exact alike_expected 1 u what
  | some token =>
    cases token with
    | identifier name =>
      obtain ⟨s', v, rfl⟩ := hnext.exists_cons (by simp)
      exact alike_skip _ _ v
    | _ => exact alike_expected 1 u what

/-- A number that is asked for is in the front, with its sign. A sign without a number is an error
in both runs. -/
theorem alike_integer (what : Expectation) (u : List Located) :
    Alike 1 u (integer what) (integer what) := by
  refine alike_here fun start => alike_eat (by simp) (fun s v _ => ?_) ?_
  -- With a sign or without, digits are next.
  all_goals
    refine alike_peek fun next hnext => ?_
    cases next with
    | none => exact alike_expected 1 _ what
    | some token =>
      cases token with
      | number n =>
        obtain ⟨s', w, rfl⟩ := hnext.exists_cons (by simp)
        exact alike_here fun s => alike_skip _ _ w
      | _ => exact alike_expected 1 _ what

/-! ## Repetitions -/

/-- **The bounds on a repetition do not matter** if each time takes a token of the front. The bounds
are the numbers of tokens that the two runs start with, and these may differ behind the front. -/
theorem alike_repeatAtMost {test : Option Token → Bool} {p q : Parser α} {u : List Located}
    (hp : ∀ v t, v.length ≤ u.length → Sees v t → test t = true → Alike 1 v p q) (n m : Nat)
    (hn : u.length < n) (hm : u.length < m) :
    Alike 0 u (repeatAtMost test p n) (repeatAtMost test q m) := by
  -- The induction is on the first bound, for all fronts that it allows for.
  induction n generalizing u m with
  | zero => contradiction
  | succ n ih =>
    cases m with
    | zero => contradiction
    | succ m =>
      rw [repeatAtMost, repeatAtMost]
      refine alike_peek fun next hnext => ?_
      by_cases htest : test next = true
      · rw [if_pos htest, if_pos htest]
        refine ((hp u next (Nat.le_refl _) hnext htest).bind (k := 0) fun a v _ hv => ?_).mono
          (Nat.zero_le _)
        have hrest : Alike 0 v (repeatAtMost test p n) (repeatAtMost test q m) :=
          ih (fun w t hw => hp w t (by omega)) m (by omega) (by omega)
        exact hrest.bind fun rest w _ _ => alike_pure _ w
      · rw [if_neg htest, if_neg htest]
        exact alike_pure [] u

/-- The bounds that are computed from the tokens left exceed the front. -/
theorem length_lt_bound (u x : List Located) : u.length < (u ++ x).length + 1 := by
  rw [List.length_append]
  omega

/-- A repetition does not look further than the front, if what is repeated does not. -/
theorem alike_repeatWhile {test : Option Token → Bool} {p q : Parser α} {u : List Located}
    (hp : ∀ v t, v.length ≤ u.length → Sees v t → test t = true → Alike 1 v p q) :
    Alike 0 u (repeatWhile test p) (repeatWhile test q) :=
  fun x y last finish hends =>
    alike_repeatAtMost hp _ _ (length_lt_bound u x) (length_lt_bound u y) x y last finish hends

theorem alike_afterEach {mark : Token} (hmark : mark ≠ .semicolon) {p : Parser α}
    (hp : ∀ u, Alike 1 u p p) (u : List Located) :
    Alike 0 u (afterEach mark p) (afterEach mark p) := by
  apply alike_repeatWhile
  intro v t _ hsees htest
  rw [beq_iff_eq.1 htest] at hsees
  obtain ⟨s, w, rfl⟩ := hsees.exists_cons hmark
  exact (alike_advance (hp w)).mono (by omega)

/-- An option that starts with a mark of its own: the mark is in the front, or both runs do without
the option. -/
theorem alike_optional {mark : Token} (hmark : mark ≠ .semicolon) {p : Parser α}
    (hp : ∀ u, Alike 1 u p p) (u : List Located) :
    let q : Parser (Option α) := do
      if ← eat mark then
        let a ← p
        return some a
      else return none
    Alike 0 u q q := by
  refine alike_eat hmark ?_ ?_
  · intro s v _
    exact ((hp v).bind fun a w _ _ => alike_pure (some a) w).mono (Nat.zero_le _)
  · exact alike_pure none u

/-! ## Expressions -/

/-- A capture is in the front, or it is missing in both runs. -/
theorem alike_capture (u : List Located) : Alike 0 u capture capture := by
  refine alike_eat (by simp) ?_ ?_
  · intro s v _
    refine ((alike_identifier .captureName v).bind (k := 1) fun name w _ _ => ?_).mono
      (Nat.zero_le _)
    exact (alike_expect (by simp) .captureEnd w).bind fun _ w' _ _ => alike_pure _ w'
  · exact alike_pure none u

/-- The head of an operation is in the front. Whether its first name is a type depends on the name
and on whether another name follows it in the front. -/
theorem alike_typedOperation (u : List Located) : Alike 1 u typedOperation typedOperation := by
  refine (alike_identifier .operationName u).bind (k := 0) fun first v _ _ => ?_
  refine alike_peek fun next hnext => ?_
  -- The second name decides, and it is looked at without being taken.
  cases next with
  | none => exact alike_pure _ v
  | some token =>
    cases token with
    | identifier op =>
      by_cases htype : looksLikeType first.name = true
      · obtain ⟨s, w, rfl⟩ := hnext.exists_cons (by simp)
        dsimp only
        rw [if_pos htype]
        exact (alike_skip _ _ w).mono (Nat.zero_le _)
      · dsimp only
        rw [if_neg htype]
        exact alike_pure _ v
    | _ => exact alike_pure _ v

/-- An argument is in the front, if what is nested in it is. It is a number or a nested expression,
and its first token says which. -/
theorem alike_argument {p q : Parser Expr} {u : List Located} (h : Alike 1 u p q) :
    Alike 1 u (argument p) (argument q) := by
  refine alike_peek fun next hnext => ?_
  cases next with
  | none => exact alike_expected 1 u .closingParen
  | some token =>
    cases token with
    | number | minus => exact (alike_integer .number u).bind fun n v _ _ => alike_pure _ v
    | _ => exact h

/-- One level of nesting: what is inside the parentheses is shorter than the whole, so the two
parsers that are nested only have to agree on shorter fronts. -/
theorem alike_exprWith {p q : Parser Expr} {u : List Located}
    (h : ∀ v, v.length < u.length → Alike 1 v p q) : Alike 1 u (exprWith p) (exprWith q) := by
  have hname (start : Span) : Alike 1 u
      (do let capture ← capture
          let name ← identifier .groupOrIdentifier
          return .name capture name.name (start.join name.span) : Parser Expr)
      (do let capture ← capture
          let name ← identifier .groupOrIdentifier
          return .name capture name.name (start.join name.span)) := by
    refine (alike_capture u).bind (k := 1) fun capture v _ _ => ?_
    exact (alike_identifier .groupOrIdentifier v).bind fun name w _ _ => alike_pure _ w
  -- The first token tells what kind of expression it is.
  refine alike_here fun start => alike_peek fun next hnext => ?_
  cases next with
  | none => exact alike_expected 1 u .expression
  | some token =>
    cases token with
    | leftParen =>
      obtain ⟨s, v, rfl⟩ := hnext.exists_cons (by simp)
      refine (alike_advance (k := 0) ?_)
      refine (alike_capture v).bind (k := 0) fun capture w hw _ => ?_
      refine ((alike_typedOperation w).bind (k := 0) fun typed w' hw' _ => ?_).mono (Nat.zero_le _)
      -- Inside the parentheses the front is shorter, by the parenthesis at least.
      have hle := (hw'.trans hw).length_le
      have hargs : Alike 0 w' (repeatWhile (· != some .rightParen) (argument p))
          (repeatWhile (· != some .rightParen) (argument q)) := by
        apply alike_repeatWhile
        intro r t hr _ _
        exact alike_argument (h r (by rw [List.length_cons]; omega))
      refine (hargs.bind (k := 1) fun args r _ _ => ?_).mono (Nat.zero_le _)
      exact (alike_expect (by simp) .closingParen r).bind fun stop r' _ _ => alike_pure _ r'
    | less | identifier => exact hname start
    | _ => exact alike_expected 1 u .expression

/-- **The bound on nesting does not matter**, as long as it allows for the front. The induction is
on the bounds, both of which go down by one with each level. -/
theorem alike_exprAt (n m : Nat) (u : List Located) (hn : u.length < n) (hm : u.length < m) :
    Alike 1 u (exprAt n) (exprAt m) := by
  induction n generalizing u m with
  | zero => contradiction
  | succ n ih =>
    cases m with
    | zero => contradiction
    | succ m => exact alike_exprWith fun v hv => ih m v (by omega) (by omega)

theorem alike_expr (u : List Located) : Alike 1 u expr expr :=
  fun x y last finish hends =>
    alike_exprAt _ _ u (length_lt_bound u x) (length_lt_bound u y) x y last finish hends

/-! ## Operands -/

theorem alike_scale (u : List Located) : Alike 0 u scale scale :=
  alike_optional (by simp) (alike_integer .scale) u

theorem alike_typeSuffix (u : List Located) : Alike 0 u typeSuffix typeSuffix :=
  alike_optional (by simp) (alike_identifier .typeName) u

theorem alike_conditionSuffix (u : List Located) : Alike 0 u conditionSuffix conditionSuffix :=
  alike_optional (by simp) (alike_identifier .conditionCode) u

theorem alike_term {p q : Parser Operand} {u : List Located} (h : Alike 1 u p q) :
    Alike 1 u (term p) (term q) :=
  h.bind (k := 0) fun _ v _ _ => (alike_scale v).bind fun _ w _ _ => alike_pure _ w

theorem alike_furtherTerm {p q : Parser Operand} {u : List Located}
    (h : ∀ v, v.length ≤ u.length → Alike 1 v p q) :
    Alike 1 u (furtherTerm p) (furtherTerm q) := by
  refine alike_eat (by simp) ?_ ?_
  · rintro s v rfl
    exact alike_term (h v (by simp))
  · exact (alike_integer .offset u).bind fun n v _ _ => alike_pure _ v

/-- One level of nesting: what is inside the brackets is shorter than the whole. Only memory has
operands nested in it. -/
theorem alike_atomWith {p q : Parser Operand} {u : List Located}
    (h : ∀ v, v.length < u.length → Alike 1 v p q) : Alike 1 u (atomWith p) (atomWith q) := by
  -- One case for each kind of operand, told apart by the first token.
  refine alike_here fun start => alike_peek fun next hnext => ?_
  cases next with
  | none => exact alike_expected 1 u .operand
  | some token =>
    cases token with
    | less =>
      obtain ⟨s, v, rfl⟩ := hnext.exists_cons (by simp)
      refine alike_advance (k := 0) ?_
      refine ((alike_identifier .identifier v).bind (k := 0) fun head w _ _ => ?_).mono
        (Nat.zero_le _)
      refine (alike_afterEach (by simp) (alike_identifier .memberIdentifier) w).bind (k := 0)
        fun members w' _ _ => ?_
      refine (alike_typeSuffix w').bind (k := 0) fun ty r _ _ => ?_
      exact ((alike_expect (by simp) .referenceEnd r).bind fun _ r' _ _ => alike_pure _ r').mono
        (Nat.zero_le _)
    | leftBracket =>
      obtain ⟨s, v, rfl⟩ := hnext.exists_cons (by simp)
      refine alike_advance (k := 0) ?_
      have hfirst : Alike 1 v (term p) (term q) := alike_term (h v (by simp))
      refine (hfirst.bind (k := 0) fun first w hw _ => ?_).mono (Nat.zero_le _)
      have hle := hw.length_le
      have hfurther : Alike 0 w
          (repeatWhile (fun t => t == some .plus || t == some .minus) (furtherTerm p))
          (repeatWhile (fun t => t == some .plus || t == some .minus) (furtherTerm q)) := by
        apply alike_repeatWhile
        intro r t hr _ _
        exact alike_furtherTerm fun r' hr' => h r' (by rw [List.length_cons]; omega)
      refine hfurther.bind (k := 0) fun further r _ _ => ?_
      exact ((alike_expect (by simp) .termOrBracket r).bind fun _ r' _ _ => alike_pure _ r').mono
        (Nat.zero_le _)
    | number | minus => exact (alike_integer .number u).bind fun n v _ _ => alike_pure _ v
    | identifier name =>
      obtain ⟨s, v, rfl⟩ := hnext.exists_cons (by simp)
      exact alike_skip _ _ v
    | atSign =>
      obtain ⟨s, v, rfl⟩ := hnext.exists_cons (by simp)
      refine (alike_advance ((alike_identifier .labelName v).bind (k := 0)
        fun name w _ _ => alike_pure _ w)).mono (by omega)
    | _ => exact alike_expected 1 u .operand

/-- An atom is in the front, whatever the bounds on its nesting, as long as they allow for the
front. The induction is on the bounds again. -/
theorem alike_atomAt (n m : Nat) (u : List Located) (hn : u.length < n) (hm : u.length < m) :
    Alike 1 u (atomAt n) (atomAt m) := by
  induction n generalizing u m with
  | zero => contradiction
  | succ n ih =>
    cases m with
    | zero => contradiction
    | succ m => exact alike_atomWith fun v hv => ih m v (by omega) (by omega)

theorem alike_atom (u : List Located) : Alike 1 u atom atom :=
  fun x y last finish hends =>
    alike_atomAt _ _ u (length_lt_bound u x) (length_lt_bound u y) x y last finish hends

/-- An operand is in the front. -/
theorem alike_operand (u : List Located) : Alike 1 u operand operand := by
  refine (alike_atom u).bind (k := 0) fun a v _ _ => ?_
  refine (alike_scale v).bind (k := 0) fun factor w _ _ => ?_
  cases factor with
  | none => exact alike_pure _ w
  | some s => exact alike_pure _ w

/-- Operands are in the front, with the commas between them. A bracket right at the start, which may
be seen but is not taken, means that there are none. -/
theorem alike_operands (u : List Located) : Alike 0 u operands operands := by
  refine alike_peek fun next hnext => ?_
  by_cases hclose : next = some .rightBracket
  · rw [if_pos hclose]
    exact alike_pure [] u
  · rw [if_neg hclose]
    refine ((alike_operand u).bind (k := 0) fun first v _ _ => ?_).mono (Nat.zero_le _)
    exact (alike_afterEach (by simp) alike_operand v).bind fun further w _ _ => alike_pure _ w

/-! ## Templates and conversions -/

/-- The second token that is looked at lies in the front as well, or is what ends it; and what
ends the front is the start of neither a label nor an instruction. -/
theorem Ends.itemHead_eq {x y : List Located} (h : Ends x y) (u : List Located) :
    ItemHead.of (u ++ y) = ItemHead.of (u ++ x) ∧ (u = [] → ItemHead.of (u ++ x) = .operand) := by
  cases u with
  | nil =>
    cases h with
    | finish => exact ⟨rfl, fun _ => rfl⟩
    | semicolon s x y => exact ⟨rfl, fun _ => rfl⟩
  | cons a u =>
    refine ⟨?_, fun hnil => by cases hnil⟩
    -- The first token is in the front, and the second looks the same in both runs.
    have hsecond := (h.next_eq u).1
    simp only [next] at hsecond
    obtain ⟨token, s⟩ := a
    cases token with
    | identifier name => simp only [List.cons_append, ItemHead.of, hsecond]
    | _ => rfl

/-- What an item starts with can be seen in the front. It takes a look at two tokens, and the second
may be what ends the front. -/
theorem alike_itemHead {k : Nat} {u : List Located} {f g : ItemHead → Parser β}
    (h : ∀ head, (u = [] → head = .operand) → Alike k u (f head) (g head)) :
    Alike k u (itemHead >>= f) (itemHead >>= g) := by
  intro x y last finish hends
  have hrun (f : ItemHead → Parser β) (rest : List Located) :
      (itemHead >>= f) ⟨rest, last, finish⟩ = f (.of rest) ⟨rest, last, finish⟩ := rfl
  obtain ⟨hsame, hempty⟩ := hends.itemHead_eq u
  rw [hrun, hrun, hsame]
  exact h _ hempty x y last finish hends

/-- An item of a template is in the front: a label, an instruction or an operand, between its two
brackets. -/
theorem alike_item (u : List Located) : Alike 1 u item item := by
  refine (alike_expect (by simp) .openingBracket u).bind (k := 0) fun start v _ _ => ?_
  -- A label, an instruction or an operand, as its first two tokens tell.
  refine alike_itemHead fun head hempty => ?_
  cases head with
  | operand =>
    refine ((alike_operand v).bind (k := 0) fun _ w _ _ => ?_).mono (Nat.zero_le _)
    exact ((alike_expect (by simp) .closingBracket w).bind fun _ r _ _ => alike_pure _ r).mono
      (Nat.zero_le _)
  | label =>
    cases v with
    | nil => cases hempty rfl
    | cons t v =>
      refine (alike_advance (k := 0) ?_).mono (Nat.zero_le _)
      refine ((alike_identifier .labelName v).bind (k := 0) fun _ w _ _ => ?_).mono
        (Nat.zero_le _)
      exact ((alike_expect (by simp) .closingBracket w).bind fun _ r _ _ => alike_pure _ r).mono
        (Nat.zero_le _)
  | instruction mnemonic =>
    cases v with
    | nil => cases hempty rfl
    | cons t v =>
      refine (alike_advance (k := 0) ?_).mono (Nat.zero_le _)
      refine (alike_conditionSuffix v).bind (k := 0) fun _ w _ _ => ?_
      refine (alike_operands w).bind (k := 0) fun _ r _ _ => ?_
      exact ((alike_expect (by simp) .commaOrBracket r).bind fun _ r' _ _ => alike_pure _ r').mono
        (Nat.zero_le _)

/-- A conversion is in the front: an expression, an arrow and the items behind it, of which there is
at least one. -/
theorem alike_conversion (u : List Located) : Alike 1 u conversion conversion := by
  refine (alike_expr u).bind (k := 0) fun e v _ _ => ?_
  refine ((alike_expect (by simp) .arrow v).bind (k := 0) fun _ w _ _ => ?_).mono (Nat.zero_le _)
  refine alike_peek fun next hnext => ?_
  -- Without a bracket behind the arrow there is no item, which is an error at the same place.
  by_cases hopen : next = some .leftBracket
  · rw [if_pos hopen]
    have hitems : Alike 0 w (repeatWhile (· == some .leftBracket) item)
        (repeatWhile (· == some .leftBracket) item) :=
      alike_repeatWhile fun r _ _ _ _ => alike_item r
    refine hitems.bind (k := 0) fun template r _ _ => ?_
    exact alike_lastSpan fun stop => alike_pure _ r
  · rw [if_neg hopen]
    exact alike_expected 0 w .templateItem

/-! ## Groups -/

/-- The outcomes of reading a group in two runs that had the front `u`, followed by `x` and by
`y`. A group ends with a `;`, which stands in the front or ends it. -/
inductive GroupsAgree (finish : Span) (x y u : List Located) :
    Except Failure (Group × Cursor) → Except Failure (Group × Cursor) → Prop where
  | inside (g : Group) (w v : List Located) (s last : Span) (hu : u = w ++ ⟨.semicolon, s⟩ :: v) :
      GroupsAgree finish x y u (.ok (g, ⟨v ++ x, last, finish⟩)) (.ok (g, ⟨v ++ y, last, finish⟩))
  | atEnd (g : Group) (x' y' : List Located) (s last : Span) (hx : x = ⟨.semicolon, s⟩ :: x')
      (hy : y = ⟨.semicolon, s⟩ :: y') :
      GroupsAgree finish x y u (.ok (g, ⟨x', last, finish⟩)) (.ok (g, ⟨y', last, finish⟩))
  | error (e : SyntaxError) (v : List Located) (hsuffix : v <:+ u) :
      GroupsAgree finish x y u (.error ⟨e, v ++ x⟩) (.error ⟨e, v ++ y⟩)

/-- A group that was read ends with a `;` of the front, or with the one behind it. In the first case
the two rests differ only behind the front. -/
theorem GroupsAgree.of_ok {finish : Span} {x y u : List Located} {g : Group} {c : Cursor}
    {r : Except Failure (Group × Cursor)} (h : GroupsAgree finish x y u r (.ok (g, c))) :
    (∃ w v s last, u = w ++ ⟨.semicolon, s⟩ :: v ∧ c.rest = v ++ y ∧
        r = .ok (g, ⟨v ++ x, last, finish⟩)) ∨
      ∃ x' s last, x = ⟨.semicolon, s⟩ :: x' ∧ y = ⟨.semicolon, s⟩ :: c.rest ∧
        r = .ok (g, ⟨x', last, finish⟩) := by
  cases h with
  | inside _ w v s last hu => exact .inl ⟨w, v, s, last, hu, rfl, rfl⟩
  | atEnd _ x' y' s last hx hy => exact .inr ⟨x', s, last, hx, hy, rfl⟩

/-- A group that was not read has failed in the front. -/
theorem GroupsAgree.of_error {finish : Span} {x y u : List Located} {failure : Failure}
    {r : Except Failure (Group × Cursor)} (h : GroupsAgree finish x y u r (.error failure)) :
    ∃ v, v <:+ u ∧ failure.rest = v ++ y ∧ r = .error ⟨failure.error, v ++ x⟩ := by
  cases h with
  | error e v hsuffix => exact ⟨v, hsuffix, rfl, rfl⟩

/-- The one token of a group that may end the front. If it is missing, both runs fail with the same
error. -/
theorem groupsAgree_semicolon {finish last : Span} {x y u v : List Located} (hends : Ends x y)
    (hsuffix : v <:+ u) (make : Span → Group) :
    let p : Parser Group := do
      let stop ← expect .semicolon .barOrSemicolon
      return make stop
    GroupsAgree finish x y u (p ⟨v ++ x, last, finish⟩) (p ⟨v ++ y, last, finish⟩) := by
  intro p
  -- Where there is no `;` next, both runs miss it.
  have hmissed (h : next (v ++ x) ≠ some .semicolon) :
      GroupsAgree finish x y u (p ⟨v ++ x, last, finish⟩) (p ⟨v ++ y, last, finish⟩) := by
    have h' : next (v ++ y) ≠ some .semicolon := by rwa [(hends.next_eq v).1]
    obtain ⟨e, hx, hy⟩ := hends.expected_eq (α := Span) v last finish .barOrSemicolon
    have hpx : p ⟨v ++ x, last, finish⟩ = .error ⟨e, v ++ x⟩ := by
      change (expect _ _ _ >>= _) = _
      rw [expect, bind_here, bind_peek, if_neg h, hx]
      rfl
    have hpy : p ⟨v ++ y, last, finish⟩ = .error ⟨e, v ++ y⟩ := by
      change (expect _ _ _ >>= _) = _
      rw [expect, bind_here, bind_peek, if_neg h', hy]
      rfl
    rw [hpx, hpy]
    exact .error e v hsuffix
  have hread (s : Span) (rest : List Located) :
      p ⟨⟨.semicolon, s⟩ :: rest, last, finish⟩ = .ok (make s, ⟨rest, s, finish⟩) :=
    (complete_expect .semicolon .barOrSemicolon).bind rfl rfl trivial
  cases v with
  | nil =>
    cases hends with
    | finish => exact hmissed (by simp [next])
    | semicolon s x' y' =>
      rw [List.nil_append, List.nil_append, hread, hread]
      exact .atEnd (make s) x' y' s s rfl rfl
  | cons t v =>
    by_cases ht : t.token = .semicolon
    · obtain ⟨token, s⟩ := t
      obtain rfl : token = .semicolon := ht
      obtain ⟨w, hw⟩ := hsuffix
      rw [List.cons_append, List.cons_append, hread, hread]
      exact .inside (make s) w v s s hw.symm
    · exact hmissed fun h => ht (Option.some.inj h)

/-- Whatever is behind the front, a group is read or fails in the same way. Its parts before the `;`
are in the front. -/
theorem groupsAgree_group {x y : List Located} (hends : Ends x y) (u : List Located)
    (last finish : Span) :
    GroupsAgree finish x y u (group ⟨u ++ x, last, finish⟩) (group ⟨u ++ y, last, finish⟩) := by
  -- The parts of a group in sequence, each of which may be where both runs fail.
  refine (alike_identifier .groupName u).elim_bind hends ?_ (fun e v => .error e v)
  intro name v₁ last₁ hv₁ _
  refine (alike_expect (by simp) .colonAfterGroupName v₁).elim_bind hends ?_
    (fun e v hv => .error e v (hv.trans hv₁))
  intro colon v₂ last₂ hv₂ _
  refine (alike_conversion v₂).elim_bind hends ?_
    (fun e v hv => .error e v (hv.trans (hv₂.trans hv₁)))
  intro first v₃ last₃ hv₃ _
  refine (alike_afterEach (by simp) alike_conversion v₃).elim_bind hends ?_
    (fun e v hv => .error e v (hv.trans (hv₃.trans (hv₂.trans hv₁))))
  intro further v₄ last₄ hv₄ _
  exact groupsAgree_semicolon hends (hv₄.trans (hv₃.trans (hv₂.trans hv₁))) _

end Parser

end TileSelect
