import TileSelect.Proofs.Source.Lexing
/-!
Writing tokens down and reading them again.

A token has a spelling, or many: a number may be written in decimal, or by its bits in hexadecimal
with letters of either case. Where tokens are written one after the other with something blank in
between, cutting the text gives the tokens back. What is in between does not matter: a space, a few
empty lines, or comments that end with their line.

The argument is about one token at a time. Its spelling has the form of a piece in front of
anything that does not go on with it (`form_of_spelled`), and what separates tokens goes on with
none. The other half is arithmetic: digits are worth the number they were made from, and both
readings of 64 bits give the number back, up to either limit.
-/

set_option autoImplicit false

namespace TileSelect

open Lexeme

/-! ## Digits -/

/-- A further digit counts once, and all before it as often as the base says. -/
theorem digitsValue_append (base : Nat) (digits : List Char) (c : Char) :
    digitsValue base (digits ++ [c]) = digitsValue base digits * base + (hexValue? c).getD 0 := by
  simp [digitsValue]

theorem hexValue?_digitChar : ∀ d < 16, hexValue? d.digitChar = some d := by
  decide

/-- **Digits are worth the number they were made from.** The induction is on the number: its last
digit is what is left over by the base, and the others are those of the quotient. -/
theorem digitsValue_toDigits {base : Nat} (hbase : 1 < base) (hlimit : base ≤ 16) (n : Nat) :
    digitsValue base (base.toDigits n) = n := by
  induction n using Nat.strongRecOn with
  | ind n ih =>
    rw [Nat.toDigits_eq_if hbase]
    split
    · -- A single digit is worth what it stands for; otherwise the last one is split off.
      rename_i hn
      simp [digitsValue, hexValue?_digitChar n (by omega)]
    · rename_i hn
      have hdigit : n % base < base := Nat.mod_lt n (by omega)
      have hless : n / base < n := Nat.div_lt_self (by omega) hbase
      rw [digitsValue_append, hexValue?_digitChar _ (by omega), ih _ hless]
      exact Nat.div_add_mod' n base

/-- A property of the digits below a base holds of the digits of a number. The induction is that of
`digitsValue_toDigits`. -/
theorem forall_mem_toDigits {base : Nat} (hbase : 1 < base) {P : Char → Prop}
    (hP : ∀ d < base, P d.digitChar) (n : Nat) : ∀ c ∈ base.toDigits n, P c := by
  induction n using Nat.strongRecOn with
  | ind n ih =>
    rw [Nat.toDigits_eq_if hbase]
    split
    · rename_i hn
      simpa using hP n hn
    · have hless : n / base < n := Nat.div_lt_self (by omega) hbase
      intro c hc
      rcases List.mem_append.1 hc with hc | hc
      · exact ih _ hless c hc
      · rw [List.mem_singleton.1 hc]
        exact hP _ (Nat.mod_lt n (by omega))

/-- The digits of a number to the base ten are decimal. -/
theorem isDecimal_of_mem_toDigits (n : Nat) : ∀ c ∈ Nat.toDigits 10 n, isDecimal c = true :=
  forall_mem_toDigits (by decide) (by decide) n

theorem isHex_of_mem_toDigits (n : Nat) : ∀ c ∈ Nat.toDigits 16 n, isHex c = true :=
  forall_mem_toDigits (by decide) (by decide) n

/-- The case of a letter makes no difference to what it is worth. A capital letter becomes the small
one 32 further on, and other characters stay as they are. -/
theorem hexValue?_toLower (c : Char) : hexValue? c.toLower = hexValue? c := by
  unfold Char.toLower
  split
  · rename_i hcapital
    obtain ⟨hlow, hhigh⟩ : 65 ≤ c.toNat ∧ c.toNat ≤ 90 := hcapital
    generalize hd : (⟨c.val + ('a'.val - 'A'.val), _⟩ : Char) = d
    -- Between the capital letters and the small ones there are 32 characters, and the sum does not
    -- overflow.
    have hshift : d.toNat = c.toNat + 32 := by
      subst hd
      change (c.val + 32).toNat = _
      rw [UInt32.toNat_add]
      change (c.toNat + 32) % 2 ^ 32 = _
      omega
    unfold hexValue?
    simp only [Bool.and_eq_true, decide_eq_true_eq, Char.le_def, UInt32.le_iff_toNat_le,
      Char.toNat_val, hshift, Char.reduceToNat]
    grind
  · rfl

theorem digitsValue_toLower (base : Nat) (digits : List Char) :
    digitsValue base (digits.map Char.toLower) = digitsValue base digits := by
  simp only [digitsValue, List.foldl_map, hexValue?_toLower]

theorem isHex_of_toLower {digits digits' : List Char} (h : digits.map Char.toLower = digits')
    (hdigits : ∀ c ∈ digits', isHex c = true) : ∀ c ∈ digits, isHex c = true := by
  intro c hc
  have hlower := hdigits c.toLower (h ▸ List.mem_map_of_mem hc)
  rwa [isHex, hexValue?_toLower] at hlower

/-! ## Spellings -/

/-- How a token may be written. -/
inductive Token.Spelled : Token → List Char → Prop
  | mark {t : Token} (h : t.mark ≠ "") : Spelled t t.mark.toList
  | name {c : Char} {tail : List Char} (start : isNameStart c = true)
      (inside : ∀ d ∈ tail, isNameRest d = true) :
      Spelled (.identifier (String.ofList (c :: tail))) (c :: tail)
  /-- The digits of a number that is not negative. -/
  | decimal {v : Int64} (h : 0 ≤ v.toInt) : Spelled (.number v) (Nat.toDigits 10 v.toInt.toNat)
  /-- The digits of the 64 bits of any number, in either case and behind any number of zeros. -/
  | hexadecimal (v : Int64) (zeros : Nat) {digits : List Char}
      (h : digits.map Char.toLower
        = List.replicate zeros '0' ++ Nat.toDigits 16 v.toUInt64.toNat) :
      Spelled (.number v) ('0' :: 'x' :: digits)

/-- What may follow the spelling of a token without being taken for a part of it. -/
def Token.Ends (t : Token) (rest : List Char) : Prop :=
  match t with
  | .number _ | .identifier _ => Stops isNameRest rest
  | .minus => Stops (· == '>') rest
  | _ => True

/-- A number that is not negative is given by its magnitude. -/
theorem ofNat_toNat_toInt {v : Int64} (h : 0 ≤ v.toInt) : Int64.ofNat v.toInt.toNat = v := by
  rw [← Int64.ofInt_eq_ofNat, Int.toNat_of_nonneg h, Int64.ofInt_toInt]

theorem ofNat_toNat_toUInt64 (v : Int64) : Int64.ofNat v.toUInt64.toNat = v := by
  apply Int64.toBitVec_inj.1
  simp

/-- The decimal digits of a number that is not negative are read as the number. -/
theorem decimalToken?_toDigits {v : Int64} (h : 0 ≤ v.toInt) :
    decimalToken? (Nat.toDigits 10 v.toInt.toNat) = some (.number v) := by
  have hlimit := v.toInt_lt
  unfold decimalToken?
  rw [digitsValue_toDigits (by decide) (by decide), if_pos (by omega), ofNat_toNat_toInt h]

/-- The hexadecimal digits of the bits of a number are read as the number, whatever zeros are in
front and whatever the case of their letters. -/
theorem hexToken?_of_toLower {v : Int64} {zeros : Nat} {digits : List Char}
    (h : digits.map Char.toLower = List.replicate zeros '0' ++ Nat.toDigits 16 v.toUInt64.toNat) :
    hexToken? digits = some (.number v) := by
  -- Zeros in front do not change the value.
  have hzeros : ∀ n, List.foldl (fun n c => n * 16 + (hexValue? c).getD 0) 0
      (List.replicate n '0') = 0 := by
    intro n
    induction n with
    | zero => rfl
    | succ n ih => exact ih
  have hvalue : digitsValue 16 digits = v.toUInt64.toNat := by
    rw [← digitsValue_toLower, h, digitsValue, List.foldl_append, hzeros]
    exact digitsValue_toDigits (by decide) (by decide) _
  unfold hexToken?
  rw [hvalue, if_pos v.toUInt64.toNat_lt_size, ofNat_toNat_toUInt64]

/-- Decimal digits are a piece, in front of anything that does not go on with them. -/
theorem form_decimal (n : Nat) {rest : List Char} (hrest : Stops isNameRest rest) :
    Form (Nat.toDigits 10 n) rest (.ofNumber (decimalToken? (Nat.toDigits 10 n))) := by
  refine .decimal Nat.toDigits_ne_nil (isDecimal_of_mem_toDigits n)
    (hrest.mono fun d hd => isNameRest_iff.2 (.inr hd)) ?_
  rintro - ⟨d, ds, rfl, -⟩
  exact absurd (stops_cons.1 hrest) (by decide)

/-- **A spelling is found in front of anything that does not go on with it.** Its form is that of a
mark, of a name, or of a number in one of the two bases. -/
theorem form_of_spelled {t : Token} {text rest : List Char} (h : t.Spelled text)
    (hrest : t.Ends rest) : Form text rest (.token t) := by
  -- A sign is the mark that needs a look at what follows, as an arrow begins with it.
  cases h with
  | mark h =>
    cases t with
    | number => exact absurd rfl h
    | identifier => exact absurd rfl h
    | arrow => exact .arrow rest
    | minus => exact .mark rfl fun _ => hrest
    | _ => exact .mark rfl fun hc => absurd hc (by decide)
  | name hstart hinside => exact .name hstart hinside hrest
  | @decimal v hv =>
    have hform := form_decimal v.toInt.toNat hrest
    rwa [decimalToken?_toDigits hv] at hform
  | @hexadecimal v zeros digits hdigits =>
    have hinside : ∀ c ∈ digits, isHex c = true := by
      refine isHex_of_toLower hdigits fun c hc => ?_
      rcases List.mem_append.1 hc with hc | hc
      · rw [List.eq_of_mem_replicate hc]
        decide
      · exact isHex_of_mem_toDigits _ c hc
    have hne : digits ≠ [] := by
      rintro rfl
      have hnil := (List.append_eq_nil_iff.1 hdigits.symm).2
      exact Nat.toDigits_ne_nil hnil
    have hstop : Stops isHex rest := by
      refine Stops.mono hrest fun d hd => ?_
      rw [isHex_iff] at hd
      rw [isNameRest_iff, isNameStart_iff, isDecimal_iff]
      omega
    have hform := Form.hexadecimal hne hinside hstop
    rwa [hexToken?_of_toLower hdigits] at hform

/-! ## Written tokens -/

/-- What may stand around tokens: blank characters, and comments with the line feed that ends
them. -/
inductive Separator : List Char → Prop
  | nil : Separator []
  | blank {c : Char} {s : List Char} (h : isBlank c = true) (tail : Separator s) :
      Separator (c :: s)
  | comment {body s : List Char} (inside : '\n' ∉ body) (tail : Separator s) :
      Separator ('/' :: '/' :: (body ++ '\n' :: s))

/-- Tokens written one after the other, with a separator that is not empty behind each; behind the
last one there may be none. -/
inductive Printed : List Token → List Char → Prop
  | nil : Printed [] []
  | last {t : Token} {text : List Char} (spelled : t.Spelled text) : Printed [t] text
  | cons {t : Token} {text gap : List Char} {ts : List Token} {rest : List Char}
      (spelled : t.Spelled text) (separated : Separator gap) (nonempty : gap ≠ [])
      (tail : Printed ts rest) : Printed (t :: ts) (text ++ (gap ++ rest))

/-- No token goes on with a separator. It starts with a blank or a slash, which is neither part of a
word nor the head of an arrow. -/
theorem Separator.ends {gap : List Char} (h : Separator gap) (hne : gap ≠ []) (t : Token)
    (rest : List Char) : t.Ends (gap ++ rest) := by
  have hstops : Stops isNameRest (gap ++ rest) ∧ Stops (· == '>') (gap ++ rest) := by
    cases h with
    | nil => contradiction
    | @blank c s hc _ =>
      rw [List.cons_append, stops_cons, stops_cons]
      constructor
      · rw [Bool.eq_false_iff, Ne, isNameRest_iff, isNameStart_iff, isDecimal_iff]
        rw [isBlank_iff] at hc
        omega
      · rw [beq_eq_false_iff_ne]
        rintro rfl
        exact absurd hc (by decide)
    | comment => exact ⟨stops_cons.2 (by decide), stops_cons.2 (by decide)⟩
  -- Words are the tokens that digits and letters go on with; a sign goes on with the head of an
  -- arrow.
  cases t with
  | number => exact hstops.1
  | identifier => exact hstops.1
  | minus => exact hstops.2
  | _ => trivial

/-- Every token may stand at the end. -/
theorem Token.ends_nil (t : Token) : t.Ends [] := by
  cases t with
  | number => exact stops_nil _
  | identifier => exact stops_nil _
  | minus => exact stops_nil _
  | _ => trivial

/-- Text that is laid out of lexemes, in front of the rest of the text; the tokens among them are
`ts`, and `faults` is what is wrong with the others. -/
def Lays (text rest : List Char) (ts : List Token) (faults : List SyntaxFault) : Prop :=
  ∃ ls : List Lexeme, ls.flatMap Lexeme.text = text ∧ ls.filterMap Lexeme.token? = ts ∧
    ls.filterMap Lexeme.fault? = faults ∧ Laid ls rest

/-- Two texts that are laid out one after the other. -/
theorem Lays.append {a b rest : List Char} {ts us : List Token} {faults faults' : List SyntaxFault}
    (h : Lays a (b ++ rest) ts faults) (h' : Lays b rest us faults') :
    Lays (a ++ b) rest (ts ++ us) (faults ++ faults') := by
  obtain ⟨ls, rfl, rfl, rfl, hlaid⟩ := h
  obtain ⟨ms, rfl, rfl, rfl, hlaid'⟩ := h'
  exact ⟨ls ++ ms, List.flatMap_append, List.filterMap_append, List.filterMap_append,
    hlaid.append hlaid'⟩

theorem Lays.nil (rest : List Char) : Lays [] rest [] [] := ⟨[], rfl, rfl, rfl, .nil rest⟩

theorem Lays.blanks (run : List Char) (h : ∀ c ∈ run, isBlank c = true) (rest : List Char) :
    Lays run rest [] [] :=
  ⟨[⟨.blank, run⟩], by simp, rfl, rfl, .blanks rfl h (.nil rest)⟩

theorem Lays.piece {text rest : List Char} {kind : LexemeKind} (h : Form text rest kind) :
    Lays text rest (Lexeme.token? ⟨kind, text⟩).toList (Lexeme.fault? ⟨kind, text⟩).toList := by
  refine ⟨[⟨kind, text⟩], by simp, ?_, ?_, .piece h (.nil rest)⟩
  · cases h : Lexeme.token? ⟨kind, text⟩ <;> simp [h]
  · cases h : Lexeme.fault? ⟨kind, text⟩ <;> simp [h]

/-- A spelling is laid out of its token, if it may end there. -/
theorem Lays.token {t : Token} {text rest : List Char} (h : t.Spelled text)
    (hrest : t.Ends rest) : Lays text rest [t] [] :=
  .piece (form_of_spelled h hrest)

/-- A separator is laid out of blanks: each blank by itself, and each comment with the line feed
behind it. -/
theorem Separator.lays {gap : List Char} (h : Separator gap) (rest : List Char) :
    Lays gap rest [] [] := by
  induction h with
  | nil => exact .nil rest
  | @blank c s hc _ ih => exact (Lays.blanks [c] (by simpa using hc) _).append ih
  | @comment body s hinside _ ih =>
    have hform : Form ('/' :: '/' :: body) ('\n' :: (s ++ rest)) .blank := by
      refine .comment (fun c hc => ?_) (stops_cons.2 (by decide))
      rintro rfl
      exact hinside hc
    -- The line feed ends the comment and is a blank of its own.
    have hline := (Lays.blanks ['\n'] (by simp [isBlank]) (s ++ rest)).append ih
    exact (Lays.piece hform).append hline

/-- A printed text is laid out of its tokens. The induction is on the printing, from the first token
to the last. -/
theorem Printed.lays {ts : List Token} {text : List Char} (h : Printed ts text) :
    Lays text [] ts [] := by
  induction h with
  | nil => exact .nil []
  | @last t text hspelled => exact .token hspelled t.ends_nil
  | @cons t text gap ts rest hspelled hgap hne _ ih =>
    have htoken : Lays text (gap ++ rest ++ []) [t] [] := by
      rw [List.append_nil]
      exact .token hspelled (hgap.ends hne t rest)
    exact htoken.append ((hgap.lays _).append ih)

/-- **Text is cut into what it is laid out of**, behind another text and a line feed too. In front
of the line feed the other text is cut as it was alone. -/
theorem Lays.tokenize_append {text : List Char} {ts : List Token} {faults : List SyntaxFault}
    (h : Lays text [] ts faults) (source : List Char)
    (hsource : source = [] ∨ text.head? = some '\n') :
    ∃ located errors, tokenize (source ++ text)
        = ((tokenize source).1 ++ located, (tokenize source).2 ++ errors) ∧
      located.map Located.token = ts ∧ errors.map SyntaxError.fault = faults := by
  obtain ⟨ls, rfl, rfl, rfl, hlaid⟩ := h
  have hscan (start : Nat) : locate start (scan (ls.flatMap Lexeme.text)) = locate start ls := by
    have := locate_scan_of_laid hlaid start
    rw [List.append_nil, scan_nil] at this
    rw [this]
    simp [locate]
  -- Behind nothing the text starts at zero; behind another text it starts at the line feed.
  have hsplit : locate 0 (scan (source ++ ls.flatMap Lexeme.text))
      = locate 0 (scan source) ++ locate (byteLength source) ls := by
    rcases hsource with rfl | hhead
    · exact hscan 0
    · obtain ⟨more, hmore⟩ := List.head?_eq_some_iff.1 hhead
      have hline := locate_scan_lineFeed 0 source more
      rwa [← hmore, Nat.zero_add, hscan] at hline
  refine ⟨_, _, ?_, map_token_locate (byteLength source) ls,
    map_fault_locate (byteLength source) ls⟩
  simp only [tokenize_eq, hsplit, List.filterMap_append]

/-- **Tokens that are written down are read again**, whatever separates them, and there are no
errors. Spaces, line ends and comments may stand in front of them too. -/
theorem tokenize_printed {ts : List Token} {lead text : List Char} (hlead : Separator lead)
    (h : Printed ts text) :
    (tokenize (lead ++ text)).1.map Located.token = ts ∧ (tokenize (lead ++ text)).2 = [] := by
  obtain ⟨located, errors, htokenize, htokens, hfaults⟩ :=
    ((hlead.lays _).append h.lays).tokenize_append [] (.inl rfl)
  rw [List.nil_append] at htokenize
  rw [htokenize]
  exact ⟨htokens, List.map_eq_nil_iff.1 hfaults⟩

/-- The two limits of numbers, a comment as separator, and a sign in front of an arrow, which would
be one mark without the space. -/
theorem tokenize_printed_limits :
    let ts : List Token := [.minus, .arrow, .number (-0x8000000000000000),
      .number 0x7fffffffffffffff, .identifier "x1"]
    let text := "- -> 0x8000000000000000//c\n9223372036854775807\tx1".toList
    Printed ts text ∧ (tokenize text).1.map Located.token = ts ∧ (tokenize text).2 = [] := by
  intro ts text
  have hblank {c : Char} (h : isBlank c = true) : Separator [c] := .blank h .nil
  have hcomment : Separator "//c\n".toList := @Separator.comment ['c'] [] (by decide) .nil
  have hleast : Token.Spelled (.number (-0x8000000000000000)) "0x8000000000000000".toList :=
    @Token.Spelled.hexadecimal _ 0 "8000000000000000".toList (by decide)
  have hlargest : Token.Spelled (.number 0x7fffffffffffffff) "9223372036854775807".toList :=
    @Token.Spelled.decimal 0x7fffffffffffffff (by decide)
  have hname : Token.Spelled (.identifier "x1") "x1".toList :=
    @Token.Spelled.name 'x' ['1'] (by decide) (List.all_eq_true.1 (by decide))
  have hprinted : Printed ts text :=
    .cons (.mark (by decide)) (hblank (c := ' ') rfl) (by simp)
      (.cons (.mark (by decide)) (hblank (c := ' ') rfl) (by simp)
        (.cons hleast hcomment (by simp)
          (.cons hlargest (hblank (c := '\t') rfl) (by simp) (.last hname))))
  exact ⟨hprinted, tokenize_printed .nil hprinted⟩

end TileSelect
