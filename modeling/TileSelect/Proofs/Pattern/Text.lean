import TileSelect.Pattern.Text
import TileSelect.Proofs.Source.Grammar
import TileSelect.Proofs.Source.Spelling
/-!
What the text of a shape is read as.

A shape is written as words with a space between them. Cut again, the text gives the tokens that it
was made of (`lays_text`), with one exception: the least number has no positive counterpart, so the
digits behind its minus sign are too large. The grammar then makes an expression of the tokens
(`exists_written`). It is not the expression that the shape came from, which may have had other
numerals, a superfluous capture and other spans; `Reads` says what the two have in common.

Operations, producers and constants are written alike, so each step is taken once for the three of
them.
-/

set_option autoImplicit false

namespace TileSelect

open Grammar Lexeme

/-! ## Names -/

/-- What a name looks like: letters, digits and underscores, the first of which is no digit. -/
def IsName (name : String) : Prop :=
  ∃ c tail, name.toList = c :: tail ∧ isNameStart c = true ∧ ∀ d ∈ tail, isNameRest d = true

theorem isName_of_all {name : String} {c : Char} {tail : List Char}
    (htext : name.toList = c :: tail) (hstart : isNameStart c = true)
    (hinside : tail.all isNameRest = true) : IsName name :=
  ⟨c, tail, htext, hstart, List.all_eq_true.1 hinside⟩

/-- A name spells the identifier. -/
theorem IsName.spelled {name : String} (h : IsName name) :
    Token.Spelled (.identifier name) name.toList := by
  obtain ⟨c, tail, htext, hstart, hinside⟩ := h
  have hname : name = String.ofList (c :: tail) := by rw [← htext, String.ofList_toList]
  rw [htext, hname]
  exact .name hstart hinside

/-- An identifier that was cut out of a text is a name: no other form of lexeme gives an identifier.
Numbers and marks are gone through to see this. -/
theorem isName_of_form {text rest : List Char} {name : String}
    (h : Form text rest (.token (.identifier name))) : IsName name := by
  generalize hkind : LexemeKind.token (.identifier name) = kind at h
  cases h with
  | @name c tail _ hstart hinside _ =>
    cases hkind
    exact ⟨c, tail, String.toList_ofList, hstart, hinside⟩
  | decimal =>
    unfold decimalToken? at hkind
    dsimp only at hkind
    split at hkind <;> cases hkind
  | hexadecimal =>
    unfold hexToken? at hkind
    dsimp only at hkind
    split at hkind <;> cases hkind
  | mark hknown =>
    cases hkind
    unfold markToken? at hknown
    split at hknown <;> cases hknown
  | _ => cases hkind

/-- An identifier among the tokens of a source is a name. -/
theorem isName_of_mem_tokens {source : List Char} {t : Located} {name : String}
    (h : t ∈ (tokenize source).1) (ht : t.token = .identifier name) : IsName name := by
  obtain ⟨text, rest, hform⟩ := exists_of_mem_tokens h
  rw [ht] at hform
  exact isName_of_form hform

theorem ValueType.isName_name (ty : ValueType) : IsName ty.name := by
  cases ty <;> exact isName_of_all rfl (by decide) (by decide)

theorem Operation.isName_name (op : Operation) : IsName op.name := by
  cases op <;> exact isName_of_all rfl (by decide) (by decide)

/-- The name of a type has the form by which the parser tells types from operations. -/
theorem ValueType.looksLikeType_name (ty : ValueType) : Parser.looksLikeType ty.name = true := by
  cases ty <;> decide

theorem Operation.looksLikeType_name (op : Operation) :
    Parser.looksLikeType op.name = false := by
  cases op <;> decide

namespace Shape

/-- The names that the top of a shape is written with. -/
def ownNames : Shape → List String
  | .node ident _ _ _ | .producer ident _ | .constant ident _ _ => ident.toList
  | .inclusion ident group => [ident, group]
  | .backreference ident => [ident]

/-- The names that a shape is written with. -/
def names (s : Shape) : List String := s.subshapes.flatMap ownNames

/-- The names that several shapes are written with. -/
def namesList (ss : List Shape) : List String := (subshapesList ss).flatMap ownNames

/-! ## Tokens -/

/-- `< ident >`, or nothing. -/
def captureTokens : Option String → List Token
  | some ident => [.less, .identifier ident, .greater]
  | none => []

/-- `TYPE`, or nothing. -/
def typeTokens : Option ValueType → List Token
  | some ty => [.identifier ty.name]
  | none => []

/-- A number with its sign, or nothing. The least number has no digits that fit. -/
def valueTokens : Option Int64 → List Token
  | some v =>
    if 0 ≤ v.toInt then [.number v]
    else if v = Int64.minValue then [.minus] else [.minus, .number (-v)]
  | none => []

/-- `( capture TYPE name inner )` -/
def opTokens (ident : Option String) (ty : Option ValueType) (name : String) (inner : List Token) :
    List Token :=
  .leftParen :: (captureTokens ident ++ (typeTokens ty ++
    (.identifier name :: (inner ++ [.rightParen]))))

mutual

/-- The tokens of the text of a shape. -/
def tokens : Shape → List Token
  | .node ident ty op args => opTokens ident ty op.name (argsTokens args)
  | .producer ident ty => opTokens ident ty "LOCAL" []
  | .constant ident ty value => opTokens ident ty "CONSTANT" (valueTokens value)
  | .inclusion ident group =>
    if ident = group then [.identifier group] else captureTokens (some ident) ++ [.identifier group]
  | .backreference ident => [.identifier ident]

/-- The tokens of the text of several shapes. -/
def argsTokens : List Shape → List Token
  | [] => []
  | s :: ss => tokens s ++ argsTokens ss

end

/-- What is wrong with the text of a number: the least one is too large without its sign. -/
def valueFaults : Option Int64 → List SyntaxFault
  | some v => if v = Int64.minValue then [.invalidNumber "9223372036854775808"] else []
  | none => []

/-- What is wrong with the text of the top of a shape. -/
def ownFaults : Shape → List SyntaxFault
  | .constant _ _ value => valueFaults value
  | _ => []

/-- What is wrong with the text of a shape. -/
def faults (s : Shape) : List SyntaxFault := s.subshapes.flatMap ownFaults

/-- What is wrong with the text of several shapes. -/
def faultsList (ss : List Shape) : List SyntaxFault := (subshapesList ss).flatMap ownFaults

/-- The names of an operation: its capture, and those of its arguments. -/
theorem names_node (ident : Option String) (ty : Option ValueType) (op : Operation)
    (args : List Shape) : names (.node ident ty op args) = ident.toList ++ namesList args := by
  rw [names, subshapes, List.flatMap_cons, namesList, ownNames]

/-- An operation has the faults of its arguments and none of its own. -/
theorem faults_node (ident : Option String) (ty : Option ValueType) (op : Operation)
    (args : List Shape) : faults (.node ident ty op args) = faultsList args := by
  rw [faults, subshapes, List.flatMap_cons, faultsList]
  rfl

theorem namesList_cons (s : Shape) (ss : List Shape) :
    namesList (s :: ss) = s.names ++ namesList ss := by
  rw [namesList, subshapesList, List.flatMap_append, names, namesList]

/-- The faults of several shapes, one after the other. -/
theorem faultsList_cons (s : Shape) (ss : List Shape) :
    faultsList (s :: ss) = s.faults ++ faultsList ss := by
  rw [faultsList, subshapesList, List.flatMap_append, faults, faultsList]

/-! ## Cutting the text -/

theorem lays_mark (t : Token) (rest : List Char) (h : t.mark ≠ "") (hends : t.Ends rest) :
    Lays t.mark.toList rest [t] [] :=
  .token (.mark h) hends

/-- A name lies where its characters do, if it ends there. -/
theorem lays_name {name : String} (h : IsName name) {rest : List Char}
    (hrest : Stops isNameRest rest) : Lays name.toList rest [.identifier name] [] :=
  .token h.spelled hrest

theorem lays_space (rest : List Char) : Lays [' '] rest [] [] :=
  .blanks [' '] (by simp [isBlank]) rest

/-- A capture is laid out as a name between two marks, and a missing one as nothing. The blank
behind it leaves no trace. -/
theorem lays_capture {ident : Option String} (h : ∀ i ∈ ident, IsName i) (rest : List Char) :
    Lays (captureText ident).toList rest (captureTokens ident) [] := by
  cases ident with
  | none => exact .nil rest
  | some i =>
    have htext : (captureText (some i)).toList = ['<'] ++ (i.toList ++ (['>'] ++ [' '])) := by
      simp [captureText]
    rw [htext]
    have hclose := (lays_mark .greater _ (by decide) trivial).append (lays_space rest)
    have hname := (lays_name (h i rfl) (stops_cons.2 (by decide))).append hclose
    exact (lays_mark .less _ (by decide) trivial).append hname

/-- A type is laid out as its name and a blank, and a missing one as nothing. The blank separates
the name from the next. -/
theorem lays_type (ty : Option ValueType) (rest : List Char) :
    Lays (typeText ty).toList rest (typeTokens ty) [] := by
  cases ty with
  | none => exact .nil rest
  | some t =>
    have htext : (typeText (some t)).toList = t.name.toList ++ [' '] := by simp [typeText]
    rw [htext]
    exact (lays_name t.isName_name (stops_cons.2 (by decide))).append (lays_space rest)

/-- An operation is laid out as its parentheses with a capture, a type and a name in front of
whatever else it is written with. -/
theorem lays_op {ident : Option String} (hident : ∀ i ∈ ident, IsName i) (ty : Option ValueType)
    {name : String} (hname : IsName name) {inner rest : List Char} {ts : List Token}
    {faults : List SyntaxFault} (hstops : Stops isNameRest (inner ++ ([')'] ++ rest)))
    (hinner : Lays inner ([')'] ++ rest) ts faults) :
    Lays (['('] ++ ((captureText ident).toList ++ ((typeText ty).toList ++
        (name.toList ++ (inner ++ [')']))))) rest (opTokens ident ty name ts) faults := by
  have hclose := hinner.append (lays_mark .rightParen rest (by decide) trivial)
  have hhead := (lays_name hname (by rwa [List.append_assoc])).append hclose
  have hopen := (lays_capture hident _).append ((lays_type ty _).append hhead)
  have hall := (lays_mark .leftParen _ (by decide) trivial).append hopen
  rwa [List.append_nil] at hall

/-- A number without its sign: digits that fit, or the one number whose digits do not. What follows
must not be a character that would continue them. -/
theorem lays_digits (n : Nat) {rest : List Char} (hrest : Stops isNameRest rest) :
    Lays (Nat.toDigits 10 n) rest
      (if n < 0x8000000000000000 then [.number (Int64.ofNat n)] else [])
      (if n < 0x8000000000000000 then [] else [.invalidNumber n.repr]) := by
  have hpiece := Lays.piece (form_decimal n hrest)
  have hvalue : decimalToken? (Nat.toDigits 10 n)
      = if n < 0x8000000000000000 then some (.number (Int64.ofNat n)) else none := by
    rw [decimalToken?, digitsValue_toDigits (by decide) (by decide)]
  rw [hvalue] at hpiece
  by_cases hn : n < 0x8000000000000000
  · rw [if_pos hn] at hpiece ⊢
    rwa [if_pos hn]
  · rw [if_neg hn] at hpiece ⊢
    rwa [if_neg hn]

/-- A minus in front of digits is not the beginning of an arrow. For a minus this is all that has to
be looked at. -/
theorem ends_minus_digits (n : Nat) (rest : List Char) :
    Token.Ends .minus (Nat.toDigits 10 n ++ rest) := by
  have hdigit := isDecimal_of_mem_toDigits n
  cases hdigits : Nat.toDigits 10 n with
  | nil => exact absurd hdigits Nat.toDigits_ne_nil
  | cons c digits =>
    refine stops_cons.2 (beq_eq_false_iff_ne.2 ?_)
    rintro rfl
    exact absurd (hdigit '>' (by simp [hdigits])) (by decide)

/-- The number of a constant after a space, or nothing. -/
def valueText : Option Int64 → String
  | some v => " " ++ v.toInt.repr
  | none => ""

/-- The number of a constant, with its sign, after a blank. The least number is reported, since its
digits do not fit without the sign. -/
theorem lays_value (value : Option Int64) {rest : List Char} (hrest : Stops isNameRest rest) :
    Lays (valueText value).toList rest (valueTokens value) (valueFaults value) := by
  cases value with
  | none => exact .nil rest
  | some v =>
    cases hv : v.toInt with
    | ofNat n =>
      have hcast : v.toInt = (n : Int) := hv
      have hn : n < 0x8000000000000000 := by
        have := v.toInt_lt
        omega
      have hleast : v ≠ Int64.minValue := by
        rintro rfl
        cases hv
      have hvalue : Int64.ofNat n = v := by
        rw [← Int64.ofInt_toInt v, hv]
        rfl
      have htext : (valueText (some v)).toList = [' '] ++ Nat.toDigits 10 n := by
        simp [valueText, hv, Int.repr]
      have hlays := (lays_space _).append (lays_digits n hrest)
      rw [if_pos hn, if_pos hn, hvalue] at hlays
      rw [htext, valueTokens, if_pos (by omega), valueFaults, if_neg hleast]
      exact hlays
    | negSucc n =>
      have hn : n + 1 ≤ 0x8000000000000000 := by
        have := v.le_toInt
        omega
      have hvalue : Int64.ofNat (n + 1) = -v := by
        rw [← Int64.ofInt_toInt v, hv, ← Int64.ofInt_neg]
        rfl
      have hleast : v = Int64.minValue ↔ n + 1 = 0x8000000000000000 := by
        rw [← Int64.toInt_inj, hv, Int64.toInt_minValue]
        omega
      have htext : (valueText (some v)).toList = [' '] ++ (['-'] ++ Nat.toDigits 10 (n + 1)) := by
        simp [valueText, hv, Int.repr]
      have hlays := (lays_space _).append ((lays_mark .minus _ (by decide)
        (ends_minus_digits (n + 1) rest)).append (lays_digits (n + 1) hrest))
      rw [hvalue] at hlays
      rw [htext, valueTokens, if_neg (by omega), valueFaults]
      -- Only the magnitude of the least number has no number of its own.
      by_cases hlargest : n + 1 = 0x8000000000000000
      · rw [if_pos (hleast.2 hlargest), if_pos (hleast.2 hlargest), hlargest]
        rw [if_neg (by omega), if_neg (by omega), hlargest] at hlays
        exact hlays
      · rw [if_neg (mt hleast.1 hlargest), if_neg (mt hleast.1 hlargest)]
        rw [if_pos (by omega), if_pos (by omega)] at hlays
        exact hlays

/-- A number that follows a name is separated from it. -/
theorem stops_value (value : Option Int64) {rest : List Char} (hrest : Stops isNameRest rest) :
    Stops isNameRest ((valueText value).toList ++ rest) := by
  cases value with
  | none => exact hrest
  | some v =>
    rw [valueText, String.toList_append, List.append_assoc]
    exact stops_cons.2 (by decide)

/-- Arguments that follow a name are separated from it, by a blank if there are any, and by what
comes after them otherwise. -/
theorem stops_args (ss : List Shape) {rest : List Char} (hrest : Stops isNameRest rest) :
    Stops isNameRest ((argsText ss).toList ++ rest) := by
  cases ss with
  | nil => exact hrest
  | cons s ss =>
    rw [argsText]
    simp only [String.toList_append, List.append_assoc]
    exact stops_cons.2 (by decide)

theorem isName_of_names {ident : Option String} {names : List String}
    (h : ∀ name ∈ ident.toList ++ names, IsName name) : ∀ i ∈ ident, IsName i := by
  intro i hi
  exact h i (List.mem_append_left names (Option.mem_toList.2 hi))

mutual

/-- **The text of a shape is cut into its tokens**, and what is wrong with it is reported. The
recursion is that of the text; what follows must not continue the last name. -/
theorem lays_text : ∀ s : Shape, (∀ name ∈ s.names, IsName name) → ∀ rest : List Char,
    Stops isNameRest rest → Lays s.text.toList rest s.tokens s.faults
  | .node ident ty op args, h, rest, hrest => by
    have hclose : Stops isNameRest ([')'] ++ rest) := stops_cons.2 (by decide)
    have htext : (node ident ty op args).text.toList = ['('] ++ ((captureText ident).toList ++
        ((typeText ty).toList ++ (op.name.toList ++ ((argsText args).toList ++ [')'])))) := by
      simp [text]
    rw [names_node] at h
    have hargs := lays_args args (fun name hname => h name (List.mem_append_right _ hname)) _ hclose
    rw [htext, tokens, faults_node]
    exact lays_op (isName_of_names h) ty op.isName_name (stops_args args hclose) hargs
  | .producer ident ty, h, rest, hrest => by
    have hclose : Stops isNameRest ([] ++ ([')'] ++ rest)) := stops_cons.2 (by decide)
    have htext : (producer ident ty).text.toList = ['('] ++ ((captureText ident).toList ++
        ((typeText ty).toList ++ ("LOCAL".toList ++ ([] ++ [')'])))) := by
      simp [text]
    rw [htext, tokens]
    exact lays_op (isName_of_names h) ty (isName_of_all rfl (by decide) (by decide)) hclose (.nil _)
  | .constant ident ty value, h, rest, hrest => by
    have hclose : Stops isNameRest ([')'] ++ rest) := stops_cons.2 (by decide)
    have htext : (constant ident ty value).text.toList = ['('] ++ ((captureText ident).toList ++
        ((typeText ty).toList ++ ("CONSTANT".toList ++ ((valueText value).toList ++ [')'])))) := by
      cases value <;> simp [text, valueText]
    have hfaults : (constant ident ty value).faults = valueFaults value := by
      simp [faults, subshapes, ownFaults]
    rw [htext, tokens, hfaults]
    exact lays_op (isName_of_names h) ty (isName_of_all rfl (by decide) (by decide))
      (stops_value value hclose) (lays_value value hclose)
  | .inclusion ident group, h, rest, hrest => by
    -- The capture is left out where it is the name of the group.
    have hgroup := lays_name (h group (by simp [names, subshapes, ownNames])) hrest
    rw [text, tokens]
    split
    · exact hgroup
    · have hident : ∀ i ∈ some ident, IsName i := by
        rintro _ ⟨⟩
        exact h ident (by simp [names, subshapes, ownNames])
      rw [String.toList_append]
      exact (lays_capture hident _).append hgroup
  | .backreference ident, h, rest, hrest => by
    rw [text, tokens]
    exact lays_name (h ident (by simp [names, subshapes, ownNames])) hrest

/-- Several shapes are laid out one after the other, each behind a blank, so that no name runs into
the next. -/
theorem lays_args : ∀ ss : List Shape, (∀ name ∈ namesList ss, IsName name) →
    ∀ rest : List Char, Stops isNameRest rest →
      Lays (argsText ss).toList rest (argsTokens ss) (faultsList ss)
  | [], _, rest, _ => .nil rest
  | s :: ss, h, rest, hrest => by
    have htext : (argsText (s :: ss)).toList
        = [' '] ++ (s.text.toList ++ (argsText ss).toList) := by
      simp [argsText]
    rw [namesList_cons] at h
    have hhead := lays_text s (fun name hname => h name (List.mem_append_left _ hname)) _
      (stops_args ss hrest)
    have htail := lays_args ss (fun name hname => h name (List.mem_append_right _ hname)) _ hrest
    rw [htext, argsTokens, faultsList_cons]
    exact (lays_space _).append (hhead.append htail)

end

/-! ## The grammar of the tokens -/

mutual

/-- An expression that says what the text of a shape says. Spans make no difference, and neither
does how a number was written. -/
inductive Reads : Shape → Expr → Prop
  | node (ident : Option String) {ty : Option ValueType} {named : Option Named} (op : Operation)
      {args : List Shape} {es : List Expr} (span : Span)
      (typed : named.map Named.name = ty.map ValueType.name) (arguments : ReadsAll args es) :
      Reads (.node ident ty op args) (.op ident named op.name es span)
  | producer (ident : Option String) {ty : Option ValueType} {named : Option Named} (span : Span)
      (typed : named.map Named.name = ty.map ValueType.name) :
      Reads (.producer ident ty) (.op ident named "LOCAL" [] span)
  | anyConstant (ident : Option String) {ty : Option ValueType} {named : Option Named}
      (span : Span) (typed : named.map Named.name = ty.map ValueType.name) :
      Reads (.constant ident ty none) (.op ident named "CONSTANT" [] span)
  | oneConstant (ident : Option String) {ty : Option ValueType} {named : Option Named}
      (value : Int64) (place span : Span) (typed : named.map Named.name = ty.map ValueType.name) :
      Reads (.constant ident ty (some value))
        (.op ident named "CONSTANT" [.number value place] span)
  /-- A group that is included under its own name needs no capture. -/
  | uncaptured (group : String) (span : Span) :
      Reads (.inclusion group group) (.name none group span)
  | captured (ident group : String) (span : Span) :
      Reads (.inclusion ident group) (.name (some ident) group span)
  | backreference (ident : String) (span : Span) :
      Reads (.backreference ident) (.name none ident span)

/-- The same for several. -/
inductive ReadsAll : List Shape → List Expr → Prop
  | nil : ReadsAll [] []
  | cons {s : Shape} {e : Expr} {ss : List Shape} {es : List Expr} (head : Reads s e)
      (tail : ReadsAll ss es) : ReadsAll (s :: ss) (e :: es)

end

/-- A sequence of tokens that starts with one starts with it at some place. -/
theorem exists_of_map_token {located : List Located} {t : Token} {ts : List Token}
    (h : located.map Located.token = t :: ts) :
    ∃ span rest, located = ⟨t, span⟩ :: rest ∧ rest.map Located.token = ts := by
  obtain ⟨l, rest, rfl, rfl, hrest⟩ := List.map_eq_cons_iff.1 h
  exact ⟨l.span, rest, rfl, hrest⟩

/-- The tokens of a capture are a capture of the grammar, and no tokens are a missing one. -/
theorem capture_of_tokens {located : List Located} {ident : Option String}
    (h : located.map Located.token = captureTokens ident) : Opt Capture located ident := by
  cases ident with
  | none =>
    rw [List.map_eq_nil_iff.1 h]
    exact .absent
  | some i =>
    obtain ⟨s, _, rfl, h₁⟩ := exists_of_map_token h
    obtain ⟨t, _, rfl, h₂⟩ := exists_of_map_token h₁
    obtain ⟨u, _, rfl, h₃⟩ := exists_of_map_token h₂
    obtain rfl := List.map_eq_nil_iff.1 h₃
    exact .present (.mk i s t u)

/-- The tokens of a type and a name are the head of an operation. A name without a type must not
look like one, or it would be read as the type. -/
theorem head_of_tokens {located : List Located} {ty : Option ValueType} {name : String}
    (hname : Parser.looksLikeType name = false)
    (h : located.map Located.token = typeTokens ty ++ [.identifier name]) (after : List Located) :
    ∃ named, Head after located (named, name) ∧ named.map Named.name = ty.map ValueType.name := by
  cases ty with
  | none =>
    obtain ⟨s, _, rfl, h₁⟩ := exists_of_map_token h
    obtain rfl := List.map_eq_nil_iff.1 h₁
    refine ⟨none, .untyped s fun hform => ?_, rfl⟩
    exact absurd (hname.symm.trans hform) Bool.false_ne_true
  | some t =>
    obtain ⟨s, _, rfl, h₁⟩ := exists_of_map_token h
    obtain ⟨u, _, rfl, h₂⟩ := exists_of_map_token h₁
    obtain rfl := List.map_eq_nil_iff.1 h₂
    exact ⟨some ⟨t.name, s⟩, .typed name s u t.looksLikeType_name, rfl⟩

/-- An operation is written if its arguments are. What is asked of the arguments is left open, since
values and constants are written in this way, too. -/
theorem written_of_opTokens {located : List Located} {ident : Option String}
    {ty : Option ValueType} {name : String} {inner : List Token} {P : List Expr → Prop}
    (hname : Parser.looksLikeType name = false)
    (hinner : ∀ as : List Located, as.map Located.token = inner →
      ∃ es, Star Expr.WrittenArgument as es ∧ P es)
    (h : located.map Located.token = opTokens ident ty name inner) :
    ∃ named es span, Expr.Written located (.op ident named name es span) ∧
      named.map Named.name = ty.map ValueType.name ∧ P es := by
  have hsplit : opTokens ident ty name inner = .leftParen :: (captureTokens ident ++
      ((typeTokens ty ++ [.identifier name]) ++ (inner ++ [.rightParen]))) := by
    simp [opTokens]
  rw [hsplit] at h
  -- Parenthesis, capture, head, arguments and parenthesis are taken off one after the other.
  obtain ⟨s, _, rfl, h₁⟩ := exists_of_map_token h
  obtain ⟨cs, _, rfl, hcapture, h₂⟩ := List.map_eq_append_iff.1 h₁
  obtain ⟨hs, _, rfl, hhead, h₃⟩ := List.map_eq_append_iff.1 h₂
  obtain ⟨as, _, rfl, hargs, h₄⟩ := List.map_eq_append_iff.1 h₃
  obtain ⟨t, _, rfl, h₅⟩ := exists_of_map_token h₄
  obtain rfl := List.map_eq_nil_iff.1 h₅
  obtain ⟨es, hes, hP⟩ := hinner as hargs
  obtain ⟨named, hhead, htyped⟩ := head_of_tokens hname hhead as
  exact ⟨named, es, s.join t, .op s t (capture_of_tokens hcapture) hhead hes, htyped, hP⟩

/-- The number of a constant, if its digits fit. It is the number that is read, whether it has a
sign or not. -/
theorem written_of_valueTokens {located : List Located} {v : Int64} (hv : v ≠ Int64.minValue)
    (h : located.map Located.token = valueTokens (some v)) :
    ∃ place, Star Expr.WrittenArgument located [.number v place] := by
  obtain ⟨n, hn, hvalue⟩ : ∃ n, Integer located n ∧ n.1 = v := by
    rw [valueTokens, if_neg hv] at h
    split at h
    · obtain ⟨s, _, rfl, h₁⟩ := exists_of_map_token h
      obtain rfl := List.map_eq_nil_iff.1 h₁
      exact ⟨_, .plain v s, rfl⟩
    · obtain ⟨s, _, rfl, h₁⟩ := exists_of_map_token h
      obtain ⟨t, _, rfl, h₂⟩ := exists_of_map_token h₁
      obtain rfl := List.map_eq_nil_iff.1 h₂
      exact ⟨_, .negated (-v) s t, Int64.neg_neg⟩
  have hstar := Star.cons (Expr.WrittenArgument.number hn) .nil
  rw [List.append_nil, hvalue] at hstar
  exact ⟨n.2, hstar⟩

theorem written_of_noTokens (as : List Located) (h : as.map Located.token = []) :
    ∃ es, Star Expr.WrittenArgument as es ∧ es = [] := by
  rw [List.map_eq_nil_iff.1 h]
  exact ⟨[], .nil, rfl⟩

mutual

/-- **The tokens of a shape are an expression that says what the shape says**, wherever they stand.
The recursion is on the shape, each of whose forms is written in its own way. -/
theorem exists_written : ∀ s : Shape, s.faults = [] → ∀ located : List Located,
    located.map Located.token = s.tokens → ∃ e, Expr.Written located e ∧ s.Reads e
  | .node ident ty op args, hfaults, located, h => by
    rw [faults_node] at hfaults
    rw [tokens] at h
    obtain ⟨named, es, span, hwritten, htyped, hreads⟩ :=
      written_of_opTokens op.looksLikeType_name (exists_writtenAll args hfaults) h
    exact ⟨_, hwritten, .node ident op span htyped hreads⟩
  | .producer ident ty, _, located, h => by
    rw [tokens] at h
    obtain ⟨named, _, span, hwritten, htyped, rfl⟩ :=
      written_of_opTokens (by decide) written_of_noTokens h
    exact ⟨_, hwritten, .producer ident span htyped⟩
  | .constant ident ty none, _, located, h => by
    rw [tokens] at h
    obtain ⟨named, _, span, hwritten, htyped, rfl⟩ :=
      written_of_opTokens (by decide) written_of_noTokens h
    exact ⟨_, hwritten, .anyConstant ident span htyped⟩
  | .constant ident ty (some v), hfaults, located, h => by
    -- The least number has a fault and is excluded.
    have hv : v ≠ Int64.minValue := by
      rintro rfl
      simp [faults, subshapes, ownFaults, valueFaults] at hfaults
    have hinner : ∀ as : List Located, as.map Located.token = valueTokens (some v) →
        ∃ es, Star Expr.WrittenArgument as es ∧ ∃ place, es = [.number v place] := by
      intro as has
      obtain ⟨place, hstar⟩ := written_of_valueTokens hv has
      exact ⟨_, hstar, place, rfl⟩
    rw [tokens] at h
    obtain ⟨named, _, span, hwritten, htyped, place, rfl⟩ :=
      written_of_opTokens (by decide) hinner h
    exact ⟨_, hwritten, .oneConstant ident v place span htyped⟩
  | .inclusion ident group, _, located, h => by
    rw [tokens] at h
    split at h
    · rename_i hident
      subst hident
      obtain ⟨s, _, rfl, h₁⟩ := exists_of_map_token h
      obtain rfl := List.map_eq_nil_iff.1 h₁
      exact ⟨_, .name ident s, .uncaptured ident s⟩
    · obtain ⟨s, _, rfl, h₁⟩ := exists_of_map_token h
      obtain ⟨t, _, rfl, h₂⟩ := exists_of_map_token h₁
      obtain ⟨u, _, rfl, h₃⟩ := exists_of_map_token h₂
      obtain ⟨v, _, rfl, h₄⟩ := exists_of_map_token h₃
      obtain rfl := List.map_eq_nil_iff.1 h₄
      exact ⟨_, .captured ident group s t u v, .captured ident group _⟩
  | .backreference ident, _, located, h => by
    rw [tokens] at h
    obtain ⟨s, _, rfl, h₁⟩ := exists_of_map_token h
    obtain rfl := List.map_eq_nil_iff.1 h₁
    exact ⟨_, .name ident s, .backreference ident s⟩

/-- The tokens of several shapes are as many arguments, each of which says what its shape says. -/
theorem exists_writtenAll : ∀ ss : List Shape, faultsList ss = [] → ∀ located : List Located,
    located.map Located.token = argsTokens ss →
      ∃ es, Star Expr.WrittenArgument located es ∧ ReadsAll ss es
  | [], _, located, h => by
    rw [List.map_eq_nil_iff.1 h]
    exact ⟨[], .nil, .nil⟩
  | s :: ss, hfaults, located, h => by
    rw [faultsList_cons] at hfaults
    obtain ⟨hs, hss⟩ := List.append_eq_nil_iff.1 hfaults
    rw [argsTokens] at h
    obtain ⟨ts, us, rfl, hhead, htail⟩ := List.map_eq_append_iff.1 h
    obtain ⟨e, hwritten, hreads⟩ := exists_written s hs ts hhead
    obtain ⟨es, hstar, hreadsAll⟩ := exists_writtenAll ss hss us htail
    exact ⟨e :: es, .cons (.expr hwritten) hstar, .cons hreads hreadsAll⟩

end

end Shape

end TileSelect
