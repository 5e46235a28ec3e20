import TileSelect.Proofs.Pattern.Scope
import TileSelect.Proofs.Pattern.Text
import TileSelect.Proofs.Pattern.WellFormed
import TileSelect.Proofs.Source.Spans
/-!
A pattern's tree, written down and read again, is the same tree.

Compiling an expression does two things at once: it turns names into types, operations and groups,
and it checks that identifiers are introduced before they are used and only once. The first depends
on what the expression says and the second on the shape alone, so that they can be stated apart: an
expression compiles to a shape if it reads as the shape and the names of the shape resolve
(`shape_eq_ok_iff`). Another expression that reads as the same shape then compiles to it as well,
in the same scope.

The rest is bookkeeping about the text that is put behind a document: the tokens that were there
stay as they are, the groups do, and so do the patterns and their numbers, since the added
alternative belongs to a group that exists.
-/

set_option autoImplicit false

namespace TileSelect

open Grammar

namespace Definition

/-! ## Names that resolve -/

mutual

/-- A shape whose identifiers can be introduced, or are there, where `scope` has been introduced;
and what has been introduced behind it. -/
inductive Resolves (groups : List String) : Scope → Shape → Scope → Prop
  | node {scope scope' : Scope} (ident : Option String) (ty : Option ValueType) {op : Operation}
      {args : List Shape} (plain : op.name ≠ "CONSTANT") (arity : op.arity = some args.length)
      (arguments : ResolvesAll groups scope args scope') (fresh : Fresh scope' ident.toList) :
      Resolves groups scope (.node ident ty op args) (scope' ++ ident.toList)
  | producer {scope : Scope} (ident : Option String) (ty : Option ValueType)
      (fresh : Fresh scope ident.toList) :
      Resolves groups scope (.producer ident ty) (scope ++ ident.toList)
  | constant {scope : Scope} (ident : Option String) (ty : Option ValueType)
      (value : Option Int64) (fresh : Fresh scope ident.toList) :
      Resolves groups scope (.constant ident ty value) (scope ++ ident.toList)
  | inclusion {scope : Scope} {ident group : String} (known : group ∈ groups)
      (fresh : Fresh scope [ident]) :
      Resolves groups scope (.inclusion ident group) (scope ++ [ident])
  | backreference {scope : Scope} {ident : String} (other : ident ∉ groups)
      (known : ident ∈ scope) : Resolves groups scope (.backreference ident) scope

/-- Shapes from left to right. -/
inductive ResolvesAll (groups : List String) : Scope → List Shape → Scope → Prop
  | nil (scope : Scope) : ResolvesAll groups scope [] scope
  | cons {scope scope₁ scope₂ : Scope} {s : Shape} {ss : List Shape}
      (head : Resolves groups scope s scope₁) (tail : ResolvesAll groups scope₁ ss scope₂) :
      ResolvesAll groups scope (s :: ss) scope₂

end

variable {groups : List String}

/-! ## What an expression compiles to -/

/-- A type resolves if it is written as the name of the type, and no type at all resolves to none.
No two types have one name. -/
theorem resolveType_eq_ok {named : Option Named} {ty : Option ValueType} :
    resolveType named = .ok ty ↔ named.map Named.name = ty.map ValueType.name := by
  -- The lookup of a name finds the type of that name, in both directions.
  cases named with
  | none => cases ty <;> simp [resolveType]
  | some named =>
    rw [resolveType]
    constructor
    · intro h
      split at h
      · rename_i width hwidth
        cases h
        have hname := List.find?_some hwidth
        exact congrArg some (beq_iff_eq.1 hname).symm
      · cases h
    · intro h
      cases ty with
      | none => cases h
      | some width =>
        rw [Option.some.inj h, ValueType.ofName?_name]

/-- An operation resolves by its name, if it takes as many operands as it has been given. No two
operations have one name. -/
theorem operation_eq_ok_iff {name : String} {found : Nat} {span : Span} {op : Operation} :
    operation name found span = .ok op ↔ op.name = name ∧ op.arity = some found := by
  unfold operation
  constructor
  · intro h
    split at h
    · cases h
    · rename_i op' hop
      split at h
      · cases h
      · rename_i expected harity
        split at h
        · rename_i hfound
          cases h
          subst hfound
          have hname := List.find?_some hop
          exact ⟨beq_iff_eq.1 hname, harity⟩
        · cases h
  · rintro ⟨rfl, harity⟩
    simp [Operation.ofName?_name, harity]

/-- A bare name reads as an inclusion or as a reference back. Which of the two it is depends on
whether a group has the name, and this is why the names of the groups matter. -/
theorem bareName_eq_ok_iff {capture : Option String} {name : String} {span : Span}
    {scope scope' : Scope} {s : Shape} :
    bareName groups capture name span scope = .ok (s, scope') ↔
      s.Reads (.name capture name span) ∧ Resolves groups scope s scope' := by
  unfold bareName
  by_cases hgroup : name ∈ groups
  · rw [if_pos (List.contains_iff_mem.2 hgroup)]
    constructor
    · intro h
      obtain ⟨scope₁, hscope, h⟩ := bind_eq_ok.1 h
      obtain ⟨hfresh, rfl⟩ := introduce_eq_ok.1 hscope
      cases h
      refine ⟨?_, .inclusion hgroup hfresh⟩
      cases capture with
      | none => exact .uncaptured name span
      | some ident => exact .captured ident name span
    · rintro ⟨hreads, hresolves⟩
      -- A name of a group is no reference back, although it would read as one.
      have hident : s = .inclusion (capture.getD name) name := by
        cases hreads with
        | uncaptured => rfl
        | captured => rfl
        | backreference =>
          cases hresolves with
          | backreference hother => contradiction
      subst hident
      cases hresolves with
      | inclusion _ hfresh => exact bind_eq_ok.2 ⟨_, introduce_eq_ok.2 ⟨hfresh, rfl⟩, rfl⟩
  · rw [if_neg (mt List.contains_iff_mem.1 hgroup)]
    constructor
    · intro h
      -- No group has the name, so only a reference back is left, which has no capture.
      split at h
      · cases h
      · split at h
        · rename_i hknown
          cases h
          exact ⟨.backreference name span, .backreference hgroup (List.contains_iff_mem.1 hknown)⟩
        · cases h
    · rintro ⟨hreads, hresolves⟩
      cases hreads with
      | uncaptured =>
        cases hresolves with
        | inclusion hknown => contradiction
      | captured =>
        cases hresolves with
        | inclusion hknown => contradiction
      | backreference =>
        cases hresolves with
        | backreference _ hknown => simp [hknown]

/-- The name that stands for any value is not the name of an operation. -/
theorem name_ne_producer (op : Operation) : op.name ≠ "LOCAL" := by
  cases op <;> decide

theorem length_of_readsAll : ∀ {ss : List Shape} {es : List Expr}, Shape.ReadsAll ss es →
    ss.length = es.length
  | _, _, .nil => rfl
  | _, _, .cons _ tail => congrArg (· + 1) (length_of_readsAll tail)

/-- The arguments of a constant ask for what the shape does: none for any number, and a number for
that one. -/
theorem constantValue_eq_ok_iff {capture : Option String} {named : Option Named}
    {ty : Option ValueType} {args : List Expr} {span : Span} {value : Option Int64}
    (htyped : named.map Named.name = ty.map ValueType.name) :
    constantValue args span = .ok value ↔
      (Shape.constant capture ty value).Reads (.op capture named "CONSTANT" args span) := by
  constructor
  · intro h
    unfold constantValue at h
    split at h
    · cases h
      exact .anyConstant capture span htyped
    · rename_i v place
      cases h
      exact .oneConstant capture v place span htyped
    · cases h
  · intro h
    cases h with
    | anyConstant => rfl
    | oneConstant => rfl

mutual

/-- **An expression compiles to what it reads as, if the names resolve.** This separates what an
expression says from where it stands: the first does not depend on the scope, and the second not on
the spelling. -/
theorem shape_eq_ok_iff : ∀ (e : Expr) (scope scope' : Scope) (s : Shape),
    shape groups e scope = .ok (s, scope') ↔ s.Reads e ∧ Resolves groups scope s scope'
  | .number value span, scope, scope', s => by
    refine iff_of_false (by simp [shape]) fun ⟨hreads, _⟩ => ?_
    cases hreads
  | .name capture name span, scope, scope', s => by
    rw [shape]
    exact bareName_eq_ok_iff
  | .op capture named name args span, scope, scope', s => by
    rw [shape]
    -- The names of values and of constants are looked at before those of operations.
    by_cases hproducer : name = SpecialShape.producer.name
    · simp only [if_pos hproducer]
      constructor
      · intro h
        obtain ⟨ty, hty, h⟩ := bind_eq_ok.1 h
        split at h
        · rename_i hargs
          obtain ⟨scope₁, hscope, h⟩ := bind_eq_ok.1 h
          obtain ⟨hfresh, rfl⟩ := introduceCapture_eq_ok.1 hscope
          cases h
          rw [hproducer, List.isEmpty_iff.1 hargs]
          exact ⟨.producer capture span (resolveType_eq_ok.1 hty), .producer capture ty hfresh⟩
        · cases h
      · rintro ⟨hreads, hresolves⟩
        cases hreads with
        | node _ op => exact absurd hproducer (name_ne_producer op)
        | producer _ _ htyped =>
          cases hresolves with
          | producer _ _ hfresh =>
            simp only [resolveType_eq_ok.2 htyped, ok_bind, List.isEmpty_nil, if_true]
            exact bind_eq_ok.2 ⟨_, introduceCapture_eq_ok.2 ⟨hfresh, rfl⟩, rfl⟩
        | anyConstant => exact absurd hproducer (by decide)
        | oneConstant => exact absurd hproducer (by decide)
    simp only [if_neg hproducer]
    by_cases hconstant : name = SpecialShape.constant.name
    · simp only [if_pos hconstant]
      constructor
      · intro h
        obtain ⟨ty, hty, h⟩ := bind_eq_ok.1 h
        obtain ⟨value, hvalue, h⟩ := bind_eq_ok.1 h
        obtain ⟨scope₁, hscope, h⟩ := bind_eq_ok.1 h
        obtain ⟨hfresh, rfl⟩ := introduceCapture_eq_ok.1 hscope
        cases h
        rw [hconstant]
        exact ⟨(constantValue_eq_ok_iff (resolveType_eq_ok.1 hty)).1 hvalue,
          .constant capture ty value hfresh⟩
      · rintro ⟨hreads, hresolves⟩
        -- The operation of that name resolves nowhere, so only constants read like this.
        obtain ⟨ty, value, rfl, htyped⟩ : ∃ ty value, s = .constant capture ty value ∧
            named.map Named.name = ty.map ValueType.name := by
          cases hreads with
          | node _ op =>
            cases hresolves with
            | node _ _ hplain => exact absurd hconstant hplain
          | producer => exact absurd hconstant (by decide)
          | anyConstant _ _ htyped => exact ⟨_, _, rfl, htyped⟩
          | oneConstant _ _ _ _ htyped => exact ⟨_, _, rfl, htyped⟩
        rw [hconstant] at hreads
        cases hresolves with
        | constant _ _ _ hfresh =>
          simp only [resolveType_eq_ok.2 htyped, (constantValue_eq_ok_iff htyped).2 hreads, ok_bind]
          exact bind_eq_ok.2 ⟨_, introduceCapture_eq_ok.2 ⟨hfresh, rfl⟩, rfl⟩
    · simp only [if_neg hconstant]
      constructor
      · intro h
        obtain ⟨ty, hty, h⟩ := bind_eq_ok.1 h
        obtain ⟨op, hop, h⟩ := bind_eq_ok.1 h
        obtain ⟨⟨ss, scope₁⟩, hargs, h⟩ := bind_eq_ok.1 h
        obtain ⟨scope₂, hscope, h⟩ := bind_eq_ok.1 h
        obtain ⟨rfl, harity⟩ := operation_eq_ok_iff.1 hop
        obtain ⟨hreads, hresolves⟩ := (shapes_eq_ok_iff args scope scope₁ ss).1 hargs
        obtain ⟨hfresh, rfl⟩ := introduceCapture_eq_ok.1 hscope
        cases h
        rw [← length_of_readsAll hreads] at harity
        exact ⟨.node capture op span (resolveType_eq_ok.1 hty) hreads,
          .node capture ty hconstant harity hresolves hfresh⟩
      · rintro ⟨hreads, hresolves⟩
        cases hreads with
        | node _ op _ htyped hargs =>
          cases hresolves with
          | node _ _ _ harity hresolves hfresh =>
            rw [length_of_readsAll hargs] at harity
            have hop : operation op.name args.length span = .ok op :=
              operation_eq_ok_iff.2 ⟨rfl, harity⟩
            simp only [resolveType_eq_ok.2 htyped, hop,
              (shapes_eq_ok_iff args _ _ _).2 ⟨hargs, hresolves⟩, ok_bind]
            exact bind_eq_ok.2 ⟨_, introduceCapture_eq_ok.2 ⟨hfresh, rfl⟩, rfl⟩
        | producer => exact absurd rfl hproducer
        | anyConstant => exact absurd rfl hconstant
        | oneConstant => exact absurd rfl hconstant

/-- Several expressions compile to what they read as, each in the scope that the ones before it
leave. The two statements are proved together, along the expression. -/
theorem shapes_eq_ok_iff : ∀ (es : List Expr) (scope scope' : Scope) (ss : List Shape),
    shapes groups es scope = .ok (ss, scope') ↔
      Shape.ReadsAll ss es ∧ ResolvesAll groups scope ss scope'
  | [], scope, scope', ss => by
    rw [shapes]
    constructor
    · intro h
      cases h
      exact ⟨.nil, .nil scope⟩
    · rintro ⟨hreads, hresolves⟩
      cases hreads
      cases hresolves
      rfl
  | e :: es, scope, scope', ss => by
    rw [shapes]
    constructor
    · intro h
      obtain ⟨⟨s, scope₁⟩, hs, h⟩ := bind_eq_ok.1 h
      obtain ⟨⟨ss', scope₂⟩, hss, h⟩ := bind_eq_ok.1 h
      cases h
      obtain ⟨hreads, hresolves⟩ := (shape_eq_ok_iff e _ _ _).1 hs
      obtain ⟨hreadsAll, hresolvesAll⟩ := (shapes_eq_ok_iff es _ _ _).1 hss
      exact ⟨.cons hreads hreadsAll, .cons hresolves hresolvesAll⟩
    · rintro ⟨hreads, hresolves⟩
      cases hreads with
      | cons hreads hreadsAll =>
        cases hresolves with
        | cons hresolves hresolvesAll =>
          simp only [(shape_eq_ok_iff e _ _ _).2 ⟨hreads, hresolves⟩,
            (shapes_eq_ok_iff es _ _ _).2 ⟨hreadsAll, hresolvesAll⟩, ok_bind]
          rfl

end

/-! ## Which groups there are -/

/-- Only the names of the groups matter, not their order or number. -/
theorem bareName_congr {groups' : List String} (h : ∀ name, name ∈ groups ↔ name ∈ groups')
    (capture : Option String) (name : String) (span : Span) (scope : Scope) :
    bareName groups capture name span scope = bareName groups' capture name span scope := by
  have hcontains : groups.contains name = groups'.contains name := by
    rw [Bool.eq_iff_iff, List.contains_iff_mem, List.contains_iff_mem, h]
  unfold bareName
  rw [hcontains]

mutual

/-- An expression compiles to the same shape, in whatever order the groups are listed. Only whether
a name is among them is ever asked. -/
theorem shape_congr {groups' : List String} (h : ∀ name, name ∈ groups ↔ name ∈ groups') :
    ∀ (e : Expr) (scope : Scope), shape groups e scope = shape groups' e scope
  | .number value span, scope => by rw [shape, shape]
  | .name capture name span, scope => by
    rw [shape, shape]
    exact bareName_congr h capture name span scope
  | .op capture ty name args span, scope => by
    rw [shape, shape]
    simp only [shapes_congr h args]

theorem shapes_congr {groups' : List String} (h : ∀ name, name ∈ groups ↔ name ∈ groups') :
    ∀ (es : List Expr) (scope : Scope), shapes groups es scope = shapes groups' es scope
  | [], scope => by rw [shapes, shapes]
  | e :: es, scope => by
    rw [shapes, shapes]
    simp only [shape_congr h e, shapes_congr h es]

end

theorem pattern_congr {groups' : List String} (h : ∀ name, name ∈ groups ↔ name ∈ groups') :
    pattern groups = pattern groups' := by
  funext alternative
  simp only [pattern, conversion, shape_congr h]

/-- A further alternative is numbered behind the others, and these keep the numbers they had. -/
theorem exists_number_append (seen : List String) (l : List (String × Conversion)) (group : String)
    (c : Conversion) :
    ∃ n, number seen (l ++ [(group, c)]) = number seen l ++ [(⟨group, n⟩, c)] := by
  induction l generalizing seen with
  | nil => exact ⟨_, rfl⟩
  | cons first l ih =>
    obtain ⟨name, c'⟩ := first
    obtain ⟨n, hn⟩ := ih (name :: seen)
    refine ⟨n, ?_⟩
    rw [List.cons_append, number, hn, number, List.cons_append]

/-- An expression that reads as a shape compiles to it wherever the names resolve. -/
theorem conversion_of_reads {c : Conversion} {s : Shape} {scope : Scope} {span : Span}
    (hreads : s.Reads c.expr) (hresolves : Resolves groups [] s scope)
    (htemplate : c.template = [.instruction "NOP" none [] span]) :
    conversion groups c = .ok (s, [.instruction "NOP" none []]) := by
  rw [conversion, (shape_eq_ok_iff _ _ _ _).2 ⟨hreads, hresolves⟩, htemplate]
  rfl

end Definition

/-! ## Names come from identifiers -/

/-- Some token is the identifier. -/
def Mentions (ts : List Located) (name : String) : Prop :=
  ∃ t ∈ ts, t.token = .identifier name

theorem Mentions.mono {ts us : List Located} {name : String} (h : Mentions ts name)
    (hts : ts ⊆ us) : Mentions us name := by
  obtain ⟨t, ht, hname⟩ := h
  exact ⟨t, hts ht, hname⟩

namespace Shape

/-- A capture mentions its name, and a missing one has none to mention. -/
theorem mentions_capture {cs : List Located} {capture : Option String}
    (h : Opt Capture cs capture) : ∀ name ∈ capture.toList, Mentions cs name := by
  intro name hname
  cases h with
  | absent => cases hname
  | present hbody =>
    cases hbody with
    | mk _ s t u =>
      obtain rfl := List.mem_singleton.1 hname
      exact ⟨⟨.identifier name, t⟩, by simp, rfl⟩

/-- An operation mentions its capture, and whatever its arguments mention. What that is is left
open, as values and constants are written like operations. -/
theorem mentions_op {ts : List Located} {capture : Option String} {named : Option Named}
    {op : String} {args : List Expr} {span : Span} (inner : List String)
    (h : Expr.WrittenArgument ts (.op capture named op args span))
    (hinner : ∀ as, Star Expr.WrittenArgument as args → ∀ name ∈ inner, Mentions as name) :
    ∀ name ∈ capture.toList ++ inner, Mentions ts name := by
  cases h with
  | expr hwritten =>
    cases hwritten with
    | @op cs hs as _ _ _ s t hcapture _ hargs =>
      intro name hname
      rcases List.mem_append.1 hname with hname | hname
      · exact (mentions_capture hcapture name hname).mono fun t ht => by simp [ht]
      · exact (hinner as hargs name hname).mono fun t ht => by simp [ht]

/-- A bare name mentions itself and its capture, each as an identifier among its tokens. -/
theorem mentions_bareName {ts : List Located} {capture : Option String} {bare : String}
    {span : Span} (h : Expr.WrittenArgument ts (.name capture bare span)) :
    ∀ name ∈ capture.toList ++ [bare], Mentions ts name := by
  cases h with
  | expr hwritten =>
    cases hwritten with
    | name _ s =>
      intro name hname
      obtain rfl := List.mem_singleton.1 hname
      exact ⟨⟨.identifier name, span⟩, by simp, rfl⟩
    | captured ident _ s t u v =>
      intro name hname
      rcases List.mem_cons.1 hname with rfl | hname
      · exact ⟨⟨.identifier name, t⟩, by simp, rfl⟩
      · obtain rfl := List.mem_singleton.1 hname
        exact ⟨⟨.identifier name, v⟩, by simp, rfl⟩

mutual

/-- The names of a shape are identifiers of the expression that it was read from. So they have the
form that the lexer gives identifiers. -/
theorem mentions_of_reads : ∀ (s : Shape) (e : Expr) (ts : List Located), s.Reads e →
    Expr.WrittenArgument ts e → ∀ name ∈ s.names, Mentions ts name
  | .node ident ty op args, _, ts, .node _ _ _ _ hargs, h => by
    rw [names_node]
    exact mentions_op _ h fun as hstar => mentions_of_readsAll args _ as hargs hstar
  | .producer ident ty, _, ts, .producer _ _ _, h => mentions_op [] h (by simp)
  | .constant ident ty _, _, ts, .anyConstant _ _ _, h => mentions_op [] h (by simp)
  | .constant ident ty _, _, ts, .oneConstant _ _ _ _ _, h => mentions_op [] h (by simp)
  | .inclusion ident group, _, ts, .captured _ _ _, h => mentions_bareName h
  | .inclusion _ group, _, ts, .uncaptured _ _, h => by
    intro name hname
    have hname : name = group := by simpa [names, subshapes, ownNames] using hname
    exact mentions_bareName h name (by simp [hname])
  | .backreference ident, _, ts, .backreference _ _, h => mentions_bareName h

/-- The names of several shapes are identifiers of their expressions, each of which has tokens of
its own. -/
theorem mentions_of_readsAll : ∀ (ss : List Shape) (es : List Expr) (ts : List Located),
    ReadsAll ss es → Star Expr.WrittenArgument ts es → ∀ name ∈ namesList ss, Mentions ts name
  | [], _, ts, _, _ => by simp [namesList, subshapesList]
  | s :: ss, _, _, .cons hreads hreadsAll, .cons hhead htail => by
    rw [namesList_cons]
    intro name hname
    rcases List.mem_append.1 hname with hname | hname
    · exact (mentions_of_reads s _ _ hreads hhead name hname).mono (by simp)
    · exact (mentions_of_readsAll ss _ _ hreadsAll htail name hname).mono (by simp)

end

/-! ## A further alternative -/

/-- A line that adds an alternative to a group, with a shape as its expression. -/
def alternativeText (group : String) (s : Shape) : String :=
  "\n" ++ group ++ ": " ++ s.text ++ " -> [NOP];"

/-- The tokens of that line. -/
def alternativeTokens (group : String) (s : Shape) : List Token :=
  .identifier group :: .colon ::
    (s.tokens ++ [.arrow, .leftBracket, .identifier "NOP", .rightBracket, .semicolon])

/-- The template of the added line is laid out as its five tokens. Which template it is does not
matter, as long as it compiles. -/
theorem lays_template : Lays " -> [NOP];".toList []
    [.arrow, .leftBracket, .identifier "NOP", .rightBracket, .semicolon] [] := by
  have hname : Lays "NOP".toList [']', ';'] [.identifier "NOP"] [] :=
    lays_name (isName_of_all rfl (by decide) (by decide)) (stops_cons.2 (by decide))
  have hclose := (lays_mark .rightBracket _ (by decide) trivial).append
    (lays_mark .semicolon [] (by decide) trivial)
  have hitem := (lays_mark .leftBracket _ (by decide) trivial).append (hname.append hclose)
  exact (lays_space _).append
    ((lays_mark .arrow _ (by decide) trivial).append ((lays_space _).append hitem))

/-- The added line is laid out as its tokens, and its faults are those of the shape: what is in
front of the shape and behind it has none. -/
theorem lays_alternative {group : String} {s : Shape} (hgroup : IsName group)
    (hnames : ∀ name ∈ s.names, IsName name) :
    Lays (alternativeText group s).toList [] (alternativeTokens group s) s.faults := by
  have htext : (alternativeText group s).toList = ['\n'] ++ (group.toList ++ ([':'] ++ ([' '] ++
      (s.text.toList ++ " -> [NOP];".toList)))) := by
    simp [alternativeText]
  have hshape := (lays_text s hnames _ (stops_cons.2 (by decide))).append lays_template
  have hcolon := (lays_mark .colon _ (by decide) trivial).append ((lays_space _).append hshape)
  have hhead := (lays_name hgroup (stops_cons.2 (by decide))).append hcolon
  rw [htext]
  have hall := (Lays.blanks ['\n'] (by simp [isBlank]) _).append hhead
  rwa [List.append_nil] at hall

/-- The line is a group with one alternative, whose expression says what the shape says and whose
template is the one instruction. -/
theorem exists_written_alternative {group : String} {s : Shape} (hfaults : s.faults = [])
    {located : List Located} (h : located.map Located.token = alternativeTokens group s) :
    ∃ g c, Group.Written located g ∧ g.name = group ∧ g.conversions = [c] ∧ s.Reads c.expr ∧
      ∃ span, c.template = [.instruction "NOP" none [] span] := by
  -- The tokens are taken off one by one; those of the expression are in the middle.
  obtain ⟨n, _, rfl, h₁⟩ := exists_of_map_token h
  obtain ⟨k, _, rfl, h₂⟩ := exists_of_map_token h₁
  obtain ⟨es, _, rfl, hes, h₃⟩ := List.map_eq_append_iff.1 h₂
  obtain ⟨a, _, rfl, h₄⟩ := exists_of_map_token h₃
  obtain ⟨l, _, rfl, h₅⟩ := exists_of_map_token h₄
  obtain ⟨m, _, rfl, h₆⟩ := exists_of_map_token h₅
  obtain ⟨r, _, rfl, h₇⟩ := exists_of_map_token h₆
  obtain ⟨u, _, rfl, h₈⟩ := exists_of_map_token h₇
  obtain rfl := List.map_eq_nil_iff.1 h₈
  obtain ⟨e, he, hreads⟩ := exists_written s hfaults es hes
  have hitem := Item.Written.instruction l m r (by decide : Parser.isMnemonic "NOP" = true)
    .absent .absent
  have hconversion := Conversion.Written.mk a he (.cons hitem .nil)
  have hgroup := Group.Written.mk group n k u (.mk hconversion .nil)
  simp only [List.append_assoc, List.cons_append, List.nil_append] at hgroup
  exact ⟨_, _, hgroup, rfl, rfl, hreads, _, rfl⟩

/-- A shape is read without faults unless one of its constants is the least number, which is the
only one whose digits do not fit without the sign. -/
theorem faults_eq_nil_iff {s : Shape} :
    s.faults = [] ↔ ∀ ident ty, .constant ident ty (some Int64.minValue) ∉ s.subshapes := by
  rw [faults, List.flatMap_eq_nil_iff]
  constructor
  · intro h ident ty hmem
    simpa [ownFaults, valueFaults] using h _ hmem
  · intro h t ht
    cases t with
    | constant ident ty value =>
      cases value with
      | none => rfl
      | some v =>
        refine if_neg ?_
        rintro rfl
        exact h ident ty ht
    | _ => rfl

/-- The digits of the least number, without its sign, are no number in range. -/
theorem fault_of_least {s : Shape} {ident : Option String} {ty : Option ValueType}
    (h : .constant ident ty (some Int64.minValue) ∈ s.subshapes) :
    .invalidNumber "9223372036854775808" ∈ s.faults :=
  List.mem_flatMap.2 ⟨_, h, by simp [ownFaults, valueFaults]⟩

end Shape

/-- What is written one after the other is written together. -/
theorem star_append {α : Type} {r : List Located → α → Prop} {ts us : List Located}
    {as bs : List α} (h : Star r ts as) (h' : Star r us bs) : Star r (ts ++ us) (as ++ bs) := by
  induction h with
  | nil => exact h'
  | cons head _ ih =>
    rw [List.append_assoc]
    exact .cons head ih

namespace Document

variable {d : Document} {ps : List Pattern}

/-- **An alternative that is added to a group that exists adds its pattern**, and nothing else
changes: the groups have the names they had, so that all other expressions compile as before. -/
theorem patterns_append (h : d.patterns = .ok ps) {g : Group} {c : Conversion}
    (hg : g.conversions = [c]) (hname : g.name ∈ d.groups.map Group.name) {root : Shape}
    {template : List Part}
    (hc : Definition.conversion (d.groups.map Group.name) c = .ok (root, template)) :
    ∃ n, Document.patterns ⟨d.groups ++ [g]⟩ = .ok (ps ++ [⟨⟨g.name, n⟩, root, template⟩]) := by
  have hgroups : ∀ name, name ∈ (d.groups ++ [g]).map Group.name ↔
      name ∈ d.groups.map Group.name := by
    intro name
    simp only [List.map_append, List.mem_append, List.map_cons, List.map_nil, List.mem_singleton]
    refine or_iff_left_of_imp ?_
    rintro rfl
    exact hname
  -- The new alternative is the last one of the document.
  have halternatives :
      Document.alternatives ⟨d.groups ++ [g]⟩ = d.alternatives ++ [(g.name, c)] := by
    simp [Document.alternatives, hg]
  obtain ⟨n, hn⟩ := Definition.exists_number_append [] d.alternatives g.name c
  have hlast : [(⟨g.name, n⟩, c)].mapM (Definition.pattern (d.groups.map Group.name))
      = .ok [⟨⟨g.name, n⟩, root, template⟩] := by
    simp only [List.mapM_cons, List.mapM_nil, Definition.pattern, hc]
    rfl
  refine ⟨n, ?_⟩
  rw [Document.patterns] at h
  rw [Document.patterns, halternatives, hn, Definition.pattern_congr hgroups, List.mapM_append, h,
    hlast]
  rfl

/-- A pattern's tree was read from an expression, and its names resolved, starting where nothing is
in scope. -/
theorem exists_reads_of_mem {p : Pattern} (h : d.patterns = .ok ps) (hp : p ∈ ps) :
    ∃ g ∈ d.groups, ∃ c ∈ g.conversions, ∃ scope, p.root.Reads c.expr ∧
      Definition.Resolves (d.groups.map Group.name) [] p.root scope := by
  obtain ⟨g, hg, c, hc, hconversion⟩ := exists_conversion_of_mem h hp
  obtain ⟨⟨root, scope⟩, hshape, hrest⟩ := bind_eq_ok.1 hconversion
  obtain ⟨template, -, hrest⟩ := bind_eq_ok.1 hrest
  cases hrest
  exact ⟨g, hg, c, hc, scope, (Definition.shape_eq_ok_iff _ _ _ _).1 hshape⟩

/-- The names of the groups and of the patterns are identifiers of the source, and have the form of
names therefore. -/
theorem isName_of_parse {source : List Char} (h : Document.parse source = .ok d) :
    (∀ g ∈ d.groups, IsName g.name) ∧
      (d.patterns = .ok ps → ∀ p ∈ ps, ∀ name ∈ p.root.names, IsName name) := by
  obtain ⟨-, hwritten⟩ := Document.parse_eq_ok_iff.1 h
  -- A name that a token mentions has the form of a name, as the lexer has cut it out.
  have hname {name : String} (hmentions : Mentions (tokenize source).1 name) : IsName name := by
    obtain ⟨t, ht, hname⟩ := hmentions
    exact isName_of_mem_tokens ht hname
  constructor
  · intro g hg
    obtain ⟨before, ts, after, hsplit, hgroup⟩ := (Has.group hg).written hwritten
    refine hname ?_
    rw [hsplit]
    cases hgroup with
    | mk name s t u => exact ⟨⟨.identifier name, s⟩, by simp, rfl⟩
  · intro hpatterns p hp name hmem
    obtain ⟨g, hg, c, hc, scope, hreads, -⟩ := exists_reads_of_mem hpatterns hp
    have hexpr : d.Has (.expr c.expr) :=
      .child (.child (.group hg) (List.mem_map_of_mem hc)) List.mem_cons_self
    obtain ⟨before, ts, after, hsplit, hargument⟩ := hexpr.written hwritten
    refine hname ((Shape.mentions_of_reads _ _ ts hreads hargument name hmem).mono ?_)
    rw [hsplit]
    intro t ht
    simp [ht]

/-- **The tree of a pattern is read back from its text.** The text is put behind the document as
the expression of a further alternative of one of its groups. If no constant of the tree is the
least number, then the document is read and compiles, and what it has got more is a pattern with
the same tree. If one is, the text is refused, because the number without its sign does not
fit. -/
theorem root_readBack {source : List Char} {p : Pattern} {group : String}
    (hparse : Document.parse source = .ok d) (hpatterns : d.patterns = .ok ps) (hp : p ∈ ps)
    (hgroup : group ∈ d.groups.map Group.name) :
    ((∀ ident ty, .constant ident ty (some Int64.minValue) ∉ p.root.subshapes) →
        ∃ d' q, Document.parse (source ++ (p.root.alternativeText group).toList) = .ok d' ∧
          d'.patterns = .ok (ps ++ [q]) ∧ q.root = p.root ∧ q.id.group = group ∧
          q.template = [.instruction "NOP" none []]) ∧
      ((∃ ident ty, .constant ident ty (some Int64.minValue) ∈ p.root.subshapes) →
        ∃ errors, Document.parse (source ++ (p.root.alternativeText group).toList) = .error errors ∧
          ∃ e ∈ errors, e.fault = .invalidNumber "9223372036854775808") := by
  obtain ⟨hlexical, hwritten⟩ := Document.parse_eq_ok_iff.1 hparse
  obtain ⟨hgroups, hnames⟩ := isName_of_parse hparse
  obtain ⟨g, hg, rfl⟩ := List.mem_map.1 hgroup
  have hlays := Shape.lays_alternative (hgroups g hg) (hnames hpatterns p hp)
  obtain ⟨located, errors, htokenize, htokens, hfaults⟩ := hlays.tokenize_append source
    (.inr (by simp [Shape.alternativeText]))
  constructor
  · intro hleast
    have hnone := Shape.faults_eq_nil_iff.2 hleast
    obtain ⟨g', c', hwritten', hname', hconversions, hreads', span, htemplate⟩ :=
      Shape.exists_written_alternative hnone htokens
    -- The names resolved where the pattern was defined, and the groups are the same here.
    obtain ⟨-, -, -, -, scope, -, hresolves⟩ := exists_reads_of_mem hpatterns hp
    have hconversion := Definition.conversion_of_reads hreads' hresolves htemplate
    rw [← hname'] at hgroup
    obtain ⟨n, hadded⟩ := patterns_append hpatterns hconversions hgroup hconversion
    refine ⟨_, _, Document.parse_eq_ok_iff.2 ⟨?_, ?_⟩, hadded, rfl, hname', rfl⟩
    · rw [htokenize, hlexical, List.map_eq_nil_iff.1 (hfaults.trans hnone)]
      rfl
    · rw [htokenize]
      have hstar := Star.cons hwritten' .nil
      rw [List.append_nil] at hstar
      exact star_append hwritten hstar
  · rintro ⟨ident, ty, hleast⟩
    have hfault := Shape.fault_of_least hleast
    rw [← hfaults] at hfault
    obtain ⟨e, he, hfault⟩ := List.mem_map.1 hfault
    have hmem : e ∈ (tokenize (source ++ (p.root.alternativeText g.name).toList)).2 := by
      rw [htokenize]
      exact List.mem_append_right _ he
    obtain ⟨errors, herrors, he⟩ := Document.parse_of_mem_errors hmem
    exact ⟨errors, herrors, e, he, hfault⟩

/-- A tree with a capture, an inclusion and a negative number, and one with the least number. The
first is read back from its text; the second is refused, at its digits. -/
theorem root_readBack_samples :
    let source := "a: (<x> I32 ADD <k> b (CONSTANT -3)) -> [RET];
      b: (CONSTANT 0x8000000000000000) -> [1];".toList
    ∃ d ps, Document.parse source = .ok d ∧ d.patterns = .ok ps ∧
      (∃ p ∈ ps, p.root.text = "(<x> I32 ADD <k> b (CONSTANT -3))" ∧
        ∃ d' q, Document.parse (source ++ (p.root.alternativeText "b").toList) = .ok d' ∧
          d'.patterns = .ok (ps ++ [q]) ∧ q.root = p.root ∧ q.id.group = "b" ∧
          q.template = [.instruction "NOP" none []]) ∧
      ∃ p ∈ ps, p.root.text = "(CONSTANT -9223372036854775808)" ∧
        ∃ errors, Document.parse (source ++ (p.root.alternativeText "b").toList) = .error errors ∧
          ∃ e ∈ errors, e.fault = .invalidNumber "9223372036854775808" := by
  intro source
  have hread : ((Document.parse source).toOption.bind fun d => d.patterns.toOption.map fun ps =>
      (d.groups.map Group.name, ps.map fun p => (p.root.text, p.root.faults)))
        = some (["a", "b"], [("(<x> I32 ADD <k> b (CONSTANT -3))", []),
          ("(CONSTANT -9223372036854775808)", [.invalidNumber "9223372036854775808"])]) := by
    decide +kernel
  cases hd : Document.parse source with
  | error errors =>
    rw [hd] at hread
    cases hread
  | ok d =>
    cases hps : d.patterns with
    | error e =>
      simp [hd, hps, Except.toOption] at hread
    | ok ps =>
      simp only [hd, hps, Except.toOption, Option.bind_some, Option.map_some, Option.some.injEq]
        at hread
      obtain ⟨hgroups, hmap⟩ := Prod.mk.inj hread
      have hgroup : "b" ∈ d.groups.map Group.name := by simp [hgroups]
      obtain ⟨p, _, rfl, hp, htail⟩ := List.map_eq_cons_iff.1 hmap
      obtain ⟨q, _, rfl, hq, -⟩ := List.map_eq_cons_iff.1 htail
      obtain ⟨hptext, hpfaults⟩ := Prod.mk.inj hp
      obtain ⟨hqtext, hqfaults⟩ := Prod.mk.inj hq
      have hleast : ∃ ident ty, .constant ident ty (some Int64.minValue) ∈ q.root.subshapes := by
        by_contra hnone
        rw [Shape.faults_eq_nil_iff.2 fun ident ty h => hnone ⟨ident, ty, h⟩] at hqfaults
        cases hqfaults
      exact ⟨d, _, rfl, hps,
        ⟨p, by simp, hptext,
          (root_readBack hd hps (by simp) hgroup).1 (Shape.faults_eq_nil_iff.1 hpfaults)⟩,
        ⟨q, by simp, hqtext, (root_readBack hd hps (by simp) hgroup).2 hleast⟩⟩

end Document

end TileSelect
