import TileSelect.Pattern.Definition
import TileSelect.Proofs.Faults
/-!
Which documents compile.

Compiling a document walks through every conversion once. It carries the identifiers introduced
so far through the expression, puts the terms of an address into slots one after the other, and
stops at the first thing that is wrong. Whether it gets to the end can be said without a walk:
this module gives the rules of a well-formed document, with no fault, scope or slot in them, and
shows that the well-formed documents are those that compile.

Two facts carry the proof. An expression leaves in scope what was there and, behind it, what it
introduces in the order of writing, so that being refused as a duplicate at some point of the walk
is the same as not being distinct at the end (`Fresh`, which splits along an append). And the
slots of an address are free or taken: how many terms of each kind still fit depends on nothing
else, so that terms are counted and their order does not matter (`Room`).
-/

set_option autoImplicit false

namespace TileSelect

/-! ## The rules -/

/-- A type name, where there is one, is the name of a width. -/
def TypeExists (ty : Option Named) : Prop :=
  ∀ named ∈ ty, ∃ width, ValueType.ofName? named.name = some width

/-- A name that means something fixed in templates. -/
def FixedName (name : String) : Prop :=
  name = "out" ∨ name = "lo" ∨ name = "hi" ∨ ∃ temporary, TempName.parse? name = some temporary

/-- A factor that an address can encode. -/
def ValidScale (s : Int64) : Prop := s = 1 ∨ s = 2 ∨ s = 4 ∨ s = 8

namespace Expr

mutual

/-- The identifiers that an expression introduces, as they come: those of the arguments from left
to right, then an operation's own capture. A bare name introduces one if it includes a group. -/
def introduced (groups : List String) : Expr → List String
  | .number .. => []
  | .name capture bare _ => if bare ∈ groups then [capture.getD bare] else []
  | .op capture _ _ args _ => introducedByAll groups args ++ capture.toList

/-- The identifiers that several expressions introduce. -/
def introducedByAll (groups : List String) : List Expr → List String
  | [] => []
  | e :: es => introduced groups e ++ introducedByAll groups es

end

mutual

/-- An expression that stands where some identifiers have been introduced `earlier`. A number has
no rule of its own: it occurs as the argument of a constant and nowhere else. -/
inductive WellFormed (groups : List String) : List String → Expr → Prop
  /-- A bare name that is a group, captured or not. -/
  | inclusion {earlier : List String} (capture : Option String) {name : String} (span : Span)
      (group : name ∈ groups) : WellFormed groups earlier (.name capture name span)
  /-- A bare name that is no group refers back, and has no capture. -/
  | backreference {earlier : List String} {name : String} (span : Span)
      (group : name ∉ groups) (known : name ∈ earlier) :
      WellFormed groups earlier (.name none name span)
  | producer {earlier : List String} (capture : Option String) {ty : Option Named} (span : Span)
      (typed : TypeExists ty) : WellFormed groups earlier (.op capture ty "LOCAL" [] span)
  | anyConstant {earlier : List String} (capture : Option String) {ty : Option Named} (span : Span)
      (typed : TypeExists ty) : WellFormed groups earlier (.op capture ty "CONSTANT" [] span)
  | oneConstant {earlier : List String} (capture : Option String) {ty : Option Named} (span : Span)
      (value : Int64) (place : Span) (typed : TypeExists ty) :
      WellFormed groups earlier (.op capture ty "CONSTANT" [.number value place] span)
  /-- Any other operation has a fixed number of operands, and one argument for each. -/
  | operation {earlier : List String} (capture : Option String) {ty : Option Named} {name : String}
      {args : List Expr} (span : Span) {op : Operation} (typed : TypeExists ty)
      (producer : name ≠ "LOCAL") (constant : name ≠ "CONSTANT")
      (known : Operation.ofName? name = some op) (arity : op.arity = some args.length)
      (operands : AllWellFormed groups earlier args) :
      WellFormed groups earlier (.op capture ty name args span)

/-- Expressions from left to right: what one introduces is there for those after it. -/
inductive AllWellFormed (groups : List String) : List String → List Expr → Prop
  | nil (earlier : List String) : AllWellFormed groups earlier []
  | cons {earlier : List String} {e : Expr} {es : List Expr} (head : WellFormed groups earlier e)
      (tail : AllWellFormed groups (earlier ++ introduced groups e) es) :
      AllWellFormed groups earlier (e :: es)

end

end Expr

namespace Operand

/-- A number, or a name that is not a register and so is a symbol. -/
def isDisplacement : Operand → Bool
  | .number .. => true
  | .name bare _ => (Register.ofName? bare).isNone
  | _ => false

/-- Whether an operand may be a term of an address at all. -/
def isTerm : Operand → Bool
  | .memory .. | .scaled .. | .label .. => false
  | _ => true

end Operand

namespace Term

/-- A term with a factor. -/
def isScaled (t : Term) : Bool := t.2.isSome

/-- A number or symbol without a factor. -/
def isOffset (t : Term) : Bool := t.2.isNone && t.1.isDisplacement

/-- A register or reference without a factor. -/
def isStorage (t : Term) : Bool := t.2.isNone && !t.1.isDisplacement

end Term

/-- A well-formed operand, where the conversion introduces the identifiers `names`. -/
inductive Operand.WellFormed (names : List String) : Operand → Prop
  | number (value : Int64) (span : Span) : WellFormed names (.number value span)
  | label (name : String) (span : Span) : WellFormed names (.label name span)
  | name (name : String) (span : Span) : WellFormed names (.name name span)
  /-- A path starts with `out`, with a temporary or with an identifier of the conversion. A half
  at its end is behind its first member and plays no part here. -/
  | reference {path : List String} {ty : Option Named} (span : Span)
      (known : Part.pathHead path = "out"
        ∨ (∃ temporary, TempName.parse? (Part.pathHead path) = some temporary)
        ∨ Part.pathHead path ∈ names)
      (typed : TypeExists ty) : WellFormed names (.reference path ty span)
  | scaled {index : Operand} {factor : Int64} (span : Span) (inner : WellFormed names index)
      (valid : ValidScale factor) : WellFormed names (.scaled index factor span)
  /-- An address has room for one scaled term, for one number or symbol, and for two terms that
  are registers, references or scaled. -/
  | memory {terms : List Term} (span : Span)
      (inner : ∀ t ∈ terms, WellFormed names t.1)
      (kinds : ∀ t ∈ terms, t.1.isTerm = true)
      (valid : ∀ t ∈ terms, ∀ factor ∈ t.2, ValidScale factor)
      (oneScaled : terms.countP Term.isScaled ≤ 1)
      (oneOffset : terms.countP Term.isOffset ≤ 1)
      (twoRegisters : terms.countP Term.isScaled + terms.countP Term.isStorage ≤ 2) :
      WellFormed names (.memory terms span)

/-- A well-formed item of a template. -/
inductive Item.WellFormed (names : List String) : Item → Prop
  | label (name : String) (span : Span) : WellFormed names (.label name span)
  | operand {o : Operand} (inner : o.WellFormed names) : WellFormed names (.operand o)
  | instruction (mnemonic : String) {condition : Option Named} {operands : List Operand}
      (span : Span) (few : operands.length ≤ 2)
      (known : ∀ named ∈ condition, ∃ c, Condition.ofName? named.name = some c)
      (inner : ∀ o ∈ operands, o.WellFormed names) :
      WellFormed names (.instruction mnemonic condition operands span)

/-- A well-formed conversion: its expression is, its identifiers are distinct and free for use,
and its template refers to nothing but them. -/
structure Conversion.WellFormed (groups : List String) (c : Conversion) : Prop where
  expr : c.expr.WellFormed groups []
  distinct : (c.expr.introduced groups).Nodup
  free : ∀ name ∈ c.expr.introduced groups, ¬ FixedName name
  template : ∀ item ∈ c.template, item.WellFormed (c.expr.introduced groups)

/-- A well-formed document. Its groups may be defined in any order, also more than once. -/
def Document.WellFormed (d : Document) : Prop :=
  ∀ g ∈ d.groups, ∀ c ∈ g.conversions, c.WellFormed (d.groups.map Group.name)

namespace Definition

variable {groups : List String}

/-! ## Steps that succeed -/

/-- Two steps get to the end if the first does and the second does from there. Each check of the
compiler is a sequence of such steps. -/
theorem exists_bind_eq_ok {ε α β : Type} {x : Except ε α} {f : α → Except ε β} :
    (∃ y, x >>= f = .ok y) ↔ ∃ a, x = .ok a ∧ ∃ y, f a = .ok y := by
  constructor
  · rintro ⟨y, h⟩
    obtain ⟨a, ha, h⟩ := bind_eq_ok.1 h
    exact ⟨a, ha, y, h⟩
  · rintro ⟨a, ha, y, h⟩
    exact ⟨y, bind_eq_ok.2 ⟨a, ha, h⟩⟩

/-- A walk along a list gets to the end if every step succeeds. The induction is on the list, one
step at a time. -/
theorem exists_mapM_eq_ok {ε α β : Type} {f : α → Except ε β} {l : List α} :
    (∃ r, l.mapM f = .ok r) ↔ ∀ a ∈ l, ∃ y, f a = .ok y := by
  induction l with
  | nil => exact iff_of_true ⟨[], rfl⟩ (by simp)
  | cons a l ih =>
    have hrest : ∀ y, (∃ r, (l.mapM f >>= fun ys => pure (y :: ys)) = Except.ok r) ↔
        ∃ r, l.mapM f = .ok r := by
      intro y
      rw [exists_bind_eq_ok]
      exact ⟨fun ⟨r, hr, _⟩ => ⟨r, hr⟩, fun ⟨r, hr⟩ => ⟨r, hr, y :: r, rfl⟩⟩
    rw [List.mapM_cons, exists_bind_eq_ok, List.forall_mem_cons, ← ih]
    simp only [hrest]
    exact ⟨fun ⟨y, hy, hr⟩ => ⟨⟨y, hy⟩, hr⟩, fun ⟨⟨y, hy⟩, hr⟩ => ⟨y, hy, hr⟩⟩

/-- A type resolves if it exists. -/
theorem resolveType_succeeds {ty : Option Named} :
    (∃ t, resolveType ty = .ok t) ↔ TypeExists ty := by
  cases ty with
  | none => simp [resolveType, TypeExists]
  | some named =>
    simp only [resolveType, TypeExists, Option.mem_some_iff, forall_eq']
    cases ValueType.ofName? named.name <;> simp

/-- A condition resolves if it exists, and a missing one always does. -/
theorem resolveCondition_succeeds {condition : Option Named} :
    (∃ c, resolveCondition condition = .ok c) ↔
      ∀ named ∈ condition, ∃ c, Condition.ofName? named.name = some c := by
  cases condition with
  | none => simp [resolveCondition]
  | some named =>
    simp only [resolveCondition, Option.mem_some_iff, forall_eq']
    cases Condition.ofName? named.name <;> simp

/-- An operation resolves if it exists and takes as many operands as it has been given. Operations
with any number of operands cannot be matched. -/
theorem operation_succeeds {name : String} {found : Nat} {span : Span} :
    (∃ op, operation name found span = .ok op) ↔
      ∃ op, Operation.ofName? name = some op ∧ op.arity = some found := by
  unfold operation
  cases Operation.ofName? name with
  | none => simp
  | some op =>
    cases harity : op.arity with
    | none => simp [harity]
    | some expected => by_cases h : expected = found <;> simp [harity, h]

theorem constantValue_succeeds {args : List Expr} {span : Span} :
    (∃ v, constantValue args span = .ok v) ↔
      args = [] ∨ ∃ value place, args = [.number value place] := by
  unfold constantValue
  split <;> simp_all

theorem scale_succeeds {s : Int64} (span : Span) :
    (∃ n, scale s span = .ok n) ↔ ValidScale s := by
  unfold scale ValidScale
  split <;> simp_all

/-! ## Introducing identifiers -/

/-- The names that cannot be introduced are those with a fixed meaning. -/
theorem isReserved_iff {name : String} : isReserved name = true ↔ FixedName name := by
  simp only [isReserved, FixedName, Bool.or_eq_true, beq_iff_eq, Option.isSome_iff_exists,
    or_assoc]

/-- Names that can be introduced one after the other where `scope` has been introduced. -/
def Fresh (scope names : List String) : Prop :=
  names.Nodup ∧ ∀ name ∈ names, ¬ FixedName name ∧ name ∉ scope

theorem fresh_nil (scope : List String) : Fresh scope [] := ⟨List.nodup_nil, by simp⟩

/-- Names are fresh if the first of them are and the others are after them. So names can be
introduced in several steps. -/
theorem fresh_append {scope names names' : List String} :
    Fresh scope (names ++ names') ↔ Fresh scope names ∧ Fresh (scope ++ names) names' := by
  unfold Fresh
  rw [List.nodup_append]
  -- A name of the second list differs from those of the first as it does from those in scope.
  constructor
  · rintro ⟨⟨hnames, hnames', hne⟩, hfree⟩
    refine ⟨⟨hnames, fun name h => hfree name (List.mem_append_left _ h)⟩, hnames', ?_⟩
    intro name h
    obtain ⟨hfixed, hscope⟩ := hfree name (List.mem_append_right _ h)
    refine ⟨hfixed, fun hmem => ?_⟩
    rcases List.mem_append.1 hmem with hmem | hmem
    · exact hscope hmem
    · exact hne name hmem name h rfl
  · rintro ⟨⟨hnames, hfree⟩, hnames', hfree'⟩
    refine ⟨⟨hnames, hnames', ?_⟩, ?_⟩
    · rintro a ha _ hb rfl
      exact (hfree' a hb).2 (List.mem_append_right _ ha)
    · intro name h
      rcases List.mem_append.1 h with h | h
      · exact hfree name h
      · exact ⟨(hfree' name h).1, fun hs => (hfree' name h).2 (List.mem_append_left _ hs)⟩

/-- An identifier can be introduced if it is fresh, and then it stands behind the others. A name
with a fixed meaning is never fresh. -/
theorem introduce_eq_ok {ident : String} {span : Span} {scope scope' : Scope} :
    introduce ident span scope = .ok scope' ↔ Fresh scope [ident] ∧ scope' = scope ++ [ident] := by
  have hfresh : Fresh scope [ident] ↔ ¬ isReserved ident = true ∧ ident ∉ scope := by
    simp [Fresh, isReserved_iff]
  rw [hfresh, introduce]
  by_cases hreserved : isReserved ident = true
  · simp [hreserved]
  · by_cases hmem : ident ∈ scope
    · simp [hreserved, hmem]
    · simp [hreserved, hmem, eq_comm]

theorem introduceCapture_eq_ok {capture : Option String} {span : Span} {scope scope' : Scope} :
    introduceCapture capture span scope = .ok scope' ↔
      Fresh scope capture.toList ∧ scope' = scope ++ capture.toList := by
  cases capture with
  | none => simp [introduceCapture, fresh_nil, eq_comm]
  | some ident => exact introduce_eq_ok

/-! ## Expressions -/

/-- A bare name compiles if it is well-formed. It introduces an identifier if it names a group, and
that is the capture or, without one, the name of the group itself. -/
theorem bareName_eq_ok {capture : Option String} {name : String} {span : Span}
    {scope scope' : Scope} :
    (∃ s, bareName groups capture name span scope = .ok (s, scope')) ↔
      (Expr.name capture name span).WellFormed groups scope
        ∧ Fresh scope ((Expr.name capture name span).introduced groups)
        ∧ scope' = scope ++ (Expr.name capture name span).introduced groups := by
  rw [Expr.introduced]
  unfold bareName
  by_cases hgroup : name ∈ groups
  · rw [if_pos (List.contains_iff_mem.2 hgroup), if_pos hgroup]
    have hrule : Expr.WellFormed groups scope _ := .inclusion capture span hgroup
    constructor
    · rintro ⟨s, h⟩
      obtain ⟨scope₁, hscope, h⟩ := bind_eq_ok.1 h
      cases h
      exact ⟨hrule, introduce_eq_ok.1 hscope⟩
    · rintro ⟨-, h⟩
      exact ⟨_, bind_eq_ok.2 ⟨scope', introduce_eq_ok.2 h, rfl⟩⟩
  · rw [if_neg (mt List.contains_iff_mem.1 hgroup), if_neg hgroup, List.append_nil]
    cases capture with
    | some ident =>
      -- A captured name must be a group.
      refine iff_of_false (by simp) fun ⟨hrule, _⟩ => ?_
      cases hrule
      contradiction
    | none =>
      by_cases hmem : name ∈ scope
      · have hrule := Expr.WellFormed.backreference span hgroup hmem
        simp [hmem, hrule, fresh_nil, eq_comm]
      · refine iff_of_false (by simp [hmem]) fun ⟨hrule, _⟩ => ?_
        cases hrule <;> contradiction

/-- An operation's own capture, introduced behind what its arguments introduce. -/
theorem capture_eq_ok {capture : Option String} {span : Span} {scope names scope' : List String}
    (hnames : Fresh scope names) :
    introduceCapture capture span (scope ++ names) = .ok scope' ↔
      Fresh scope (names ++ capture.toList) ∧ scope' = scope ++ (names ++ capture.toList) := by
  rw [introduceCapture_eq_ok, fresh_append, List.append_assoc]
  simp [hnames]

/-- Where every argument is introduced, the operation is if its capture can be. The capture comes
last, so it must differ from all that the arguments introduce. -/
theorem operation_eq_ok {capture : Option String} {ty : Option Named} {name : String}
    {args : List Expr} {span : Span} {scope scope' : Scope}
    (hproducer : name ≠ "LOCAL") (hconstant : name ≠ "CONSTANT") :
    (∃ s, shape groups (.op capture ty name args span) scope = .ok (s, scope')) ↔
      TypeExists ty ∧ (∃ op, operation name args.length span = .ok op)
        ∧ ∃ scope₁, (∃ ss, shapes groups args scope = .ok (ss, scope₁))
          ∧ introduceCapture capture span scope₁ = .ok scope' := by
  rw [← resolveType_succeeds]
  -- The names of special shapes excluded, the operation is what is left.
  have hshape : shape groups (.op capture ty name args span) scope = (do
      let ty ← resolveType ty
      let op ← operation name args.length span
      let inner ← shapes groups args scope
      let scope ← introduceCapture capture span inner.2
      return (.node capture ty op inner.1, scope)) := by
    have hproducer' : name ≠ SpecialShape.producer.name := hproducer
    have hconstant' : name ≠ SpecialShape.constant.name := hconstant
    rw [shape]
    simp only [if_neg hproducer', if_neg hconstant']
  rw [hshape]
  -- Each of the four steps succeeds for itself, the scope being handed on from the arguments to the
  -- capture.
  constructor
  · rintro ⟨s, h⟩
    obtain ⟨t, ht, h⟩ := bind_eq_ok.1 h
    obtain ⟨op, hop, h⟩ := bind_eq_ok.1 h
    obtain ⟨⟨ss, scope₁⟩, hss, h⟩ := bind_eq_ok.1 h
    obtain ⟨scope₂, hscope, h⟩ := bind_eq_ok.1 h
    cases h
    exact ⟨⟨t, ht⟩, ⟨op, hop⟩, scope₁, ⟨ss, hss⟩, hscope⟩
  · rintro ⟨⟨t, ht⟩, ⟨op, hop⟩, scope₁, ⟨ss, hss⟩, hscope⟩
    simp only [ht, hop, hss, hscope, ok_bind]
    exact ⟨_, rfl⟩

/-- A value takes no arguments and has no identifier but its capture. Its type must exist, if it has
one. -/
theorem producer_eq_ok {capture : Option String} {ty : Option Named} {args : List Expr}
    {span : Span} {scope scope' : Scope} :
    (∃ s, shape groups (.op capture ty "LOCAL" args span) scope = .ok (s, scope')) ↔
      TypeExists ty ∧ args = [] ∧ introduceCapture capture span scope = .ok scope' := by
  rw [← resolveType_succeeds]
  -- This is the branch of the compiler for the name.
  have hshape : shape groups (.op capture ty "LOCAL" args span) scope = (do
      let ty ← resolveType ty
      if args.isEmpty then
        let scope ← introduceCapture capture span scope
        return (.producer capture ty, scope)
      else .error (span, .malformedSpecial .producer)) := by
    rw [shape]
    rfl
  rw [hshape]
  constructor
  · rintro ⟨s, h⟩
    obtain ⟨t, ht, h⟩ := bind_eq_ok.1 h
    split at h
    · rename_i hargs
      obtain ⟨scope₁, hscope, h⟩ := bind_eq_ok.1 h
      cases h
      exact ⟨⟨t, ht⟩, List.isEmpty_iff.1 hargs, hscope⟩
    · cases h
  · rintro ⟨⟨t, ht⟩, rfl, hscope⟩
    simp only [ht, hscope, ok_bind, List.isEmpty_nil, if_true]
    exact ⟨_, rfl⟩

/-- A constant may have a number and has no identifier but its capture. Its type must exist, if it
has one. -/
theorem constant_eq_ok {capture : Option String} {ty : Option Named} {args : List Expr}
    {span : Span} {scope scope' : Scope} :
    (∃ s, shape groups (.op capture ty "CONSTANT" args span) scope = .ok (s, scope')) ↔
      TypeExists ty ∧ (∃ v, constantValue args span = .ok v)
        ∧ introduceCapture capture span scope = .ok scope' := by
  rw [← resolveType_succeeds]
  -- This is the branch of the compiler for the name.
  have hshape : shape groups (.op capture ty "CONSTANT" args span) scope = (do
      let ty ← resolveType ty
      let value ← constantValue args span
      let scope ← introduceCapture capture span scope
      return (.constant capture ty value, scope)) := by
    rw [shape]
    rfl
  rw [hshape]
  constructor
  · rintro ⟨s, h⟩
    obtain ⟨t, ht, h⟩ := bind_eq_ok.1 h
    obtain ⟨v, hv, h⟩ := bind_eq_ok.1 h
    obtain ⟨scope₁, hscope, h⟩ := bind_eq_ok.1 h
    cases h
    exact ⟨⟨t, ht⟩, ⟨v, hv⟩, hscope⟩
  · rintro ⟨⟨t, ht⟩, ⟨v, hv⟩, hscope⟩
    simp only [ht, hv, hscope, ok_bind]
    exact ⟨_, rfl⟩

mutual

/-- **An expression compiles if it is well-formed and can introduce what it introduces**, and then
this is what it leaves in scope. -/
theorem shape_eq_ok : ∀ (e : Expr) (scope scope' : Scope),
    (∃ s, shape groups e scope = .ok (s, scope')) ↔
      e.WellFormed groups scope ∧ Fresh scope (e.introduced groups)
        ∧ scope' = scope ++ e.introduced groups
  | .number value span, scope, scope' => by
    refine iff_of_false (by simp [shape]) fun ⟨hrule, _⟩ => ?_
    cases hrule
  | .name capture name span, scope, scope' => by
    simp only [shape]
    exact bareName_eq_ok
  | .op capture ty name args span, scope, scope' => by
    rw [Expr.introduced]
    by_cases hproducer : name = "LOCAL"
    · subst hproducer
      rw [producer_eq_ok]
      constructor
      · rintro ⟨hty, rfl, hscope⟩
        exact ⟨.producer capture span hty, introduceCapture_eq_ok.1 hscope⟩
      · rintro ⟨hrule, hscope⟩
        -- The rule for operations excludes the name, so only the rule for values is left.
        generalize hname : "LOCAL" = name at hrule
        cases hrule with
        | producer _ _ hty => exact ⟨hty, rfl, introduceCapture_eq_ok.2 hscope⟩
        | operation _ _ _ hne => exact absurd hname.symm hne
        | _ => simp at hname
    by_cases hconstant : name = "CONSTANT"
    · subst hconstant
      rw [constant_eq_ok, constantValue_succeeds]
      constructor
      · rintro ⟨hty, rfl | ⟨value, place, rfl⟩, hscope⟩
        · exact ⟨.anyConstant capture span hty, introduceCapture_eq_ok.1 hscope⟩
        · exact ⟨.oneConstant capture span value place hty, introduceCapture_eq_ok.1 hscope⟩
      · rintro ⟨hrule, hscope⟩
        generalize hname : "CONSTANT" = name at hrule
        cases hrule with
        | anyConstant _ _ hty => exact ⟨hty, .inl rfl, introduceCapture_eq_ok.2 hscope⟩
        | oneConstant _ _ value place hty =>
          exact ⟨hty, .inr ⟨value, place, rfl⟩, introduceCapture_eq_ok.2 hscope⟩
        | operation _ _ _ _ hne => exact absurd hname.symm hne
        | producer => simp at hname
    rw [operation_eq_ok hproducer hconstant, operation_succeeds]
    simp only [shapes_eq_ok args]
    constructor
    · rintro ⟨hty, ⟨op, hknown, harity⟩, scope₁, ⟨hargs, hfresh, rfl⟩, hscope⟩
      exact ⟨.operation capture span hty hproducer hconstant hknown harity hargs,
        (capture_eq_ok hfresh).1 hscope⟩
    · rintro ⟨hrule, hfresh⟩
      -- The arguments introduce their names before the operation introduces its own.
      have hnames := (fresh_append.1 hfresh.1).1
      cases hrule with
      | operation _ _ hty _ _ hknown harity hargs =>
        exact ⟨hty, ⟨_, hknown, harity⟩, _, ⟨hargs, hnames, rfl⟩, (capture_eq_ok hnames).2 hfresh⟩
      | _ => contradiction

/-- Several expressions compile if each is well-formed where the ones before it have been
introduced, and what they introduce is fresh one after the other. -/
theorem shapes_eq_ok : ∀ (es : List Expr) (scope scope' : Scope),
    (∃ ss, shapes groups es scope = .ok (ss, scope')) ↔
      Expr.AllWellFormed groups scope es ∧ Fresh scope (Expr.introducedByAll groups es)
        ∧ scope' = scope ++ Expr.introducedByAll groups es
  | [], scope, scope' => by
    simp [shapes, Expr.introducedByAll, fresh_nil, Expr.AllWellFormed.nil, eq_comm]
  | e :: es, scope, scope' => by
    rw [Expr.introducedByAll, fresh_append, ← List.append_assoc]
    constructor
    · rintro ⟨ss, h⟩
      rw [shapes, bind_eq_ok] at h
      obtain ⟨⟨s, scope₁⟩, hs, h⟩ := h
      obtain ⟨⟨ss', scope₂⟩, hss, h⟩ := bind_eq_ok.1 h
      cases h
      obtain ⟨hrule, hfresh, rfl⟩ := (shape_eq_ok e _ _).1 ⟨s, hs⟩
      obtain ⟨hrules, hfreshes, rfl⟩ := (shapes_eq_ok es _ _).1 ⟨ss', hss⟩
      exact ⟨.cons hrule hrules, ⟨hfresh, hfreshes⟩, rfl⟩
    · rintro ⟨hrule, ⟨hfresh, hfreshes⟩, rfl⟩
      cases hrule with
      | cons hrule hrules =>
        obtain ⟨s, hs⟩ := (shape_eq_ok e scope _).2 ⟨hrule, hfresh, rfl⟩
        obtain ⟨ss, hss⟩ := (shapes_eq_ok es _ _).2 ⟨hrules, hfreshes, rfl⟩
        rw [shapes, hs, ok_bind]
        simp only [hss, ok_bind]
        exact ⟨_, rfl⟩

end

/-! ## Addresses -/

/-- How many components a slot holds. -/
def held (slot : Option Part) : Nat := slot.toList.length

@[simp] theorem held_none : held none = 0 := rfl

@[simp] theorem held_some (p : Part) : held (some p) = 1 := rfl

/-- Terms for which an address has room: one scaled term unless the index is taken, one number or
symbol unless the offset is, and as many registers and scaled terms as base and index leave. -/
def Room (address : Address Part) (terms : List Term) : Prop :=
  terms.countP Term.isScaled + held address.index ≤ 1
    ∧ terms.countP Term.isOffset + held address.offset ≤ 1
    ∧ terms.countP Term.isScaled + terms.countP Term.isStorage
        + held address.base + held address.index ≤ 2

theorem room_nil (address : Address Part) : Room address [] := by
  simp only [Room, List.countP_nil]
  cases address.base <;> cases address.index <;> cases address.offset <;> simp

/-- A scaled term takes the index, which has to be free. What it is that takes it makes no
difference to the room that is left. -/
theorem room_scaled {address : Address Part} {atom : Operand} {s : Int64} {rest : List Term}
    (part : Part) (n : Nat) :
    Room address ((atom, some s) :: rest) ↔
      address.index = none ∧ Room { address with index := some part, scale := n } rest := by
  simp only [Room, List.countP_cons, Term.isScaled, Term.isOffset, Term.isStorage]
  cases address.index with
  | none =>
    simp
    omega
  | some _ => simp

/-- A number or a symbol takes the offset, which has to be free. There is one offset, so two of them
do not fit even if they could be added. -/
theorem room_offset {address : Address Part} {atom : Operand} {rest : List Term} (part : Part)
    (hatom : atom.isDisplacement = true) :
    Room address ((atom, none) :: rest) ↔
      address.offset = none ∧ Room { address with offset := some part } rest := by
  simp only [Room, List.countP_cons, Term.isScaled, Term.isOffset, Term.isStorage, hatom]
  cases address.offset with
  | none => simp
  | some _ => simp

/-- A register goes to the base if that is free and to the index otherwise; which of the two is
taken makes a difference to scaled terms only when it is the last place. -/
theorem room_storage {address : Address Part} {atom : Operand} {rest : List Term} (part : Part)
    (hatom : atom.isDisplacement = false) :
    Room address ((atom, none) :: rest) ↔
      (address.base = none ∧ Room { address with base := some part } rest)
        ∨ (address.base ≠ none ∧ address.index = none
            ∧ Room { address with index := some part, scale := 1 } rest) := by
  simp only [Room, List.countP_cons, Term.isScaled, Term.isOffset, Term.isStorage, hatom]
  cases address.base <;> cases address.index <;> simp [-List.countP_eq_zero] <;> omega

/-- **A term finds a place that leaves room for the rest** exactly if there is room for all. Where a
term could take either of two places, the one that is taken leaves as much room as the other would
have. -/
theorem placeTerm_room (span : Span) {address : Address Part} {part : Part} {atom : Operand}
    {factor : Option Int64} {rest : List Term} (hpart : part.isConstant = atom.isDisplacement) :
    (∃ address', placeTerm span address part factor = .ok address' ∧ Room address' rest) ↔
      (∀ s ∈ factor, ValidScale s) ∧ Room address ((atom, factor) :: rest) := by
  -- A term with a factor is an index. Otherwise it is an offset if it is constant, and a base or an
  -- index if it is not.
  unfold placeTerm
  cases factor with
  | some s =>
    simp only [Option.mem_some_iff, forall_eq', ← scale_succeeds span]
    cases hindex : address.index with
    | some i =>
      refine iff_of_false (by simp) fun ⟨_, hroom⟩ => ?_
      rw [room_scaled part 1, hindex] at hroom
      cases hroom.1
    | none =>
      constructor
      · rintro ⟨address', h, hroom⟩
        obtain ⟨n, hn, h⟩ := bind_eq_ok.1 h
        cases h
        exact ⟨⟨n, hn⟩, (room_scaled _ _).2 ⟨hindex, hroom⟩⟩
      · rintro ⟨⟨n, hn⟩, hroom⟩
        exact ⟨_, bind_eq_ok.2 ⟨n, hn, rfl⟩, ((room_scaled _ _).1 hroom).2⟩
  | none =>
    simp only [hpart, Option.not_mem_none, false_imp_iff, implies_true, true_and]
    cases hatom : atom.isDisplacement with
    | true =>
      rw [room_offset part hatom]
      cases address.offset <;> simp
    | false =>
      rw [room_storage part hatom]
      cases address.base with
      | none => simp
      | some p => cases address.index <;> simp

/-! ## Operands -/

theorem termFault?_eq_none {atom : Operand} : termFault? atom = none ↔ atom.isTerm = true := by
  cases atom <;> simp [termFault?, Operand.isTerm]

/-- The part of a term is a constant if the term is a number or a symbol. This is what decides where
it is put: to the offset, or to base and index. -/
theorem isConstant_of_operandPart {scope : Scope} {atom : Operand} {part : Part}
    (hatom : atom.isTerm = true) (h : operandPart scope atom = .ok part) :
    part.isConstant = atom.isDisplacement := by
  cases atom with
  | number value span =>
    rw [operandPart] at h
    cases h
    rfl
  | name name span =>
    rw [operandPart] at h
    cases h
    rw [Operand.isDisplacement, namePart]
    cases Register.ofName? name <;> rfl
  | reference path ty span =>
    rw [operandPart, reference] at h
    dsimp only at h
    split at h
    · obtain ⟨t, -, h⟩ := bind_eq_ok.1 h
      cases h
      rfl
    · cases h
  | _ => cases hatom

/-- Taking the half off the end of a path leaves its first element, as a path of one element is left
alone. -/
theorem pathHead_splitHalf (path : List String) :
    Part.pathHead (splitHalf path).1 = Part.pathHead path := by
  unfold splitHalf
  split
  · split
    · split <;> rfl
    · rfl
  · rfl

/-- A reference resolves if its first element is known and its type exists. What else is on its path
is left to the filling-in of templates. -/
theorem reference_succeeds {scope : Scope} {path : List String} {ty : Option Named} {span : Span} :
    (∃ p, operandPart scope (.reference path ty span) = .ok p) ↔
      (Operand.reference path ty span).WellFormed scope := by
  -- A known name is the result, a temporary or an identifier of the pattern.
  have hknown : isKnown scope (Part.pathHead path) = true ↔ Part.pathHead path = "out"
      ∨ (∃ temporary, TempName.parse? (Part.pathHead path) = some temporary)
      ∨ Part.pathHead path ∈ scope := by
    simp only [isKnown, Bool.or_eq_true, beq_iff_eq, Option.isSome_iff_exists,
      List.contains_iff_mem, or_assoc]
  simp only [operandPart, reference, pathHead_splitHalf]
  by_cases h : isKnown scope (Part.pathHead path) = true
  · rw [if_pos h, exists_bind_eq_ok]
    constructor
    · rintro ⟨t, ht, -⟩
      exact .reference span (hknown.1 h) (resolveType_succeeds.1 ⟨t, ht⟩)
    · intro hrule
      cases hrule with
      | reference _ _ hty =>
        obtain ⟨t, ht⟩ := resolveType_succeeds.2 hty
        exact ⟨t, ht, _, rfl⟩
  · rw [if_neg h]
    refine iff_of_false (by simp) fun hrule => h ?_
    cases hrule with
    | reference _ hhead _ => exact hknown.2 hhead

mutual

/-- **An operand compiles if it is well-formed.** The recursion is the compiler's; the terms of an
address have to be terms at all, to be well-formed, and to find room. -/
theorem operandPart_succeeds {scope : Scope} : ∀ o : Operand,
    (∃ p, operandPart scope o = .ok p) ↔ o.WellFormed scope
  | .number value span => iff_of_true ⟨_, by rw [operandPart]⟩ (.number value span)
  | .label name span => iff_of_true ⟨_, by rw [operandPart]⟩ (.label name span)
  | .name name span => iff_of_true ⟨_, by rw [operandPart]⟩ (.name name span)
  | .reference path ty span => reference_succeeds
  | .scaled index factor span => by
    simp only [operandPart, exists_bind_eq_ok]
    constructor
    · rintro ⟨p, hp, n, hn, -⟩
      exact .scaled span ((operandPart_succeeds index).1 ⟨p, hp⟩) ((scale_succeeds _).1 ⟨n, hn⟩)
    · intro hrule
      cases hrule with
      | scaled _ hinner hvalid =>
        obtain ⟨p, hp⟩ := (operandPart_succeeds index).2 hinner
        obtain ⟨n, hn⟩ := (scale_succeeds _).2 hvalid
        exact ⟨p, hp, n, hn, _, rfl⟩
  | .memory terms span => by
    simp only [operandPart, exists_bind_eq_ok]
    -- In an empty address nothing is taken yet.
    have hroom : Room .empty terms ↔ terms.countP Term.isScaled ≤ 1
        ∧ terms.countP Term.isOffset ≤ 1
        ∧ terms.countP Term.isScaled + terms.countP Term.isStorage ≤ 2 := Iff.rfl
    constructor
    · rintro ⟨address, haddress, -⟩
      obtain ⟨hterms, hcounts⟩ := (termsAddress_succeeds span terms .empty).1 ⟨address, haddress⟩
      obtain ⟨hscaled, hoffset, hstorage⟩ := hroom.1 hcounts
      exact .memory span (fun t ht => (hterms t ht).2.1) (fun t ht => (hterms t ht).1)
        (fun t ht => (hterms t ht).2.2) hscaled hoffset hstorage
    · intro hrule
      cases hrule with
      | memory _ hinner hkinds hvalid hscaled hoffset hstorage =>
        obtain ⟨address, haddress⟩ := (termsAddress_succeeds span terms .empty).2
          ⟨fun t ht => ⟨hkinds t ht, hinner t ht, hvalid t ht⟩,
            hroom.2 ⟨hscaled, hoffset, hstorage⟩⟩
        exact ⟨address, haddress, _, rfl⟩

/-- The terms of an address fit if each may be one, is well-formed and has a valid factor, and if
there is room for all. The recursion is on the terms, and the room is what remains. -/
theorem termsAddress_succeeds {scope : Scope} (span : Span) : ∀ (terms : List Term)
    (address : Address Part),
    (∃ address', termsAddress scope span terms address = .ok address') ↔
      (∀ t ∈ terms, t.1.isTerm = true ∧ t.1.WellFormed scope ∧ ∀ s ∈ t.2, ValidScale s)
        ∧ Room address terms
  | [], address => by
    simp only [termsAddress, List.not_mem_nil, false_imp_iff, implies_true, true_and]
    exact iff_of_true ⟨address, rfl⟩ (room_nil address)
  | (atom, factor) :: rest, address => by
    rw [List.forall_mem_cons]
    dsimp only
    constructor
    · rintro ⟨address', h⟩
      rw [termsAddress] at h
      split at h
      · cases h
      · rename_i hfault
        have hatom := termFault?_eq_none.1 hfault
        obtain ⟨part, hpart, h⟩ := bind_eq_ok.1 h
        obtain ⟨address₁, hplace, h⟩ := bind_eq_ok.1 h
        obtain ⟨hrest, hroom⟩ := (termsAddress_succeeds span rest address₁).1 ⟨address', h⟩
        obtain ⟨hfactor, hroom⟩ :=
          (placeTerm_room _ (isConstant_of_operandPart hatom hpart)).1 ⟨address₁, hplace, hroom⟩
        exact ⟨⟨⟨hatom, (operandPart_succeeds atom).1 ⟨part, hpart⟩, hfactor⟩, hrest⟩, hroom⟩
    · rintro ⟨⟨⟨hatom, hrule, hfactor⟩, hrest⟩, hroom⟩
      obtain ⟨part, hpart⟩ := (operandPart_succeeds atom).2 hrule
      obtain ⟨address₁, hplace, hroom⟩ :=
        (placeTerm_room span (isConstant_of_operandPart hatom hpart)).2 ⟨hfactor, hroom⟩
      obtain ⟨address', haddress⟩ := (termsAddress_succeeds span rest address₁).2 ⟨hrest, hroom⟩
      refine ⟨address', ?_⟩
      rw [termsAddress, termFault?_eq_none.2 hatom]
      simp only [hpart, hplace, ok_bind, haddress]

end

/-- The order of the terms makes no difference: what has to hold of them is a matter of each term
and of how many there are of a kind. -/
theorem memory_succeeds_perm {scope : Scope} {span : Span} {terms terms' : List Term}
    (h : terms.Perm terms') :
    (∃ p, operandPart scope (.memory terms span) = .ok p) ↔
      ∃ p, operandPart scope (.memory terms' span) = .ok p := by
  have hperm : ∀ {l l' : List Term}, l.Perm l' →
      (Operand.memory l span).WellFormed scope → (Operand.memory l' span).WellFormed scope := by
    intro l l' hl hrule
    cases hrule with
    | memory _ hinner hkinds hvalid hscaled hoffset hstorage =>
      rw [hl.countP_eq] at hscaled hoffset hstorage
      rw [hl.countP_eq] at hstorage
      exact .memory span (fun t ht => hinner t (hl.mem_iff.2 ht))
        (fun t ht => hkinds t (hl.mem_iff.2 ht)) (fun t ht => hvalid t (hl.mem_iff.2 ht))
        hscaled hoffset hstorage
  rw [operandPart_succeeds, operandPart_succeeds]
  exact ⟨hperm h, hperm h.symm⟩

/-! ## Templates and documents -/

/-- An item compiles if it is well-formed: a label always does, an operand as before, and an
instruction if it has at most two operands, a condition that exists and operands that compile. -/
theorem itemPart_succeeds {scope : Scope} (item : Item) :
    (∃ p, itemPart scope item = .ok p) ↔ item.WellFormed scope := by
  cases item with
  | label name span => exact iff_of_true ⟨_, rfl⟩ (.label name span)
  | operand o =>
    refine (operandPart_succeeds o).trans ⟨.operand, fun hrule => ?_⟩
    cases hrule with
    | operand hinner => exact hinner
  | instruction mnemonic condition operands span =>
    rw [itemPart]
    by_cases hfew : 2 < operands.length
    · rw [if_pos hfew]
      refine iff_of_false (by simp) fun hrule => ?_
      cases hrule with
      | instruction _ _ hcount => omega
    · simp only [if_neg hfew, exists_bind_eq_ok]
      constructor
      · rintro ⟨c, hc, ps, hps, -⟩
        have hoperands := exists_mapM_eq_ok.1 ⟨ps, hps⟩
        exact .instruction mnemonic span (by omega) (resolveCondition_succeeds.1 ⟨c, hc⟩)
          fun o ho => (operandPart_succeeds o).1 (hoperands o ho)
      · intro hrule
        cases hrule with
        | instruction _ _ _ hknown hinner =>
          obtain ⟨c, hc⟩ := resolveCondition_succeeds.2 hknown
          obtain ⟨ps, hps⟩ :=
            exists_mapM_eq_ok.2 fun o ho => (operandPart_succeeds o).2 (hinner o ho)
          exact ⟨c, hc, ps, hps, _, rfl⟩

/-- A conversion compiles if it is well-formed: its expression where nothing has been introduced,
and its template with all that the expression introduces. -/
theorem conversion_succeeds (c : Conversion) :
    (∃ r, conversion groups c = .ok r) ↔ c.WellFormed groups := by
  -- The tree starts where nothing has been introduced.
  have hfresh : Fresh [] (c.expr.introduced groups) ↔ (c.expr.introduced groups).Nodup
      ∧ ∀ name ∈ c.expr.introduced groups, ¬ FixedName name := by
    simp [Fresh]
  constructor
  · rintro ⟨r, h⟩
    obtain ⟨⟨root, scope⟩, hroot, h⟩ := bind_eq_ok.1 h
    obtain ⟨template, htemplate, -⟩ := bind_eq_ok.1 h
    obtain ⟨hexpr, hnames, rfl⟩ := (shape_eq_ok c.expr [] scope).1 ⟨root, hroot⟩
    obtain ⟨hdistinct, hfree⟩ := hfresh.1 hnames
    have hitems := exists_mapM_eq_ok.1 ⟨template, htemplate⟩
    exact ⟨hexpr, hdistinct, hfree,
      fun item hitem => (itemPart_succeeds item).1 (hitems item hitem)⟩
  · intro hrule
    obtain ⟨root, hroot⟩ := (shape_eq_ok c.expr [] _).2
      ⟨hrule.expr, hfresh.2 ⟨hrule.distinct, hrule.free⟩, rfl⟩
    obtain ⟨template, htemplate⟩ := exists_mapM_eq_ok.2
      fun item hitem => (itemPart_succeeds item).2 (hrule.template item hitem)
    exact ⟨_, bind_eq_ok.2 ⟨_, hroot, bind_eq_ok.2 ⟨template, htemplate, rfl⟩⟩⟩

/-- An alternative compiles if its conversion does; its number does not matter. -/
theorem pattern_succeeds (alternative : PatternId × Conversion) :
    (∃ p, pattern groups alternative = .ok p) ↔ alternative.2.WellFormed groups := by
  rw [← conversion_succeeds, pattern]
  cases conversion groups alternative.2 <;> simp

/-- Numbering keeps the conversions. -/
theorem map_snd_number (seen : List String) (l : List (String × Conversion)) :
    (number seen l).map Prod.snd = l.map Prod.snd := by
  induction l generalizing seen with
  | nil => rfl
  | cons first rest ih =>
    obtain ⟨group, c⟩ := first
    rw [number, List.map_cons, List.map_cons, ih]

end Definition

/-- **The documents that compile are the well-formed ones.** The rules speak of the document alone,
so they say beforehand what the compiler will accept. -/
theorem Document.compiles_iff_wellFormed (d : Document) :
    (∃ ps, d.patterns = .ok ps) ↔ d.WellFormed := by
  rw [patterns, Definition.exists_mapM_eq_ok]
  simp only [Definition.pattern_succeeds]
  have hconversions : ∀ P : Conversion → Prop,
      (∀ a ∈ Definition.number [] d.alternatives, P a.2) ↔
        ∀ g ∈ d.groups, ∀ c ∈ g.conversions, P c := by
    intro P
    rw [← List.forall_mem_map, Definition.map_snd_number, List.forall_mem_map, alternatives]
    simp only [List.forall_mem_flatMap, List.forall_mem_map]
  exact hconversions _

end TileSelect
