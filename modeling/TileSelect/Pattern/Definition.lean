import TileSelect.Pattern.DefinitionError
import TileSelect.Pattern.Shape
import TileSelect.Source.Document
/-!
From the parse tree to patterns.

A bare name includes the group of that name if the document has one, wherever it stands in the
file; otherwise it refers back to an identifier, which then must have been introduced before.
"Before" follows the expression from left to right, an operation's own capture coming after its
arguments, and that is the order in which a match binds identifiers too: it is why a reference
back always finds something.

The identifiers introduced so far are threaded through the expression as a list. Templates come
after the whole expression and only look at that list.
-/

set_option autoImplicit false

namespace TileSelect

namespace Definition

/-- A fault and its place inside the pattern. -/
abbrev Refusal := Span × DefinitionFault

/-- The identifiers introduced so far. -/
abbrev Scope := List String

/-- Introduces an identifier, which must be neither reserved nor taken. -/
def introduce (ident : String) (span : Span) (scope : Scope) : Except Refusal Scope :=
  if isReserved ident then .error (span, .reservedIdentifier ident)
  else if scope.contains ident then .error (span, .duplicateIdentifier ident)
  else .ok (scope ++ [ident])

/-- Introduces a capture, if there is one. -/
def introduceCapture (capture : Option String) (span : Span) (scope : Scope) :
    Except Refusal Scope :=
  match capture with
  | some ident => introduce ident span scope
  | none => .ok scope

/-- The width that an optional type name stands for. -/
def resolveType (ty : Option Named) : Except Refusal (Option ValueType) :=
  match ty with
  | none => .ok none
  | some named =>
    match ValueType.ofName? named.name with
    | some t => .ok (some t)
    | none => .error (named.span, .unknownType named.name)

/-! ## Expressions -/

/-- The operation of that name, if a pattern may give it that many arguments. -/
def operation (name : String) (found : Nat) (span : Span) : Except Refusal Operation :=
  match Operation.ofName? name with
  | none => .error (span, .unknownOperation name)
  | some op =>
    match op.arity with
    | none => .error (span, .notMatchable op)
    | some expected =>
      if expected = found then .ok op else .error (span, .arityMismatch op expected found)

/-- A bare name: an inclusion if a group has that name, otherwise a reference back. -/
def bareName (groups : List String) (capture : Option String) (name : String) (span : Span)
    (scope : Scope) : Except Refusal (Shape × Scope) :=
  if groups.contains name then do
    -- Without a capture, the group's own name is the identifier.
    let ident := capture.getD name
    let scope ← introduce ident span scope
    return (.inclusion ident name, scope)
  else
    match capture with
    | some ident => .error (span, .unknownGroup ident name)
    | none =>
      if scope.contains name then .ok (.backreference name, scope)
      else .error (span, .unresolvedBackreference name)

/-- The number that the arguments of a constant ask for: none, or the one there is. -/
def constantValue (args : List Expr) (span : Span) : Except Refusal (Option Int64) :=
  match args with
  | [] => .ok none
  | [.number v _] => .ok (some v)
  | _ => .error (span, .malformedSpecial .constant)

mutual

/-- The shape of an expression, and the identifiers introduced after it. -/
def shape (groups : List String) : Expr → Scope → Except Refusal (Shape × Scope)
  | .number _ span, _ => .error (span, .unexpectedLiteral)
  | .name capture name span, scope => bareName groups capture name span scope
  | .op capture ty name args span, scope => do
    let ty ← resolveType ty
    if name = SpecialShape.producer.name then
      if args.isEmpty then
        let scope ← introduceCapture capture span scope
        return (.producer capture ty, scope)
      else .error (span, .malformedSpecial .producer)
    else if name = SpecialShape.constant.name then
      let value ← constantValue args span
      let scope ← introduceCapture capture span scope
      return (.constant capture ty value, scope)
    else
      let op ← operation name args.length span
      let (args, scope) ← shapes groups args scope
      -- An argument cannot refer to the operation it belongs to.
      let scope ← introduceCapture capture span scope
      return (.node capture ty op args, scope)

/-- The shapes of several expressions, from left to right. -/
def shapes (groups : List String) : List Expr → Scope → Except Refusal (List Shape × Scope)
  | [], scope => .ok ([], scope)
  | e :: es, scope => do
    let (s, scope) ← shape groups e scope
    let (ss, scope) ← shapes groups es scope
    return (s :: ss, scope)

end

/-! ## Templates -/

/-- Takes a half off the end of a path that has more than one member. -/
def splitHalf (path : List String) : List String × Option Half :=
  match path with
  | _ :: _ :: _ =>
    match path.getLast? with
    | some last =>
      match Half.ofSuffix? last with
      | some half => (path.dropLast, some half)
      | none => (path, none)
    | none => (path, none)
  | _ => (path, none)

/-- Whether a path of a template may start with a name. -/
def isKnown (scope : Scope) (name : String) : Bool :=
  name == "out" || (TempName.parse? name).isSome || scope.contains name

/-- A reference to what the pattern introduced. -/
def reference (scope : Scope) (path : List String) (ty : Option Named) (span : Span) :
    Except Refusal Part :=
  let (path, half) := splitHalf path
  let head := Part.pathHead path
  if isKnown scope head then do
    let ty ← resolveType ty
    return .reference path half ty
  else .error (span, .unknownIdentifier head)

/-- A scale the target can encode: one, two, four or eight. -/
def scale (s : Int64) (span : Span) : Except Refusal Nat :=
  if s = 1 ∨ s = 2 ∨ s = 4 ∨ s = 8 then .ok s.toInt.toNat else .error (span, .invalidScale s)

/-- Puts a term in its place in an address: a scaled one is the index, a number or symbol the
offset, and a register or reference the base or, if there is one, the index. -/
def placeTerm (span : Span) (address : Address Part) (part : Part) (factor : Option Int64) :
    Except Refusal (Address Part) :=
  match factor with
  | some s =>
    if address.index.isSome then .error (span, .invalidAddress .secondIndex)
    else do
      let s ← scale s span
      return { address with index := some part, scale := s }
  | none =>
    if part.isConstant then
      if address.offset.isSome then .error (span, .invalidAddress .secondDisplacement)
      else .ok { address with offset := some part }
    else if address.base.isNone then .ok { address with base := some part }
    else if address.index.isNone then .ok { address with index := some part, scale := 1 }
    else .error (span, .invalidAddress .thirdRegister)

/-- Why an operand cannot be a term of an address at all. -/
def termFault? : Operand → Option AddressFault
  | .memory .. | .scaled .. => some .nestedMemory
  | .label .. => some .label
  | _ => none

/-- A name is the register of that name, or else a symbol. -/
def namePart (name : String) : Part :=
  match Register.ofName? name with
  | some r => .register r
  | none => .symbol name

mutual

/-- The template part of an operand. -/
def operandPart (scope : Scope) : Operand → Except Refusal Part
  | .number v _ => .ok (.literal v)
  | .label name _ => .ok (.label name)
  | .name name _ => .ok (namePart name)
  | .reference path ty span => reference scope path ty span
  | .scaled index factor span => do
    let index ← operandPart scope index
    let s ← scale factor span
    return .memory (.ofIndex index s)
  | .memory terms span => do
    let address ← termsAddress scope span terms .empty
    return .memory address

/-- The address that terms make, each put into the address built before it. -/
def termsAddress (scope : Scope) (span : Span) :
    List (Operand × Option Int64) → Address Part → Except Refusal (Address Part)
  | [], address => .ok address
  | (atom, factor) :: rest, address =>
    match termFault? atom with
    | some fault => .error (span, .invalidAddress fault)
    | none => do
      let part ← operandPart scope atom
      let address ← placeTerm span address part factor
      termsAddress scope span rest address

end

/-- The condition that an optional name stands for. -/
def resolveCondition (condition : Option Named) : Except Refusal (Option Condition) :=
  match condition with
  | none => .ok none
  | some named =>
    match Condition.ofName? named.name with
    | some c => .ok (some c)
    | none => .error (named.span, .unknownCondition named.name)

/-- The template part of an item. An instruction has at most two operands. -/
def itemPart (scope : Scope) : Item → Except Refusal Part
  | .label name _ => .ok (.label name)
  | .operand o => operandPart scope o
  | .instruction mnemonic condition operands span =>
    if 2 < operands.length then
      .error (span, .tooManyOperands mnemonic operands.length)
    else do
      let condition ← resolveCondition condition
      let operands ← operands.mapM (operandPart scope)
      return .instruction mnemonic condition operands

/-! ## Documents -/

/-- The tree and the template of a conversion. -/
def conversion (groups : List String) (c : Conversion) : Except Refusal (Shape × List Part) := do
  let (root, scope) ← shape groups c.expr []
  let template ← c.template.mapM (itemPart scope)
  return (root, template)

/-- Numbers alternatives: each gets the count of those of its group that came before, also in
other definitions of a group of that name. -/
def number (seen : List String) :
    List (String × Conversion) → List (PatternId × Conversion)
  | [] => []
  | (group, c) :: rest => (⟨group, seen.count group⟩, c) :: number (group :: seen) rest

/-- The pattern of a numbered alternative. -/
def pattern (groups : List String) (alternative : PatternId × Conversion) :
    Except DefinitionError Pattern :=
  match conversion groups alternative.2 with
  | .ok (root, template) => .ok ⟨alternative.1, root, template⟩
  | .error (span, fault) => .error ⟨alternative.1.group, alternative.1.ordinal, span, fault⟩

end Definition

/-- The alternatives of a document in file order, each with the name of its group. -/
def Document.alternatives (d : Document) : List (String × Conversion) :=
  d.groups.flatMap fun g => g.conversions.map fun c => (g.name, c)

/-- The patterns of a document, in file order; the first fault stops the work. -/
def Document.patterns (d : Document) : Except DefinitionError (List Pattern) :=
  (Definition.number [] d.alternatives).mapM (Definition.pattern (d.groups.map Group.name))

end TileSelect
