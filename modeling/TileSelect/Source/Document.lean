import TileSelect.Source.Span
/-!
The parse tree of a pattern file.

The tree records form only. Operations and types are names that may or may not exist, and a
bare name may turn out to include a group or to refer back to an identifier; giving all this a
meaning is the business of `TileSelect.Pattern.Definition`. Every construct carries the span of
the tokens it was read from.
-/

set_option autoImplicit false

namespace TileSelect

/-- A name and where it stands. -/
structure Named where
  name : String
  span : Span
deriving DecidableEq

/-- What a pattern matches: `(<capture> TYPE OP args...)`, `<capture> name`, or a number. -/
inductive Expr where
  | op (capture : Option String) (ty : Option Named) (op : String) (args : List Expr) (span : Span)
  | name (capture : Option String) (name : String) (span : Span)
  | number (value : Int64) (span : Span)

/-- The span of an expression. -/
def Expr.span : Expr → Span
  | .op _ _ _ _ span | .name _ _ span | .number _ span => span

/-- An operand of a template. -/
inductive Operand where
  /-- `<a.b.lo:I16>` -/
  | reference (path : List String) (ty : Option Named) (span : Span)
  /-- `[term + term ...]`; a term is an operand with an optional scale. -/
  | memory (terms : List (Operand × Option Int64)) (span : Span)
  /-- `index * scale` outside of brackets. -/
  | scaled (index : Operand) (scale : Int64) (span : Span)
  /-- A number. -/
  | number (value : Int64) (span : Span)
  /-- A register or symbol. -/
  | name (name : String) (span : Span)
  /-- `@name` -/
  | label (name : String) (span : Span)

/-- The span of an operand. -/
def Operand.span : Operand → Span
  | .reference _ _ span | .memory _ span | .scaled _ _ span
  | .number _ span | .name _ span | .label _ span => span

/-- A term of a memory operand. -/
abbrev Term := Operand × Option Int64

/-- One bracketed item of a template. -/
inductive Item where
  | instruction (mnemonic : String) (condition : Option Named) (operands : List Operand)
      (span : Span)
  | label (name : String) (span : Span)
  | operand (operand : Operand)

/-- `expr -> item item ...` -/
structure Conversion where
  expr : Expr
  template : List Item
  span : Span

/-- `name: conversion | conversion ... ;` -/
structure Group where
  name : String
  span : Span
  conversions : List Conversion

/-- A whole file. -/
structure Document where
  groups : List Group

end TileSelect
