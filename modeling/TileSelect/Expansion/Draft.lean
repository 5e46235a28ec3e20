import TileSelect.Expansion.SubstFault
/-!
Addresses put together from substituted components.

A template asks for a base, an index and an offset, but what they become is known only now: a
constant where a register was meant turns into a displacement, a scaled index may come from
another template, and several displacements are added up. A draft keeps the registers in their
places and the displacements in a list until all components are in.

What is computed is always the same number: the sum of the components as the template weighted
them.
-/

set_option autoImplicit false

namespace TileSelect

/-- An address of which some components are in. -/
structure Draft where
  base : Option Part
  index : Option Part
  scale : Nat
  displacements : List Part

namespace Draft

/-- Nothing is in yet. -/
def start : Draft := ⟨none, none, 1, []⟩

/-- Adds a displacement. -/
def displace (d : Draft) (p : Part) : Draft := { d with displacements := d.displacements ++ [p] }

/-- Adds what the base became. -/
def addBase (d : Draft) (p : Part) : Except SubstFault Draft :=
  if p.isConstant then .ok (d.displace p)
  else if p.isRegisterLike then .ok { d with base := some p }
  else .error (.invalidAddress p .notBase)

/-- Adds what the index became, which the template wants scaled. A number is scaled at once; an
index that is scaled already may not be scaled again. -/
def addIndex (d : Draft) (scale : Nat) (p : Part) : Except SubstFault Draft :=
  match p with
  | .memory inner =>
    if inner.isScaledIndex then
      if scale = 1 then .ok { d with index := inner.index, scale := inner.scale }
      else .error (.invalidAddress p .scaledTwice)
    else .error (.invalidAddress p .notIndex)
  -- Multiplication wraps, as the machine's does.
  | .imm v ty => .ok (d.displace (.imm (v * Int64.ofNat scale) ty))
  | _ =>
    if p.isConstant && scale == 1 then .ok (d.displace p)
    else if p.isRegisterLike then .ok { d with index := some p, scale := scale }
    else .error (.invalidAddress p .notIndex)

/-- Adds what the offset became. -/
def addOffset (d : Draft) (p : Part) : Except SubstFault Draft :=
  if p.isConstant then .ok (d.displace p) else .error (.invalidAddress p .notConstant)

/-- Adds a displacement to another: two numbers make a number, of no particular width. -/
def addDisplacement (sum next : Part) : Except SubstFault Part :=
  match sum, next with
  | .imm a _, .imm b _ => .ok (.literal (a + b))
  | _, _ => .error (.invalidAddress next .twoDisplacements)

/-- The sum of the displacements, if there are any. -/
def offset (d : Draft) : Except SubstFault (Option Part) :=
  match d.displacements with
  | [] => .ok none
  | first :: rest => some <$> rest.foldlM addDisplacement first

/-- The address, which must not be empty. -/
def finish (d : Draft) : Except SubstFault Part := do
  let offset ← d.offset
  if d.base.isNone && d.index.isNone && offset.isNone then
    .error (.invalidAddress (.memory .empty) .empty)
  else return .memory ⟨d.base, d.index, d.scale, offset⟩

/-- The address for a template that is a base alone: a whole address takes its place. -/
def ofLoneBase (p : Part) : Except SubstFault Part :=
  match p with
  | .memory inner => .ok (.memory inner)
  | _ =>
    if p.isConstant then .ok (.memory (.ofOffset p))
    else if p.isRegisterLike then .ok (.memory (.ofBase p))
    else .error (.invalidAddress p .notAddress)

end Draft

end TileSelect
