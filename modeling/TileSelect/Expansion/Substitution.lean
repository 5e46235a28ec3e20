import TileSelect.Asm.Halves
import TileSelect.Block.Basic
import TileSelect.Expansion.Draft
import TileSelect.Match.Record
import TileSelect.Session
/-!
Filling in templates.

A template is filled in for one match and one choice of an instantiation for each included group.
A reference names the value of the root (`out`), a temporary, a captured node, or an included
group; the latter stands for what the chosen instantiation emits, if that is a single part, and a
longer path continues inside the chosen instantiation. Then a half may be taken and a width be
imposed.

Each name of a temporary stands for one temporary throughout a template. A temporary that was
allocated stays allocated when the template fails later on: that is why the state survives a
failure here.
-/

set_option autoImplicit false

namespace TileSelect

/-- A template filled in for one match and one choice for each included group. -/
structure Instantiation where
  /-- The match. -/
  record : Match
  /-- The template, filled in. -/
  parts : List Part
  /-- The nodes computed, those of the chosen instantiations included. -/
  covered : NodeSet
  /-- The nodes read, as far as they are not computed. -/
  inputs : NodeSet
  /-- The choice for each included group, in the order of the identifiers. -/
  chosen : List (String × Instantiation)

/-- What a template is filled in for. -/
structure Filling where
  block : Block
  record : Match
  chosen : List (String × Instantiation)

/-- The temporaries of one template, and the count of those allocated in the block. -/
structure Temporaries where
  allocated : Nat
  named : List (String × Part)

/-- A step of filling in: it may fail, and keeps its temporaries if it does. -/
abbrev Subst (α : Type) := ExceptT SubstFault (StateM Temporaries) α

namespace Subst

/-- A step that touches no temporaries. -/
def check {α : Type} (e : Except SubstFault α) : Subst α := ExceptT.mk (pure e)

/-- The temporary of a name: the one it has, or a fresh one of the given width. -/
def temporary (name : String) (ty : ValueType) : Subst Part := ExceptT.mk fun t =>
  match Keyed.get? name t.named with
  | some p => (.ok p, t)
  | none =>
    let p := Part.temp (Session.tempNumber t.allocated) ty none
    (.ok p, ⟨t.allocated + 1, Keyed.insert name p t.named⟩)

end Subst

/-- Imposes a width on an operand that has one. -/
def Part.retype (ty : ValueType) : Part → Part
  | .value id _ half => .value id ty half
  | .temp id _ half => .temp id ty half
  | .imm v _ => .imm v (some ty)
  | p => p

namespace Filling

/-- The value of a node as an operand. -/
def valueOf (b : Block) (id : NodeId) : Except SubstFault Part :=
  match b.valueOf? id with
  | some p => .ok p
  | none => .error (.noValue id)

/-- What a captured constant is written as: its number or symbol, or else its value. -/
def constantOf (b : Block) (id : NodeId) : Except SubstFault Part :=
  match b.node? id with
  | some n =>
    match n.imm with
    | some (.int v) => .ok (.imm v (b.typeOf? id))
    | some (.symbol name) => .ok (.symbol name)
    | _ => valueOf b id
  | none => valueOf b id

/-- What a captured node is written as. -/
def captured (b : Block) (m : Match) (ident : String) (id : NodeId) : Except SubstFault Part :=
  match m.pattern.lookup? ident with
  | some (.constant ..) => constantOf b id
  | _ => valueOf b id

/-- The one part that an instantiation emits. -/
def singlePart (ident : String) (parts : List Part) : Except SubstFault Part :=
  match parts with
  | [p] => .ok p
  | ps => .error (.multiPartOperand ident ps.length)

/-- What a name that must end its path stands for. -/
def ending (ident : String) (rest : List String) (found : Except SubstFault Part) :
    Except SubstFault Part :=
  match rest with
  | member :: _ => .error (.notASubpattern ident member)
  | [] => found

/-- What a path of identifiers stands for in a match with its choices. -/
def resolve (b : Block) (m : Match) (chosen : List (String × Instantiation)) :
    List String → Except SubstFault Part
  | [] => .error (.unbound "")
  | head :: rest =>
    -- Names with a fixed meaning come first: nothing that is captured can have them.
    if head = "out" then ending head rest (valueOf b m.root)
    else if (TempName.parse? head).isSome then .error .nestedTemporary
    else if Keyed.has head m.submatches then
      match Keyed.get? head chosen with
      | none => .error (.noInstantiation head)
      | some sub =>
        if rest.isEmpty then singlePart head sub.parts
        else resolve b sub.record sub.chosen rest
    else
      match Keyed.get? head m.bindings with
      | some id => ending head rest (captured b m head id)
      | none =>
        if (m.pattern.lookup? head).isSome then .error (.unbound head)
        else .error (.unknownIdentifier head m.pattern.id.group)

/-- The width of a temporary: the one in its name, or that of the root, or 32 bits. -/
def tempType (f : Filling) (name : TempName) : ValueType :=
  (name.width.or (f.block.typeOf? f.record.root)).getD .i32

/-- What a path stands for, temporaries of this template included. -/
def target (f : Filling) (path : List String) : Subst Part :=
  let head := Part.pathHead path
  match TempName.parse? head with
  | some name =>
    match path with
    | _ :: member :: _ => Subst.check (.error (.notASubpattern head member))
    | _ => Subst.temporary head (f.tempType name)
  | none => Subst.check (resolve f.block f.record f.chosen path)

/-- Takes a half, if one is asked for. -/
def halved (half : Option Half) (p : Part) : Except SubstFault Part :=
  match half with
  | none => .ok p
  | some h =>
    match p.slice? h with
    | some q => .ok q
    | none => .error (.cannotSplit p)

/-- Imposes a width, if one is asked for. -/
def retyped (ty : Option ValueType) (p : Part) : Part :=
  match ty with
  | some t => p.retype t
  | none => p

/-- Adds a component to a draft, if the template has it. -/
def addComponent (add : Draft → Part → Except SubstFault Draft) (d : Draft) :
    Option Part → Subst Draft
  | some p => Subst.check (add d p)
  | none => pure d

mutual

/-- Fills in a part of a template. -/
def fill (f : Filling) : Part → Subst Part
  | .instruction mnemonic condition operands => do
    let operands ← fillAll f operands
    return .instruction mnemonic condition operands
  | .memory ⟨base, index, scale, offset⟩ => do
    let base ← fillOption f base
    match base, index, offset with
    -- A base alone may have become a whole address, which then takes its place.
    | some p, none, none => Subst.check (Draft.ofLoneBase p)
    | base, _, _ =>
      let d ← addComponent Draft.addBase .start base
      let i ← fillOption f index
      let d ← addComponent (fun d => d.addIndex scale) d i
      let o ← fillOption f offset
      let d ← addComponent Draft.addOffset d o
      Subst.check d.finish
  | .reference path half ty => do
    let p ← f.target path
    let q ← Subst.check (halved half p)
    return retyped ty q
  | p => return p

/-- Fills in several parts, from left to right. -/
def fillAll (f : Filling) : List Part → Subst (List Part)
  | [] => return []
  | p :: ps => do
    let q ← fill f p
    let qs ← fillAll f ps
    return q :: qs

/-- Fills in a part that may be absent. -/
def fillOption (f : Filling) : Option Part → Subst (Option Part)
  | none => return none
  | some p => do
    let q ← fill f p
    return some q

end

end Filling

end TileSelect
