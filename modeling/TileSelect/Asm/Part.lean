import TileSelect.ValueType
/-!
Assembly parts.

The same type serves two purposes. As a *template* a part may hold references, which name
identifiers of a pattern; as *output* it holds only concrete operands, because substitution
replaces every reference. Nothing but references tells the two apart, so the operations below
(what may stand alone, what names storage, what is a constant) apply to both.

An address is a type of its own, over whatever its components are: that lets one part contain
an address made of parts, and lets the laws of addresses be stated without parts.
-/

set_option autoImplicit false

namespace TileSelect

/-- One of the two halves of a split operand. -/
inductive Half where
  | low
  | high
deriving DecidableEq

namespace Half

/-- The member name that selects this half. -/
def suffix : Half → String
  | .low => "lo"
  | .high => "hi"

/-- The half that a member name selects. -/
def ofSuffix? (s : String) : Option Half :=
  if s == "lo" then some .low else if s == "hi" then some .high else none

end Half

/-- The condition under which a conditional instruction acts. `below` and `above` compare
without sign. -/
inductive Condition where
  | equal
  | notEqual
  | less
  | lessEqual
  | greater
  | greaterEqual
  | below
  | belowEqual
  | above
  | aboveEqual
deriving DecidableEq

namespace Condition

/-- The condition that a name in a pattern file stands for; three have two names. -/
def ofName? (s : String) : Option Condition :=
  match s with
  | "eq" | "e" => some .equal
  | "ne" => some .notEqual
  | "lt" | "l" => some .less
  | "le" => some .lessEqual
  | "gt" | "g" => some .greater
  | "ge" => some .greaterEqual
  | "b" => some .below
  | "be" => some .belowEqual
  | "a" => some .above
  | "ae" => some .aboveEqual
  | _ => none

/-- What the condition adds to a mnemonic. -/
def suffix : Condition → String
  | .equal => "E"
  | .notEqual => "NE"
  | .less => "L"
  | .lessEqual => "LE"
  | .greater => "G"
  | .greaterEqual => "GE"
  | .below => "B"
  | .belowEqual => "BE"
  | .above => "A"
  | .aboveEqual => "AE"

end Condition

/-- A machine register: eight of 32 bits, eight of 16 and eight of 8. -/
inductive Register where
  | eax | ebx | ecx | edx | esi | edi | ebp | esp
  | ax | bx | cx | dx | si | di | bp | sp
  | al | bl | cl | dl | ah | bh | ch | dh
deriving DecidableEq

namespace Register

/-- Every register, widest first. -/
def all : List Register :=
  [ .eax, .ebx, .ecx, .edx, .esi, .edi, .ebp, .esp,
    .ax, .bx, .cx, .dx, .si, .di, .bp, .sp,
    .al, .bl, .cl, .dl, .ah, .bh, .ch, .dh ]

/-- The lower-case name. -/
def name : Register → String
  | .eax => "eax"
  | .ebx => "ebx"
  | .ecx => "ecx"
  | .edx => "edx"
  | .esi => "esi"
  | .edi => "edi"
  | .ebp => "ebp"
  | .esp => "esp"
  | .ax => "ax"
  | .bx => "bx"
  | .cx => "cx"
  | .dx => "dx"
  | .si => "si"
  | .di => "di"
  | .bp => "bp"
  | .sp => "sp"
  | .al => "al"
  | .bl => "bl"
  | .cl => "cl"
  | .dl => "dl"
  | .ah => "ah"
  | .bh => "bh"
  | .ch => "ch"
  | .dh => "dh"

/-- The register with this name. -/
def ofName? (s : String) : Option Register := all.find? (·.name == s)

/-- A register is found under its own name, so no two of them share one. -/
theorem ofName?_name (r : Register) : ofName? r.name = some r := by
  cases r <;> decide

end Register

/-- A memory address `base + index * scale + offset`, each component optional. An absent index
leaves the scale without meaning; it is still part of the value. -/
structure Address (α : Type) where
  base : Option α
  index : Option α
  scale : Nat
  offset : Option α

namespace Address

variable {α : Type}

/-- No components, at scale one: where building an address starts. -/
def empty : Address α := ⟨none, none, 1, none⟩

/-- A base and nothing else. -/
def ofBase (a : α) : Address α := ⟨some a, none, 1, none⟩

/-- An offset and nothing else. -/
def ofOffset (a : α) : Address α := ⟨none, none, 1, some a⟩

/-- A scaled index and nothing else: what `index * scale` abbreviates. -/
def ofIndex (a : α) (scale : Nat) : Address α := ⟨none, some a, scale, none⟩

/-- Whether the address is an index alone. -/
def isScaledIndex (a : Address α) : Bool :=
  a.index.isSome && a.base.isNone && a.offset.isNone

/-- Whether the address is a base alone. -/
def isLoneBase (a : Address α) : Bool :=
  a.base.isSome && a.index.isNone && a.offset.isNone

end Address

/-- An assembly part: a template piece or a concrete one. -/
inductive Part where
  /-- An instruction; the condition, if any, is spelled as a suffix of the mnemonic. -/
  | instruction (mnemonic : String) (condition : Option Condition) (operands : List Part)
  /-- A code label. -/
  | label (name : String)
  /-- The memory at an address. -/
  | memory (address : Address Part)
  /-- A placeholder: a dotted path of identifiers, of which the first is an identifier of the
  pattern and each further one walks into an included pattern; then a half, then a width. -/
  | reference (path : List String) (half : Option Half) (ty : Option ValueType)
  /-- A machine register. -/
  | register (register : Register)
  /-- The value that some node yields. -/
  | value (id : Nat) (ty : ValueType) (half : Option Half)
  /-- A temporary allocated by substitution. -/
  | temp (id : Nat) (ty : ValueType) (half : Option Half)
  /-- A number known now. -/
  | imm (value : Int64) (ty : Option ValueType)
  /-- A number known to the linker. -/
  | symbol (name : String)

namespace Part

/-! ## Equality -/

mutual

/-- Decides equality of parts. -/
def decEq : (a b : Part) → Decidable (a = b)
  | .instruction m c os, .instruction m' c' os' =>
    match decEqList os os' with
    | isTrue h => decidable_of_iff (m = m' ∧ c = c') (by simp [h])
    | isFalse h => isFalse (by simp [h])
  | .memory ⟨b, i, s, o⟩, .memory ⟨b', i', s', o'⟩ =>
    match decEqOption b b', decEqOption i i', decEqOption o o' with
    | isTrue hb, isTrue hi, isTrue ho => decidable_of_iff (s = s') (by simp [hb, hi, ho])
    | isFalse h, _, _ => isFalse (by simp [h])
    | _, isFalse h, _ => isFalse (by simp [h])
    | _, _, isFalse h => isFalse (by simp [h])
  | .label a, .label b => decidable_of_iff (a = b) (by simp)
  | .reference p h t, .reference p' h' t' =>
    decidable_of_iff (p = p' ∧ h = h' ∧ t = t') (by simp)
  | .register a, .register b => decidable_of_iff (a = b) (by simp)
  | .value n t h, .value n' t' h' => decidable_of_iff (n = n' ∧ t = t' ∧ h = h') (by simp)
  | .temp n t h, .temp n' t' h' => decidable_of_iff (n = n' ∧ t = t' ∧ h = h') (by simp)
  | .imm v t, .imm v' t' => decidable_of_iff (v = v' ∧ t = t') (by simp)
  | .symbol a, .symbol b => decidable_of_iff (a = b) (by simp)
  | .instruction .., .label .. | .instruction .., .memory .. | .instruction .., .reference ..
  | .instruction .., .register .. | .instruction .., .value .. | .instruction .., .temp ..
  | .instruction .., .imm .. | .instruction .., .symbol .. => isFalse (by simp)
  | .label .., .instruction .. | .label .., .memory .. | .label .., .reference ..
  | .label .., .register .. | .label .., .value .. | .label .., .temp ..
  | .label .., .imm .. | .label .., .symbol .. => isFalse (by simp)
  | .memory .., .instruction .. | .memory .., .label .. | .memory .., .reference ..
  | .memory .., .register .. | .memory .., .value .. | .memory .., .temp ..
  | .memory .., .imm .. | .memory .., .symbol .. => isFalse (by simp)
  | .reference .., .instruction .. | .reference .., .label .. | .reference .., .memory ..
  | .reference .., .register .. | .reference .., .value .. | .reference .., .temp ..
  | .reference .., .imm .. | .reference .., .symbol .. => isFalse (by simp)
  | .register .., .instruction .. | .register .., .label .. | .register .., .memory ..
  | .register .., .reference .. | .register .., .value .. | .register .., .temp ..
  | .register .., .imm .. | .register .., .symbol .. => isFalse (by simp)
  | .value .., .instruction .. | .value .., .label .. | .value .., .memory ..
  | .value .., .reference .. | .value .., .register .. | .value .., .temp ..
  | .value .., .imm .. | .value .., .symbol .. => isFalse (by simp)
  | .temp .., .instruction .. | .temp .., .label .. | .temp .., .memory ..
  | .temp .., .reference .. | .temp .., .register .. | .temp .., .value ..
  | .temp .., .imm .. | .temp .., .symbol .. => isFalse (by simp)
  | .imm .., .instruction .. | .imm .., .label .. | .imm .., .memory ..
  | .imm .., .reference .. | .imm .., .register .. | .imm .., .value ..
  | .imm .., .temp .. | .imm .., .symbol .. => isFalse (by simp)
  | .symbol .., .instruction .. | .symbol .., .label .. | .symbol .., .memory ..
  | .symbol .., .reference .. | .symbol .., .register .. | .symbol .., .value ..
  | .symbol .., .temp .. | .symbol .., .imm .. => isFalse (by simp)

/-- Decides equality of lists of parts. -/
def decEqList : (a b : List Part) → Decidable (a = b)
  | [], [] => isTrue rfl
  | p :: ps, q :: qs =>
    match decEq p q, decEqList ps qs with
    | isTrue h, isTrue h' => isTrue (by rw [h, h'])
    | isFalse h, _ => isFalse (by simp [h])
    | _, isFalse h => isFalse (by simp [h])
  | [], _ :: _ => isFalse (by simp)
  | _ :: _, [] => isFalse (by simp)

/-- Decides equality of optional parts. -/
def decEqOption : (a b : Option Part) → Decidable (a = b)
  | none, none => isTrue rfl
  | some p, some q =>
    match decEq p q with
    | isTrue h => isTrue (by rw [h])
    | isFalse h => isFalse (by simp [h])
  | none, some _ => isFalse (by simp)
  | some _, none => isFalse (by simp)

end

instance : DecidableEq Part := decEq

/-! ## Classification -/

/-- Whether the part may stand alone at the top level of a tile. -/
def isStandalone : Part → Bool
  | .instruction .. | .label .. => true
  | _ => false

/-- Whether the part names storage. -/
def isRegisterLike : Part → Bool
  | .register .. | .value .. | .temp .. => true
  | _ => false

/-- Whether the part is a number, known now or to the linker. -/
def isConstant : Part → Bool
  | .imm .. | .symbol .. => true
  | _ => false

/-- A number of no particular width. -/
def literal (v : Int64) : Part := .imm v none

/-- An unconditional instruction. -/
def plain (mnemonic : String) (operands : List Part) : Part :=
  .instruction mnemonic none operands

/-- The first identifier of a path; empty for an empty path. -/
def pathHead (path : List String) : String := path.headD ""

end Part

end TileSelect
