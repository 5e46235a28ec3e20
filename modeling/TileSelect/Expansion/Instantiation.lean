import TileSelect.Expansion.Combination
import TileSelect.Expansion.Substitution
/-!
All instantiations of a match.

A match may have several alternatives for an included group, and each of them several
instantiations. Every way of choosing one instantiation for each included group is a combination,
and the template is filled in once for each. A combination for which the template makes no sense
is dropped and logged; the others are not affected.

The choices of the included groups are worked out in full before the first combination is tried.
The combinations themselves are shown by an odometer, one at a time, and only formed as far as they
are asked for.
-/

set_option autoImplicit false

namespace TileSelect

namespace Match

/-- The nodes that a match and its choices compute. -/
def coveredWith (m : Match) (chosen : List (String × Instantiation)) : NodeSet :=
  chosen.foldl (fun s choice => s.union choice.2.covered) m.covered

/-- The nodes that a match and its choices read, whether or not they compute them too. -/
def readWith (m : Match) (chosen : List (String × Instantiation)) : NodeSet :=
  chosen.foldl (fun s choice => s.union choice.2.inputs) m.inputs

/-- Fills in the template of a match for one combination. -/
def instantiate (b : Block) (m : Match) (chosen : List (String × Instantiation)) (s : Session) :
    Except SubstFault Instantiation × Session :=
  let (parts, t) :=
    (Filling.fillAll ⟨b, m, chosen⟩ m.pattern.template).run.run ⟨s.allocated, []⟩
  -- Temporaries stay allocated, whether or not the template made sense.
  let s := { s with allocated := t.allocated }
  match parts with
  | .error fault => (.error fault, s)
  | .ok parts =>
    let covered := m.coveredWith chosen
    (.ok ⟨m, parts, covered, (m.readWith chosen).diff covered, chosen⟩, s)

/-- Visits the instantiations of a match, given the options of its included groups, until the
visitor stops. -/
def visit {τ : Type} (b : Block) (m : Match)
    (use : Instantiation → τ × Session → Flow (τ × Session))
    (options : List (String × List Instantiation)) (start : τ × Session) : Flow (τ × Session) :=
  Flow.combinations
    (fun chosen (t, s) =>
      match m.instantiate b chosen s with
      | (.ok i, s) => use i (t, s)
      | (.error fault, s) => .next (t, s.note (.dropped m.root m.pattern.id fault)))
    options start

/-- Every instantiation of a match, given the options of its included groups. -/
def collect (b : Block) (m : Match) (options : List (String × List Instantiation)) (s : Session) :
    List Instantiation × Session :=
  let (found, s) := (m.visit b (fun i (found, s) => .next (i :: found, s)) options ([], s)).state
  (found.reverse, s)

mutual

/-- Every instantiation of a match, in order. -/
def instantiations (b : Block) : Match → Session → List Instantiation × Session
  | ⟨pattern, root, bindings, submatches, covered, inputs⟩, s =>
    let (options, s) := optionsOf b submatches s
    collect b ⟨pattern, root, bindings, submatches, covered, inputs⟩ options s

/-- The options of each included group: all instantiations of all its alternatives. -/
def optionsOf (b : Block) :
    List (String × List Match) → Session → List (String × List Instantiation) × Session
  | [], s => ([], s)
  | (ident, alternatives) :: rest, s =>
    let (first, s) := instantiationsOfAll b alternatives s
    let (more, s) := optionsOf b rest s
    ((ident, first) :: more, s)

/-- Every instantiation of several matches, one match after the other. -/
def instantiationsOfAll (b : Block) : List Match → Session → List Instantiation × Session
  | [], s => ([], s)
  | m :: ms, s =>
    let (first, s) := instantiations b m s
    let (more, s) := instantiationsOfAll b ms s
    (first ++ more, s)

end

/-- The first `limit` instantiations of a match; nothing after them is worked out. -/
def firstInstantiations (b : Block) (m : Match) (limit : Nat) (s : Session) :
    List Instantiation × Session :=
  let (options, s) := optionsOf b m.submatches s
  -- The options are worked out even if no combination of them is asked for.
  if limit = 0 then ([], s)
  else
    let use := fun (i : Instantiation) (state : List Instantiation × Session) =>
      let found := i :: state.1
      if found.length = limit then Flow.stop (found, state.2) else Flow.next (found, state.2)
    let (found, s) := (m.visit b use options ([], s)).state
    (found.reverse, s)

end Match

/-- The tile that an instantiation is. -/
def Instantiation.toTile (i : Instantiation) : Tile :=
  ⟨i.record.root, i.covered, i.inputs, i.parts, .pattern i.record.pattern.id⟩

end TileSelect
