import TileSelect.Proofs.Expansion.Recounting
/-!
The numbers of temporaries do not matter.

A temporary is numbered by the count of those allocated before it, so the same template filled in
at two points of a run is written with different numbers. Nothing that selection decides looks at
them: whether a part is an address, can be halved or stands alone is the same for all temporaries
of a width.

To say so, the numbers are forgotten: the anonymous form of a part has the number 0 for every
temporary. All counts look alike then, so any two runs can be put side by side. Filling in a
template has one anonymous outcome, whatever the count it starts with, and so have all
instantiations of a match.
-/

set_option autoImplicit false

namespace TileSelect

/-! ## Forgetting numbers -/

namespace Part

mutual

/-- The part with one number for all temporaries. -/
def anonymous : Part → Part
  | .instruction mnemonic condition operands =>
    .instruction mnemonic condition (anonymousAll operands)
  | .memory ⟨base, index, scale, offset⟩ =>
    .memory ⟨anonymousOption base, anonymousOption index, scale, anonymousOption offset⟩
  | .temp _ ty half => .temp 0 ty half
  | .label name => .label name
  | .reference path half ty => .reference path half ty
  | .register r => .register r
  | .value id ty half => .value id ty half
  | .imm v ty => .imm v ty
  | .symbol name => .symbol name

/-- The same for several parts. -/
def anonymousAll : List Part → List Part
  | [] => []
  | p :: ps => anonymous p :: anonymousAll ps

/-- The same for a part that may be absent. -/
def anonymousOption : Option Part → Option Part
  | none => none
  | some p => some (anonymous p)

end

mutual

/-- Forgetting numbers renames all temporaries alike, so all that is known of renamings applies to
it. -/
theorem anonymous_eq_renameTemps : ∀ p : Part, p.anonymous = p.renameTemps fun _ => 0
  | .instruction mnemonic condition operands => by
    rw [anonymous, renameTemps, anonymousAll_eq_renameTemps operands]
  | .memory ⟨base, index, scale, offset⟩ => by
    rw [anonymous, renameTemps, anonymousOption_eq_renameTemps base,
      anonymousOption_eq_renameTemps index, anonymousOption_eq_renameTemps offset]
  | .temp .. | .label _ | .reference .. | .register _ | .value .. | .imm .. | .symbol _ => rfl

theorem anonymousAll_eq_renameTemps : ∀ ps : List Part,
    anonymousAll ps = renameTempsAll (fun _ => 0) ps
  | [] => rfl
  | p :: ps => by
    rw [anonymousAll, renameTempsAll, anonymous_eq_renameTemps p, anonymousAll_eq_renameTemps ps]

theorem anonymousOption_eq_renameTemps : ∀ o : Option Part,
    anonymousOption o = renameTempsOption (fun _ => 0) o
  | none => rfl
  | some p => by rw [anonymousOption, renameTempsOption, anonymous_eq_renameTemps p]

end

end Part

namespace Instantiation

mutual

/-- The instantiation with one number for all temporaries, those of its choices included. -/
def anonymous : Instantiation → Instantiation
  | ⟨record, parts, covered, inputs, chosen⟩ =>
    ⟨record, parts.map Part.anonymous, covered, inputs, anonymousChoices chosen⟩

/-- The same for the choices of a combination. -/
def anonymousChoices : List (String × Instantiation) → List (String × Instantiation)
  | [] => []
  | (ident, i) :: rest => (ident, anonymous i) :: anonymousChoices rest

end

mutual

/-- For instantiations as well, through all the choices that were made in them. -/
theorem anonymous_eq_renameTemps : ∀ i : Instantiation, i.anonymous = i.renameTemps fun _ => 0
  | ⟨record, parts, covered, inputs, chosen⟩ => by
    rw [anonymous, renameTemps, anonymousChoices_eq_renameTemps chosen,
      funext Part.anonymous_eq_renameTemps]

theorem anonymousChoices_eq_renameTemps : ∀ chosen : List (String × Instantiation),
    anonymousChoices chosen = renameTempsChoices (fun _ => 0) chosen
  | [] => rfl
  | (ident, i) :: rest => by
    rw [anonymousChoices, renameTempsChoices, anonymous_eq_renameTemps i,
      anonymousChoices_eq_renameTemps rest]

end

end Instantiation

/-! ## Instantiations -/

namespace Match

mutual

/-- Every match is of patterns with a property that all patterns have. -/
theorem madeWith_of_forall {P : Pattern → Prop} (h : ∀ p, P p) : ∀ m : Match, m.MadeWith P
  | ⟨pattern, _, _, submatches, _, _⟩ => .intro (h pattern) (madeWith_of_forall_subs h submatches)

theorem madeWith_of_forall_subs {P : Pattern → Prop} (h : ∀ p, P p) :
    ∀ (subs : List (String × List Match)) (ident : String) (ms : List Match),
      (ident, ms) ∈ subs → ∀ m ∈ ms, m.MadeWith P
  | [], _, _, hms => by cases hms
  | (_, alternatives) :: rest, ident, ms, hms => by
    rcases List.mem_cons.1 hms with heq | hms
    · cases heq
      exact madeWith_of_forall_all h alternatives
    · exact madeWith_of_forall_subs h rest ident ms hms

theorem madeWith_of_forall_all {P : Pattern → Prop} (h : ∀ p, P p) :
    ∀ ms : List Match, ∀ m ∈ ms, m.MadeWith P
  | [] => List.forall_mem_nil _
  | m :: ms => List.forall_mem_cons.2 ⟨madeWith_of_forall h m, madeWith_of_forall_all h ms⟩

end

/-- Any two runs, with all numbers forgotten. -/
def forgetful (s s' : Session) : SideBySide where
  left := fun _ => 0
  right := fun _ => 0
  start := s.allocated
  start' := s'.allocated
  seen _ := rfl

variable {b : Block} {m : Match}

/-- **A combination has one instantiation, numbers aside, whatever was allocated before.** The
choices may differ in their numbers, too. -/
theorem instantiate_alike {chosen chosen' : List (String × Instantiation)}
    (hchosen : Instantiation.anonymousChoices chosen = Instantiation.anonymousChoices chosen')
    (s s' : Session) :
    (m.instantiate b chosen s).1.toOption.map Instantiation.anonymous
      = (m.instantiate b chosen' s').1.toOption.map Instantiation.anonymous := by
  rw [Instantiation.anonymousChoices_eq_renameTemps,
    Instantiation.anonymousChoices_eq_renameTemps] at hchosen
  rw [funext Instantiation.anonymous_eq_renameTemps]
  exact (@alike_instantiate (forgetful s s') b m s s' _ _ rfl hchosen SideBySide.abreast_start).1

/-- **Matches have the same instantiations, numbers aside, whatever was allocated before.** -/
theorem instantiationsOfAll_alike (ms : List Match) (s s' : Session) :
    (instantiationsOfAll b ms s).1.map Instantiation.anonymous
      = (instantiationsOfAll b ms s').1.map Instantiation.anonymous := by
  rw [funext Instantiation.anonymous_eq_renameTemps]
  exact (@alike_instantiationsOfAll (forgetful s s') b ms s s'
    (madeWith_of_forall_all (fun _ => rfl) ms) SideBySide.abreast_start).1

end Match

end TileSelect
