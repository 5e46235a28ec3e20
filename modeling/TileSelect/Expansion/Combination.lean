/-!
Walking through combinations.

Given options under several names, a combination picks one option for each name. The walk has an
odometer in its hands, with one wheel for each name. A wheel shows the place of one of its options,
and all wheels together show a combination. To get to the next one the last wheel is turned by one
place; a wheel that passes its last option goes back to its first and takes the wheel before it
along. The odometer is exhausted when the first wheel does that, and from the start if a wheel has
no options at all. Without names there is one combination.

The visitor of a walk may stop it; combinations after that are never even formed.
-/

set_option autoImplicit false

namespace TileSelect

/-- Whether a walk goes on, with the state it has reached. -/
inductive Flow (σ : Type) where
  | next (state : σ)
  | stop (state : σ)

namespace Flow

variable {σ : Type}

/-- The state reached. -/
def state : Flow σ → σ
  | .next s => s
  | .stop s => s

end Flow

/-- Wheels with options on them, the last of which turns fastest. -/
structure Odometer (α : Type) where
  /-- The names in their order, each with the options on its wheel. -/
  wheels : List (String × List α)
  /-- The place that each wheel shows. -/
  places : List Nat
  /-- Whether all combinations have been shown. -/
  exhausted : Bool

namespace Odometer

variable {α σ : Type}

/-- Every wheel shows its first option. A wheel without options leaves no combination. -/
def start (wheels : List (String × List α)) : Odometer α :=
  ⟨wheels, List.replicate wheels.length 0, wheels.any fun wheel => wheel.2.isEmpty⟩

/-- The combination that is shown; there is none if a wheel shows a place that it does not have. -/
def shown? (o : Odometer α) : Option (List (String × α)) :=
  (o.wheels.zip o.places).mapM fun ((name, options), i) => options[i]?.map fun a => (name, a)

/-- Turns the first of some wheels by one place. If it was at its last option it goes back to its
first and the wheels behind it are turned. The flag says that all wheels have gone back. -/
def turn : List (Nat × List α) → List Nat × Bool
  | [] => ([], true)
  | (i, options) :: rest =>
    if i + 1 < options.length then ((i + 1) :: rest.map Prod.fst, false)
    else
      let (places, carried) := turn rest
      (0 :: places, carried)

/-- Steps to the next combination. The wheels are turned from the last to the first. -/
def advance (o : Odometer α) : Odometer α :=
  let (places, carried) := turn (o.places.zip (o.wheels.map Prod.snd)).reverse
  { o with places := places.reverse, exhausted := o.exhausted || carried }

/-- Visits the combinations from the one that is shown on, until the odometer is exhausted or the
visitor stops. The number is a bound on how often this goes on. -/
def walk (visit : List (String × α) → σ → Flow σ) : Nat → Odometer α → σ → Flow σ
  | 0, _, s => .next s
  | n + 1, o, s =>
    if o.exhausted then .next s
    else
      match o.shown? with
      | none => .next s
      | some chosen =>
        match visit chosen s with
        | .next s => walk visit n o.advance s
        | .stop s => .stop s

/-- How many combinations wheels have. -/
def count (wheels : List (String × List α)) : Nat :=
  wheels.foldr (fun wheel n => wheel.2.length * n) 1

end Odometer

/-- Visits all combinations. One more step than there are combinations is enough to see that the
odometer is exhausted. -/
def Flow.combinations {α σ : Type} (visit : List (String × α) → σ → Flow σ)
    (options : List (String × List α)) (s : σ) : Flow σ :=
  (Odometer.start options).walk visit (Odometer.count options + 1) s

end TileSelect
