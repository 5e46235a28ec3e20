import Mathlib.Data.List.Forall2
import Mathlib.Logic.Function.Iterate
import TileSelect.Expansion.Combination
/-!
What an odometer shows.

The walk through combinations turns wheels and never holds more than one combination. To say
*which* combinations it visits they are written down here as a list, the product of the options,
and the walk is shown to be a walk along that list (`Flow.combinations_eq_each`). Everything about
stopping is then a matter of lists.

The step that is not bookkeeping is the carry. The wheels are turned from the last to the first,
while the product is built from the first to the last, so one turn is first described from the
other end (`turned_cons`): a wheel moves exactly if all wheels behind it have gone back. With that,
what is left of the product after the combination that is shown is what is left from the places
that a turn leads to (`left_eq_cons`), and a carry out of the first wheel means that nothing is.
No number stands for a combination here: the argument needs no arithmetic with products of lengths.
-/

set_option autoImplicit false

namespace TileSelect

/-! ## Walks along lists -/

namespace Flow

variable {α σ : Type}

/-- Visits the items of a list until the visitor stops. -/
def each (visit : α → σ → Flow σ) : List α → σ → Flow σ
  | [], s => .next s
  | a :: as, s =>
    match visit a s with
    | .next s => each visit as s
    | .stop s => .stop s

/-- What every visit of an item keeps, a walk along the list keeps, whether it gets to the end or is
stopped before. -/
theorem each_keeps {visit : α → σ → Flow σ} (Inv : σ → Prop) {l : List α}
    (hvisit : ∀ a ∈ l, ∀ s, Inv s → Inv (visit a s).state) {s : σ} (hs : Inv s) :
    Inv (each visit l s).state := by
  induction l generalizing s with
  | nil => exact hs
  | cons a l ih =>
    have hfirst := hvisit a List.mem_cons_self s hs
    rw [each]
    split
    · rename_i s' heq
      rw [heq] at hfirst
      exact ih (fun x hx => hvisit x (List.mem_cons_of_mem a hx)) hfirst
    · rename_i s' heq
      rw [heq] at hfirst
      exact hfirst

/-! ## The product -/

/-- One option is picked for each name, in order. -/
def Picks (options : List (String × List α)) (chosen : List (String × α)) : Prop :=
  List.Forall₂ (fun option choice => choice.1 = option.1 ∧ choice.2 ∈ option.2) options chosen

/-- Every way of picking one option for each name. -/
def product : List (String × List α) → List (List (String × α))
  | [] => [[]]
  | (name, options) :: rest => options.flatMap fun a => (product rest).map ((name, a) :: ·)

/-- The product holds every way of picking one option for each name, and nothing else. The induction
is on the names, from the last to the first. -/
theorem mem_product {options : List (String × List α)} {chosen : List (String × α)} :
    chosen ∈ product options ↔ Picks options chosen := by
  induction options generalizing chosen with
  | nil =>
    rw [product, List.mem_singleton]
    constructor
    · rintro rfl
      exact .nil
    · intro h
      cases h
      rfl
  | cons option rest ih =>
    obtain ⟨name, as⟩ := option
    rw [product, List.mem_flatMap]
    constructor
    · rintro ⟨a, ha, hmem⟩
      obtain ⟨others, hothers, rfl⟩ := List.mem_map.1 hmem
      exact .cons ⟨rfl, ha⟩ (ih.1 hothers)
    · intro h
      cases h with
      | @cons _ choice _ others hfirst hrest =>
        obtain ⟨key, a⟩ := choice
        obtain rfl : key = name := hfirst.1
        exact ⟨a, hfirst.2, List.mem_map.2 ⟨others, ih.2 hrest, rfl⟩⟩

/-- A name without options leaves no combination, wherever it stands. This is why the walk is over
at once if some group has come to nothing. -/
theorem product_eq_nil {options : List (String × List α)} {option : String × List α}
    (hmem : option ∈ options) (hempty : option.2 = []) : product options = [] := by
  induction options with
  | nil => cases hmem
  | cons first rest ih =>
    obtain ⟨name, as⟩ := first
    rw [product]
    rcases List.mem_cons.1 hmem with rfl | hrest
    · have has : as = [] := hempty
      rw [has, List.flatMap_nil]
    · simp [ih hrest]

end Flow

/-! ## One turn -/

namespace Odometer

open TileSelect.Flow (each product)

variable {α σ : Type}

/-- The places after one turn of the wheels, and whether the first wheel has gone back. -/
def turned (wheels : List (String × List α)) (places : List Nat) : List Nat × Bool :=
  let (turned, carried) := turn (places.zip (wheels.map Prod.snd)).reverse
  (turned.reverse, carried)

/-- The wheel that is turned last is the one that is reached by a carry out of all the others. The
induction is on those others, in the order in which they are turned. -/
theorem turn_append_singleton (inner : List (Nat × List α)) (i : Nat) (options : List α) :
    turn (inner ++ [(i, options)])
      = if (turn inner).2 then
          if i + 1 < options.length then ((turn inner).1 ++ [i + 1], false)
          else ((turn inner).1 ++ [0], true)
        else ((turn inner).1 ++ [i], false) := by
  induction inner with
  | nil => rfl
  | cons wheel inner ih =>
    obtain ⟨j, others⟩ := wheel
    rw [List.cons_append, turn, turn]
    by_cases hmoves : j + 1 < others.length
    · -- The first wheel moves, so nothing is carried and all others stay.
      rw [if_pos hmoves, if_pos hmoves, if_neg Bool.false_ne_true, List.map_append]
      rfl
    · rw [if_neg hmoves, if_neg hmoves, ih]
      dsimp only
      split
      · split <;> rfl
      · rfl

/-- **A turn, from the first wheel.** It stays if a later wheel moved, moves if all later wheels have
gone back, and goes back itself if it then was at its last option. -/
theorem turned_cons (name : String) (options : List α) (rest : List (String × List α)) (i : Nat)
    (is : List Nat) :
    turned ((name, options) :: rest) (i :: is)
      = if (turned rest is).2 then
          if i + 1 < options.length then ((i + 1) :: (turned rest is).1, false)
          else (0 :: (turned rest is).1, true)
        else (i :: (turned rest is).1, false) := by
  unfold turned
  rw [List.map_cons, List.zip_cons_cons, List.reverse_cons, turn_append_singleton]
  dsimp only
  split
  · split <;> simp
  · simp

/-- Every wheel shows a place that it has. -/
def InRange (wheels : List (String × List α)) (places : List Nat) : Prop :=
  List.Forall₂ (fun wheel i => i < wheel.2.length) wheels places

/-- A turn that goes over the first wheel leads back to where the odometer started: every wheel was
at its last place and has been turned on to its first. -/
theorem places_of_over {wheels : List (String × List α)} {places : List Nat}
    (h : InRange wheels places) (hover : (turned wheels places).2 = true) :
    (turned wheels places).1 = List.replicate wheels.length 0 := by
  induction h with
  | nil => rfl
  | @cons wheel i rest is hi _ ih =>
    obtain ⟨name, options⟩ := wheel
    rw [turned_cons] at hover ⊢
    by_cases hcarry : (turned rest is).2 = true
    · by_cases hmoves : i + 1 < options.length
      · rw [if_pos hcarry, if_pos hmoves] at hover
        cases hover
      · rw [if_pos hcarry, if_neg hmoves, ih hcarry]
        rfl
    · rw [if_neg hcarry] at hover
      cases hover

/-- Turning keeps every wheel at a place that it has: a wheel that moves is not at its last option,
and one that goes back has a first option, since it showed one. -/
theorem InRange.turned {wheels : List (String × List α)} {places : List Nat}
    (h : InRange wheels places) : InRange wheels (turned wheels places).1 := by
  induction h with
  | nil => exact .nil
  | @cons wheel i rest is hi _ ih =>
    obtain ⟨name, options⟩ := wheel
    rw [turned_cons]
    split
    · split
      · rename_i hmoves
        exact .cons hmoves ih
      · exact .cons (Nat.zero_lt_of_lt hi) ih
    · exact .cons hi ih

/-! ## The order of the places -/

/-- The places of the start come before all others that the wheels have, in lexicographic order, as
each of them is zero. -/
theorem start_le {wheels : List (String × List α)} {places : List Nat}
    (h : InRange wheels places) :
    List.replicate wheels.length 0 < places ∨ List.replicate wheels.length 0 = places := by
  induction h with
  | nil => exact .inr rfl
  | @cons wheel i rest is _ _ ih =>
    rw [List.length_cons, List.replicate_succ]
    rcases Nat.eq_zero_or_pos i with rfl | hpos
    · exact ih.imp List.Lex.cons (congrArg _)
    · exact .inl (List.Lex.rel hpos)

/-- A turn that does not go over the first wheel leads to later places. The wheel that moves is the
first one in which the places differ, whatever has gone back behind it. -/
theorem lt_turned {wheels : List (String × List α)} {places : List Nat}
    (h : InRange wheels places) (hstays : (turned wheels places).2 = false) :
    places < (turned wheels places).1 := by
  induction h with
  | nil => cases hstays
  | @cons wheel i rest is _ _ ih =>
    obtain ⟨name, options⟩ := wheel
    rw [turned_cons] at hstays ⊢
    by_cases hcarry : (turned rest is).2 = true
    · by_cases hmoves : i + 1 < options.length
      · rw [if_pos hcarry, if_pos hmoves]
        exact List.Lex.rel (Nat.lt_succ_self i)
      · rw [if_pos hcarry, if_neg hmoves] at hstays
        cases hstays
    · rw [if_neg hcarry]
      exact List.Lex.cons (ih (Bool.eq_false_iff.2 hcarry))

/-- **A turn leaves nothing out.** If there are later places at all, a turn does not go over the
first wheel, and it leads to the earliest of them. -/
theorem turned_le {wheels : List (String × List α)} {places later : List Nat}
    (h : InRange wheels places) (hlater : InRange wheels later) (hlt : places < later) :
    (turned wheels places).2 = false
      ∧ ((turned wheels places).1 < later ∨ (turned wheels places).1 = later) := by
  induction h generalizing later with
  | nil =>
    cases hlater
    cases hlt
  | @cons wheel i rest is hi hrest ih =>
    obtain ⟨name, options⟩ := wheel
    cases hlater with
    | @cons _ j _ js hj hjs =>
      have hj : j < options.length := hj
      rw [turned_cons]
      by_cases hcarry : (turned rest is).2 = true
      · -- The wheels behind are at their last places, so only this one can make the difference.
        have hij : i < j := by
          rcases List.cons_lt_cons_iff.1 hlt with hij | ⟨-, htail⟩
          · exact hij
          · exact absurd ((ih hjs htail).1.symm.trans hcarry) Bool.false_ne_true
        rw [if_pos hcarry, if_pos (by omega), places_of_over hrest hcarry]
        refine ⟨rfl, ?_⟩
        rcases Nat.lt_or_eq_of_le (Nat.succ_le_of_lt hij) with hlt' | rfl
        · exact .inl (List.Lex.rel hlt')
        · exact (start_le hjs).imp List.Lex.cons (congrArg _)
      · rw [if_neg hcarry]
        refine ⟨rfl, ?_⟩
        rcases List.cons_lt_cons_iff.1 hlt with hij | ⟨rfl, htail⟩
        · exact .inl (List.Lex.rel hij)
        · exact (ih hjs htail).2.imp List.Lex.cons (congrArg _)

/-! ## What is left -/

/-- The combinations from given places on, in order. For the option that the first wheel shows they
are those that are left of the other wheels; for its later options they are all. -/
def left : List (String × List α) → List Nat → List (List (String × α))
  | (name, options) :: rest, i :: is =>
    match options.drop i with
    | [] => []
    | a :: as =>
      (left rest is).map ((name, a) :: ·)
        ++ as.flatMap fun a => (product rest).map ((name, a) :: ·)
  | [], _ => [[]]
  | _ :: _, [] => []

/-- At the start everything is left, also where that is nothing. Without options for some wheel both
sides are empty. -/
theorem left_start (wheels : List (String × List α)) :
    left wheels (List.replicate wheels.length 0) = product wheels := by
  induction wheels with
  | nil => rfl
  | cons wheel rest ih =>
    obtain ⟨name, options⟩ := wheel
    rw [List.length_cons, List.replicate_succ, left, List.drop_zero, product]
    cases options with
    | nil => rfl
    | cons a as =>
      dsimp only
      rw [ih, List.flatMap_cons]

/-- **One turn leaves all but the first.** The combination that is shown comes first of what is left,
and behind it comes what is left after a turn, or nothing if the turn goes over the first wheel. -/
theorem left_eq_cons {wheels : List (String × List α)} {places : List Nat}
    (h : InRange wheels places) :
    ∃ chosen, (wheels.zip places).mapM
        (fun wheel => wheel.1.2[wheel.2]?.map fun a => (wheel.1.1, a)) = some chosen ∧
      left wheels places
        = chosen :: if (turned wheels places).2 then [] else left wheels (turned wheels places).1 := by
  induction h with
  | nil => exact ⟨[], rfl, rfl⟩
  | @cons wheel i rest is hi hrest ih =>
    obtain ⟨name, options⟩ := wheel
    obtain ⟨others, hshown, hleft⟩ := ih
    have hi : i < options.length := hi
    have hdrop : options.drop i = options[i] :: options.drop (i + 1) := List.drop_eq_getElem_cons hi
    refine ⟨(name, options[i]) :: others, ?_, ?_⟩
    · rw [List.zip_cons_cons, List.mapM_cons, hshown]
      simp [hi]
    rw [turned_cons, left, hdrop]
    dsimp only
    by_cases hcarry : (turned rest is).2 = true
    · -- The other wheels have shown their last combination and start again.
      rw [if_pos hcarry] at hleft
      rw [if_pos hcarry, hleft, places_of_over hrest hcarry]
      by_cases hmoves : i + 1 < options.length
      · have hdrop' : options.drop (i + 1) = options[i + 1] :: options.drop (i + 2) :=
          List.drop_eq_getElem_cons hmoves
        rw [if_pos hmoves, if_neg Bool.false_ne_true, left, hdrop']
        dsimp only
        rw [left_start, List.flatMap_cons]
        rfl
      · have hnil : options.drop (i + 1) = [] := List.drop_eq_nil_of_le (by omega)
        rw [if_neg hmoves, if_pos rfl, hnil]
        rfl
    · rw [if_neg hcarry] at hleft
      rw [if_neg hcarry, if_neg Bool.false_ne_true, hleft, left, hdrop]
      rfl

/-! ## Odometers -/

/-- An odometer that is not exhausted shows a combination. -/
def Sound (o : Odometer α) : Prop := o.exhausted = false → InRange o.wheels o.places

/-- The combinations that are still to come, from the one that is shown on. -/
def upcoming (o : Odometer α) : List (List (String × α)) :=
  if o.exhausted then [] else left o.wheels o.places

/-- Wheels that all have an option show their first ones; where one has none, the odometer is
exhausted and nothing is claimed of what it shows. -/
theorem sound_start (wheels : List (String × List α)) : (start wheels).Sound := by
  intro hgo
  have hsome : ∀ wheel ∈ wheels, 0 < wheel.2.length := by
    intro wheel hmem
    have hne := List.any_eq_false.1 hgo wheel hmem
    exact List.length_pos_iff.2 fun hnil => hne (List.isEmpty_iff.2 hnil)
  show InRange wheels (List.replicate wheels.length 0)
  clear hgo
  induction wheels with
  | nil => exact .nil
  | cons wheel rest ih =>
    obtain ⟨hfirst, hrest⟩ := List.forall_mem_cons.1 hsome
    exact .cons hfirst (ih hrest)

/-- If there are places at all for the wheels, the odometer is not exhausted at the start: a place
on a wheel is an option for it. -/
theorem InRange.start_exhausted {wheels : List (String × List α)} {places : List Nat}
    (h : InRange wheels places) : (start wheels).exhausted = false := by
  induction h with
  | nil => rfl
  | @cons wheel i rest is hi _ ih =>
    have hsome : wheel.2.isEmpty = false := by
      rw [Bool.eq_false_iff]
      exact fun hempty => absurd hi (by simp [List.isEmpty_iff.1 hempty])
    show (wheel.2.isEmpty || rest.any fun wheel => wheel.2.isEmpty) = false
    rw [hsome, Bool.false_or]
    exact ih

/-- At the start the whole product is to come, whether the odometer is exhausted or not. -/
theorem upcoming_start (wheels : List (String × List α)) :
    (start wheels).upcoming = product wheels := by
  rw [upcoming]
  by_cases hempty : (start wheels).exhausted = true
  · rw [if_pos hempty]
    obtain ⟨wheel, hmem, hnil⟩ := List.any_eq_true.1 hempty
    exact (Flow.product_eq_nil hmem (List.isEmpty_iff.1 hnil)).symm
  · rw [if_neg hempty]
    exact left_start wheels

/-- **One step.** An odometer that is not exhausted shows the first of the combinations to come, and
one step on all the others are to come. -/
theorem Sound.step {o : Odometer α} (h : o.Sound) (hgo : o.exhausted = false) :
    ∃ chosen, o.shown? = some chosen ∧ o.upcoming = chosen :: o.advance.upcoming ∧
      o.advance.Sound := by
  have hrange := h hgo
  obtain ⟨chosen, hshown, hleft⟩ := left_eq_cons hrange
  have hflag : o.advance.exhausted = (turned o.wheels o.places).2 := by
    show (o.exhausted || (turned o.wheels o.places).2) = _
    rw [hgo, Bool.false_or]
  refine ⟨chosen, hshown, ?_, fun _ => hrange.turned⟩
  rw [upcoming, upcoming, hgo, if_neg Bool.false_ne_true, hflag]
  exact hleft

theorem advance_exhausted {o : Odometer α} (h : o.exhausted = true) :
    o.advance.exhausted = true := by
  show (o.exhausted || (turned o.wheels o.places).2) = true
  rw [h, Bool.true_or]

/-- An odometer is exhausted exactly if nothing is to come. In the one direction this is what the
flag says, and in the other the places show a combination. -/
theorem Sound.exhausted_iff {o : Odometer α} (h : o.Sound) :
    o.exhausted = true ↔ o.upcoming = [] := by
  constructor
  · intro hexhausted
    rw [upcoming, if_pos hexhausted]
  · intro hnil
    by_contra hgo
    obtain ⟨chosen, -, hcons, -⟩ := h.step (Bool.eq_false_iff.2 hgo)
    rw [hnil] at hcons
    cases hcons

/-- **Any number of steps.** After `k` steps the first `k` combinations are gone, and the odometer
is still sound. The induction is on the number of steps. -/
theorem Sound.iterate {o : Odometer α} (h : o.Sound) (k : Nat) :
    (advance^[k] o).Sound ∧ (advance^[k] o).upcoming = o.upcoming.drop k := by
  induction k with
  | zero => exact ⟨h, rfl⟩
  | succ k ih =>
    obtain ⟨hsound, hupcoming⟩ := ih
    rw [Function.iterate_succ_apply', ← List.drop_drop, ← hupcoming]
    by_cases hexhausted : (advance^[k] o).exhausted = true
    · -- Nothing was to come, and one step further nothing is.
      have hstays := advance_exhausted hexhausted
      refine ⟨fun hgo => absurd (hgo.symm.trans hstays) Bool.false_ne_true, ?_⟩
      rw [upcoming, if_pos hstays, upcoming, if_pos hexhausted]
      rfl
    · obtain ⟨chosen, -, hcons, hnext⟩ := hsound.step (Bool.eq_false_iff.2 hexhausted)
      rw [hcons]
      exact ⟨hnext, rfl⟩

/-- **The odometer counts through the product.** As long as there is a combination for the number of
steps made, it is the one that is shown. -/
theorem shown?_iterate (wheels : List (String × List α)) {k : Nat}
    (hk : k < (product wheels).length) :
    (advance^[k] (start wheels)).exhausted = false ∧
      (advance^[k] (start wheels)).shown? = some (product wheels)[k] := by
  obtain ⟨hsound, hupcoming⟩ := (sound_start wheels).iterate k
  rw [upcoming_start, List.drop_eq_getElem_cons hk] at hupcoming
  have hgo : (advance^[k] (start wheels)).exhausted = false := by
    rw [Bool.eq_false_iff, ne_eq, hsound.exhausted_iff, hupcoming]
    exact List.cons_ne_nil _ _
  obtain ⟨chosen, hshown, hcons, -⟩ := hsound.step hgo
  rw [hupcoming] at hcons
  obtain ⟨rfl, -⟩ := List.cons.inj hcons
  exact ⟨hgo, hshown⟩

/-- Once all combinations have been shown the odometer is exhausted. -/
theorem exhausted_iterate (wheels : List (String × List α)) {k : Nat}
    (hk : (product wheels).length ≤ k) : (advance^[k] (start wheels)).exhausted = true := by
  obtain ⟨hsound, hupcoming⟩ := (sound_start wheels).iterate k
  rw [hsound.exhausted_iff, hupcoming, upcoming_start]
  exact List.drop_eq_nil_of_le hk

/-- The wheels are the same all the time; only their places change. -/
theorem wheels_iterate (wheels : List (String × List α)) (k : Nat) :
    (advance^[k] (start wheels)).wheels = wheels := by
  induction k with
  | zero => rfl
  | succ k ih =>
    rw [Function.iterate_succ_apply']
    exact ih

/-- One more step is one more turn of the wheels from the places that were reached. The flag stays
up once it has been raised. -/
theorem advance_iterate (wheels : List (String × List α)) (k : Nat) :
    advance^[k + 1] (start wheels)
      = ⟨wheels, (turned wheels (advance^[k] (start wheels)).places).1,
          (advance^[k] (start wheels)).exhausted
            || (turned wheels (advance^[k] (start wheels)).places).2⟩ := by
  rw [Function.iterate_succ_apply']
  have hwheels := wheels_iterate wheels k
  generalize advance^[k] (start wheels) = o at hwheels
  subst hwheels
  rfl

/-- As long as there is a combination to show, every wheel shows a place that it has. -/
theorem inRange_iterate (wheels : List (String × List α)) {k : Nat}
    (hk : k < (product wheels).length) : InRange wheels (advance^[k] (start wheels)).places := by
  have hrange := ((sound_start wheels).iterate k).1 (shown?_iterate wheels hk).1
  rwa [wheels_iterate] at hrange

/-- **The places ascend.** The induction is on the steps from the earlier to the later ones, and
each step makes the places larger as long as it does not go over. -/
theorem places_lt (wheels : List (String × List α)) {j k : Nat} (hjk : j < k)
    (hk : k < (product wheels).length) :
    (advance^[j] (start wheels)).places < (advance^[k] (start wheels)).places := by
  induction k with
  | zero => omega
  | succ k ih =>
    have hbefore : k < (product wheels).length := by omega
    have hstays : (turned wheels (advance^[k] (start wheels)).places).2 = false := by
      have hgo := (shown?_iterate wheels hk).1
      rw [advance_iterate] at hgo
      exact (Bool.or_eq_false_iff.1 hgo).2
    have hstep : (advance^[k] (start wheels)).places < (advance^[k + 1] (start wheels)).places := by
      rw [advance_iterate]
      exact lt_turned (inRange_iterate wheels hbefore) hstays
    rcases Nat.lt_or_eq_of_le (Nat.le_of_lt_succ hjk) with hlt | rfl
    · exact List.lt_trans (ih hlt hbefore) hstep
    · exact hstep

/-- **All places are reached.** Otherwise the odometer would stay before the ones that are missed,
and never be exhausted. -/
theorem exists_iterate (wheels : List (String × List α)) {places : List Nat}
    (h : InRange wheels places) :
    ∃ k, k < (product wheels).length ∧ (advance^[k] (start wheels)).places = places := by
  by_contra hmissed
  push Not at hmissed
  have hbehind : ∀ k, (advance^[k] (start wheels)).exhausted = false
      ∧ ((advance^[k] (start wheels)).places < places
        ∨ (advance^[k] (start wheels)).places = places) := by
    intro k
    induction k with
    | zero => exact ⟨h.start_exhausted, start_le h⟩
    | succ k ih =>
      obtain ⟨hgo, hle⟩ := ih
      have hk : k < (product wheels).length := by
        by_contra hge
        exact Bool.false_ne_true (hgo.symm.trans (exhausted_iterate wheels (by omega)))
      have hlt := hle.resolve_right (hmissed k hk)
      obtain ⟨hstays, hnext⟩ := turned_le (inRange_iterate wheels hk) h hlt
      rw [advance_iterate]
      exact ⟨by rw [hgo, hstays]; rfl, hnext⟩
  have hend := exhausted_iterate wheels (Nat.le_refl (product wheels).length)
  exact Bool.false_ne_true ((hbehind _).1.symm.trans hend)

/-- What it means that an odometer shows certain combinations, one after the other. -/
structure Counts (wheels : List (String × List α)) (visited : List (List (String × α))) :
    Prop where
  /-- After `k` steps it shows the `k`-th of them. -/
  shows : ∀ k (h : k < visited.length), (advance^[k] (start wheels)).exhausted = false
    ∧ (advance^[k] (start wheels)).shown? = some visited[k]
  /-- After all of them it is exhausted. -/
  ends : ∀ k, visited.length ≤ k → (advance^[k] (start wheels)).exhausted = true
  /-- The places of the wheels ascend lexicographically, so the last wheel changes fastest and no
  places are shown twice. -/
  ascends : ∀ j k, j < k → k < visited.length →
    (advance^[j] (start wheels)).places < (advance^[k] (start wheels)).places
  /-- The places that are shown are those that the wheels have. -/
  reaches : ∀ places, List.Forall₂ (fun wheel i => i < wheel.2.length) wheels places
    ↔ ∃ k, k < visited.length ∧ (advance^[k] (start wheels)).places = places

/-- **The odometer counts through the product.** It shows each combination at its number, with
places that ascend, and is exhausted after the last one. -/
theorem counts_product (wheels : List (String × List α)) : Counts wheels (product wheels) where
  shows _ hk := shown?_iterate wheels hk
  ends _ hk := exhausted_iterate wheels hk
  ascends _ _ hjk hk := places_lt wheels hjk hk
  reaches places := by
    constructor
    · exact exists_iterate wheels
    · rintro ⟨k, hk, rfl⟩
      exact inRange_iterate wheels hk

/-! ## The walk -/

/-- The length of the product is the product of the lengths. This is the bound on the number of
steps, and it is never used up before the odometer is exhausted. -/
theorem length_product (wheels : List (String × List α)) :
    (product wheels).length = count wheels := by
  induction wheels with
  | nil => rfl
  | cons wheel rest ih =>
    obtain ⟨name, options⟩ := wheel
    rw [product, List.length_flatMap]
    simp only [List.length_map, ih, List.map_const', List.sum_replicate_nat]
    rfl

/-- A walk that may make more steps than there are combinations to come is a walk along these; so it
ends because the odometer is exhausted, or because the visitor stops it, and not at its bound. -/
theorem Sound.walk_eq_each (visit : List (String × α) → σ → Flow σ) {o : Odometer α} (h : o.Sound)
    {n : Nat} (hn : o.upcoming.length < n) (s : σ) :
    o.walk visit n s = each visit o.upcoming s := by
  induction n generalizing o s with
  | zero => omega
  | succ n ih =>
    rw [walk]
    by_cases hexhausted : o.exhausted = true
    · rw [if_pos hexhausted, h.exhausted_iff.1 hexhausted]
      rfl
    · obtain ⟨chosen, hshown, hcons, hnext⟩ := h.step (Bool.eq_false_iff.2 hexhausted)
      rw [hcons, List.length_cons] at hn
      rw [if_neg hexhausted, hshown, hcons, each]
      dsimp only
      cases visit chosen s with
      | next s => exact ih hnext (by omega) s
      | stop s => rfl

end Odometer

namespace Flow

variable {α σ : Type}

/-- **The walk through combinations is a walk along the product.** Where the visitor stops, both
stop, and they leave the same state. -/
theorem combinations_eq_each (visit : List (String × α) → σ → Flow σ)
    (options : List (String × List α)) (s : σ) :
    combinations visit options s = each visit (product options) s := by
  have hbound : (Odometer.start options).upcoming.length < Odometer.count options + 1 := by
    rw [Odometer.upcoming_start, Odometer.length_product]
    exact Nat.lt_succ_self _
  rw [combinations, (Odometer.sound_start options).walk_eq_each visit hbound,
    Odometer.upcoming_start]

/-- What every visit of a combination keeps, the walk through all combinations keeps. -/
theorem combinations_keeps {visit : List (String × α) → σ → Flow σ} (Inv : σ → Prop)
    {options : List (String × List α)}
    (hvisit : ∀ chosen, Picks options chosen → ∀ s, Inv s → Inv (visit chosen s).state)
    {s : σ} (hs : Inv s) : Inv (combinations visit options s).state := by
  rw [combinations_eq_each]
  exact each_keeps Inv (fun chosen hmem => hvisit chosen (mem_product.1 hmem)) hs

end Flow

end TileSelect
