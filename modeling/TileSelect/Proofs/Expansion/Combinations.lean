import TileSelect.Proofs.Expansion.Choices
/-!
Instantiations along a list.

The odometer shows the combinations of the product of the options one after the other, so a walk
through the instantiations of a match fills in its template along a list (`Match.fillEach`), and
the instantiations themselves can be written as a step that works out the options of the included
groups and then goes along their product.

Such a step takes and gives a session, which holds the count of the temporaries and the log. What is
found depends on the count alone: the log is written and never read.
-/

set_option autoImplicit false

namespace TileSelect

/-! ## Instantiations along a list -/

namespace Match

variable {b : Block} {m : Match}

/-- What a walk does with one combination. -/
def visitOne {τ : Type} (b : Block) (m : Match)
    (use : Instantiation → τ × Session → Flow (τ × Session))
    (chosen : List (String × Instantiation)) (state : τ × Session) : Flow (τ × Session) :=
  match m.instantiate b chosen state.2 with
  | (.ok i, s) => use i (state.1, s)
  | (.error fault, s) => .next (state.1, s.note (.dropped m.root m.pattern.id fault))

/-- **A walk through a match is a walk along the product of its options**, whatever the visitor does
with what it is shown, and wherever it stops. -/
theorem visit_eq_each {τ : Type} (use : Instantiation → τ × Session → Flow (τ × Session))
    (options : List (String × List Instantiation)) (start : τ × Session) :
    m.visit b use options start = Flow.each (m.visitOne b use) (Flow.product options) start := by
  rw [visit, Flow.combinations_eq_each]
  rfl

/-- Fills in the template for combinations one after the other; those for which it makes no sense
are logged and left out. -/
def fillEach (b : Block) (m : Match) :
    List (List (String × Instantiation)) → Session → List Instantiation × Session
  | [], s => ([], s)
  | chosen :: rest, s =>
    match m.instantiate b chosen s with
    | (.ok i, s) =>
      let (more, s) := fillEach b m rest s
      (i :: more, s)
    | (.error fault, s) => fillEach b m rest (s.note (.dropped m.root m.pattern.id fault))

/-- Collecting is filling in along the product. The list of what was found is built from the end, so
the statement about the walk has what was found so far in front. -/
theorem collect_eq_fillEach (options : List (String × List Instantiation)) (s : Session) :
    m.collect b options s = m.fillEach b (Flow.product options) s := by
  -- The visitor never stops, so the walk gets to the end with all that was found, last first.
  have hwalk : ∀ combos found s, Flow.each
        (m.visitOne b fun i (state : List Instantiation × Session) => .next (i :: state.1, state.2))
        combos (found, s)
      = .next ((m.fillEach b combos s).1.reverse ++ found, (m.fillEach b combos s).2) := by
    intro combos
    induction combos with
    | nil => exact fun _ _ => rfl
    | cons chosen rest ih =>
      intro found s
      rw [Flow.each, visitOne, fillEach]
      generalize m.instantiate b chosen s = outcome
      obtain ⟨result, s₁⟩ := outcome
      cases result with
      | ok i =>
        dsimp only
        rw [ih, List.reverse_cons, List.append_assoc]
        rfl
      | error fault => exact ih found _
  rw [collect, visit_eq_each, hwalk, List.append_nil]
  simp only [Flow.state, List.reverse_reverse]

/-- **All instantiations of a match:** the options of its groups first, then the template along
their product. -/
theorem instantiations_eq (b : Block) (m : Match) (s : Session) :
    instantiations b m s = m.fillEach b (Flow.product (optionsOf b m.submatches s).1)
      (optionsOf b m.submatches s).2 := by
  obtain ⟨pattern, root, bindings, submatches, covered, inputs⟩ := m
  rw [instantiations]
  exact collect_eq_fillEach _ _

/-- All instantiations of a match, as a step that counts temporaries and logs. -/
def enumerate (b : Block) (m : Match) : StateM Session (List Instantiation) := fun s =>
  instantiations b m s

/-- The instantiations of several matches are found one match after the other, with the session
handed on from each to the next. -/
theorem instantiationsOfAll_eq (b : Block) (ms : List Match) (s : Session) :
    instantiationsOfAll b ms s = (List.flatten <$> ms.mapM (enumerate b)).run s := by
  induction ms generalizing s with
  | nil => rfl
  | cons m ms ih =>
    rw [instantiationsOfAll, List.mapM_cons]
    simp only [ih]
    rfl

/-- **The options of the included groups,** name by name and alternative by alternative. The session
passes through all of them, so temporaries are numbered across groups. -/
theorem optionsOf_eq (b : Block) (subs : List (String × List Match)) (s : Session) :
    optionsOf b subs s = (subs.mapM fun sub => do
      let lists ← sub.2.mapM (enumerate b)
      return (sub.1, lists.flatten) :
        StateM Session (List (String × List Instantiation))).run s := by
  induction subs generalizing s with
  | nil => rfl
  | cons sub rest ih =>
    obtain ⟨ident, alternatives⟩ := sub
    rw [optionsOf, instantiationsOfAll_eq, List.mapM_cons]
    simp only [ih]
    rfl

end Match

/-! ## The log does not matter -/

/-- What a step gives and allocates depends on the count of temporaries alone. -/
def Session.Blind {α : Type} (f : Session → α × Session) : Prop :=
  ∀ s s' : Session, s.allocated = s'.allocated →
    (f s).1 = (f s').1 ∧ (f s).2.allocated = (f s').2.allocated

namespace Match

open Session (Blind)

variable {b : Block}

/-- The count of temporaries decides what a template becomes, and nothing else in the session does.
In particular it does not matter what was logged before. -/
theorem blind_instantiate (m : Match) (chosen : List (String × Instantiation)) :
    Blind (m.instantiate b chosen) := by
  intro s s' h
  unfold instantiate
  rw [h]
  generalize (Filling.fillAll ⟨b, m, chosen⟩ m.pattern.template).run.run ⟨s'.allocated, []⟩
    = outcome
  obtain ⟨parts, after⟩ := outcome
  cases parts <;> exact ⟨rfl, rfl⟩

/-- **Filling in along a list is blind to the log.** What one combination writes to the log is there
when the next one is filled in, so this is an induction and not a remark about one step. -/
theorem blind_fillEach (m : Match) (combos : List (List (String × Instantiation))) :
    Blind (m.fillEach b combos) := by
  induction combos with
  | nil => exact fun s s' h => ⟨rfl, h⟩
  | cons chosen rest ih =>
    intro s s' h
    obtain ⟨hfirst, hcount⟩ := blind_instantiate (b := b) m chosen s s' h
    rw [fillEach, fillEach]
    -- Both runs give the same result and leave the same count; only their logs differ.
    generalize m.instantiate b chosen s = first at hfirst hcount
    generalize m.instantiate b chosen s' = second at hfirst hcount
    obtain ⟨result, t⟩ := first
    obtain ⟨result', t'⟩ := second
    obtain rfl : result = result' := hfirst
    cases result with
    | error fault => exact ih _ _ hcount
    | ok i =>
      obtain ⟨hmore, hafter⟩ := ih t t' hcount
      exact ⟨congrArg (i :: ·) hmore, hafter⟩

mutual

/-- Finding all instantiations of a match is blind to the log, and so is all that it is made of: the
three statements follow the nesting of matches. -/
theorem blind_instantiations : ∀ m : Match, Blind (instantiations b m)
  | ⟨pattern, root, bindings, submatches, covered, inputs⟩, s, s', h => by
    obtain ⟨hoptions, hcount⟩ := blind_optionsOf submatches s s' h
    rw [instantiations_eq, instantiations_eq]
    dsimp only
    rw [hoptions]
    exact blind_fillEach _ _ _ _ hcount

/-- Working out the options of the groups is blind to the log: what is found, and the count behind
it, depend on the count alone. -/
theorem blind_optionsOf : ∀ subs : List (String × List Match), Blind (optionsOf b subs)
  | [], s, s', h => ⟨rfl, h⟩
  | (ident, alternatives) :: rest, s, s', h => by
    obtain ⟨hfirst, hcount⟩ := blind_instantiationsOfAll alternatives s s' h
    obtain ⟨hmore, hafter⟩ := blind_optionsOf rest _ _ hcount
    rw [optionsOf, optionsOf]
    dsimp only
    rw [hfirst, hmore]
    exact ⟨rfl, hafter⟩

/-- Finding the instantiations of several matches is blind to the log, match by match. -/
theorem blind_instantiationsOfAll : ∀ ms : List Match, Blind (instantiationsOfAll b ms)
  | [], s, s', h => ⟨rfl, h⟩
  | m :: ms, s, s', h => by
    obtain ⟨hfirst, hcount⟩ := blind_instantiations m s s' h
    obtain ⟨hmore, hafter⟩ := blind_instantiationsOfAll ms _ _ hcount
    rw [instantiationsOfAll, instantiationsOfAll]
    dsimp only
    rw [hfirst, hmore]
    exact ⟨rfl, hafter⟩

end

end Match

end TileSelect
