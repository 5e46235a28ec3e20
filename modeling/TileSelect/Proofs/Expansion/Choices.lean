import Mathlib.Data.List.Forall2
import TileSelect.Expansion.Instantiation
import TileSelect.Proofs.Expansion.Odometer
import TileSelect.Proofs.Match.Exactness
/-!
Instantiations without the order in which they are found.

The code walks through combinations with a session in its hands and a visitor that may stop it.
For what an instantiation *is*, none of that matters: it is a match, one instantiation for each
included group, taken from the alternatives that were found, and the template filled in.
`Match.Instantiates` says just that, and this module shows that a walk meets nothing else.

What a walk does with what it meets is up to the visitor, so the walk is described by what it
keeps: if every visit of an instantiation keeps a fact about the state, so does the walk.
-/

set_option autoImplicit false

namespace TileSelect

/-! ## Instantiations -/

mutual

/-- An instantiation of a match: one is chosen for each included group and the template is
filled in with the choices. -/
inductive Match.Instantiates (b : Block) : Match → Instantiation → Prop
  | intro {m : Match} {chosen : List (String × Instantiation)} {parts : List Part}
      (allocated : Nat) (after : Temporaries) (chooses : Match.Chooses b m.submatches chosen)
      (filled : (Filling.fillAll ⟨b, m, chosen⟩ m.pattern.template).run.run ⟨allocated, []⟩
        = (.ok parts, after)) :
      Match.Instantiates b m ⟨m, parts, m.coveredWith chosen,
        (m.readWith chosen).diff (m.coveredWith chosen), chosen⟩

/-- For each included group, an instantiation of one of its alternatives. -/
inductive Match.Chooses (b : Block) :
    List (String × List Match) → List (String × Instantiation) → Prop
  | nil : Match.Chooses b [] []
  | cons {ident : String} {alternatives : List Match} {m : Match} {i : Instantiation}
      {rest : List (String × List Match)} {chosen : List (String × Instantiation)}
      (mem : m ∈ alternatives) (first : Match.Instantiates b m i)
      (others : Match.Chooses b rest chosen) :
      Match.Chooses b ((ident, alternatives) :: rest) ((ident, i) :: chosen)

end

namespace Match

variable {b : Block} {m : Match} {i : Instantiation}

/-- An instantiation remembers the match that it is of. -/
theorem Instantiates.record_eq (h : Instantiates b m i) : i.record = m := by
  cases h
  rfl

/-- What is chosen was to be had: it is an instantiation of one of the alternatives that were
recorded for the name. -/
theorem Chooses.of_mem {subs : List (String × List Match)}
    {chosen : List (String × Instantiation)} (h : Chooses b subs chosen) {ident : String}
    (hi : (ident, i) ∈ chosen) : ∃ ms m', (ident, ms) ∈ subs ∧ m' ∈ ms ∧ Instantiates b m' i := by
  induction subs generalizing chosen with
  | nil =>
    cases h
    cases hi
  | cons sub subs ih =>
    cases h with
    | cons mem first others =>
      rcases List.mem_cons.1 hi with heq | hi
      · cases heq
        exact ⟨_, _, List.mem_cons_self, mem, first⟩
      · obtain ⟨ms, m', hms, hm', hinst⟩ := ih others hi
        exact ⟨ms, m', List.mem_cons_of_mem _ hms, hm', hinst⟩

/-- Something is chosen for each name, among the alternatives that were recorded for it. No included
group is left without a choice. -/
theorem Chooses.exists_of_mem {subs : List (String × List Match)}
    {chosen : List (String × Instantiation)} (h : Chooses b subs chosen) {ident : String}
    {ms : List Match} (hms : (ident, ms) ∈ subs) :
    ∃ i m', (ident, i) ∈ chosen ∧ m' ∈ ms ∧ Instantiates b m' i := by
  induction subs generalizing chosen with
  | nil => cases hms
  | cons sub subs ih =>
    cases h with
    | cons mem first others =>
      rcases List.mem_cons.1 hms with heq | hms
      · cases heq
        exact ⟨_, _, List.mem_cons_self, mem, first⟩
      · obtain ⟨i, m', hi, hm', hinst⟩ := ih others hms
        exact ⟨i, m', List.mem_cons_of_mem _ hi, hm', hinst⟩

/-- Sets that are joined one after the other come to the union of all of them. -/
theorem mem_foldl_union {α : Type} {f : α → NodeSet} {l : List α} {start : NodeSet} {k : NodeId} :
    k ∈ l.foldl (fun s a => s.union (f a)) start ↔ k ∈ start ∨ ∃ a ∈ l, k ∈ f a := by
  induction l generalizing start with
  | nil => simp
  | cons a l ih =>
    rw [List.foldl_cons, ih, NodeSet.mem_union]
    simp only [List.mem_cons, exists_eq_or_imp, or_assoc]

/-- A match with its choices computes what the match covers and what the choices cover. -/
theorem mem_coveredWith {chosen : List (String × Instantiation)} {k : NodeId} :
    k ∈ m.coveredWith chosen ↔ k ∈ m.covered ∨ ∃ choice ∈ chosen, k ∈ choice.2.covered :=
  mem_foldl_union

/-- A match with its choices reads what the match reads and what the choices read. Whether some of
that is computed as well is looked at only later. -/
theorem mem_readWith {chosen : List (String × Instantiation)} {k : NodeId} :
    k ∈ m.readWith chosen ↔ k ∈ m.inputs ∨ ∃ choice ∈ chosen, k ∈ choice.2.inputs :=
  mem_foldl_union

/-- Filling in a template makes an instantiation of the choices, with the tiles and the text that
the filled-in template has. -/
theorem instantiates_of_instantiate {chosen : List (String × Instantiation)} {s s' : Session}
    (hchosen : Chooses b m.submatches chosen) (h : m.instantiate b chosen s = (.ok i, s')) :
    Instantiates b m i := by
  unfold instantiate at h
  generalize hrun : (Filling.fillAll ⟨b, m, chosen⟩ m.pattern.template).run.run ⟨s.allocated, []⟩
    = outcome at h
  obtain ⟨parts, after⟩ := outcome
  cases parts with
  | error fault => cases h
  | ok parts =>
    cases h
    exact .intro _ after hchosen hrun

/-- **A walk through a match keeps what every visit of an instantiation keeps.** The visitor may
stop the walk wherever it likes; the combinations that are dropped do not get to it. -/
theorem visit_keeps {τ : Type} {use : Instantiation → τ × Session → Flow (τ × Session)}
    (Inv : τ → Prop) {options : List (String × List Instantiation)}
    (hoptions : ∀ chosen, Flow.Picks options chosen → Chooses b m.submatches chosen)
    (huse : ∀ i, Instantiates b m i → ∀ t s, Inv t → Inv (use i (t, s)).state.1)
    {start : τ × Session} (hstart : Inv start.1) : Inv (m.visit b use options start).state.1 := by
  refine Flow.combinations_keeps (fun state : τ × Session => Inv state.1)
    (fun chosen hchosen state hinv => ?_) hstart
  -- A combination either makes an instantiation, which is visited, or leaves what was found alone.
  obtain ⟨t, s⟩ := state
  dsimp only
  split
  · rename_i i s' heq
    exact huse i (instantiates_of_instantiate (hoptions chosen hchosen) heq) t s' hinv
  · exact hinv

/-! ## The options of included groups -/

/-- Every option of a group is an instantiation of one of its alternatives. -/
def Offers (b : Block) (subs : List (String × List Match))
    (options : List (String × List Instantiation)) : Prop :=
  List.Forall₂ (fun sub option =>
    option.1 = sub.1 ∧ ∀ i ∈ option.2, ∃ m ∈ sub.2, Instantiates b m i) subs options

/-- A combination picks an instantiation of some alternative for each name, which is what a choice
is. The options keep the order of the groups, so name follows name in both. -/
theorem chooses_of_picks {subs : List (String × List Match)}
    {options : List (String × List Instantiation)} (h : Offers b subs options)
    {chosen : List (String × Instantiation)} (hp : Flow.Picks options chosen) :
    Chooses b subs chosen := by
  induction subs generalizing options chosen with
  | nil =>
    cases h
    cases hp
    exact .nil
  | cons sub subs ih =>
    cases h with
    | cons hfirst hothers =>
      cases hp with
      | @cons _ choice _ _ hpick hrest =>
        obtain ⟨ident, ms⟩ := sub
        obtain ⟨name, i⟩ := choice
        obtain ⟨m, hm, hi⟩ := hfirst.2 i hpick.2
        obtain rfl : name = ident := hpick.1.trans hfirst.1
        exact .cons hm hi (ih hothers hrest)

/-- What a walk collects are instantiations of the match, as each of them was made from a
combination of the options. -/
theorem mem_collect {options : List (String × List Instantiation)} {s : Session}
    (hoptions : Offers b m.submatches options) (hi : i ∈ (m.collect b options s).1) :
    Instantiates b m i := by
  have hkeep := @visit_keeps b m (List Instantiation)
    (fun i state => .next (i :: state.1, state.2)) (fun found => ∀ i ∈ found, Instantiates b m i)
    options (fun chosen => chooses_of_picks hoptions) (fun i hi t s ht => ?_) ([], s) (by simp)
  · unfold collect at hi
    exact hkeep i (List.mem_reverse.1 hi)
  · intro j hj
    rcases List.mem_cons.1 hj with rfl | hj
    · exact hi
    · exact ht j hj

mutual

/-- **Every instantiation that is found is one.** -/
theorem instantiates_of_mem : ∀ (m : Match) (s : Session) (i : Instantiation),
    i ∈ (instantiations b m s).1 → Instantiates b m i
  | ⟨pattern, root, bindings, submatches, covered, inputs⟩, s, i, hi => by
    rw [instantiations] at hi
    exact mem_collect (offers_optionsOf submatches s) hi

/-- The options that are worked out for the groups of a match are instantiations of their
alternatives. -/
theorem offers_optionsOf : ∀ (subs : List (String × List Match)) (s : Session),
    Offers b subs (optionsOf b subs s).1
  | [], s => .nil
  | (ident, alternatives) :: rest, s => by
    rw [optionsOf]
    exact .cons ⟨rfl, instantiates_of_mem_all alternatives s⟩ (offers_optionsOf rest _)

/-- What is found for several matches is an instantiation of one of them. They are gone through in
order, the session being handed on. -/
theorem instantiates_of_mem_all : ∀ (ms : List Match) (s : Session),
    ∀ i ∈ (instantiationsOfAll b ms s).1, ∃ m ∈ ms, Instantiates b m i
  | [], s, i, hi => by cases hi
  | m :: ms, s, i, hi => by
    rw [instantiationsOfAll] at hi
    rcases List.mem_append.1 hi with hi | hi
    · exact ⟨m, List.mem_cons_self, instantiates_of_mem m s i hi⟩
    · obtain ⟨m', hm', hinst⟩ := instantiates_of_mem_all ms _ i hi
      exact ⟨m', List.mem_cons_of_mem m hm', hinst⟩

end

end Match

/-! ## Choices and positions -/

section Placed

variable {b : Block} {inc : Inclusion} {id : NodeId} {p : Pattern} {m : Match}
  {e : Shape.Embedding} {chosen : List (String × Instantiation)} {name : String}
  (he : Shape.Placed b inc p.root id (.start p id) m e)
  (hchosen : Match.Chooses b m.submatches chosen)
include he hchosen

/-- Every choice was made for the group at some position, among what was found there. -/
theorem Shape.Placed.position_of_choice {i : Instantiation} (hi : (name, i) ∈ chosen) :
    ∃ pos g ms, p.root.at? pos = some (.inclusion name g) ∧ inc g (e pos) = .ok ms
      ∧ ∃ m' ∈ ms, m'.Instantiates b i := by
  obtain ⟨ms, m', hms, hm', hinst⟩ := hchosen.of_mem hi
  obtain ⟨pos, g, hpos, hfound⟩ := he.submatches.1 hms
  exact ⟨pos, g, ms, hpos, hfound, m', hm', hinst⟩

/-- For the group at every position there is a choice. -/
theorem Shape.Placed.choice_of_position {pos : Shape.Position} {g : String}
    (hpos : p.root.at? pos = some (.inclusion name g)) :
    ∃ i ms, (name, i) ∈ chosen ∧ inc g (e pos) = .ok ms ∧ ∃ m' ∈ ms, m'.Instantiates b i := by
  obtain ⟨-, ms, hms, -⟩ := he.lies pos _ hpos
  obtain ⟨i, m', hi, hm', hinst⟩ := hchosen.exists_of_mem (he.submatches.2 ⟨pos, g, hpos, hms⟩)
  exact ⟨i, ms, hi, hms, m', hm', hinst⟩

end Placed

end TileSelect
