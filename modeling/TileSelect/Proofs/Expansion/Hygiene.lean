import TileSelect.Proofs.Expansion.Closure
import TileSelect.Proofs.Expansion.Combinations
import TileSelect.Proofs.Expansion.Rendering
/-!
Temporaries of different templates.

One count numbers all temporaries, so what keeps templates apart is the order in which they are
filled in. This module writes that order down: the combinations that are tried while the
instantiations of a match are worked out, each with the session it is tried in. They are chained:
each starts where the one before it ended, whether that one succeeded or was dropped, and nothing
else allocates (`Match.chained_combinations`).

What an instantiation carries was therefore issued in a stretch of the count that is its own. The
choices of a combination come from stretches that follow each other, one for each name, and all of
them lie before the combination is tried. Only a number that some template spells out itself
belongs to no stretch.
-/

set_option autoImplicit false

namespace TileSelect

open Session (Issues)

/-! ## Stretches -/

section Stretches

variable {α : Type} {S : Nat → Prop} {carries : α → Nat → Prop} {lo hi lo' hi' : Nat} {l : List α}

/-- The numbers that items carry were issued in stretches that follow each other, one for each
item, numbers of one kind excepted. -/
def Stretched (S : Nat → Prop) (carries : α → Nat → Prop) : Nat → List α → Nat → Prop
  | lo, [], hi => lo ≤ hi
  | lo, a :: as, hi =>
    ∃ mid, lo ≤ mid ∧ (∀ n, carries a n → S n ∨ Issues lo mid n) ∧ Stretched S carries mid as hi

/-- Stretches that follow each other end no sooner than they start. -/
theorem Stretched.le (h : Stretched S carries lo l hi) : lo ≤ hi := by
  induction l generalizing lo with
  | nil => exact h
  | cons a l ih =>
    obtain ⟨mid, hmid, -, hrest⟩ := h
    exact hmid.trans (ih hrest)

/-- The room for the stretches may be made larger at either end, since only the stretches themselves
have to follow each other. -/
theorem Stretched.mono (hlo : lo' ≤ lo) (hhi : hi ≤ hi') (h : Stretched S carries lo l hi) :
    Stretched S carries lo' l hi' := by
  induction l generalizing lo lo' with
  | nil => exact hlo.trans (Nat.le_trans h hhi)
  | cons a l ih =>
    obtain ⟨mid, hmid, hfirst, hrest⟩ := h
    refine ⟨mid, hlo.trans hmid, fun n hn => ?_, ih (Nat.le_refl mid) hrest⟩
    exact (hfirst n hn).imp_right (Issues.mono hlo (Nat.le_refl mid))

/-- What an item carries was issued within the whole, if it is not of the excepted kind. The
exception is for numbers that templates spell out. -/
theorem Stretched.issues (h : Stretched S carries lo l hi) {a : α} (ha : a ∈ l) {n : Nat}
    (hn : carries a n) : S n ∨ Issues lo hi n := by
  induction l generalizing lo with
  | nil => cases ha
  | cons c l ih =>
    obtain ⟨mid, hmid, hfirst, hrest⟩ := h
    rcases List.mem_cons.1 ha with rfl | ha
    · exact (hfirst n hn).imp_right (Issues.mono (Nat.le_refl lo) hrest.le)
    · exact (ih hrest ha).imp_right (Issues.mono hmid (Nat.le_refl hi))

/-- **As long as the count does not wrap, different items carry different numbers**, those of the
one kind excepted. The induction peels off the first stretch, which ends before all others start. -/
theorem Stretched.apart (hfew : hi ≤ 2 ^ 32) (h : Stretched S carries lo l hi) :
    l.Pairwise fun a c => ∀ n, carries a n → carries c n → S n := by
  induction l generalizing lo with
  | nil => exact .nil
  | cons a l ih =>
    obtain ⟨mid, -, hfirst, hrest⟩ := h
    refine .cons (fun c hc n ha hn => ?_) (ih hrest)
    rcases hfirst n ha with hS | hissued
    · exact hS
    · rcases hrest.issues hc hn with hS | hissued'
      · exact hS
      · exact (Session.not_issues_of_issues hfew hissued hissued').elim

theorem Stretched.apart_of_ne (hfew : hi ≤ 2 ^ 32) (h : Stretched S carries lo l hi) {a c : α}
    (ha : a ∈ l) (hc : c ∈ l) (hne : a ≠ c) {n : Nat} (hn : carries a n) (hn' : carries c n) :
    S n := by
  have hsymm : Std.Symm fun a c => ∀ n, carries a n → carries c n → S n :=
    ⟨fun _ _ h n hn hn' => h n hn' hn⟩
  exact (h.apart hfew).forall ha hc hne n hn hn'

end Stretches

/-! ## What instantiations carry -/

namespace Instantiation

variable {i : Instantiation} {n : Nat}

/-- A temporary of this number occurs in what the instantiation emits, or in what anything chosen in
it emits. -/
def Carries (i : Instantiation) (n : Nat) : Prop := ∃ j, i.Contains j ∧ ∃ p ∈ j.parts, n ∈ p.temps

/-- An instantiation carries the temporaries of what it emits and those that its choices carry,
however deep they are nested. -/
theorem carries_iff :
    i.Carries n ↔ (∃ p ∈ i.parts, n ∈ p.temps) ∨ ∃ choice ∈ i.chosen, choice.2.Carries n := by
  constructor
  · rintro ⟨j, hj, hn⟩
    rcases Relation.ReflTransGen.cases_head hj with rfl | ⟨sub, ⟨name, hsub⟩, hj⟩
    · exact .inl hn
    · exact .inr ⟨(name, sub), hsub, j, hj, hn⟩
  · rintro (hn | ⟨⟨name, sub⟩, hsub, j, hj, hn⟩)
    · exact ⟨i, .refl, hn⟩
    · exact ⟨j, .head ⟨name, hsub⟩ hj, hn⟩

end Instantiation

/-- The value of a node is no temporary, so what a template captures brings none in. -/
theorem Filling.temps_of_valueOf {b : Block} {k : NodeId} {r : Part}
    (h : valueOf b k = .ok r) : r.temps = [] := by
  unfold valueOf at h
  split at h
  · rename_i p hp
    cases h
    obtain ⟨v, ty, rfl, -⟩ := Block.valueOf?_eq_some hp
    rfl
  · cases h

/-- A captured node is written without any temporary: as a number, a symbol or a value. Temporaries
come from the template and from what was chosen. -/
theorem Filling.temps_of_captured {b : Block} {m : Match} {name : String} {k : NodeId} {r : Part}
    (h : captured b m name k = .ok r) : r.temps = [] := by
  unfold captured constantOf at h
  split at h
  · split at h
    · split at h
      · cases h
        rfl
      · cases h
        rfl
      · exact temps_of_valueOf h
    · exact temps_of_valueOf h
  · exact temps_of_valueOf h

/-- What a path stands for has its temporaries from a choice. Those of the template itself are not
looked up in this way, and are left to the rendering. -/
theorem Filling.StandsFor.carries {b : Block} {m : Match} {chosen : List (String × Instantiation)}
    {path : List String} {r : Part} (h : StandsFor ⟨b, m, chosen⟩ path r) {n : Nat}
    (hn : n ∈ r.temps) : ∃ choice ∈ chosen, choice.2.Carries n := by
  induction path generalizing m chosen with
  | nil => cases h
  | cons head rest ih =>
    rcases h.inv with ⟨-, -, hvalue⟩ | ⟨-, ⟨k, -, -, hfound⟩ | ⟨sub, hsub, hcase⟩⟩
    · -- The root and a captured node bring no temporary; what is left is a choice, whole or further
      -- down.
      rw [temps_of_valueOf hvalue] at hn
      cases hn
    · rw [temps_of_captured hfound] at hn
      cases hn
    · refine ⟨(head, sub), Keyed.mem_of_get? hsub, Instantiation.carries_iff.2 ?_⟩
      rcases hcase with ⟨-, hparts⟩ | ⟨-, hrest⟩
      · exact .inl ⟨r, by rw [hparts]; exact List.mem_singleton_self r, hn⟩
      · exact .inr (ih hrest)

/-- The template spells out numbers of one kind only. -/
def Pattern.SpellsIn (S : Nat → Prop) (p : Pattern) : Prop := ∀ q ∈ p.template, q.TempsIn S

/-! ## Combinations -/

/-- A combination that is tried: a match, what is chosen for each of its groups, and the session
before its template is filled in. -/
structure Combination where
  record : Match
  chosen : List (String × Instantiation)
  before : Session

namespace Combination

variable {b : Block} {S : Nat → Prop} {c : Combination} {i : Instantiation} {s : Session}
  {lo : Nat}

/-- Fills in the template. -/
def run (b : Block) (c : Combination) : Except SubstFault Instantiation × Session :=
  c.record.instantiate b c.chosen c.before

/-- Trying a combination only adds temporaries, also if it is dropped. The count never goes back,
and so no number is issued twice. -/
theorem le_run (b : Block) (c : Combination) : c.before.allocated ≤ (c.run b).2.allocated := by
  have hgrows := Filling.grows_fillAll ⟨b, c.record, c.chosen⟩ c.record.pattern.template
    ⟨c.before.allocated, []⟩
  unfold run Match.instantiate
  generalize (Filling.fillAll ⟨b, c.record, c.chosen⟩ c.record.pattern.template).run.run
    ⟨c.before.allocated, []⟩ = outcome at hgrows ⊢
  obtain ⟨parts, t⟩ := outcome
  cases parts <;> exact hgrows

/-- **What a combination becomes**: its template, rendered with the numbers it was issued. The
numbering is one of the names in the template, each of which has a number of its own. -/
theorem exists_render (h : c.run b = (.ok i, s)) :
    i.chosen = c.chosen ∧ ∃ den, Naming c.before.allocated s.allocated den
      ∧ Filling.renderAll ⟨b, c.record, c.chosen⟩ den c.record.pattern.template = .ok i.parts := by
  unfold run Match.instantiate at h
  generalize hfill : (Filling.fillAll ⟨b, c.record, c.chosen⟩ c.record.pattern.template).run.run
    ⟨c.before.allocated, []⟩ = outcome at h
  obtain ⟨parts, t⟩ := outcome
  cases parts with
  | error fault => cases h
  | ok parts =>
    cases h
    exact ⟨rfl, Filling.exists_render hfill⟩

/-- The template spells out numbers of one kind only. All other numbers that the choices carry are
from stretches that follow each other, one for each name, after `lo` and before the combination is
tried. -/
structure Sound (S : Nat → Prop) (lo : Nat) (c : Combination) : Prop where
  spelled : c.record.pattern.SpellsIn S
  stretched : Stretched S (fun choice => choice.2.Carries) lo c.chosen c.before.allocated

/-- A combination that is sound from some number on is sound from any smaller one on. -/
theorem Sound.mono {lo' : Nat} (hlo : lo' ≤ lo) (h : c.Sound S lo) : c.Sound S lo' :=
  ⟨h.spelled, h.stretched.mono hlo (Nat.le_refl _)⟩

/-- The result of a combination carries what its choices carry, what it was issued itself and what
its template spells out. The stretch of its own numbers starts where those of the choices ended. -/
theorem Sound.issues (hc : c.Sound S lo) (h : c.run b = (.ok i, s)) {n : Nat} (hn : i.Carries n) :
    S n ∨ Issues lo s.allocated n := by
  have hle : c.before.allocated ≤ s.allocated := by
    have hrun := c.le_run b
    rwa [h] at hrun
  obtain ⟨hchosen, den, hnaming, hrender⟩ := exists_render h
  have hchoice : (∃ choice ∈ c.chosen, choice.2.Carries n) → S n ∨ Issues lo s.allocated n := by
    rintro ⟨choice, hmem, hn⟩
    exact (hc.stretched.issues hmem hn).imp_right (Issues.mono (Nat.le_refl lo) hle)
  rcases Instantiation.carries_iff.1 hn with ⟨q, hq, hn⟩ | hinner
  · -- The number comes out of the template, so it went in.
    have hsupplies : Filling.Supplies ⟨b, c.record, c.chosen⟩ den fun n =>
        S n ∨ Issues c.before.allocated s.allocated n
          ∨ ∃ choice ∈ c.chosen, choice.2.Carries n :=
      ⟨fun key k hk => .inr (.inl (hnaming.range key k hk)),
        fun path r hr k hk => .inr (.inr (hr.carries hk))⟩
    have htemplate := Filling.tempsIn_renderAll hsupplies _ _
      (fun p hp => (hc.spelled p hp).mono fun n => .inl) hrender q hq n hn
    rcases htemplate with hS | hissued | hinner
    · exact .inl hS
    · exact .inr (hissued.mono hc.stretched.le (Nat.le_refl _))
    · exact hchoice hinner
  · rw [hchosen] at hinner
    exact hchoice hinner

/-! ## One after the other -/

/-- Combinations that are tried one after the other, each from where the one before it ended, while
the count goes from `lo` to `hi`. -/
def Chained (b : Block) : Nat → List Combination → Nat → Prop
  | lo, [], hi => lo = hi
  | lo, c :: cs, hi => c.before.allocated = lo ∧ Chained b (c.run b).2.allocated cs hi

variable {hi mid : Nat} {cs cs' : List Combination}

theorem Chained.append (h : Chained b lo cs mid) (h' : Chained b mid cs' hi) :
    Chained b lo (cs ++ cs') hi := by
  induction cs generalizing lo with
  | nil => exact (show lo = mid from h) ▸ h'
  | cons c cs ih => exact ⟨h.1, ih h.2⟩

/-- Along a chain the count never gets smaller. -/
theorem Chained.le (h : Chained b lo cs hi) : lo ≤ hi := by
  induction cs generalizing lo with
  | nil => exact Nat.le_of_eq h
  | cons c cs ih =>
    obtain ⟨rfl, hrest⟩ := h
    exact (c.le_run b).trans (ih hrest)

/-- Each combination of a chain starts and ends between the ends of the chain, since the ones in
between only add. -/
theorem Chained.of_mem (h : Chained b lo cs hi) (hc : c ∈ cs) :
    lo ≤ c.before.allocated ∧ (c.run b).2.allocated ≤ hi := by
  induction cs generalizing lo with
  | nil => cases hc
  | cons c' cs ih =>
    obtain ⟨rfl, hrest⟩ := h
    rcases List.mem_cons.1 hc with rfl | hc
    · exact ⟨Nat.le_refl _, hrest.le⟩
    · exact ⟨(c'.le_run b).trans (ih hrest hc).1, (ih hrest hc).2⟩

/-- One of the combinations made sense and became the instantiation. -/
def Becomes (b : Block) (cs : List Combination) (i : Instantiation) : Prop :=
  ∃ c ∈ cs, ∃ s, c.run b = (.ok i, s)

/-- What one of the first combinations became, one of all of them became. -/
theorem Becomes.append_left (h : Becomes b cs i) : Becomes b (cs ++ cs') i := by
  obtain ⟨c, hc, hrun⟩ := h
  exact ⟨c, List.mem_append_left cs' hc, hrun⟩

/-- What one of the last combinations became, one of all of them became. -/
theorem Becomes.append_right (h : Becomes b cs' i) : Becomes b (cs ++ cs') i := by
  obtain ⟨c, hc, hrun⟩ := h
  exact ⟨c, List.mem_append_right cs hc, hrun⟩

/-- What chained sound combinations become carries numbers that were issued on the way. -/
theorem Becomes.issues (hchained : Chained b lo cs hi) (hsound : ∀ c ∈ cs, c.Sound S lo)
    (h : Becomes b cs i) {n : Nat} (hn : i.Carries n) : S n ∨ Issues lo hi n := by
  obtain ⟨c, hc, s, hrun⟩ := h
  have hend := (hchained.of_mem hc).2
  rw [hrun] at hend
  exact ((hsound c hc).issues hrun hn).imp_right (Issues.mono (Nat.le_refl lo) hend)

end Combination

open Combination (Becomes Chained)

namespace Match

variable {b : Block} {m : Match}

/-! ## Walks -/

section Walks

variable {τ : Type} {use : Instantiation → τ × Session → Flow (τ × Session)}
  {combos : List (List (String × Instantiation))}

/-- The combinations that a walk tries, until its visitor stops it. -/
def tried (b : Block) (m : Match) (use : Instantiation → τ × Session → Flow (τ × Session)) :
    List (List (String × Instantiation)) → τ × Session → List Combination
  | [], _ => []
  | chosen :: rest, state =>
    ⟨m, chosen, state.2⟩ ::
      match m.visitOne b use chosen state with
      | .next state => m.tried b use rest state
      | .stop _ => []

/-- What a walk tries are combinations of its match, taken from the list along which it goes. A walk
that stops early tries fewer of them. -/
theorem of_mem_tried {c : Combination} {state : τ × Session}
    (hc : c ∈ m.tried b use combos state) : c.record = m ∧ c.chosen ∈ combos := by
  induction combos generalizing state with
  | nil => cases hc
  | cons chosen rest ih =>
    rcases List.mem_cons.1 hc with rfl | hc
    · exact ⟨rfl, List.mem_cons_self⟩
    · split at hc
      · obtain ⟨hrecord, hmem⟩ := ih hc
        exact ⟨hrecord, List.mem_cons_of_mem chosen hmem⟩
      · cases hc

/-- The visitor allocates nothing. -/
def Counts (use : Instantiation → τ × Session → Flow (τ × Session)) : Prop :=
  ∀ i t s, (use i (t, s)).state.2.allocated = s.allocated

/-- A visitor that allocates nothing leaves the count where filling in the template left it, so the
count can be read off the combinations alone. -/
theorem visitOne_allocated (huse : Counts use) (chosen : List (String × Instantiation))
    (state : τ × Session) : (m.visitOne b use chosen state).state.2.allocated
      = ((Combination.mk m chosen state.2).run b).2.allocated := by
  unfold visitOne Combination.run
  dsimp only
  generalize m.instantiate b chosen state.2 = outcome
  obtain ⟨result, s⟩ := outcome
  cases result with
  | ok i => exact huse i state.1 s
  | error fault => rfl

/-- **What a walk tries is chained.** Each combination starts from the count that the one before it
left, also if that one was dropped. -/
theorem chained_tried (huse : Counts use) (state : τ × Session) :
    Chained b state.2.allocated (m.tried b use combos state)
      (Flow.each (m.visitOne b use) combos state).state.2.allocated := by
  induction combos generalizing state with
  | nil => rfl
  | cons chosen rest ih =>
    refine ⟨rfl, ?_⟩
    rw [← visitOne_allocated huse, Flow.each]
    generalize m.visitOne b use chosen state = outcome
    cases outcome with
    | next state' => exact ih state'
    | stop state' => rfl

/-- A walk keeps what every combination that succeeds keeps. Unlike `Flow.each_keeps`, this says
nothing about combinations that come after the walk was stopped. -/
theorem each_keeps_of_tried (Inv : τ → Prop) {state : τ × Session}
    (hstep : ∀ c ∈ m.tried b use combos state, ∀ i s, c.run b = (.ok i, s) →
      ∀ t, Inv t → Inv (use i (t, s)).state.1)
    (hstart : Inv state.1) : Inv (Flow.each (m.visitOne b use) combos state).state.1 := by
  induction combos generalizing state with
  | nil => exact hstart
  | cons chosen rest ih =>
    -- The combination succeeds and is visited, or fails and leaves the state to the log.
    have hfirst : Inv (m.visitOne b use chosen state).state.1 := by
      have hrun := hstep ⟨m, chosen, state.2⟩ List.mem_cons_self
      unfold visitOne
      unfold Combination.run at hrun
      dsimp only at hrun
      generalize m.instantiate b chosen state.2 = outcome at hrun
      obtain ⟨result, s⟩ := outcome
      cases result with
      | ok i => exact hrun i s rfl state.1 hstart
      | error fault => exact hstart
    -- What is tried after a step is tried in the whole.
    have hrest : ∀ state', m.visitOne b use chosen state = .next state' →
        ∀ c ∈ m.tried b use rest state', c ∈ m.tried b use (chosen :: rest) state := by
      intro state' hstate c hc
      rw [tried, hstate]
      exact List.mem_cons_of_mem _ hc
    rw [Flow.each]
    cases hvisit : m.visitOne b use chosen state with
    | next state' =>
      rw [hvisit] at hfirst
      exact ih (fun c hc => hstep c (hrest state' hvisit c hc)) hfirst
    | stop state' =>
      rw [hvisit] at hfirst
      exact hfirst

end Walks

/-! ## All instantiations -/

/-- The visitor that collects instantiations. -/
def gather (i : Instantiation) (state : List Instantiation × Session) :
    Flow (List Instantiation × Session) :=
  .next (i :: state.1, state.2)

theorem counts_gather : Counts gather := fun _ _ _ => rfl

/-- Collecting is a walk with a visitor that allocates nothing. -/
theorem collect_eq_gather (options : List (String × List Instantiation)) (s : Session) :
    m.collect b options s
      = ((Flow.each (m.visitOne b gather) (Flow.product options) ([], s)).state.1.reverse,
          (Flow.each (m.visitOne b gather) (Flow.product options) ([], s)).state.2) := by
  rw [← visit_eq_each]
  rfl

mutual

/-- The combinations that are tried to work out all instantiations of a match: first those of its
included groups, then its own. -/
def combinations (b : Block) : Match → Session → List Combination
  | ⟨pattern, root, bindings, submatches, covered, inputs⟩, s =>
    combinationsOfOptions b submatches s
      ++ tried b ⟨pattern, root, bindings, submatches, covered, inputs⟩ gather
          (Flow.product (optionsOf b submatches s).1) ([], (optionsOf b submatches s).2)

/-- The combinations that are tried to work out the options of included groups. -/
def combinationsOfOptions (b : Block) : List (String × List Match) → Session → List Combination
  | [], _ => []
  | (_, alternatives) :: rest, s =>
    combinationsOfAll b alternatives s
      ++ combinationsOfOptions b rest (instantiationsOfAll b alternatives s).2

/-- The combinations that are tried to work out all instantiations of several matches. -/
def combinationsOfAll (b : Block) : List Match → Session → List Combination
  | [], _ => []
  | m :: ms, s => combinations b m s ++ combinationsOfAll b ms (instantiations b m s).2

end

mutual

/-- **All combinations that are tried are chained**, however deep groups are nested. Those of the
groups come first, and then those of the match. -/
theorem chained_combinations (b : Block) : ∀ (m : Match) (s : Session),
    Chained b s.allocated (combinations b m s) (instantiations b m s).2.allocated
  | ⟨pattern, root, bindings, submatches, covered, inputs⟩, s => by
    rw [combinations, instantiations]
    dsimp only
    rw [collect_eq_gather]
    exact (chained_combinationsOfOptions b submatches s).append
      (chained_tried counts_gather ([], (optionsOf b submatches s).2))

/-- The combinations for the options are chained, name by name. The options of a name start where
those of the one before have ended. -/
theorem chained_combinationsOfOptions (b : Block) : ∀ (subs : List (String × List Match))
    (s : Session),
    Chained b s.allocated (combinationsOfOptions b subs s) (optionsOf b subs s).2.allocated
  | [], _ => rfl
  | (_, alternatives) :: rest, s => by
    rw [combinationsOfOptions, optionsOf]
    exact (chained_combinationsOfAll b alternatives s).append
      (chained_combinationsOfOptions b rest _)

/-- The combinations for several matches are chained, match by match. -/
theorem chained_combinationsOfAll (b : Block) : ∀ (ms : List Match) (s : Session),
    Chained b s.allocated (combinationsOfAll b ms s) (instantiationsOfAll b ms s).2.allocated
  | [], _ => rfl
  | m :: ms, s => by
    rw [combinationsOfAll, instantiationsOfAll]
    exact (chained_combinations b m s).append (chained_combinationsOfAll b ms _)

end

/-- Every instantiation that is found is what a combination became: its own, or for a group inside,
one of those that were tried before. -/
theorem becomes_of_instantiations (m : Match) (s : Session) :
    ∀ i ∈ (instantiations b m s).1, Becomes b (combinations b m s) i := by
  obtain ⟨pattern, root, bindings, submatches, covered, inputs⟩ := m
  rw [instantiations, combinations]
  dsimp only
  rw [collect_eq_gather]
  intro i hi
  refine .append_right (each_keeps_of_tried (fun found => ∀ i ∈ found, Becomes b _ i)
    (fun c hc i s' hrun found hfound => ?_) (fun i hi => by cases hi) i (List.mem_reverse.1 hi))
  exact List.forall_mem_cons.2 ⟨⟨c, hc, s', hrun⟩, hfound⟩

/-- What is found for several matches is what a combination of one of them became, and the choices
inside became so as well. -/
theorem becomes_of_instantiationsOfAll (ms : List Match) (s : Session) :
    ∀ i ∈ (instantiationsOfAll b ms s).1, Becomes b (combinationsOfAll b ms s) i := by
  induction ms generalizing s with
  | nil => exact fun i hi => by cases hi
  | cons m ms ih =>
    intro i hi
    rw [instantiationsOfAll] at hi
    rw [combinationsOfAll]
    rcases List.mem_append.1 hi with hi | hi
    · exact (becomes_of_instantiations m s i hi).append_left
    · exact (ih _ i hi).append_right

/-! ## Stretches of instantiations -/

/-- The match and all alternatives inside it are of patterns with a property. -/
inductive MadeWith (P : Pattern → Prop) : Match → Prop
  | intro {m : Match} (pattern : P m.pattern)
      (submatches : ∀ ident ms, (ident, ms) ∈ m.submatches → ∀ m' ∈ ms, MadeWith P m') :
      MadeWith P m

/-- What holds of all alternatives holds of those of the first name and of those of all others. -/
theorem forall_alternatives_cons {P : Match → Prop} {sub : String × List Match}
    {rest : List (String × List Match)}
    (h : ∀ ident ms, (ident, ms) ∈ sub :: rest → ∀ m ∈ ms, P m) :
    (∀ m ∈ sub.2, P m) ∧ ∀ ident ms, (ident, ms) ∈ rest → ∀ m ∈ ms, P m :=
  ⟨h sub.1 sub.2 List.mem_cons_self, fun ident ms hms => h ident ms (List.mem_cons_of_mem _ hms)⟩

variable {S : Nat → Prop} {lo hi : Nat}

/-- The options of each name carry numbers of their own stretch. -/
abbrev StretchedOptions (S : Nat → Prop) :
    Nat → List (String × List Instantiation) → Nat → Prop :=
  Stretched S fun option n => ∃ i ∈ option.2, i.Carries n

/-- Picking one option for each name keeps the stretches, since each name has one of its own and
only one option is picked from it. -/
theorem stretched_of_mem_product {options : List (String × List Instantiation)}
    (h : StretchedOptions S lo options hi) {chosen : List (String × Instantiation)}
    (hchosen : chosen ∈ Flow.product options) :
    Stretched S (fun choice => choice.2.Carries) lo chosen hi := by
  have hpicks : Flow.Picks options chosen := Flow.mem_product.1 hchosen
  clear hchosen
  induction hpicks generalizing lo with
  | nil => exact h
  | cons hpick _ ih =>
    obtain ⟨mid, hmid, hfirst, hrest⟩ := h
    exact ⟨mid, hmid, fun n hn => hfirst n ⟨_, hpick.2, hn⟩, ih hrest⟩

/-- What a walk tries is sound, if its options were worked out before. The numbers that the options
carry lie in front of those that the walk issues. -/
theorem sound_of_mem_tried {τ : Type} {use : Instantiation → τ × Session → Flow (τ × Session)}
    {options : List (String × List Instantiation)} {state : τ × Session} {c : Combination}
    (huse : Counts use) (hm : m.pattern.SpellsIn S)
    (hoptions : StretchedOptions S lo options state.2.allocated)
    (hc : c ∈ m.tried b use (Flow.product options) state) : c.Sound S lo := by
  obtain ⟨hrecord, hchosen⟩ := of_mem_tried hc
  have hbefore := ((chained_tried huse state).of_mem hc).1
  refine ⟨by rwa [hrecord], ?_⟩
  exact (stretched_of_mem_product hoptions hchosen).mono (Nat.le_refl lo) hbefore

mutual

/-- **Every combination that is tried chooses from stretches before it**, one for each name, however
deep groups are nested. The options of a match are worked out before its own combinations are tried,
so their numbers come first. -/
theorem sound_combinations : ∀ (m : Match) (s : Session), m.MadeWith (·.SpellsIn S) →
    ∀ c ∈ combinations b m s, c.Sound S s.allocated
  | ⟨pattern, root, bindings, submatches, covered, inputs⟩, s, hm, c, hc => by
    obtain ⟨hpattern, hsubs⟩ := hm
    rw [combinations] at hc
    rcases List.mem_append.1 hc with hc | hc
    · exact sound_combinationsOfOptions submatches s hsubs c hc
    · have hoptions := stretchedOptions_optionsOf submatches s hsubs
      exact sound_of_mem_tried counts_gather hpattern hoptions hc

/-- The combinations for the options are sound as well. Those of a later name start from a higher
count, which is why the bound in front is only a lower one. -/
theorem sound_combinationsOfOptions : ∀ (subs : List (String × List Match)) (s : Session),
    (∀ ident ms, (ident, ms) ∈ subs → ∀ m ∈ ms, m.MadeWith (·.SpellsIn S)) →
    ∀ c ∈ combinationsOfOptions b subs s, c.Sound S s.allocated
  | [], s, _, c, hc => by cases hc
  | (ident, alternatives) :: rest, s, hsubs, c, hc => by
    obtain ⟨hfirst, hrest⟩ := forall_alternatives_cons hsubs
    rw [combinationsOfOptions] at hc
    rcases List.mem_append.1 hc with hc | hc
    · exact sound_combinationsOfAll alternatives s hfirst c hc
    · have hle := (chained_combinationsOfAll b alternatives s).le
      exact (sound_combinationsOfOptions rest _ hrest c hc).mono hle

/-- The options of different names are worked out one after the other, so the stretches of the names
follow each other. -/
theorem stretchedOptions_optionsOf : ∀ (subs : List (String × List Match)) (s : Session),
    (∀ ident ms, (ident, ms) ∈ subs → ∀ m ∈ ms, m.MadeWith (·.SpellsIn S)) →
    StretchedOptions S s.allocated (optionsOf b subs s).1 (optionsOf b subs s).2.allocated
  | [], s, _ => Nat.le_refl _
  | (ident, alternatives) :: rest, s, hsubs => by
    obtain ⟨hfirst, hrest⟩ := forall_alternatives_cons hsubs
    have hsound := sound_combinationsOfAll alternatives s hfirst
    rw [optionsOf]
    refine ⟨_, (chained_combinationsOfAll b alternatives s).le, ?_,
      stretchedOptions_optionsOf rest _ hrest⟩
    rintro n ⟨i, hi, hn⟩
    exact (becomes_of_instantiationsOfAll alternatives s i hi).issues
      (chained_combinationsOfAll b alternatives s) hsound hn

/-- The combinations for several matches are sound, match by match. -/
theorem sound_combinationsOfAll : ∀ (ms : List Match) (s : Session),
    (∀ m ∈ ms, m.MadeWith (·.SpellsIn S)) →
    ∀ c ∈ combinationsOfAll b ms s, c.Sound S s.allocated
  | [], s, _, c, hc => by cases hc
  | m :: ms, s, hms, c, hc => by
    obtain ⟨hfirst, hrest⟩ := List.forall_mem_cons.1 hms
    rw [combinationsOfAll] at hc
    rcases List.mem_append.1 hc with hc | hc
    · exact sound_combinations m s hfirst c hc
    · exact (sound_combinationsOfAll ms _ hrest c hc).mono (chained_combinations b m s).le

end

end Match

/-! ## Hygiene of a combination -/

namespace Combination

/-- What hygiene means for a combination, numbers of one kind excepted. -/
structure Hygienic (S : Nat → Prop) (b : Block) (c : Combination) : Prop where
  /-- If the template makes sense, it is rendered with numbers that the combination was issued, the
  same for two names exactly if they are the same name. -/
  names : ∀ i s, c.run b = (.ok i, s) → ∃ den : String → Option Nat,
    Filling.renderAll ⟨b, c.record, c.chosen⟩ den c.record.pattern.template = .ok i.parts
      ∧ (∀ key n, den key = some n → Issues c.before.allocated s.allocated n)
      ∧ ∀ key key' n n', den key = some n → den key' = some n' → (n = n' ↔ key = key')
  /-- No choice carries a number that the combination is issued. -/
  fresh : ∀ choice ∈ c.chosen, ∀ n, Issues c.before.allocated (c.run b).2.allocated n →
    choice.2.Carries n → S n
  /-- Choices for different names carry different numbers. -/
  apart : ∀ choice ∈ c.chosen, ∀ choice' ∈ c.chosen, choice.1 ≠ choice'.1 → ∀ n,
    choice.2.Carries n → choice'.2.Carries n → S n

/-- **A sound combination is hygienic**, as long as the count does not wrap. All three parts come
from the stretches: the numbers of a template are different, they are none of the choices' numbers,
and two choices share none. -/
theorem Sound.hygienic {S : Nat → Prop} {b : Block} {lo : Nat} {c : Combination}
    (h : c.Sound S lo) (hfew : (c.run b).2.allocated ≤ 2 ^ 32) : c.Hygienic S b := by
  refine ⟨fun i s hrun => ?_, fun choice hchoice n hissued hn => ?_, ?_⟩
  · -- The template itself: its names get different numbers, whatever they are called.
    rw [hrun] at hfew
    obtain ⟨-, den, hnaming, hrender⟩ := exists_render hrun
    refine ⟨den, hrender, hnaming.range, fun key key' n n' hn hn' => ⟨?_, ?_⟩⟩
    · rintro rfl
      exact hnaming.distinct hfew key key' n hn hn'
    · rintro rfl
      exact Option.some.inj (hn.symm.trans hn')
  · -- A number of a choice was issued before, so it is not one of the template's own.
    rcases h.stretched.issues hchoice hn with hS | hissued'
    · exact hS
    · exact (Session.not_issues_of_issues hfew hissued' hissued).elim
  · -- Two choices under different names have stretches of their own.
    intro choice hchoice choice' hchoice' hne n hn hn'
    have hdiffer : choice ≠ choice' := fun heq => hne (congrArg Prod.fst heq)
    have hbefore := (c.le_run b).trans hfew
    exact h.stretched.apart_of_ne hbefore hchoice hchoice' hdiffer hn hn'

end Combination

end TileSelect
