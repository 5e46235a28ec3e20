import TileSelect.Proofs.Expansion.Numbering
import TileSelect.Proofs.Expansion.Reads
/-!
Every combination, once and in order.

The instantiations of a match are what its combinations give. This module puts together what is
known of them: which combinations there are, in which order they are tried, which of them give an
instantiation, and what such an instantiation covers and reads.

The combinations count up like an odometer with one wheel for each identifier, in the order of
the names. A wheel shows the instantiations of the identifier's alternatives, one alternative
after the other, and the last wheel turns fastest. Whether a combination gives an instantiation
is a matter of the combination alone, because nothing in a template looks at the number of a
temporary; so what is found is the list of combinations less those that make no sense.
-/

set_option autoImplicit false

namespace TileSelect

/-! ## What fits -/

namespace Match

variable {b : Block} {m : Match}

/-- Whether the template of a match makes sense for a combination. -/
def fits (b : Block) (m : Match) (chosen : List (String × Instantiation)) : Bool :=
  (m.instantiate b chosen .start).1.isOk

/-- **Whether a combination fits does not depend on what was allocated before.** The numbers of the
temporaries differ, but nothing in a template asks for the number of one. -/
theorem isOk_instantiate (chosen : List (String × Instantiation)) (s : Session) :
    (m.instantiate b chosen s).1.isOk = m.fits b chosen := by
  have hview : ∀ e : Except SubstFault Instantiation,
      e.isOk = (e.toOption.map Instantiation.anonymous).isSome := by
    intro e
    cases e <;> rfl
  rw [fits, hview, hview, instantiate_alike rfl s .start]

/-- An instantiation remembers the combination that it was made from, and so different combinations
never make the same instantiation. -/
theorem chosen_of_instantiate {chosen : List (String × Instantiation)} {s s' : Session}
    {i : Instantiation} (h : m.instantiate b chosen s = (.ok i, s')) : i.chosen = chosen := by
  unfold instantiate at h
  generalize (Filling.fillAll ⟨b, m, chosen⟩ m.pattern.template).run.run ⟨s.allocated, []⟩
    = outcome at h
  obtain ⟨parts, after⟩ := outcome
  cases parts with
  | error fault => cases h
  | ok parts =>
    cases h
    rfl

/-- What is found along a list of combinations are those that fit. A combination that does not fit
is left out and changes nothing for those after it, except for the temporaries it allocated. -/
theorem chosen_fillEach (combos : List (List (String × Instantiation))) (s : Session) :
    (m.fillEach b combos s).1.map Instantiation.chosen = combos.filter (m.fits b) := by
  induction combos generalizing s with
  | nil => rfl
  | cons chosen rest ih =>
    -- Fitting is defined at the start of a session, but the session does not matter.
    have hfits : m.fits b chosen = (m.instantiate b chosen s).1.isOk :=
      (isOk_instantiate chosen s).symm
    rw [fillEach]
    cases hone : m.instantiate b chosen s with
    | mk result s₁ =>
      rw [hone] at hfits
      cases result with
      | error fault =>
        have hnot : ¬ m.fits b chosen = true := by simp [hfits, Except.isOk, Except.toBool]
        rw [List.filter_cons_of_neg hnot]
        exact ih _
      | ok i =>
        rw [List.filter_cons_of_pos hfits]
        dsimp only
        rw [List.map_cons, chosen_of_instantiate hone, ih s₁]

/-! ## One choice for each identifier -/

/-- A reference to an included group goes to the choice made for it, and on from there if the path
has more names. Nothing in the template can make two references with one name go to different
choices. -/
theorem target_of_choice {chosen : List (String × Instantiation)} {ident : String}
    {sub : Instantiation} (hkeys : chosen.map Prod.fst = m.submatches.map Prod.fst)
    (hnodup : (chosen.map Prod.fst).Nodup) (hsub : (ident, sub) ∈ chosen) (hout : ident ≠ "out")
    (htemp : TempName.parse? ident = none) (rest : List String) :
    Filling.target ⟨b, m, chosen⟩ (ident :: rest)
      = Subst.check (if rest.isEmpty then Filling.singlePart ident sub.parts
          else Filling.resolve b sub.record sub.chosen rest) := by
  -- The name of the choice is one of the groups that the match has recorded.
  have hhas : Keyed.has ident m.submatches = true := by
    have hmem : ident ∈ m.submatches.map Prod.fst := hkeys ▸ List.mem_map_of_mem hsub
    obtain ⟨⟨key, ms⟩, hentry, rfl⟩ := List.mem_map.1 hmem
    obtain ⟨found, hfound⟩ := Keyed.exists_get?_of_mem hentry
    rw [Keyed.has, hfound]
    rfl
  have hhead : Part.pathHead (ident :: rest) = ident := rfl
  rw [Filling.target, hhead, htemp]
  dsimp only
  rw [Filling.resolve, if_neg hout, htemp, Option.isSome_none, if_neg Bool.false_ne_true,
    if_pos hhas, Keyed.get?_of_mem hnodup hsub]

end Match

/-! ## Choice trees -/

namespace Instantiation

mutual

/-- The matches in the choice tree of an instantiation: its own and those of its choices. -/
def records : Instantiation → List Match
  | ⟨record, _, _, _, chosen⟩ => record :: recordsOfAll chosen

/-- The matches in the choice trees of several choices. -/
def recordsOfAll : List (String × Instantiation) → List Match
  | [] => []
  | (_, i) :: rest => records i ++ recordsOfAll rest

end

/-- The matches in several choice trees are those in any of them. What a tree of choices covers and
reads is put together from these. -/
theorem mem_recordsOfAll {chosen : List (String × Instantiation)} {r : Match} :
    r ∈ recordsOfAll chosen ↔ ∃ choice ∈ chosen, r ∈ choice.2.records := by
  induction chosen with
  | nil => simp [recordsOfAll]
  | cons choice rest ih =>
    obtain ⟨ident, i⟩ := choice
    rw [recordsOfAll, List.mem_append, ih]
    simp

/-- The sets of an instantiation are those of its choice tree: it covers what some match in the
tree covers, and reads what some match reads and none covers. -/
structure AddsUp (i : Instantiation) : Prop where
  covered : ∀ k, k ∈ i.covered ↔ ∃ r ∈ i.records, k ∈ r.covered
  inputs : ∀ k, k ∈ i.inputs ↔ (∃ r ∈ i.records, k ∈ r.inputs) ∧ ¬ k ∈ i.covered

/-- One level of the tree: what is covered at any level is taken out of the inputs only once the
whole is known, which comes to the same. An input that a choice has taken out was covered there
already, and is covered by the whole. -/
theorem addsUp_of_choices {m : Match} {parts : List Part} {chosen : List (String × Instantiation)}
    (h : ∀ choice ∈ chosen, choice.2.AddsUp) :
    AddsUp ⟨m, parts, m.coveredWith chosen, (m.readWith chosen).diff (m.coveredWith chosen),
      chosen⟩ where
  covered k := by
    rw [records, Match.mem_coveredWith]
    simp only [List.mem_cons, exists_eq_or_imp, mem_recordsOfAll]
    refine or_congr_right ⟨?_, ?_⟩
    · rintro ⟨choice, hchoice, hk⟩
      obtain ⟨r, hr, hkr⟩ := ((h choice hchoice).covered k).1 hk
      exact ⟨r, ⟨choice, hchoice, hr⟩, hkr⟩
    · rintro ⟨r, ⟨choice, hchoice, hr⟩, hkr⟩
      exact ⟨choice, hchoice, ((h choice hchoice).covered k).2 ⟨r, hr, hkr⟩⟩
  inputs k := by
    rw [records, NodeSet.mem_diff, Match.mem_readWith]
    refine and_congr_left fun hnot => ?_
    simp only [List.mem_cons, exists_eq_or_imp, mem_recordsOfAll]
    refine or_congr_right ⟨?_, ?_⟩
    · rintro ⟨choice, hchoice, hk⟩
      obtain ⟨⟨r, hr, hkr⟩, -⟩ := ((h choice hchoice).inputs k).1 hk
      exact ⟨r, ⟨choice, hchoice, hr⟩, hkr⟩
    · rintro ⟨r, ⟨choice, hchoice, hr⟩, hkr⟩
      -- A choice covers no more than the whole, so `k` was not taken out further down.
      have hchild : ¬ k ∈ choice.2.covered := fun hk =>
        hnot (Match.mem_coveredWith.2 (.inr ⟨choice, hchoice, hk⟩))
      exact ⟨choice, hchoice, ((h choice hchoice).inputs k).2 ⟨⟨r, hr, hkr⟩, hchild⟩⟩

mutual

/-- **Every instantiation adds up.** -/
theorem addsUp_of_instantiates {b : Block} : ∀ (i : Instantiation) (m : Match),
    m.Instantiates b i → i.AddsUp
  | ⟨_, _, _, _, chosen⟩, m, h => by
    cases h with
    | intro _ _ hchosen _ => exact addsUp_of_choices (addsUp_of_chooses chosen _ hchosen)

/-- What is chosen adds up, choice by choice: what an instantiation covers and reads is what its
record and those below it do. -/
theorem addsUp_of_chooses {b : Block} : ∀ (chosen : List (String × Instantiation))
    (subs : List (String × List Match)), Match.Chooses b subs chosen →
    ∀ choice ∈ chosen, choice.2.AddsUp
  | [], _, _ => by simp
  | (_, i) :: rest, _, h => by
    cases h with
    | cons hmem hfirst hothers =>
      intro choice hchoice
      rcases List.mem_cons.1 hchoice with rfl | hrest
      · exact addsUp_of_instantiates i _ hfirst
      · exact addsUp_of_chooses rest _ hothers choice hrest

end

end Instantiation

/-! ## The whole enumeration -/

namespace Match

variable {b : Block} {m : Match}

/-- Options are worked out for each included group, in the order of the match. A combination can
therefore be read as one choice for each group. -/
theorem keys_optionsOf (subs : List (String × List Match)) (s : Session) :
    (optionsOf b subs s).1.map Prod.fst = subs.map Prod.fst := by
  induction subs generalizing s with
  | nil => rfl
  | cons sub rest ih =>
    obtain ⟨ident, alternatives⟩ := sub
    rw [optionsOf, List.map_cons]
    exact congrArg (ident :: ·) (ih _)

/-- What it takes to say that the instantiations of a match are all there are: the options, the
session once they are worked out, and the combinations that are tried. -/
structure Exhausts (b : Block) (m : Match) (s : Session)
    (options : List (String × List Instantiation)) (ready : Session)
    (visited : List (List (String × Instantiation))) : Prop where
  /-- The options of an identifier are the instantiations of its alternatives, one alternative
  after the other. -/
  options_eq : (m.submatches.mapM fun sub => do
      let lists ← sub.2.mapM (enumerate b)
      return (sub.1, lists.flatten) : StateM Session (List (String × List Instantiation))).run s
    = (options, ready)
  /-- The identifiers come in the order of their names. -/
  ascending : (options.map Prod.fst).Pairwise (· < ·)
  /-- Every combination is shown once by the odometer, the last identifier changing fastest. -/
  counts : Odometer.Counts options visited
  /-- Without identifiers there is one combination. -/
  single : m.submatches = [] → visited = [[]]
  /-- An identifier without options leaves none. -/
  barren : ∀ option ∈ options, option.2 = [] → visited = []
  /-- Whatever is done with the instantiations, the walk is along these combinations. -/
  walk : ∀ {τ : Type} (use : Instantiation → τ × Session → Flow (τ × Session))
    (start : τ × Session),
    m.visit b use options start = Flow.each (m.visitOne b use) visited start
  /-- The template is filled in for one combination after the other. -/
  found : instantiations b m s = m.fillEach b visited ready
  /-- Whether that makes sense depends on the combination alone. -/
  fits : ∀ chosen ∈ visited, ∀ s', (m.instantiate b chosen s').1.isOk = m.fits b chosen
  /-- What is found are the combinations for which it does, in order. -/
  sublist : (instantiations b m s).1.map Instantiation.chosen = visited.filter (m.fits b)
  /-- Every reference to an identifier goes to the one choice made for it. -/
  consistent : ∀ chosen ∈ visited, ∀ ident sub, (ident, sub) ∈ chosen → ident ≠ "out" →
    TempName.parse? ident = none → ∀ rest, Filling.target ⟨b, m, chosen⟩ (ident :: rest)
      = Subst.check (if rest.isEmpty then Filling.singlePart ident sub.parts
          else Filling.resolve b sub.record sub.chosen rest)
  /-- The sets of what is found are those of its choice tree. -/
  sets : ∀ i ∈ (instantiations b m s).1, i.record = m ∧ i.AddsUp

/-- **The instantiations of a match are all there are.** The names of the included groups ascend
in every match that is found (`Pattern.submatches_ascending`). -/
theorem exhausts_instantiations (b : Block) (m : Match) (s : Session)
    (hm : (m.submatches.map Prod.fst).Pairwise (· < ·)) :
    m.Exhausts b s (optionsOf b m.submatches s).1 (optionsOf b m.submatches s).2
      (Flow.product (optionsOf b m.submatches s).1) where
  options_eq := (optionsOf_eq b m.submatches s).symm
  ascending := by
    rw [keys_optionsOf]
    exact hm
  counts := Odometer.counts_product _
  single hnone := by
    rw [hnone]
    rfl
  barren option hoption hempty := Flow.product_eq_nil hoption hempty
  walk use start := visit_eq_each use _ start
  found := instantiations_eq b m s
  fits chosen _ s' := isOk_instantiate chosen s'
  sublist := by
    rw [instantiations_eq]
    exact chosen_fillEach _ _
  consistent chosen hchosen ident sub hsub hout htemp rest := by
    have hchooses : Chooses b m.submatches chosen :=
      chooses_of_picks (offers_optionsOf m.submatches s) (Flow.mem_product.1 hchosen)
    have hkeys : chosen.map Prod.fst = m.submatches.map Prod.fst := hchooses.keys
    -- Names that ascend are different, so a name finds the one choice made for it.
    have hnodup : (chosen.map Prod.fst).Nodup := by
      rw [hkeys]
      exact hm.imp fun hlt => ne_of_lt hlt
    exact target_of_choice hkeys hnodup hsub hout htemp rest
  sets i hi := by
    have hinst : Instantiates b m i := instantiates_of_mem m s i hi
    exact ⟨hinst.record_eq, Instantiation.addsUp_of_instantiates i m hinst⟩

/-- The sum of two sources; a source is written as its value or as a temporary, or not at all. -/
def summing : List Pattern :=
  [⟨⟨"source", 0⟩, .producer (some "v") none, [.reference ["v"] none none]⟩,
   ⟨⟨"source", 1⟩, .producer none none, []⟩,
   ⟨⟨"source", 2⟩, .producer none none, [.reference ["tmp"] none none]⟩,
   ⟨⟨"sum", 0⟩, .node none none .add [.inclusion "x" "source", .inclusion "y" "source"],
     [.plain "ADD" [.reference ["x"] none none, .reference ["y"] none none,
       .reference ["x"] none none]]⟩]

/-- The sum of two arguments. -/
def summed : Block := Build.finish ⟨"summing", "f", "entry"⟩ do
  let x ← Build.arg 0 .i32
  let y ← Build.arg 1 .i32
  Build.op .add .i32 [x, y]

/-- Of the nine combinations for the sum, the four without a source that writes nothing are
found. -/
theorem exhausts_instantiations_summed :
    ∃ m, (Tables.ofPatterns summing).matchAt summed 2 summing[3] = .ok (some m)
      ∧ (m.submatches.map Prod.fst).Pairwise (· < ·)
      ∧ ∃ options ready visited, m.Exhausts summed .start options ready visited
        ∧ visited.length = 9 ∧ (visited.filter (m.fits summed)).length = 4 :=
  ⟨_, rfl, by decide, _, _, _, exhausts_instantiations _ _ _ (by decide), rfl, rfl⟩

end Match

end TileSelect
