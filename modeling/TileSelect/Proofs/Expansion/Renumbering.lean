import TileSelect.Proofs.Match.Renumbering
/-!
Instantiations on renumbered blocks.

A template is filled in with values, numbers and symbols; the position of a node is never written.
So a record and the renamed record fill in the same parts. All that filling in asks of a block is
what a path stands for and how wide the root is, and `Filling.Agree` says that two fillings give the
same answers; where one of them fails, the other does, though the faults may name different
positions.

Temporaries are counted in the same order, so two runs that start with the same count go on with
the same count.
-/

set_option autoImplicit false

namespace TileSelect

/-! ## Steps that come to the same -/

namespace Subst

variable {α β : Type}

/-- Two steps that come to the same and allocate the same, whatever they say when they fail. -/
def Same (x y : Subst α) : Prop :=
  ∀ t : Temporaries, (x.run.run t).1.toOption = (y.run.run t).1.toOption
    ∧ (x.run.run t).2 = (y.run.run t).2

theorem Same.refl (x : Subst α) : Same x x := fun _ => ⟨rfl, rfl⟩

/-- Checks come to the same if they give the same; which fault is raised does not matter. -/
theorem Same.check {e e' : Except SubstFault α} (h : e.toOption = e'.toOption) :
    Same (Subst.check e) (Subst.check e') :=
  fun _ => ⟨h, rfl⟩

/-- Steps that come to the same, one after the other, come to the same. If the first one fails on
one side it fails on the other. -/
theorem Same.bind {x y : Subst α} {f g : α → Subst β} (hxy : Same x y)
    (hfg : ∀ a, Same (f a) (g a)) : Same (x >>= f) (y >>= g) := by
  intro t
  obtain ⟨houtcome, hafter⟩ := hxy t
  rw [ExceptT.run_bind, ExceptT.run_bind, StateT.run_bind, StateT.run_bind]
  -- Both first steps leave the same temporaries, and have both failed or given the same.
  generalize x.run.run t = first at houtcome hafter ⊢
  generalize y.run.run t = second at houtcome hafter ⊢
  obtain ⟨result, t₁⟩ := first
  obtain ⟨result', t₂⟩ := second
  obtain rfl : t₁ = t₂ := hafter
  cases result with
  | error fault =>
    cases result' with
    | error fault' => exact ⟨rfl, rfl⟩
    | ok c => cases houtcome
  | ok a =>
    cases result' with
    | error fault' => cases houtcome
    | ok c =>
      obtain rfl : a = c := Option.some.inj houtcome
      exact hfg a t₁

end Subst

/-! ## Filling in -/

namespace Filling

open Subst (Same)

/-- Every path stands for the same in two fillings, and their roots are equally wide. -/
structure Agree (f g : Filling) : Prop where
  resolve : ∀ path, (resolve f.block f.record f.chosen path).toOption
    = (Filling.resolve g.block g.record g.chosen path).toOption
  width : f.block.typeOf? f.record.root = g.block.typeOf? g.record.root

variable {f g : Filling}

/-- If paths stand for the same, references come to the same, temporaries included, since both runs
count them from the same number. -/
theorem Agree.target (h : f.Agree g) (path : List String) :
    Same (f.target path) (g.target path) := by
  unfold Filling.target tempType
  rw [h.width]
  dsimp only
  split
  · exact .refl _
  · exact .check (h.resolve path)

mutual

/-- **Fillings that agree fill in a part alike.** All that a filling is asked for on the way is what
paths stand for and how wide the root is. -/
theorem Agree.fill (h : f.Agree g) : ∀ p : Part, Same (fill f p) (fill g p)
  | .instruction mnemonic condition operands => by
    rw [Filling.fill, Filling.fill]
    exact (h.fillAll operands).bind fun _ => .refl _
  | .memory ⟨base, index, scale, offset⟩ => by
    rw [Filling.fill, Filling.fill]
    refine (h.fillOption base).bind fun o => ?_
    split
    · exact .refl _
    · refine (Same.refl _).bind fun d => (h.fillOption index).bind fun i => ?_
      refine (Same.refl _).bind fun d => (h.fillOption offset).bind fun x => ?_
      exact .refl _
  | .reference path half ty => by
    rw [Filling.fill, Filling.fill]
    exact (h.target path).bind fun _ => .refl _
  | .label name => .refl _
  | .register r => .refl _
  | .value id ty half => .refl _
  | .temp id ty half => .refl _
  | .imm v ty => .refl _
  | .symbol name => .refl _

theorem Agree.fillAll (h : f.Agree g) : ∀ ps : List Part, Same (fillAll f ps) (fillAll g ps)
  | [] => .refl _
  | p :: ps => by
    rw [Filling.fillAll, Filling.fillAll]
    exact (h.fill p).bind fun q => (h.fillAll ps).bind fun qs => .refl _

/-- A component that may be absent is filled in alike. -/
theorem Agree.fillOption (h : f.Agree g) :
    ∀ o : Option Part, Same (fillOption f o) (fillOption g o)
  | none => .refl _
  | some p => by
    rw [Filling.fillOption, Filling.fillOption]
    exact (h.fill p).bind fun q => .refl _

end

end Filling

/-! ## Instantiations under renaming -/

namespace Instantiation

mutual

/-- The instantiation with every node renamed, those of its choices included. -/
def rename (f : NodeId → NodeId) : Instantiation → Instantiation
  | ⟨record, parts, covered, inputs, chosen⟩ =>
    ⟨record.rename f, parts, covered.map f, inputs.map f, renameChoices f chosen⟩

/-- The same for the choices of a combination. -/
def renameChoices (f : NodeId → NodeId) :
    List (String × Instantiation) → List (String × Instantiation)
  | [] => []
  | (ident, i) :: rest => (ident, rename f i) :: renameChoices f rest

end

variable {f : NodeId → NodeId}

theorem renameChoices_eq_map (chosen : List (String × Instantiation)) :
    renameChoices f chosen = chosen.map (Prod.map id (rename f)) := by
  induction chosen with
  | nil => rfl
  | cons choice rest ih => rw [renameChoices, ih, List.map_cons, Prod.map, id]

@[simp] theorem covered_rename (i : Instantiation) : (i.rename f).covered = i.covered.map f := by
  cases i
  rfl

@[simp] theorem inputs_rename (i : Instantiation) : (i.rename f).inputs = i.inputs.map f := by
  cases i
  rfl

end Instantiation

/-- The tile with every node renamed; what it emits stays the same. -/
def Tile.rename (f : NodeId → NodeId) (t : Tile) : Tile :=
  { t with root := f t.root, covered := t.covered.map f, inputs := t.inputs.map f }

/-- The tile of a renamed instantiation is the renamed tile. -/
theorem Instantiation.toTile_rename {f : NodeId → NodeId} (i : Instantiation) :
    (i.rename f).toTile = i.toTile.rename f := by
  obtain ⟨⟨pattern, root, bindings, submatches, _, _⟩, parts, covered, inputs, chosen⟩ := i
  rfl

section Renumbered

open Instantiation (renameChoices)

variable {f : NodeId → NodeId} {b b' : Block}

namespace Filling

/-- The value of a node is the value of the node under its new number. -/
theorem valueOf_renamed (hr : b.Renumbers f b') (id : NodeId) :
    (valueOf b' (f id)).toOption = (valueOf b id).toOption := by
  rw [valueOf, valueOf, hr.valueOf?]
  cases b.valueOf? id <;> rfl

/-- A captured node is written the same under its new number: constants keep their payloads, and
values their numbers and widths. -/
theorem captured_renamed (hr : b.Renumbers f b') (m : Match) (ident : String) (id : NodeId) :
    (captured b' (m.rename f) ident (f id)).toOption = (captured b m ident id).toOption := by
  -- A constant is written as its payload, which the new number does not change, or as its value.
  have hconstant : (constantOf b' (f id)).toOption = (constantOf b id).toOption := by
    rw [constantOf, constantOf, hr.node?, hr.typeOf?]
    cases b.node? id with
    | none => exact valueOf_renamed hr id
    | some n =>
      rw [Option.map_some]
      dsimp only [Node.rename]
      split
      · rfl
      · rfl
      · exact valueOf_renamed hr id
  rw [captured, captured, Match.pattern_rename]
  split
  · exact hconstant
  · exact valueOf_renamed hr id

/-- A path ends well for what is found on both sides, or on neither. -/
theorem ending_congr {found found' : Except SubstFault Part} (ident : String) (rest : List String)
    (h : found.toOption = found'.toOption) :
    (ending ident rest found).toOption = (ending ident rest found').toOption := by
  cases rest with
  | nil => exact h
  | cons member rest => rfl

/-- **A path stands for the same in a renamed record.** Values do not change their numbers, so what
is written is the same; only faults that name a node differ. -/
theorem resolve_renamed (hr : b.Renumbers f b') (path : List String) (m : Match)
    (chosen : List (String × Instantiation)) :
    (resolve b' (m.rename f) (renameChoices f chosen) path).toOption
      = (resolve b m chosen path).toOption := by
  induction path generalizing m chosen with
  | nil => rfl
  | cons head rest ih =>
    rw [resolve, resolve, Instantiation.renameChoices_eq_map, Keyed.has, Keyed.has,
      Match.submatches_rename, Match.bindings_rename, Match.root_rename, Match.pattern_rename,
      Keyed.get?_map, Keyed.get?_map, Keyed.get?_map, Option.isSome_map]
    split
    · exact ending_congr head rest (valueOf_renamed hr m.root)
    split
    · rfl
    split
    · -- A group: what was chosen for it emits the same under the new numbers.
      cases Keyed.get? head chosen with
      | none => rfl
      | some sub =>
        obtain ⟨record, parts, covered, inputs, inner⟩ := sub
        dsimp only [Option.map, Instantiation.rename]
        split
        · rfl
        · exact ih record inner
    · -- A captured node, with its new number on one side.
      cases Keyed.get? head m.bindings with
      | none => rfl
      | some id => exact ending_congr head rest (captured_renamed hr m head id)

/-- A filling and the one on the renumbered block agree. -/
theorem agree_renamed (hr : b.Renumbers f b') (m : Match) (chosen : List (String × Instantiation)) :
    Agree ⟨b', m.rename f, renameChoices f chosen⟩ ⟨b, m, chosen⟩ where
  resolve path := resolve_renamed hr path m chosen
  width := by
    dsimp only
    rw [Match.root_rename, hr.typeOf?]

end Filling

/-- A run that gives what another does, up to a view, and has allocated as many temporaries. -/
def Session.Tracks {α α' : Type} (view : α → α') (x : α × Session) (x' : α' × Session) : Prop :=
  x'.1 = view x.1 ∧ x'.2.allocated = x.2.allocated

namespace Match

open Session (Tracks)

variable {s s' : Session}

/-- What a renamed match covers with renamed choices are the new numbers of what is covered. -/
theorem coveredWith_rename (m : Match) (chosen : List (String × Instantiation)) :
    (m.rename f).coveredWith (renameChoices f chosen) = (m.coveredWith chosen).map f := by
  rw [coveredWith, coveredWith, Instantiation.renameChoices_eq_map, List.foldl_map, covered_rename]
  refine List.foldl_hom (NodeSet.map f) fun set choice => ?_
  rw [Prod.map_snd, Instantiation.covered_rename, NodeSet.map_union]

/-- What a renamed match reads with renamed choices are the new numbers of what is read. -/
theorem readWith_rename (m : Match) (chosen : List (String × Instantiation)) :
    (m.rename f).readWith (renameChoices f chosen) = (m.readWith chosen).map f := by
  rw [readWith, readWith, Instantiation.renameChoices_eq_map, List.foldl_map, inputs_rename]
  refine List.foldl_hom (NodeSet.map f) fun set choice => ?_
  rw [Prod.map_snd, Instantiation.inputs_rename, NodeSet.map_union]

/-- **A combination is filled in alike on the renumbered block.** What it emits is the same, and the
nodes that it covers and reads have their new numbers. Taking the covered nodes out of those that
are read needs that different nodes keep different numbers. -/
theorem instantiate_renamed (hr : b.Renumbers f b') (m : Match)
    (chosen : List (String × Instantiation)) (hcount : s'.allocated = s.allocated) :
    ((m.rename f).instantiate b' (renameChoices f chosen) s').1.toOption
        = (m.instantiate b chosen s).1.toOption.map (Instantiation.rename f)
      ∧ ((m.rename f).instantiate b' (renameChoices f chosen) s').2.allocated
        = (m.instantiate b chosen s).2.allocated := by
  obtain ⟨hparts, hafter⟩ :=
    (Filling.agree_renamed hr m chosen).fillAll m.pattern.template ⟨s.allocated, []⟩
  unfold instantiate
  rw [hcount, pattern_rename]
  generalize (Filling.fillAll ⟨b', m.rename f, renameChoices f chosen⟩ m.pattern.template).run.run
    ⟨s.allocated, []⟩ = first at hparts hafter
  generalize (Filling.fillAll ⟨b, m, chosen⟩ m.pattern.template).run.run ⟨s.allocated, []⟩
    = second at hparts hafter
  -- Both runs leave the same temporaries, so only the results are left to compare.
  obtain ⟨result', t'⟩ := first
  obtain ⟨result, t⟩ := second
  obtain rfl : t' = t := hafter
  cases result' with
  | error fault' =>
    cases result with
    | error fault => exact ⟨rfl, rfl⟩
    | ok parts => cases hparts
  | ok parts' =>
    cases result with
    | error fault => cases hparts
    | ok parts =>
      obtain rfl : parts' = parts := Option.some.inj hparts
      refine ⟨congrArg some ?_, rfl⟩
      rw [Instantiation.rename, coveredWith_rename, readWith_rename, NodeSet.map_diff hr.injective]

/-- **Combinations are filled in alike one after the other**, with as many temporaries on either
side. A combination that is dropped on one side is dropped on the other. -/
theorem fillEach_renamed (hr : b.Renumbers f b') (m : Match)
    (combos : List (List (String × Instantiation))) (hcount : s'.allocated = s.allocated) :
    Tracks (List.map (Instantiation.rename f)) (m.fillEach b combos s)
      ((m.rename f).fillEach b' (combos.map (renameChoices f)) s') := by
  induction combos generalizing s s' with
  | nil => exact ⟨rfl, hcount⟩
  | cons chosen rest ih =>
    obtain ⟨hone, hafter⟩ := instantiate_renamed hr m chosen hcount
    rw [List.map_cons, fillEach, fillEach]
    generalize m.instantiate b chosen s = outcome at hone hafter
    generalize (m.rename f).instantiate b' (renameChoices f chosen) s' = outcome' at hone hafter
    obtain ⟨result, t⟩ := outcome
    obtain ⟨result', t'⟩ := outcome'
    -- A combination that is dropped on one side is dropped on the other.
    cases result with
    | error fault =>
      cases result' with
      | error fault' => exact ih hafter
      | ok i' => cases hone
    | ok i =>
      cases result' with
      | error fault' => cases hone
      | ok i' =>
        obtain ⟨hmore, hcount'⟩ := @ih t t' hafter
        obtain rfl : i' = i.rename f := Option.some.inj hone
        exact ⟨congrArg (i.rename f :: ·) hmore, hcount'⟩

mutual

/-- **A match has the same instantiations on the renumbered block**, in the same order. The
recursion is that of the matches inside matches. -/
theorem instantiations_renamed (hr : b.Renumbers f b') : ∀ (m : Match) (s s' : Session),
    s'.allocated = s.allocated →
      Tracks (List.map (Instantiation.rename f)) (instantiations b m s)
        (instantiations b' (m.rename f) s')
  | ⟨pattern, root, bindings, submatches, covered, inputs⟩, s, s', hcount => by
    obtain ⟨hoptions, hafter⟩ := optionsOf_renamed hr submatches s s' hcount
    rw [instantiations_eq, instantiations_eq]
    dsimp only [rename]
    rw [hoptions, Flow.product_map, ← funext Instantiation.renameChoices_eq_map]
    exact fillEach_renamed hr ⟨pattern, root, bindings, submatches, covered, inputs⟩ _ hafter

/-- The options of the groups are the same under the new numbers, name by name, since names are not
renumbered and keep their order. -/
theorem optionsOf_renamed (hr : b.Renumbers f b') :
    ∀ (groups : List (String × List Match)) (s s' : Session), s'.allocated = s.allocated →
      Tracks (List.map (Prod.map id (List.map (Instantiation.rename f)))) (optionsOf b groups s)
        (optionsOf b' (renameGroups f groups) s')
  | [], s, s', hcount => ⟨rfl, hcount⟩
  | (ident, alternatives) :: rest, s, s', hcount => by
    obtain ⟨hfirst, hcount₁⟩ := instantiationsOfAll_renamed hr alternatives s s' hcount
    obtain ⟨hmore, hcount₂⟩ := optionsOf_renamed hr rest _ _ hcount₁
    rw [renameGroups, optionsOf, optionsOf]
    dsimp only
    rw [hfirst, hmore]
    exact ⟨rfl, hcount₂⟩

/-- The instantiations of several matches are the same under the new numbers, match by match, with
the count handed on in both runs. -/
theorem instantiationsOfAll_renamed (hr : b.Renumbers f b') :
    ∀ (ms : List Match) (s s' : Session), s'.allocated = s.allocated →
      Tracks (List.map (Instantiation.rename f)) (instantiationsOfAll b ms s)
        (instantiationsOfAll b' (renameAll f ms) s')
  | [], s, s', hcount => ⟨rfl, hcount⟩
  | m :: ms, s, s', hcount => by
    obtain ⟨hfirst, hcount₁⟩ := instantiations_renamed hr m s s' hcount
    obtain ⟨hmore, hcount₂⟩ := instantiationsOfAll_renamed hr ms _ _ hcount₁
    rw [renameAll, instantiationsOfAll, instantiationsOfAll]
    dsimp only
    rw [hfirst, hmore, ← List.map_append]
    exact ⟨rfl, hcount₂⟩

end

end Match

end Renumbered

end TileSelect
