import TileSelect.Proofs.Expansion.Hygiene
/-!
Runs that count temporaries from different starts.

A temporary is numbered by the count of those allocated before it, so the same template filled in
at two points of a run is written with different numbers. Nothing else differs: whether a part is an
address, can be halved or stands alone is the same for all temporaries of a width, and no path
stands for something else.

To compare two runs, the numbers of each are looked at through a function, and the two are to look
alike from where the runs start (`SideBySide`). Then the two runs come to the same, looked at in
this way: filling in a part, a template, and all instantiations of a match
(`Match.alike_instantiations`). With a function that forgets all numbers that says that numbers do
not matter; with one that sends each number of the first run to the one in the second and the
identity, it says how the runs differ.

Both functions go through all operations on parts (`Part.slice?_renameTemps` to
`Draft.ofLoneBase_renameTemps`). The steps that allocate keep the two counts abreast, and that is
the invariant. A template may spell out the number of a temporary, which is written as it stands in
both runs; hence the condition on patterns.
-/

set_option autoImplicit false

namespace TileSelect

/-! ## Renaming temporaries -/

namespace Part

mutual

/-- The part with its temporaries renamed. -/
def renameTemps (ρ : Nat → Nat) : Part → Part
  | .instruction mnemonic condition operands =>
    .instruction mnemonic condition (renameTempsAll ρ operands)
  | .memory ⟨base, index, scale, offset⟩ =>
    .memory ⟨renameTempsOption ρ base, renameTempsOption ρ index, scale, renameTempsOption ρ offset⟩
  | .temp id ty half => .temp (ρ id) ty half
  | .label name => .label name
  | .reference path half ty => .reference path half ty
  | .register r => .register r
  | .value id ty half => .value id ty half
  | .imm v ty => .imm v ty
  | .symbol name => .symbol name

/-- The same for several parts. -/
def renameTempsAll (ρ : Nat → Nat) : List Part → List Part
  | [] => []
  | p :: ps => renameTemps ρ p :: renameTempsAll ρ ps

/-- The same for a part that may be absent. -/
def renameTempsOption (ρ : Nat → Nat) : Option Part → Option Part
  | none => none
  | some p => some (renameTemps ρ p)

end

variable {ρ σ : Nat → Nat}

theorem renameTempsAll_eq_map (ps : List Part) : renameTempsAll ρ ps = ps.map (renameTemps ρ) := by
  induction ps with
  | nil => rfl
  | cons p ps ih => rw [renameTempsAll, ih, List.map_cons]

theorem renameTempsOption_eq_map (o : Option Part) :
    renameTempsOption ρ o = o.map (renameTemps ρ) := by
  cases o <;> rfl

mutual

/-- Only the temporaries that occur in a part are renamed, so renamings that agree on these make the
same of it. The induction follows the part. -/
theorem renameTemps_congr : ∀ p : Part, (p.TempsIn fun n => ρ n = σ n) →
    p.renameTemps ρ = p.renameTemps σ
  | .instruction mnemonic condition operands, h => by
    rw [tempsIn_iff_only, only_instruction] at h
    rw [renameTemps, renameTemps,
      renameTempsAll_congr operands fun p hp => tempsIn_iff_only.2 (h p hp)]
  | .memory ⟨base, index, scale, offset⟩, h => by
    rw [tempsIn_iff_only, only_memory] at h
    obtain ⟨hbase, hindex, hoffset⟩ := h
    rw [renameTemps, renameTemps,
      renameTempsOption_congr base fun p hp => tempsIn_iff_only.2 (hbase p hp),
      renameTempsOption_congr index fun p hp => tempsIn_iff_only.2 (hindex p hp),
      renameTempsOption_congr offset fun p hp => tempsIn_iff_only.2 (hoffset p hp)]
  | .temp id ty half, h => by
    rw [renameTemps, renameTemps, h id (List.mem_singleton_self id)]
  | .label _, _ | .reference .., _ | .register _, _ | .value .., _ | .imm .., _ | .symbol _, _ => rfl

theorem renameTempsAll_congr : ∀ ps : List Part, (∀ p ∈ ps, p.TempsIn fun n => ρ n = σ n) →
    renameTempsAll ρ ps = renameTempsAll σ ps
  | [], _ => rfl
  | p :: ps, h => by
    rw [renameTempsAll, renameTempsAll, renameTemps_congr p (h p List.mem_cons_self),
      renameTempsAll_congr ps fun q hq => h q (List.mem_cons_of_mem p hq)]

theorem renameTempsOption_congr : ∀ o : Option Part, (∀ p ∈ o, p.TempsIn fun n => ρ n = σ n) →
    renameTempsOption ρ o = renameTempsOption σ o
  | none, _ => rfl
  | some p, h => by
    rw [renameTempsOption, renameTempsOption, renameTemps_congr p (h p rfl)]

end

mutual

/-- Renaming every temporary to itself changes nothing. -/
@[simp] theorem renameTemps_id : ∀ p : Part, p.renameTemps id = p
  | .instruction mnemonic condition operands => by rw [renameTemps, renameTempsAll_id operands]
  | .memory ⟨base, index, scale, offset⟩ => by
    rw [renameTemps, renameTempsOption_id base, renameTempsOption_id index,
      renameTempsOption_id offset]
  | .temp .. | .label _ | .reference .. | .register _ | .value .. | .imm .. | .symbol _ => rfl

theorem renameTempsAll_id : ∀ ps : List Part, renameTempsAll id ps = ps
  | [] => rfl
  | p :: ps => by rw [renameTempsAll, renameTemps_id p, renameTempsAll_id ps]

theorem renameTempsOption_id : ∀ o : Option Part, renameTempsOption id o = o
  | none => rfl
  | some p => by rw [renameTempsOption, renameTemps_id p]

end

/-- The kind of a part has nothing to do with the numbers of temporaries, so every test of the kind
comes out as before. -/
@[simp] theorem isStandalone_renameTemps (p : Part) :
    (p.renameTemps ρ).isStandalone = p.isStandalone := by
  cases p <;> rfl

@[simp] theorem isConstant_renameTemps (p : Part) :
    (p.renameTemps ρ).isConstant = p.isConstant := by
  cases p <;> rfl

@[simp] theorem isRegisterLike_renameTemps (p : Part) :
    (p.renameTemps ρ).isRegisterLike = p.isRegisterLike := by
  cases p <;> rfl

/-- Halving and renaming can be done in either order, since a half of a temporary has the number of
the temporary. -/
theorem slice?_renameTemps (half : Half) (p : Part) :
    (p.renameTemps ρ).slice? half = (p.slice? half).map (renameTemps ρ) := by
  cases p with
  | value id ty taken | temp id ty taken =>
    cases taken with
    | some h => rfl
    | none => cases hhalf : ty.half <;> simp [renameTemps, slice?, hhalf]
  | imm v ty =>
    cases ty with
    | none => rfl
    | some ty => cases hhalf : ty.half <;> simp [renameTemps, slice?, hhalf]
  | instruction | label | memory | reference | register | symbol => rfl

/-- Stating a width and renaming can be done in either order. -/
theorem retype_renameTemps (ty : ValueType) (p : Part) :
    (p.renameTemps ρ).retype ty = (p.retype ty).renameTemps ρ := by
  cases p <;> rfl

end Part

/-! ## Addresses -/

section Outcomes

variable {ε ε' α α' β β' γ : Type}

/-- Steps that commute with a change of view make a sequence that does. Only whether a step fails is
compared and not with which fault, since a fault may name a part. -/
theorem toOption_bind_map {x : Except ε α} {x' : Except ε' α'} {f : α → Except ε β}
    {f' : α' → Except ε' β'} {view : α → α'} {view' : β → β'}
    (hx : x'.toOption = x.toOption.map view)
    (hf : ∀ a, (f' (view a)).toOption = (f a).toOption.map view') :
    (x' >>= f').toOption = (x >>= f).toOption.map view' := by
  -- Both first steps fail or both succeed; the mixed cases contradict what is known of them.
  cases x with
  | error e =>
    cases x' with
    | error e' => rfl
    | ok a' => cases hx
  | ok a =>
    cases x' with
    | error e' => cases hx
    | ok a' =>
      obtain rfl : a' = view a := Option.some.inj hx
      exact hf a

/-- A step that commutes with two changes of view comes to the same on what they show alike. -/
theorem map_toOption_congr {f : α → Except ε β} {g : α' → Except ε' β'} {view view' : α → α'}
    {after after' : β → β'} (hf : ∀ a, (g (view a)).toOption = (f a).toOption.map after)
    (hf' : ∀ a, (g (view' a)).toOption = (f a).toOption.map after') {a c : α}
    (h : view a = view' c) : (f a).toOption.map after = (f c).toOption.map after' := by
  rw [← hf, ← hf', h]

end Outcomes

namespace Draft

variable {ρ : Nat → Nat}

/-- The draft with its temporaries renamed. -/
def renameTemps (ρ : Nat → Nat) (d : Draft) : Draft :=
  ⟨d.base.map (Part.renameTemps ρ), d.index.map (Part.renameTemps ρ), d.scale,
    d.displacements.map (Part.renameTemps ρ)⟩

/-- A displacement may be renamed before or after it is added. -/
theorem displace_renameTemps (d : Draft) (p : Part) :
    (d.renameTemps ρ).displace (p.renameTemps ρ) = (d.displace p).renameTemps ρ := by
  simp [displace, renameTemps]

/-- Adding a base asks only for the kind of the part, so it commutes with renaming. Faults are left
out of account, as they may mention the part. -/
theorem addBase_renameTemps (d : Draft) (p : Part) :
    ((d.renameTemps ρ).addBase (p.renameTemps ρ)).toOption
      = (d.addBase p).toOption.map (renameTemps ρ) := by
  rw [addBase, addBase, Part.isConstant_renameTemps, Part.isRegisterLike_renameTemps]
  split
  · rw [displace_renameTemps]
    rfl
  · split <;> rfl

/-- Adding an index commutes with renaming. An address that is taken over is asked for its shape,
which is which of its components are there. -/
theorem addIndex_renameTemps (scale : Nat) (d : Draft) (p : Part) :
    ((d.renameTemps ρ).addIndex scale (p.renameTemps ρ)).toOption
      = (d.addIndex scale p).toOption.map (renameTemps ρ) := by
  cases p with
  | memory address =>
    obtain ⟨base, index, scale', offset⟩ := address
    -- Renaming makes no component come or go.
    have hshape : (Address.mk (Part.renameTempsOption ρ base) (Part.renameTempsOption ρ index)
        scale' (Part.renameTempsOption ρ offset)).isScaledIndex
          = (Address.mk base index scale' offset).isScaledIndex := by
      cases base <;> cases index <;> cases offset <;> rfl
    rw [Part.renameTemps, addIndex, addIndex, hshape]
    split
    · split
      · cases index <;> rfl
      · rfl
    · rfl
  | imm v ty => exact congrArg some (displace_renameTemps d (.imm (v * Int64.ofNat scale) ty))
  | symbol name =>
    rw [Part.renameTemps, addIndex, addIndex]
    · split
      · exact congrArg some (displace_renameTemps d (.symbol name))
      · rfl
    all_goals simp
  | instruction | label | reference | register | value | temp => rfl

/-- Adding an offset commutes with renaming, which leaves a constant a constant. -/
theorem addOffset_renameTemps (d : Draft) (p : Part) :
    ((d.renameTemps ρ).addOffset (p.renameTemps ρ)).toOption
      = (d.addOffset p).toOption.map (renameTemps ρ) := by
  rw [addOffset, addOffset, Part.isConstant_renameTemps]
  split
  · rw [displace_renameTemps]
    rfl
  · rfl

/-- Adding up two displacements commutes with renaming, as they are numbers. -/
theorem addDisplacement_renameTemps (p q : Part) :
    (addDisplacement (p.renameTemps ρ) (q.renameTemps ρ)).toOption
      = (addDisplacement p q).toOption.map (Part.renameTemps ρ) := by
  cases p <;> cases q <;> rfl

/-- The sum of the displacements of a draft commutes with renaming: sum by sum, from the first one
on. No displacement is a temporary. -/
theorem offset_renameTemps (d : Draft) :
    (d.renameTemps ρ).offset.toOption = d.offset.toOption.map (Option.map (Part.renameTemps ρ)) := by
  have hsum : ∀ (rest : List Part) (first : Part),
      ((rest.map (Part.renameTemps ρ)).foldlM addDisplacement (first.renameTemps ρ)).toOption
        = (rest.foldlM addDisplacement first).toOption.map (Part.renameTemps ρ) := by
    intro rest
    induction rest with
    | nil => exact fun first => rfl
    | cons p rest ih =>
      intro first
      rw [List.map_cons, List.foldlM_cons, List.foldlM_cons]
      exact toOption_bind_map (addDisplacement_renameTemps first p) ih
  unfold offset renameTemps
  cases d.displacements with
  | nil => rfl
  | cons first rest => exact toOption_bind_map (hsum rest first) fun _ => rfl

/-- What a draft becomes commutes with renaming. Whether it is refused depends on what is missing,
and renaming leaves that as it is. -/
theorem finish_renameTemps (d : Draft) :
    (d.renameTemps ρ).finish.toOption = d.finish.toOption.map (Part.renameTemps ρ) := by
  refine toOption_bind_map (offset_renameTemps d) fun o => ?_
  have hempty : ((d.renameTemps ρ).base.isNone && (d.renameTemps ρ).index.isNone
      && (o.map (Part.renameTemps ρ)).isNone) = (d.base.isNone && d.index.isNone && o.isNone) := by
    simp [renameTemps]
  rw [hempty]
  split
  · rfl
  · refine congrArg some ?_
    rw [Part.renameTemps, Part.renameTempsOption_eq_map, Part.renameTempsOption_eq_map,
      Part.renameTempsOption_eq_map]
    rfl

/-- What a component that stands alone becomes commutes with renaming. -/
theorem ofLoneBase_renameTemps (p : Part) :
    (ofLoneBase (p.renameTemps ρ)).toOption = (ofLoneBase p).toOption.map (Part.renameTemps ρ) := by
  cases p <;> rfl

end Draft

/-! ## Choices -/

namespace Keyed

variable {α β : Type}

/-- Looking up a name and changing what is stored can be done in either order, as names are left
alone. -/
theorem get?_map (f : α → β) (name : String) (entries : List (String × α)) :
    get? name (entries.map (Prod.map id f)) = (get? name entries).map f := by
  induction entries with
  | nil => rfl
  | cons entry rest ih =>
    rw [List.map_cons, get?.eq_def, get?]
    dsimp only [Prod.map, id]
    split
    · rfl
    · exact ih

/-- Storing under a name and changing what is stored can be done in either order. Only the names
decide where something is stored. -/
theorem insert_map (f : α → β) (name : String) (a : α) (entries : List (String × α)) :
    insert name (f a) (entries.map (Prod.map id f))
      = (insert name a entries).map (Prod.map id f) := by
  induction entries with
  | nil => rfl
  | cons entry rest ih =>
    rw [List.map_cons, insert.eq_def, insert]
    dsimp only [Prod.map, id]
    split
    · rfl
    split
    · rfl
    · rw [ih]
      rfl

end Keyed

namespace Instantiation

variable {ρ : Nat → Nat}

mutual

/-- The instantiation with its temporaries renamed, those of its choices included. -/
def renameTemps (ρ : Nat → Nat) : Instantiation → Instantiation
  | ⟨record, parts, covered, inputs, chosen⟩ =>
    ⟨record, parts.map (Part.renameTemps ρ), covered, inputs, renameTempsChoices ρ chosen⟩

/-- The same for the choices of a combination. -/
def renameTempsChoices (ρ : Nat → Nat) :
    List (String × Instantiation) → List (String × Instantiation)
  | [] => []
  | (ident, i) :: rest => (ident, renameTemps ρ i) :: renameTempsChoices ρ rest

end

@[simp] theorem parts_renameTemps (i : Instantiation) :
    (i.renameTemps ρ).parts = i.parts.map (Part.renameTemps ρ) := by
  cases i
  rfl

/-- An instantiation with renamed temporaries covers the same nodes, since temporaries are no nodes.
-/
@[simp] theorem covered_renameTemps (i : Instantiation) :
    (i.renameTemps ρ).covered = i.covered := by
  cases i
  rfl

@[simp] theorem inputs_renameTemps (i : Instantiation) : (i.renameTemps ρ).inputs = i.inputs := by
  cases i
  rfl

/-- Choices are renamed one by one, under their names. -/
theorem renameTempsChoices_eq_map (chosen : List (String × Instantiation)) :
    renameTempsChoices ρ chosen = chosen.map (Prod.map id (renameTemps ρ)) := by
  induction chosen with
  | nil => rfl
  | cons choice rest ih => rw [renameTempsChoices, ih, List.map_cons, Prod.map, id]

end Instantiation

namespace Filling

variable {ρ : Nat → Nat} {b : Block}

/-- The operand of a node is a value, in which there is nothing to rename. Runs from different
counts therefore capture the same. -/
theorem valueOf_renameTemps (id : NodeId) :
    (valueOf b id).map (Part.renameTemps ρ) = valueOf b id := by
  unfold valueOf
  cases hvalue : b.valueOf? id with
  | none => rfl
  | some p =>
    obtain ⟨v, ty, rfl, -⟩ := Block.valueOf?_eq_some hvalue
    rfl

/-- What a name captures has no temporary in it, so there is nothing to rename, whether it is
written as a number, a symbol or a value. -/
theorem captured_renameTemps (m : Match) (ident : String) (id : NodeId) :
    (captured b m ident id).map (Part.renameTemps ρ) = captured b m ident id := by
  have hconstant : (constantOf b id).map (Part.renameTemps ρ) = constantOf b id := by
    unfold constantOf
    split
    · split <;> first | rfl | exact valueOf_renameTemps id
    · exact valueOf_renameTemps id
  unfold captured
  split
  · exact hconstant
  · exact valueOf_renameTemps id

/-- Whether a path may end where it does has nothing to do with temporaries. -/
theorem ending_renameTemps {ident : String} {rest : List String} {found : Except SubstFault Part}
    (h : found.map (Part.renameTemps ρ) = found) :
    (ending ident rest found).map (Part.renameTemps ρ) = ending ident rest found := by
  cases rest with
  | nil => exact h
  | cons member rest => rfl

/-- How many parts a choice emits is not changed by renaming. -/
theorem singlePart_renameTemps (ident : String) (parts : List Part) :
    singlePart ident (parts.map (Part.renameTemps ρ))
      = (singlePart ident parts).map (Part.renameTemps ρ) := by
  match parts with
  | [] => rfl
  | [p] => rfl
  | p :: q :: rest => simp [singlePart, Except.map]

/-- **In renamed choices a path stands for the renamed part.** The induction is on the path, which
goes on in the choices of a choice; faults are the same on both sides, as they name no temporary. -/
theorem resolve_renameTemps (path : List String) (m : Match)
    (chosen : List (String × Instantiation)) :
    resolve b m (Instantiation.renameTempsChoices ρ chosen) path
      = (resolve b m chosen path).map (Part.renameTemps ρ) := by
  induction path generalizing m chosen with
  | nil => rfl
  | cons head rest ih =>
    rw [resolve, resolve, Instantiation.renameTempsChoices_eq_map, Keyed.get?_map]
    split
    · exact (ending_renameTemps (valueOf_renameTemps m.root)).symm
    split
    · rfl
    split
    · -- The name of a group: its one part, or what the rest of the path stands for in it.
      cases Keyed.get? head chosen with
      | none => rfl
      | some sub =>
        obtain ⟨record, parts, covered, inputs, inner⟩ := sub
        dsimp only [Option.map, Instantiation.renameTemps]
        split
        · exact singlePart_renameTemps head parts
        · exact ih record inner
    · -- Any other name is bound to a node, if at all.
      cases Keyed.get? head m.bindings with
      | none => dsimp only; split <;> rfl
      | some id => exact (ending_renameTemps (captured_renameTemps m head id)).symm

/-- Taking a half and renaming can be done in either order; either may fail, and then the other
does. -/
theorem halved_renameTemps (half : Option Half) (p : Part) :
    (halved half (p.renameTemps ρ)).toOption
      = (halved half p).toOption.map (Part.renameTemps ρ) := by
  cases half with
  | none => rfl
  | some h =>
    rw [halved, halved, Part.slice?_renameTemps]
    cases p.slice? h <;> rfl

/-- Stating a width, if one is stated, and renaming can be done in either order. -/
theorem retyped_renameTemps (ty : Option ValueType) (p : Part) :
    retyped ty (p.renameTemps ρ) = (retyped ty p).renameTemps ρ := by
  cases ty with
  | none => rfl
  | some t => exact Part.retype_renameTemps t p

end Filling

/-! ## Two runs -/

/-- Two runs to be compared: what the numbers of each are looked at through, and the counts of
temporaries from which on the numbers look alike. -/
structure SideBySide where
  left : Nat → Nat
  right : Nat → Nat
  start : Nat
  start' : Nat
  seen : ∀ k, left (Session.tempNumber (start + k)) = right (Session.tempNumber (start' + k))

namespace SideBySide

variable {c : SideBySide} {α β α' β' : Type}

/-- Both runs have allocated as many temporaries. -/
def Abreast (c : SideBySide) (n n' : Nat) : Prop := ∃ k, n = c.start + k ∧ n' = c.start' + k

theorem abreast_start : c.Abreast c.start c.start' := ⟨0, rfl, rfl⟩

/-- Both templates have named the same temporaries, and the counts are abreast. -/
structure InStep (c : SideBySide) (t u : Temporaries) : Prop where
  count : c.Abreast t.allocated u.allocated
  names : t.named.map (Prod.map id (Part.renameTemps c.left))
    = u.named.map (Prod.map id (Part.renameTemps c.right))

/-- Two steps that come to the same, each looked at in its way, and stay in step. -/
def Alike (c : SideBySide) (view view' : α → α') (x y : Subst α) : Prop :=
  ∀ t u : Temporaries, c.InStep t u →
    (x.run.run t).1.toOption.map view = (y.run.run u).1.toOption.map view'
      ∧ c.InStep (x.run.run t).2 (y.run.run u).2

/-- Steps that do nothing are alike if their results look alike. -/
theorem Alike.pure {view view' : α → α'} {a d : α} (h : view a = view' d) :
    c.Alike view view' (Pure.pure a) (Pure.pure d) :=
  fun _ _ hstep => ⟨congrArg some h, hstep⟩

/-- Checks are alike if both fail, or if both give what looks alike. -/
theorem Alike.check {view view' : α → α'} {e e' : Except SubstFault α}
    (h : e.toOption.map view = e'.toOption.map view') :
    c.Alike view view' (Subst.check e) (Subst.check e') :=
  fun _ _ hstep => ⟨h, hstep⟩

/-- **Alike step by step.** Steps that go on alike with results that look alike are alike as a
whole. This carries the comparison through a template without looking at the sessions again. -/
theorem Alike.bind {view view' : α → α'} {after after' : β → β'} {x y : Subst α}
    {f g : α → Subst β} (hxy : c.Alike view view' x y)
    (hfg : ∀ a d, view a = view' d → c.Alike after after' (f a) (g d)) :
    c.Alike after after' (x >>= f) (y >>= g) := by
  intro t u hstep
  obtain ⟨houtcome, hafter⟩ := hxy t u hstep
  rw [ExceptT.run_bind, ExceptT.run_bind, StateT.run_bind, StateT.run_bind]
  -- Both first steps have failed or both have succeeded, and they are still in step.
  generalize x.run.run t = first at houtcome hafter ⊢
  generalize y.run.run u = second at houtcome hafter ⊢
  obtain ⟨result, t₁⟩ := first
  obtain ⟨result', u₁⟩ := second
  cases result with
  | error fault =>
    cases result' with
    | error fault' => exact ⟨rfl, hafter⟩
    | ok d => cases houtcome
  | ok a =>
    cases result' with
    | error fault' => cases houtcome
    | ok d => exact hfg a d (Option.some.inj houtcome) t₁ u₁ hafter

/-- A temporary is the one of its name in both runs, or the next one in both. Next ones look alike
because the counts are abreast, which is what the numbers of each run are looked at through. -/
theorem alike_temporary (name : String) (ty : ValueType) :
    c.Alike (Part.renameTemps c.left) (Part.renameTemps c.right) (Subst.temporary name ty)
      (Subst.temporary name ty) := by
  intro t u hstep
  -- The names known to both runs are the same, and their temporaries look alike.
  have hget : (Keyed.get? name t.named).map (Part.renameTemps c.left)
      = (Keyed.get? name u.named).map (Part.renameTemps c.right) := by
    rw [← Keyed.get?_map, ← Keyed.get?_map]
    exact congrArg (Keyed.get? name) hstep.names
  cases ht : Keyed.get? name t.named with
  | some p =>
    cases hu : Keyed.get? name u.named with
    | some q =>
      rw [ht, hu] at hget
      rw [Subst.run_temporary_of_held ty ht, Subst.run_temporary_of_held ty hu]
      exact ⟨hget, hstep⟩
    | none =>
      rw [ht, hu] at hget
      cases hget
  | none =>
    cases hu : Keyed.get? name u.named with
    | some q =>
      rw [ht, hu] at hget
      cases hget
    | none =>
      -- A new name in both runs: both counts are the same distance from their starts.
      obtain ⟨⟨k, hk, hk'⟩, hnames⟩ := hstep
      have hnew : (Part.temp (Session.tempNumber t.allocated) ty none).renameTemps c.left
          = (Part.temp (Session.tempNumber u.allocated) ty none).renameTemps c.right := by
        rw [Part.renameTemps, Part.renameTemps, hk, hk', c.seen k]
      rw [Subst.run_temporary_of_fresh ty ht, Subst.run_temporary_of_fresh ty hu]
      refine ⟨congrArg some hnew, ⟨k + 1, congrArg (· + 1) hk, congrArg (· + 1) hk'⟩, ?_⟩
      dsimp only
      rw [← Keyed.insert_map, ← Keyed.insert_map, hnames, hnew]

/-! ## Filling in -/

open Filling

variable {b : Block} {m : Match} {chosen chosen' : List (String × Instantiation)}

/-- The choices of a combination come to the same. -/
def SameChoices (c : SideBySide) (chosen chosen' : List (String × Instantiation)) : Prop :=
  Instantiation.renameTempsChoices c.left chosen = Instantiation.renameTempsChoices c.right chosen'

/-- A component that looks alike is added alike, and one that is absent is absent in both runs. It
is asked of each way of adding that it commutes with renaming. -/
theorem alike_addComponent {add : Draft → Part → Except SubstFault Draft}
    (hadd : ∀ ρ d p, (add (Draft.renameTemps ρ d) (Part.renameTemps ρ p)).toOption
      = (add d p).toOption.map (Draft.renameTemps ρ))
    {d d' : Draft} (hd : d.renameTemps c.left = d'.renameTemps c.right) {o o' : Option Part}
    (ho : o.map (Part.renameTemps c.left) = o'.map (Part.renameTemps c.right)) :
    c.Alike (Draft.renameTemps c.left) (Draft.renameTemps c.right) (addComponent add d o)
      (addComponent add d' o') := by
  cases o with
  | none =>
    cases o' with
    | none => exact .pure hd
    | some p' => cases ho
  | some p =>
    cases o' with
    | none => cases ho
    | some p' =>
      have hp : p.renameTemps c.left = p'.renameTemps c.right := Option.some.inj ho
      refine .check ?_
      rw [← hadd, ← hadd, hd, hp]

/-- What a reference comes to looks alike in both runs. A temporary is handled by its name;
everything else is looked up in choices that look alike. -/
theorem alike_target (hchosen : c.SameChoices chosen chosen') (path : List String) :
    c.Alike (Part.renameTemps c.left) (Part.renameTemps c.right) (target ⟨b, m, chosen⟩ path)
      (target ⟨b, m, chosen'⟩ path) := by
  unfold target
  dsimp only
  cases TempName.parse? (Part.pathHead path) with
  | some name =>
    dsimp only
    split
    · exact .check rfl
    · exact alike_temporary _ _
  | none =>
    -- To look at what was found, or to find it in what is looked at, is the same.
    have hview : ∀ ρ, ∀ e : Except SubstFault Part,
        e.toOption.map (Part.renameTemps ρ) = (e.map (Part.renameTemps ρ)).toOption := by
      intro ρ e
      cases e <;> rfl
    refine .check ?_
    rw [hview, hview, ← resolve_renameTemps, ← resolve_renameTemps, hchosen]

/-- An address that is put together from components that come to the same comes to the same. The
components are filled in between the additions, as the program does it, so both are taken in turn.
-/
theorem alike_address {index offset : Option Part} {o o' : Option Part} (scale : Nat)
    (hbase : o.map (Part.renameTemps c.left) = o'.map (Part.renameTemps c.right))
    (hindex : c.Alike (Option.map (Part.renameTemps c.left)) (Option.map (Part.renameTemps c.right))
      (fillOption ⟨b, m, chosen⟩ index) (fillOption ⟨b, m, chosen'⟩ index))
    (hoffset : c.Alike (Option.map (Part.renameTemps c.left))
      (Option.map (Part.renameTemps c.right))
      (fillOption ⟨b, m, chosen⟩ offset) (fillOption ⟨b, m, chosen'⟩ offset)) :
    c.Alike (Part.renameTemps c.left) (Part.renameTemps c.right)
      (do
        let d ← addComponent Draft.addBase .start o
        let i ← fillOption ⟨b, m, chosen⟩ index
        let d ← addComponent (fun d => d.addIndex scale) d i
        let x ← fillOption ⟨b, m, chosen⟩ offset
        let d ← addComponent Draft.addOffset d x
        Subst.check d.finish)
      (do
        let d ← addComponent Draft.addBase .start o'
        let i ← fillOption ⟨b, m, chosen'⟩ index
        let d ← addComponent (fun d => d.addIndex scale) d i
        let x ← fillOption ⟨b, m, chosen'⟩ offset
        let d ← addComponent Draft.addOffset d x
        Subst.check d.finish) := by
  refine (alike_addComponent (fun _ => Draft.addBase_renameTemps) rfl hbase).bind
    fun d₁ d₁' hd₁ => ?_
  refine hindex.bind fun i i' hi => ?_
  refine (alike_addComponent (fun _ => Draft.addIndex_renameTemps scale) hd₁ hi).bind
    fun d₂ d₂' hd₂ => ?_
  refine hoffset.bind fun x x' hx => ?_
  refine (alike_addComponent (fun _ => Draft.addOffset_renameTemps) hd₂ hx).bind
    fun d₃ d₃' hd₃ => ?_
  exact .check (map_toOption_congr Draft.finish_renameTemps Draft.finish_renameTemps hd₃)

mutual

/-- **Filling in a part comes to the same in both runs**, if the numbers that it spells out look
alike. The induction follows the part. -/
theorem alike_fill (hchosen : c.SameChoices chosen chosen') : ∀ p : Part,
    p.renameTemps c.left = p.renameTemps c.right →
    c.Alike (Part.renameTemps c.left) (Part.renameTemps c.right) (fill ⟨b, m, chosen⟩ p)
      (fill ⟨b, m, chosen'⟩ p)
  | .instruction mnemonic condition operands, hp => by
    rw [Part.renameTemps, Part.renameTemps, Part.instruction.injEq, Part.renameTempsAll_eq_map,
      Part.renameTempsAll_eq_map] at hp
    rw [fill, fill]
    refine (alike_fillAll hchosen operands hp.2.2).bind fun ps qs hpq => .pure ?_
    rw [Part.renameTemps, Part.renameTemps, Part.renameTempsAll_eq_map, Part.renameTempsAll_eq_map,
      hpq]
  | .memory ⟨base, index, scale, offset⟩, hp => by
    rw [Part.renameTemps, Part.renameTemps, Part.memory.injEq, Address.mk.injEq] at hp
    obtain ⟨hbase, hindex, -, hoffset⟩ := hp
    rw [fill, fill]
    refine (alike_fillOption hchosen base hbase).bind fun o o' ho => ?_
    have hgeneral := alike_address scale ho (alike_fillOption hchosen index hindex)
      (alike_fillOption hchosen offset hoffset)
    -- Both runs find a base or both find none; a base that stands alone is adopted and not added.
    cases o with
    | none =>
      cases o' with
      | none => exact hgeneral
      | some q => cases ho
    | some p =>
      cases o' with
      | none => cases ho
      | some q =>
        cases index with
        | some i => exact hgeneral
        | none =>
          cases offset with
          | some x => exact hgeneral
          | none =>
            exact .check (map_toOption_congr Draft.ofLoneBase_renameTemps
              Draft.ofLoneBase_renameTemps (Option.some.inj ho))
  | .reference path half ty, _ => by
    rw [fill, fill]
    refine (alike_target hchosen path).bind fun p q hpq => ?_
    have hhalved := map_toOption_congr (halved_renameTemps half) (halved_renameTemps half) hpq
    refine (Alike.check hhalved).bind fun p' q' hpq' => .pure ?_
    rw [← retyped_renameTemps, ← retyped_renameTemps, hpq']
  | .temp id ty half, hp => .pure hp
  | .label name, _ => .pure rfl
  | .register r, _ => .pure rfl
  | .value id ty half, _ => .pure rfl
  | .imm v ty, _ => .pure rfl
  | .symbol name, _ => .pure rfl

/-- Parts are filled in alike from the first to the last. The temporaries that one part has
allocated are there, renamed, for the next one. -/
theorem alike_fillAll (hchosen : c.SameChoices chosen chosen') : ∀ ps : List Part,
    ps.map (Part.renameTemps c.left) = ps.map (Part.renameTemps c.right) →
    c.Alike (List.map (Part.renameTemps c.left)) (List.map (Part.renameTemps c.right))
      (fillAll ⟨b, m, chosen⟩ ps) (fillAll ⟨b, m, chosen'⟩ ps)
  | [], _ => .pure rfl
  | p :: ps, hps => by
    rw [List.map_cons, List.map_cons, List.cons.injEq] at hps
    rw [fillAll, fillAll]
    refine (alike_fill hchosen p hps.1).bind fun q q' hq => ?_
    refine (alike_fillAll hchosen ps hps.2).bind fun qs qs' hqs => .pure ?_
    rw [List.map_cons, List.map_cons, hq, hqs]

/-- A component that is absent is absent in both runs, and one that is there is filled in alike in
both of them. -/
theorem alike_fillOption (hchosen : c.SameChoices chosen chosen') : ∀ o : Option Part,
    Part.renameTempsOption c.left o = Part.renameTempsOption c.right o →
    c.Alike (Option.map (Part.renameTemps c.left)) (Option.map (Part.renameTemps c.right))
      (fillOption ⟨b, m, chosen⟩ o) (fillOption ⟨b, m, chosen'⟩ o)
  | none, _ => .pure rfl
  | some p, hp => by
    rw [Part.renameTempsOption, Part.renameTempsOption, Option.some.injEq] at hp
    rw [fillOption, fillOption]
    exact (alike_fill hchosen p hp).bind fun q q' hq => .pure (congrArg some hq)

end

end SideBySide

/-! ## Instantiations -/

/-- The combinations of changed options are the changed combinations. The induction is on the names.
-/
theorem Flow.product_map {α β : Type} (f : α → β) (options : List (String × List α)) :
    product (options.map (Prod.map id (List.map f)))
      = (product options).map (List.map (Prod.map id f)) := by
  induction options with
  | nil => rfl
  | cons option rest ih =>
    obtain ⟨name, as⟩ := option
    rw [List.map_cons, Prod.map, product, product, ih, List.flatMap_map, List.map_flatMap]
    simp only [List.map_map]
    rfl

/-- Numbers that the template spells out look alike. -/
def SideBySide.SpellsAlike (c : SideBySide) (p : Pattern) : Prop :=
  p.template.map (Part.renameTemps c.left) = p.template.map (Part.renameTemps c.right)

/-- Two runs that come to the same, each looked at in its way, with counts that are abreast. -/
def SideBySide.Tracks {α α' : Type} (c : SideBySide) (view view' : α → α') (x y : α × Session) :
    Prop :=
  view x.1 = view' y.1 ∧ c.Abreast x.2.allocated y.2.allocated

namespace Match

open SideBySide (SameChoices)

variable {c : SideBySide} {b : Block} {m : Match} {s s' : Session}

/-- What is covered with renamed choices is what is covered with the choices. -/
theorem coveredWith_renameTemps (ρ : Nat → Nat) (chosen : List (String × Instantiation)) :
    m.coveredWith (Instantiation.renameTempsChoices ρ chosen) = m.coveredWith chosen := by
  rw [coveredWith, coveredWith, Instantiation.renameTempsChoices_eq_map, List.foldl_map]
  simp only [Prod.map_snd, Instantiation.covered_renameTemps]

/-- What is read with renamed choices is what is read with the choices. -/
theorem readWith_renameTemps (ρ : Nat → Nat) (chosen : List (String × Instantiation)) :
    m.readWith (Instantiation.renameTempsChoices ρ chosen) = m.readWith chosen := by
  rw [readWith, readWith, Instantiation.renameTempsChoices_eq_map, List.foldl_map]
  simp only [Prod.map_snd, Instantiation.inputs_renameTemps]

/-- **A combination comes to the same in both runs.** The template is filled in alike, and the sets
are computed from those of the match and its choices, which have no numbers of temporaries in them.
-/
theorem alike_instantiate {chosen chosen' : List (String × Instantiation)}
    (hm : c.SpellsAlike m.pattern) (hchosen : c.SameChoices chosen chosen')
    (hcount : c.Abreast s.allocated s'.allocated) :
    c.Tracks (fun r => r.toOption.map (Instantiation.renameTemps c.left))
      (fun r => r.toOption.map (Instantiation.renameTemps c.right))
      (m.instantiate b chosen s) (m.instantiate b chosen' s') := by
  obtain ⟨hparts, hafter⟩ := SideBySide.alike_fillAll (b := b) (m := m) hchosen
    m.pattern.template hm ⟨s.allocated, []⟩ ⟨s'.allocated, []⟩ ⟨hcount, rfl⟩
  have hcovered : m.coveredWith chosen = m.coveredWith chosen' := by
    rw [← coveredWith_renameTemps c.left, hchosen, coveredWith_renameTemps]
  have hread : m.readWith chosen = m.readWith chosen' := by
    rw [← readWith_renameTemps c.left, hchosen, readWith_renameTemps]
  unfold instantiate
  generalize (Filling.fillAll ⟨b, m, chosen⟩ m.pattern.template).run.run ⟨s.allocated, []⟩
    = first at hparts hafter
  generalize (Filling.fillAll ⟨b, m, chosen'⟩ m.pattern.template).run.run ⟨s'.allocated, []⟩
    = second at hparts hafter
  obtain ⟨result, t⟩ := first
  obtain ⟨result', t'⟩ := second
  -- Either the combination is dropped in both runs or it becomes an instantiation in both.
  cases result with
  | error fault =>
    cases result' with
    | error fault' => exact ⟨rfl, hafter.count⟩
    | ok parts' => cases hparts
  | ok parts =>
    cases result' with
    | error fault' => cases hparts
    | ok parts' =>
      refine ⟨congrArg some ?_, hafter.count⟩
      rw [Instantiation.renameTemps, Instantiation.renameTemps, hchosen, hcovered, hread,
        Option.some.inj hparts]

/-- **Combinations come to the same one after the other.** One that is dropped is dropped in both
runs, and leaves the counts abreast. -/
theorem alike_fillEach (hm : c.SpellsAlike m.pattern)
    {combos combos' : List (List (String × Instantiation))}
    (h : combos.map (Instantiation.renameTempsChoices c.left)
      = combos'.map (Instantiation.renameTempsChoices c.right))
    (hcount : c.Abreast s.allocated s'.allocated) :
    c.Tracks (List.map (Instantiation.renameTemps c.left))
      (List.map (Instantiation.renameTemps c.right)) (m.fillEach b combos s)
      (m.fillEach b combos' s') := by
  induction combos generalizing combos' s s' with
  | nil =>
    cases combos' with
    | nil => exact ⟨rfl, hcount⟩
    | cons chosen' rest' => cases h
  | cons chosen rest ih =>
    cases combos' with
    | nil => cases h
    | cons chosen' rest' =>
      obtain ⟨hfirst, hrest⟩ := List.cons.inj h
      -- The first combination, and with the sessions that it leaves all others.
      obtain ⟨hone, hafter⟩ := alike_instantiate (b := b) (m := m) hm hfirst hcount
      rw [fillEach, fillEach]
      generalize m.instantiate b chosen s = outcome at hone hafter
      generalize m.instantiate b chosen' s' = outcome' at hone hafter
      obtain ⟨result, t⟩ := outcome
      obtain ⟨result', t'⟩ := outcome'
      cases result with
      | error fault =>
        cases result' with
        | error fault' => exact ih hrest hafter
        | ok i' => cases hone
      | ok i =>
        cases result' with
        | error fault' => cases hone
        | ok i' =>
          obtain ⟨hmore, hcount'⟩ := @ih t t' rest' hrest hafter
          refine ⟨?_, hcount'⟩
          dsimp only
          rw [List.map_cons, List.map_cons, Option.some.inj hone, hmore]

mutual

/-- **A match has the same instantiations in both runs**, each looked at in its way. The induction
follows the nesting of matches, through the options of the included groups. -/
theorem alike_instantiations : ∀ (m : Match) (s s' : Session), m.MadeWith c.SpellsAlike →
    c.Abreast s.allocated s'.allocated →
    c.Tracks (List.map (Instantiation.renameTemps c.left))
      (List.map (Instantiation.renameTemps c.right)) (instantiations b m s) (instantiations b m s')
  | ⟨pattern, root, bindings, submatches, covered, inputs⟩, s, s', hm, hcount => by
    obtain ⟨hpattern, hsubs⟩ := hm
    obtain ⟨hoptions, hafter⟩ := alike_optionsOf submatches s s' hsubs hcount
    have hproduct := congrArg Flow.product hoptions
    rw [Flow.product_map, Flow.product_map] at hproduct
    rw [instantiations_eq, instantiations_eq]
    refine alike_fillEach hpattern ?_ hafter
    simpa only [funext Instantiation.renameTempsChoices_eq_map] using hproduct

/-- The options of the groups come to the same, name by name, with the counts abreast behind each of
them. -/
theorem alike_optionsOf : ∀ (subs : List (String × List Match)) (s s' : Session),
    (∀ ident ms, (ident, ms) ∈ subs → ∀ m ∈ ms, m.MadeWith c.SpellsAlike) →
    c.Abreast s.allocated s'.allocated →
    c.Tracks (List.map (Prod.map id (List.map (Instantiation.renameTemps c.left))))
      (List.map (Prod.map id (List.map (Instantiation.renameTemps c.right))))
      (optionsOf b subs s) (optionsOf b subs s')
  | [], s, s', _, hcount => ⟨rfl, hcount⟩
  | (ident, alternatives) :: rest, s, s', hsubs, hcount => by
    obtain ⟨hfirst, hrest⟩ := forall_alternatives_cons hsubs
    obtain ⟨hhead, hcount₁⟩ := alike_instantiationsOfAll alternatives s s' hfirst hcount
    obtain ⟨hmore, hcount₂⟩ := alike_optionsOf rest _ _ hrest hcount₁
    rw [optionsOf, optionsOf]
    refine ⟨?_, hcount₂⟩
    dsimp only
    rw [List.map_cons, List.map_cons, hmore, Prod.map, Prod.map, hhead]

/-- The instantiations of several matches come to the same, match by match, with the counts abreast
behind each of them. -/
theorem alike_instantiationsOfAll : ∀ (ms : List Match) (s s' : Session),
    (∀ m ∈ ms, m.MadeWith c.SpellsAlike) → c.Abreast s.allocated s'.allocated →
    c.Tracks (List.map (Instantiation.renameTemps c.left))
      (List.map (Instantiation.renameTemps c.right)) (instantiationsOfAll b ms s)
      (instantiationsOfAll b ms s')
  | [], s, s', _, hcount => ⟨rfl, hcount⟩
  | m :: ms, s, s', hms, hcount => by
    obtain ⟨hm, hrest⟩ := List.forall_mem_cons.1 hms
    obtain ⟨hfirst, hcount₁⟩ := alike_instantiations m s s' hm hcount
    obtain ⟨hmore, hcount₂⟩ := alike_instantiationsOfAll ms _ _ hrest hcount₁
    rw [instantiationsOfAll, instantiationsOfAll]
    refine ⟨?_, hcount₂⟩
    dsimp only
    rw [List.map_append, List.map_append, hfirst, hmore]

end

end Match

end TileSelect
