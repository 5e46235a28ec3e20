import TileSelect.Expansion.Substitution
import TileSelect.Proofs.Asm.Values
import TileSelect.Proofs.Match.Entry
/-!
The values in a filled template.

Filling in replaces references, rearranges addresses, takes halves and imposes widths. Through
all of this the values that occur are known from the references alone: a filled template has the
values of what its references stand for, and no others. Temporaries contribute nothing, and a
number or symbol that moves to another place of an address contributes nothing either.

`Filling.Writes` is that statement for a list of paths and a list of values. It says besides that
every path stands for something, as otherwise there would be no filled template; with that, a
value can also be known to occur.
-/

set_option autoImplicit false

namespace TileSelect

/-! ## References -/

namespace Part

mutual

/-- The paths that a template refers to. -/
def references : Part → List (List String)
  | .instruction _ _ operands => referencesOfAll operands
  | .memory ⟨base, index, _, offset⟩ =>
    referencesOfOption base ++ referencesOfOption index ++ referencesOfOption offset
  | .reference path _ _ => [path]
  | .label _ | .register _ | .value .. | .temp .. | .imm .. | .symbol _ => []

/-- The paths that several parts refer to. -/
def referencesOfAll : List Part → List (List String)
  | [] => []
  | p :: ps => references p ++ referencesOfAll ps

/-- The paths that a part refers to that may be absent. -/
def referencesOfOption : Option Part → List (List String)
  | none => []
  | some p => references p

end

@[simp] theorem values_retype (ty : ValueType) (p : Part) : (p.retype ty).values = p.values := by
  cases p <;> rfl

end Part

/-! ## Steps -/

namespace Subst

variable {α β : Type} {t t' : Temporaries}

/-- Two steps end well if each does, with what the first one left handed to the second. Every run of
a template is taken apart with this. -/
theorem run_bind {x : Subst α} {f : α → Subst β} {y : β} :
    (x >>= f).run.run t = (.ok y, t')
      ↔ ∃ a t₁, x.run.run t = (.ok a, t₁) ∧ (f a).run.run t₁ = (.ok y, t') := by
  rw [ExceptT.run_bind, StateT.run_bind]
  generalize x.run.run t = outcome
  obtain ⟨result, t₁⟩ := outcome
  -- A first step that fails is the end; there is nothing for the second one to start from.
  cases result with
  | error fault =>
    constructor
    · intro h
      cases h
    · rintro ⟨a, t₂, heq, -⟩
      cases heq
  | ok a =>
    constructor
    · intro h
      exact ⟨a, t₁, rfl, h⟩
    · rintro ⟨a', t₂, heq, h⟩
      cases heq
      exact h

/-- A check ends well if it succeeds, and it never touches the temporaries. -/
theorem run_check {e : Except SubstFault α} {a : α} :
    (check e).run.run t = (.ok a, t') ↔ e = .ok a ∧ t' = t := by
  have hrun : (check e).run.run t = (e, t) := rfl
  rw [hrun, Prod.mk.injEq]
  exact and_congr_right fun _ => eq_comm

/-- A step that does nothing ends well and leaves the temporaries as they are. -/
theorem run_pure {a a' : α} : (pure a : Subst α).run.run t = (.ok a', t') ↔ a = a' ∧ t' = t := by
  have hrun : (pure a : Subst α).run.run t = (.ok a, t) := rfl
  rw [hrun, Prod.mk.injEq, Except.ok.injEq]
  exact and_congr_right fun _ => eq_comm

theorem run_temporary_of_held {name : String} {p : Part} (ty : ValueType)
    (h : Keyed.get? name t.named = some p) : (temporary name ty).run.run t = (.ok p, t) := by
  rw [temporary, ExceptT.run_mk]
  dsimp only [StateT.run]
  rw [h]

/-- A name that has none is given the next one, and the count goes up. From then on the name keeps
it, as long as the template is being filled in. -/
theorem run_temporary_of_fresh {name : String} (ty : ValueType)
    (h : Keyed.get? name t.named = none) :
    (temporary name ty).run.run t
      = (.ok (.temp (Session.tempNumber t.allocated) ty none), ⟨t.allocated + 1,
          Keyed.insert name (.temp (Session.tempNumber t.allocated) ty none) t.named⟩) := by
  rw [temporary, ExceptT.run_mk]
  dsimp only [StateT.run]
  rw [h]

end Subst

/-- No temporary holds a value. -/
def Temporaries.Blank (t : Temporaries) : Prop := ∀ name p, (name, p) ∈ t.named → p.values = []

/-- **A temporary holds no value**, neither one that the name has nor the next one. What a template
writes into temporaries therefore adds no reads. -/
theorem Subst.blank_temporary {name : String} {ty : ValueType} {t t' : Temporaries} {p : Part}
    (ht : t.Blank) (h : (temporary name ty).run.run t = (.ok p, t')) :
    p.values = [] ∧ t'.Blank := by
  cases hget : Keyed.get? name t.named with
  | some q =>
    cases (run_temporary_of_held ty hget).symm.trans h
    exact ⟨ht name p (Keyed.mem_of_get? hget), ht⟩
  | none =>
    cases (run_temporary_of_fresh ty hget).symm.trans h
    refine ⟨rfl, fun key q hq => ?_⟩
    -- The name had no temporary, so storing the new one replaces nothing.
    have hfresh : ∀ d, ¬ (name, d) ∈ t.named := by
      intro d hd
      obtain ⟨c, hc⟩ := Keyed.exists_get?_of_mem hd
      rw [hget] at hc
      cases hc
    rcases (Keyed.mem_insert_of_fresh hfresh).1 hq with ⟨-, rfl⟩ | hold
    · rfl
    · exact ht key q hold

/-! ## What paths stand for -/

namespace Filling

variable {f : Filling}

/-- What a path of the template stands for, temporaries aside. -/
def StandsFor (f : Filling) (path : List String) (r : Part) : Prop :=
  resolve f.block f.record f.chosen path = .ok r

theorem StandsFor.unique {path : List String} {r r' : Part} (h : f.StandsFor path r)
    (h' : f.StandsFor path r') : r = r' :=
  Except.ok.inj (h.symm.trans h')

/-- Values that are those of what the paths stand for, where every path stands for something or is
that of a temporary. -/
structure Writes (f : Filling) (paths : List (List String)) (values : List Nat) : Prop where
  resolved : ∀ path ∈ paths, (TempName.parse? (Part.pathHead path)).isSome = true
    ∨ ∃ r, f.StandsFor path r
  mem_values : ∀ v, v ∈ values ↔ ∃ path ∈ paths, ∃ r, f.StandsFor path r ∧ v ∈ r.values

theorem Writes.nil : Writes f [] [] := ⟨by simp, by simp⟩

/-- Paths one after the other write the values of both. Templates are followed part by part with
this, and parts operand by operand. -/
theorem Writes.append {paths paths' : List (List String)} {values values' : List Nat}
    (h : Writes f paths values) (h' : Writes f paths' values') :
    Writes f (paths ++ paths') (values ++ values') := by
  constructor
  · intro path hpath
    rcases List.mem_append.1 hpath with hpath | hpath
    · exact h.resolved path hpath
    · exact h'.resolved path hpath
  · intro v
    rw [List.mem_append, h.mem_values, h'.mem_values]
    simp only [List.mem_append, or_and_right, exists_or]

/-- Only which values there are matters, and neither their order nor how often they occur. -/
theorem Writes.congr {paths : List (List String)} {values values' : List Nat}
    (h : Writes f paths values) (heq : ∀ v, v ∈ values' ↔ v ∈ values) : Writes f paths values' :=
  ⟨h.resolved, fun v => (heq v).trans (h.mem_values v)⟩

/-- The name of a temporary stands for nothing else: it is looked at before everything but the root,
and no identifier of a compiled pattern is spelled like one. -/
theorem not_standsFor_of_temp {path : List String} {r : Part}
    (h : (TempName.parse? (Part.pathHead path)).isSome = true) : ¬ f.StandsFor path r := by
  intro hr
  cases path with
  | nil => cases hr
  | cons head rest =>
    have htemp : (TempName.parse? head).isSome = true := h
    have hout : head ≠ "out" := by
      rintro rfl
      exact absurd htemp (by decide)
    unfold StandsFor at hr
    rw [resolve, if_neg hout, if_pos htemp] at hr
    cases hr

/-- What a path comes to: what it stands for, the temporary that its name has, or the next one. -/
inductive Targets (f : Filling) (path : List String) (t : Temporaries) :
    Part → Temporaries → Prop
  | standing {r : Part} (unnamed : TempName.parse? (Part.pathHead path) = none)
      (stands : f.StandsFor path r) : Targets f path t r t
  | held {r : Part} {name : TempName} (named : TempName.parse? (Part.pathHead path) = some name)
      (alone : path.tail = []) (holds : Keyed.get? (Part.pathHead path) t.named = some r) :
      Targets f path t r t
  | fresh {name : TempName} (named : TempName.parse? (Part.pathHead path) = some name)
      (alone : path.tail = []) (misses : Keyed.get? (Part.pathHead path) t.named = none) :
      Targets f path t (.temp (Session.tempNumber t.allocated) (f.tempType name) none)
        ⟨t.allocated + 1, Keyed.insert (Part.pathHead path)
          (.temp (Session.tempNumber t.allocated) (f.tempType name) none) t.named⟩

/-- What a path comes to is determined by the kind of its first name. All that is proved of
references starts with these cases. -/
theorem targets_of_run {path : List String} {t t' : Temporaries} {r : Part}
    (h : (f.target path).run.run t = (.ok r, t')) : f.Targets path t r t' := by
  unfold target at h
  dsimp only at h
  cases hname : TempName.parse? (Part.pathHead path) with
  | none =>
    rw [hname] at h
    obtain ⟨hr, rfl⟩ := Subst.run_check.1 h
    exact .standing hname hr
  | some name =>
    rw [hname] at h
    -- Temporaries have no members.
    obtain ⟨htail, h⟩ : path.tail = [] ∧
        (Subst.temporary (Part.pathHead path) (f.tempType name)).run.run t = (.ok r, t') := by
      cases path with
      | nil => exact ⟨rfl, h⟩
      | cons head rest =>
        cases rest with
        | nil => exact ⟨rfl, h⟩
        | cons member rest => exact absurd (Subst.run_check.1 h).1 (by simp)
    cases hget : Keyed.get? (Part.pathHead path) t.named with
    | some q =>
      cases (Subst.run_temporary_of_held _ hget).symm.trans h
      exact .held hname htail hget
    | none =>
      cases (Subst.run_temporary_of_fresh _ hget).symm.trans h
      exact .fresh hname htail hget

/-- **A reference has the values of what it stands for.** If it is one to a temporary it has none,
and then it stands for nothing either, so the two sides agree in this case as well. -/
theorem writes_target {path : List String} {t t' : Temporaries} {r : Part} (ht : t.Blank)
    (h : (f.target path).run.run t = (.ok r, t')) : t'.Blank ∧ Writes f [path] r.values := by
  unfold target at h
  dsimp only at h
  -- A temporary is only meant by a name that stands alone; a longer path is refused.
  split at h
  · rename_i name hname
    have htemp : (TempName.parse? (Part.pathHead path)).isSome = true := by rw [hname]; rfl
    have hnone : ∀ {ty : ValueType}, (Subst.temporary (Part.pathHead path) ty).run.run t
        = (.ok r, t') → t'.Blank ∧ Writes f [path] r.values := by
      intro ty hrun
      obtain ⟨hvalues, ht'⟩ := Subst.blank_temporary ht hrun
      refine ⟨ht', ?_, fun v => ?_⟩
      · rintro path' hpath'
        rw [List.mem_singleton.1 hpath']
        exact .inl htemp
      · rw [hvalues]
        constructor
        · intro hv
          exact absurd hv List.not_mem_nil
        · rintro ⟨path', hpath', r', hr', -⟩
          rw [List.mem_singleton.1 hpath'] at hr'
          exact absurd hr' (not_standsFor_of_temp htemp)
    split at h
    · rw [Subst.run_check] at h
      exact absurd h.1 (by simp)
    · exact hnone h
  · rw [Subst.run_check] at h
    -- Anything else is looked up, which leaves the temporaries alone.
    obtain ⟨hr, rfl⟩ := h
    refine ⟨ht, ?_, fun v => ?_⟩
    · intro path' hpath'
      rw [List.mem_singleton.1 hpath']
      exact .inr ⟨r, hr⟩
    · constructor
      · intro hv
        exact ⟨path, List.mem_singleton.2 rfl, r, hr, hv⟩
      · rintro ⟨path', hpath', r', hr', hv⟩
        rw [List.mem_singleton.1 hpath'] at hr'
        rw [StandsFor.unique hr hr']
        exact hv

/-- A half of an operand has the values of the operand, and where no half is asked for nothing
changes. -/
theorem values_halved {half : Option Half} {p q : Part} (h : halved half p = .ok q) :
    q.values = p.values := by
  unfold halved at h
  split at h
  · cases h
    rfl
  · split at h
    · rename_i hslice
      cases h
      exact Part.values_slice? hslice
    · cases h

theorem values_retyped (ty : Option ValueType) (p : Part) : (retyped ty p).values = p.values := by
  cases ty with
  | none => rfl
  | some t => exact Part.values_retype t p

end Filling

/-! ## Addresses -/

namespace Draft

variable {d d' : Draft} {p : Part}

/-- The values of the registers that are in. -/
def values (d : Draft) : List Nat := Part.valuesOfOption d.base ++ Part.valuesOfOption d.index

/-- The displacements are numbers and symbols. -/
def Flat (d : Draft) : Prop := ∀ p ∈ d.displacements, p.values = []

/-- A draft stays flat if a displacement without values is added. -/
theorem Flat.displace (h : d.Flat) (hp : p.values = []) : (d.displace p).Flat := by
  intro q hq
  rcases List.mem_append.1 hq with hq | hq
  · exact h q hq
  · rw [List.mem_singleton.1 hq]
    exact hp

/-- What a component does to a draft: its values are added, and it stays flat. -/
structure Adds (d : Draft) (vs : List Nat) (d' : Draft) : Prop where
  values : ∀ v, v ∈ d'.values ↔ v ∈ d.values ∨ v ∈ vs
  flat : d.Flat → d'.Flat

/-- A displacement adds no value of its own, as it is a number or a symbol. -/
theorem Adds.displace (hp : p.values = []) : Adds d p.values (d.displace p) where
  values v := by
    have hsame : (d.displace p).values = d.values := rfl
    simp [hsame, hp]
  flat h := h.displace hp

/-- A base adds its value, and leaves the index to be set. This matters in the next step, which may
put a scaled index there only if it is free. -/
theorem adds_addBase (hd : d.base = none) (h : d.addBase p = .ok d') :
    Adds d p.values d' ∧ d'.index = d.index := by
  rw [addBase] at h
  split at h
  · rename_i hconst
    cases h
    exact ⟨.displace (Part.values_of_isConstant hconst), rfl⟩
  · split at h
    · cases h
      refine ⟨⟨fun v => ?_, fun hflat => hflat⟩, rfl⟩
      simp [Draft.values, hd, or_comm]
    · cases h

/-- An index adds its values. If it is an address of its own, those of its base and its index are
taken over, and its offset goes to the displacements. -/
theorem adds_addIndex {scale : Nat} (hd : d.index = none) (h : d.addIndex scale p = .ok d') :
    Adds d p.values d' := by
  unfold addIndex at h
  split at h
  · rename_i inner
    split at h
    · rename_i hscaled
      split at h
      · cases h
        -- A scaled index is an index and nothing else.
        simp only [Address.isScaledIndex, Bool.and_eq_true, Option.isNone_iff_eq_none] at hscaled
        refine ⟨fun v => ?_, fun hflat => hflat⟩
        simp [Draft.values, hd, hscaled.1.2, hscaled.2]
      · cases h
    · cases h
  · cases h
    refine ⟨fun v => ?_, fun hflat => hflat.displace rfl⟩
    simp [Draft.values, Draft.displace, Part.values]
  · split at h
    · rename_i hconst
      rw [Bool.and_eq_true] at hconst
      cases h
      exact .displace (Part.values_of_isConstant hconst.1)
    · split at h
      · cases h
        refine ⟨fun v => ?_, fun hflat => hflat⟩
        simp [Draft.values, hd]
      · cases h

/-- An offset is a constant and adds no value. -/
theorem adds_addOffset (h : d.addOffset p = .ok d') : Adds d p.values d' := by
  rw [addOffset] at h
  split at h
  · rename_i hconst
    cases h
    exact .displace (Part.values_of_isConstant hconst)
  · cases h

/-- The sum of the displacements holds no value: each of them is a number or a symbol, and adding
makes numbers. So all values of an address are in its base and its index. -/
theorem values_offset {o : Option Part} (hd : d.Flat) (h : d.offset = .ok o) :
    Part.valuesOfOption o = [] := by
  unfold offset at h
  split at h
  · cases h
    rfl
  · rename_i first rest hdisplacements
    have hfirst : first.values = [] := hd first (by rw [hdisplacements]; exact List.mem_cons_self)
    cases hsum : rest.foldlM addDisplacement first with
    | error fault =>
      rw [hsum] at h
      cases h
    | ok sum =>
      rw [hsum] at h
      cases h
      rw [Part.valuesOfOption_some]
      refine foldlM_keeps (fun q : Part => q.values = []) (fun q q' a _ _ hstep => ?_) hfirst hsum
      unfold addDisplacement at hstep
      split at hstep
      · cases hstep
        rfl
      · cases hstep

/-- What a flat draft becomes has the values of its base and its index, the displacements having
none. -/
theorem values_finish {q : Part} (hd : d.Flat) (h : d.finish = .ok q) (v : Nat) :
    v ∈ q.values ↔ v ∈ d.values := by
  rw [finish, bind_eq_ok] at h
  obtain ⟨o, ho, h⟩ := h
  split at h
  · cases h
  · cases h
    simp [Draft.values, values_offset hd ho]

/-- A component that stands alone keeps its values when it becomes an address, whichever of the
three kinds it is: an address, a constant or a register. -/
theorem values_ofLoneBase {q : Part} (h : ofLoneBase p = .ok q) (v : Nat) :
    v ∈ q.values ↔ v ∈ p.values := by
  unfold ofLoneBase at h
  split at h
  · cases h
    rfl
  · split at h
    · cases h
      simp [Address.ofOffset]
    · split at h
      · cases h
        simp [Address.ofBase]
      · cases h

end Draft

/-! ## Templates -/

namespace Filling

variable {f : Filling}

/-- A component adds its values; an absent one adds none and changes nothing. Temporaries are not
touched while an address is put together. -/
theorem adds_addComponent {add : Draft → Part → Except SubstFault Draft} {d d' : Draft}
    {o : Option Part} {t t' : Temporaries}
    (hadd : ∀ p d', add d p = .ok d' → d.Adds p.values d')
    (h : (addComponent add d o).run.run t = (.ok d', t')) :
    t' = t ∧ d.Adds (Part.valuesOfOption o) d' := by
  cases o with
  | none =>
    rw [addComponent, Subst.run_pure] at h
    obtain ⟨rfl, rfl⟩ := h
    exact ⟨rfl, ⟨fun v => by simp, fun hflat => hflat⟩⟩
  | some p =>
    rw [addComponent, Subst.run_check] at h
    rw [Part.valuesOfOption_some]
    exact ⟨h.2, hadd p d' h.1⟩

/-- Adding the base to an empty draft leaves it without an index, also where there is no base. -/
theorem index_addComponent {d : Draft} {o : Option Part} {t t' : Temporaries}
    (h : (addComponent Draft.addBase .start o).run.run t = (.ok d, t')) : d.index = none := by
  cases o with
  | none =>
    rw [addComponent, Subst.run_pure] at h
    rw [← h.1]
    rfl
  | some p =>
    rw [addComponent, Subst.run_check] at h
    exact (Draft.adds_addBase rfl h.1).2

mutual

/-- **A filled part has the values of what its references stand for.** The induction follows the
template; only references and memory operands are not the same on both sides. -/
theorem writes_fill : ∀ (p : Part) (t t' : Temporaries) (q : Part), p.values = [] → t.Blank →
    (fill f p).run.run t = (.ok q, t') → t'.Blank ∧ Writes f p.references q.values
  | .instruction mnemonic condition operands, t, t', q, hp, ht, h => by
    rw [fill, Subst.run_bind] at h
    obtain ⟨qs, t₁, hqs, h⟩ := h
    obtain ⟨rfl, rfl⟩ := Subst.run_pure.1 h
    rw [Part.values_instruction] at hp ⊢
    rw [Part.references]
    exact writes_fillAll operands t t' qs hp ht hqs
  | .memory ⟨base, index, scale, offset⟩, t, t', q, hp, ht, h => by
    rw [Part.values_memory, List.append_eq_nil_iff, List.append_eq_nil_iff] at hp
    obtain ⟨⟨hbase, hindex⟩, hoffset⟩ := hp
    rw [fill, Subst.run_bind] at h
    obtain ⟨base', t₁, hb, h⟩ := h
    obtain ⟨ht₁, hwb⟩ := writes_fillOption base t t₁ base' hbase ht hb
    rw [Part.references]
    split at h
    · -- A base alone: what it became takes its place.
      rw [Subst.run_check] at h
      obtain ⟨hlone, rfl⟩ := h
      rw [Part.valuesOfOption_some] at hwb
      simp only [Part.referencesOfOption, List.append_nil]
      exact ⟨ht₁, hwb.congr (Draft.values_ofLoneBase hlone)⟩
    · obtain ⟨d₁, t₂, hd₁, h⟩ := Subst.run_bind.1 h
      obtain ⟨i, t₃, hi, h⟩ := Subst.run_bind.1 h
      obtain ⟨d₂, t₄, hd₂, h⟩ := Subst.run_bind.1 h
      obtain ⟨o, t₅, ho, h⟩ := Subst.run_bind.1 h
      obtain ⟨d₃, t₆, hd₃, h⟩ := Subst.run_bind.1 h
      rw [Subst.run_check] at h
      obtain ⟨hfinish, rfl⟩ := h
      have hnone := index_addComponent hd₁
      obtain ⟨rfl, hadds₁⟩ :=
        adds_addComponent (fun p d' hp => (Draft.adds_addBase rfl hp).1) hd₁
      obtain ⟨ht₃, hwi⟩ := writes_fillOption index _ t₃ i hindex ht₁ hi
      obtain ⟨rfl, hadds₂⟩ := adds_addComponent (fun p d' => Draft.adds_addIndex hnone) hd₂
      obtain ⟨ht₅, hwo⟩ := writes_fillOption offset _ t₅ o hoffset ht₃ ho
      obtain ⟨rfl, hadds₃⟩ := adds_addComponent (fun p d' => Draft.adds_addOffset) hd₃
      have hflat : d₃.Flat := hadds₃.flat (hadds₂.flat (hadds₁.flat fun p hp => by cases hp))
      have hstart : Draft.start.values = [] := rfl
      refine ⟨ht₅, ((hwb.append hwi).append hwo).congr fun v => ?_⟩
      rw [Draft.values_finish hflat hfinish, hadds₃.values, hadds₂.values, hadds₁.values, hstart]
      simp [or_assoc]
  | .reference path half ty, t, t', q, hp, ht, h => by
    rw [fill, Subst.run_bind] at h
    obtain ⟨p, t₁, hp, h⟩ := h
    obtain ⟨ht₁, hw⟩ := writes_target ht hp
    obtain ⟨p', t₂, hp', hret⟩ := Subst.run_bind.1 h
    obtain ⟨hhalf, rfl⟩ := Subst.run_check.1 hp'
    obtain ⟨rfl, rfl⟩ := Subst.run_pure.1 hret
    rw [values_retyped, values_halved hhalf, Part.references]
    exact ⟨ht₁, hw⟩
  | .label _, t, t', q, hp, ht, h | .register _, t, t', q, hp, ht, h
  | .value .., t, t', q, hp, ht, h | .temp .., t, t', q, hp, ht, h | .imm .., t, t', q, hp, ht, h
  | .symbol _, t, t', q, hp, ht, h => by
    rw [fill] at h
    · obtain ⟨rfl, rfl⟩ := Subst.run_pure.1 h
      rw [hp, Part.references]
      exact ⟨ht, .nil⟩
    all_goals
      intros
      contradiction

/-- What is written by the parts of a template, from the first to the last, as they share their
temporaries. -/
theorem writes_fillAll : ∀ (ps : List Part) (t t' : Temporaries) (qs : List Part),
    Part.valuesOfAll ps = [] → t.Blank → (fillAll f ps).run.run t = (.ok qs, t') →
    t'.Blank ∧ Writes f (Part.referencesOfAll ps) (Part.valuesOfAll qs)
  | [], t, t', qs, hp, ht, h => by
    rw [fillAll, Subst.run_pure] at h
    obtain ⟨rfl, rfl⟩ := h
    exact ⟨ht, .nil⟩
  | p :: ps, t, t', qs, hp, ht, h => by
    rw [Part.valuesOfAll_cons, List.append_eq_nil_iff] at hp
    rw [fillAll, Subst.run_bind] at h
    obtain ⟨q, t₁, hq, h⟩ := h
    obtain ⟨qs', t₂, hqs, h⟩ := Subst.run_bind.1 h
    obtain ⟨rfl, rfl⟩ := Subst.run_pure.1 h
    obtain ⟨ht₁, hw⟩ := writes_fill p t t₁ q hp.1 ht hq
    obtain ⟨ht₂, hws⟩ := writes_fillAll ps t₁ t' qs' hp.2 ht₁ hqs
    rw [Part.referencesOfAll, Part.valuesOfAll_cons]
    exact ⟨ht₂, hw.append hws⟩

/-- What is written by a component that may be absent: nothing, or what the part writes. -/
theorem writes_fillOption : ∀ (o : Option Part) (t t' : Temporaries) (o' : Option Part),
    Part.valuesOfOption o = [] → t.Blank → (fillOption f o).run.run t = (.ok o', t') →
    t'.Blank ∧ Writes f (Part.referencesOfOption o) (Part.valuesOfOption o')
  | none, t, t', o', hp, ht, h => by
    rw [fillOption, Subst.run_pure] at h
    obtain ⟨rfl, rfl⟩ := h
    exact ⟨ht, .nil⟩
  | some p, t, t', o', hp, ht, h => by
    rw [Part.valuesOfOption_some] at hp
    rw [fillOption, Subst.run_bind] at h
    obtain ⟨q, t₁, hq, h⟩ := h
    obtain ⟨rfl, rfl⟩ := Subst.run_pure.1 h
    rw [Part.referencesOfOption, Part.valuesOfOption_some]
    exact writes_fill p t t' q hp ht hq

end

end Filling

end TileSelect
