import TileSelect.Proofs.Meaning.Address
import TileSelect.Proofs.Meaning.Formula
/-!
Templates, carried out before they are filled in.

If it is known what the names in a template stand for, as formulas, then the template can be carried
out on formulas: `Part.symbolic?` says what an operand will stand for, and `Part.after?` what an
instruction will leave in the value of the root, the one place that a template may write. The main
result is that the machine agrees. It runs the template, filled in, from any state in which the
names stand for the known formulas, and what it leaves in the value of the root is the word of the
formula.

The value of the root is written while later instructions still read their operands. That does no
harm because nothing else is known of that value: the names stand for the words of other nodes.
-/

set_option autoImplicit false

namespace TileSelect

/-- What is known of the paths in a template: what they will stand for. -/
abbrev Known := List String → Option (Datum Formula)

/-- The value of the root now holds the word of a formula. -/
def Known.set (known : Known) (content : Formula) : Known := fun path =>
  if path = ["out"] then some (.number content) else known path

namespace Part

variable (known : Known)

/-- What a part stands for that is no address. -/
def component? : Part → Option (Datum Formula)
  | .reference path none none => known path
  | .imm v _ => some (.number (.number (.ofNumber v)))
  | _ => none

/-- What a component adds to an address. -/
def weight? : Option Part → Option Formula
  | none => some (.number 0)
  | some p => (p.component? known).map Datum.weight

/-- What an operand of a template stands for. -/
def symbolic? : Part → Option (Datum Formula)
  | .memory a => do
    let base ← weight? known a.base
    let index ← weight? known a.index
    let offset ← weight? known a.offset
    let scaled := Formula.binary .mul index (.number (BitVec.ofNat 32 a.scale))
    return .memory (.binary .add (.binary .add base scaled) offset)
  | p => p.component? known

/-- What an instruction leaves in the value of the root, given what was there. -/
def after? (content : Formula) : Part → Option Formula
  | .instruction mnemonic none (.reference ["out"] none none :: operands) => do
    let data ← operands.mapM (symbolic? (known.set content))
    Formula.arithmetic.result? mnemonic content data
  | _ => none

end Part

namespace Filling

variable {f : Filling} {w : World} {st : State} {env : List String → Word} {known : Known}
  {p q : Part} {d : Datum Formula} {t t' : Temporaries}

/-- Every known path stands for what is known. -/
def Denotes (f : Filling) (w : World) (st : State) (env : List String → Word) (known : Known) :
    Prop :=
  ∀ path d, known path = some d → TempName.parse? (Part.pathHead path) = none
    ∧ ∀ r, f.StandsFor path r → r.datum? w st = some (d.map (Formula.eval w env))

/-- A path that is not the name of a temporary is filled in with what it stands for. Without a half
or a width nothing is done to it. -/
theorem standsFor_of_run {path : List String} (htemp : TempName.parse? (Part.pathHead path) = none)
    (h : (fill f (.reference path none none)).run.run t = (.ok q, t')) : f.StandsFor path q := by
  rw [fill, Subst.run_bind] at h
  obtain ⟨r, t₁, hr, h⟩ := h
  obtain ⟨r', t₂, hhalf, h⟩ := Subst.run_bind.1 h
  obtain ⟨hhalf, -⟩ := Subst.run_check.1 hhalf
  obtain ⟨rfl, -⟩ := Subst.run_pure.1 h
  cases hhalf
  unfold target at hr
  simp only [htemp] at hr
  exact (Subst.run_check.1 hr).1

/-- Parts are filled in one after the other, and what the first has allocated is there for the
others. -/
theorem run_fillAll_cons {ps qs : List Part} (h : (fillAll f (p :: ps)).run.run t = (.ok qs, t')) :
    ∃ q t₁ rest, (fill f p).run.run t = (.ok q, t₁) ∧ (fillAll f ps).run.run t₁ = (.ok rest, t')
      ∧ qs = q :: rest := by
  rw [fillAll, Subst.run_bind] at h
  obtain ⟨q, t₁, hq, h⟩ := h
  obtain ⟨rest, t₂, hrest, h⟩ := Subst.run_bind.1 h
  obtain ⟨rfl, rfl⟩ := Subst.run_pure.1 h
  exact ⟨q, t₁, rest, hq, hrest, rfl⟩

section Operands

variable (hf : f.Denotes w st env known)
include hf

/-- A part that is no address is a name, which stands for what is known, or it is filled in as it is
and stands for the same everywhere. -/
theorem datum?_component (hp : p.component? known = some d)
    (h : (fill f p).run.run t = (.ok q, t')) :
    q.datum? w st = some (d.map (Formula.eval w env)) := by
  unfold Part.component? at hp
  split at hp
  · obtain ⟨htemp, hstands⟩ := hf _ d hp
    exact hstands q (standsFor_of_run htemp h)
  · cases hp
    rw [fill] at h
    obtain ⟨rfl, -⟩ := Subst.run_pure.1 h
    · rfl
    all_goals simp
  · cases hp

/-- What is filled in for a component: nothing where there is none, and otherwise a part that stands
for a word or an address as the template says. -/
theorem exists_datum?_of_weight? {o o' : Option Part} {x : Formula}
    (ho : Part.weight? known o = some x) (h : (fillOption f o).run.run t = (.ok o', t')) :
    (o = none ∧ o' = none ∧ x = .number 0)
      ∨ ∃ r datum, o' = some r ∧ r.datum? w st = some datum ∧ datum.weight = x.eval w env := by
  cases o with
  | none =>
    rw [fillOption, Subst.run_pure] at h
    cases ho
    exact .inl ⟨rfl, h.1.symm, rfl⟩
  | some p =>
    rw [fillOption, Subst.run_bind] at h
    obtain ⟨r, t₁, hr, h⟩ := h
    obtain ⟨rfl, -⟩ := Subst.run_pure.1 h
    obtain ⟨d, hd, rfl⟩ := Option.map_eq_some_iff.1 ho
    exact .inr ⟨r, _, rfl, datum?_component hf hd hr, Datum.weight_map _ d⟩

/-- A component adds what it stands for, times some scale. How base, index and offset are added is
left open, so that this is the step for each of the three. -/
theorem sums_addComponent {add : Draft → Part → Except SubstFault Draft} {o o' : Option Part}
    {draft draft' : Draft} {s : Formula} {x : Word} {t₁ : Temporaries} (scale : Word)
    (hadd : ∀ r draft' datum, add draft r = .ok draft' → r.datum? w st = some datum →
      draft'.Sums w st (x + datum.weight * scale))
    (hsums : draft.Sums w st x) (ho : Part.weight? known o = some s)
    (hfill : (fillOption f o).run.run t = (.ok o', t₁))
    (h : (addComponent add draft o').run.run t₁ = (.ok draft', t')) :
    draft'.Sums w st (x + s.eval w env * scale) := by
  rcases exists_datum?_of_weight? hf ho hfill with ⟨-, rfl, rfl⟩ | ⟨r, datum, rfl, hr, hs⟩
  · rw [addComponent, Subst.run_pure] at h
    obtain ⟨rfl, -⟩ := h
    simpa [Formula.eval] using hsums
  · rw [addComponent, Subst.run_check] at h
    rw [← hs]
    exact hadd r draft' datum h.1 hr

/-- **An operand, filled in, stands for what it stood for as part of the template.** For an address,
each of its components does, and assembling them adds them up. -/
theorem datum?_fill (hp : p.symbolic? known = some d) (h : (fill f p).run.run t = (.ok q, t')) :
    q.datum? w st = some (d.map (Formula.eval w env)) := by
  cases p with
  | memory a =>
    obtain ⟨base, index, scale, offset⟩ := a
    simp only [Part.symbolic?, Option.bind_eq_bind, Option.bind_eq_some_iff] at hp
    obtain ⟨sbase, hbase, sindex, hindex, soffset, hoffset, hd⟩ := hp
    cases hd
    rw [fill, Subst.run_bind] at h
    obtain ⟨base', t₁, hb, h⟩ := h
    split at h
    · -- A base alone: the other components are absent and add nothing.
      rcases exists_datum?_of_weight? hf hbase hb with ⟨-, hnone, -⟩ | ⟨r, datum, hr, hdatum, hs⟩
      · cases hnone
      · cases hr
        cases hindex
        cases hoffset
        rw [Draft.datum?_ofLoneBase (Subst.run_check.1 h).1 hdatum, hs]
        simp [Datum.map, Formula.eval, Binary.apply]
    · -- In general: base, index and offset are put into a draft, one after the other.
      obtain ⟨d₁, t₂, hd₁, h⟩ := Subst.run_bind.1 h
      obtain ⟨i, t₃, hi, h⟩ := Subst.run_bind.1 h
      obtain ⟨d₂, t₄, hd₂, h⟩ := Subst.run_bind.1 h
      obtain ⟨o, t₅, ho, h⟩ := Subst.run_bind.1 h
      obtain ⟨d₃, t₆, hd₃, h⟩ := Subst.run_bind.1 h
      have hnone := index_addComponent hd₁
      have hsums₁ := sums_addComponent hf 1
        (fun r d' datum hr hdatum => by
          simpa using Draft.sums_start.addBase rfl hr hdatum) Draft.sums_start hbase hb hd₁
      have hsums₂ := sums_addComponent hf _
        (fun r d' datum hr hdatum => hsums₁.addIndex hnone hr hdatum) hsums₁ hindex hi hd₂
      have hsums₃ := sums_addComponent hf 1
        (fun r d' datum hr hdatum => by
          simpa using hsums₂.addOffset hr hdatum) hsums₂ hoffset ho hd₃
      rw [hsums₃.finish (Subst.run_check.1 h).1]
      simp [Datum.map, Formula.eval, Binary.apply]
  | instruction | label | reference | register | value | temp | imm | symbol =>
    rw [Part.symbolic?] at hp
    · exact datum?_component hf hp h
    · simp

/-- Several operands, filled in, stand for what they stood for. The temporaries that one uses up do
not matter to the next. -/
theorem mapM_datum?_fillAll {ps qs : List Part} {ds : List (Datum Formula)}
    (hps : ps.mapM (Part.symbolic? known) = some ds)
    (h : (fillAll f ps).run.run t = (.ok qs, t')) :
    qs.mapM (Part.datum? w st) = some (ds.map (Datum.map (Formula.eval w env))) := by
  induction ps generalizing t qs ds with
  | nil =>
    rw [fillAll, Subst.run_pure] at h
    obtain ⟨rfl, -⟩ := h
    cases hps
    rfl
  | cons p ps ih =>
    simp only [List.mapM_cons, Option.bind_eq_bind, Option.bind_eq_some_iff] at hps
    obtain ⟨d, hd, ds, hds, hcons⟩ := hps
    cases hcons
    obtain ⟨q, t₁, qs, hq, hqs, rfl⟩ := run_fillAll_cons h
    simp only [List.mapM_cons, datum?_fill hf hd hq, ih hds hqs]
    rfl

end Operands

/-! ## Instructions -/

/-- A template that can be carried out mentions the value of the root, which therefore is there: an
instruction changes nothing else. -/
theorem exists_standsFor_out {content content' : Formula} {ps qs : List Part}
    (hps : ps.foldlM (Part.after? known) content = some content') (hne : ps ≠ [])
    (h : (fillAll f ps).run.run t = (.ok qs, t')) : ∃ r, f.StandsFor ["out"] r := by
  cases ps with
  | nil => exact absurd rfl hne
  | cons p ps =>
    rw [List.foldlM_cons] at hps
    obtain ⟨next, hnext, -⟩ := Option.bind_eq_some_iff.1 hps
    obtain ⟨q, t₁, rest, hq, -, -⟩ := run_fillAll_cons h
    -- The first operand of the first instruction is the value of the root.
    unfold Part.after? at hnext
    split at hnext
    · rw [fill, Subst.run_bind] at hq
      obtain ⟨all, t₂, hall, -⟩ := hq
      obtain ⟨o, t₃, -, ho, -, -⟩ := run_fillAll_cons hall
      exact ⟨o, standsFor_of_run (by decide) ho⟩
    · cases hnext

/-- The value of the root is a whole 32-bit value. -/
def Writes32 (f : Filling) (v : Nat) : Prop :=
  ∀ r, f.StandsFor ["out"] r → r = .value v .i32 none

section Run

variable {v : Nat} {content content' : Formula} (hout : f.Writes32 v)
include hout

/-- Once the value of the root has been written, its name stands for the new word and all others
stand for what they stood for. -/
theorem Denotes.set (hf : f.Denotes w st env known) (hv : st v = content.eval w env) :
    f.Denotes w st env (known.set content) := by
  intro path d hd
  unfold Known.set at hd
  split at hd
  · rename_i hpath
    subst hpath
    cases hd
    refine ⟨by decide, fun r hr => ?_⟩
    rw [hout r hr]
    exact congrArg (fun x => some (Datum.number x)) hv
  · exact hf path d hd

/-- **The machine leaves what the instruction left as part of the template**, and it leaves that in
the value of the root. -/
theorem step?_fill (hf : f.Denotes w st env known) (hv : st v = content.eval w env)
    (hp : p.after? known content = some content') (h : (fill f p).run.run t = (.ok q, t')) :
    q.step? w st = some (st.set v (content'.eval w env)) := by
  unfold Part.after? at hp
  split at hp
  · rename_i mnemonic operands
    obtain ⟨ds, hds, hresult⟩ := Option.bind_eq_some_iff.1 hp
    rw [fill, Subst.run_bind] at h
    obtain ⟨all, t₁, hall, h⟩ := h
    obtain ⟨rfl, -⟩ := Subst.run_pure.1 h
    obtain ⟨o, t₂, qs, ho, hqs, rfl⟩ := run_fillAll_cons hall
    obtain rfl := hout o (standsFor_of_run (by decide) ho)
    -- The root's own value may be among the operands; it holds what was computed so far.
    have hdata := mapM_datum?_fillAll (hf.set hout hv) hds hqs
    simp only [Part.step?, Part.place?, hdata, hv, Option.bind_eq_bind, Option.bind_some]
    rw [Formula.result?_eval hresult]
    rfl
  · cases hp

/-- **A whole template**, run from a state of a sort that writing the value of the root does not
leave, and in which the names stand for what is known. -/
theorem foldlM_step?_fillAll {Inv : State → Prop} (hInv : ∀ st x, Inv st → Inv (st.set v x))
    (hf : ∀ st, Inv st → f.Denotes w st env known) {ps qs : List Part}
    (hps : ps.foldlM (Part.after? known) content = some content')
    (h : (fillAll f ps).run.run t = (.ok qs, t')) (hst : Inv st) (hv : st v = content.eval w env) :
    ∃ st', qs.foldlM (Part.step? w) st = some st' ∧ st' v = content'.eval w env := by
  -- The state and what the root's value holds change together from one instruction to the next.
  induction ps generalizing t qs st content with
  | nil =>
    rw [fillAll, Subst.run_pure] at h
    obtain ⟨rfl, -⟩ := h
    cases hps
    exact ⟨st, rfl, hv⟩
  | cons p ps ih =>
    rw [List.foldlM_cons] at hps
    obtain ⟨next, hnext, hps⟩ := Option.bind_eq_some_iff.1 hps
    obtain ⟨q, t₁, qs, hq, hqs, rfl⟩ := run_fillAll_cons h
    have hstep := step?_fill hout (hf st hst) hv hnext hq
    obtain ⟨st', hrun, hst'⟩ := ih hps hqs (hInv st _ hst) (st.set_self v _)
    exact ⟨st', by rw [List.foldlM_cons, hstep]; exact hrun, hst'⟩

end Run

end Filling

end TileSelect
