import TileSelect.Proofs.Expansion.Assembly
import TileSelect.Proofs.Expansion.Lasting
import TileSelect.Proofs.Expansion.Occurrences
/-!
Templates whose temporaries are known.

A template is filled in from left to right, and a temporary is allocated where its name is met
first. Afterwards it does not show where that was: the same parts come out if every name has had
its temporary from the beginning. `Filling.render` is that reading of a template. It is given the
number of each name and keeps no state, so a name means the same wherever it stands.

Filling in a template is rendering it with the numbers that were handed out
(`Filling.exists_render`). These are numbers of temporaries that the filling allocated, and
different names have different ones. A number in what comes out is then of one of three kinds: it
was handed out, it came with what a reference stands for, or the template spells it out.
-/

set_option autoImplicit false

namespace TileSelect

/-! ## Numbers of temporaries -/

namespace Part

/-- The number of a temporary. -/
def tempId? : Part → Option Nat
  | .temp k _ _ => some k
  | _ => none

/-- The numbers of the temporaries that occur in a part. -/
def temps (p : Part) : List Nat := p.operands.filterMap tempId?

/-- Only such numbers of temporaries occur. -/
def TempsIn (N : Nat → Prop) (p : Part) : Prop := ∀ n ∈ p.temps, N n

variable {N N' : Nat → Prop} {p q : Part}

/-- A statement about numbers of temporaries is one about the operands that occur, so the lemmas for
operands apply to it. -/
theorem tempsIn_iff_only : p.TempsIn N ↔ p.Only fun a => ∀ n, a.tempId? = some n → N n := by
  simp only [TempsIn, temps, Only, List.mem_filterMap]
  grind

theorem TempsIn.mono (hN : ∀ n, N n → N' n) (h : p.TempsIn N) : p.TempsIn N' :=
  fun n hn => hN n (h n hn)

/-- Where there are no temporaries, their numbers are of any kind. -/
theorem tempsIn_of_temps_eq_nil (h : p.temps = []) : p.TempsIn N := by
  intro n hn
  rw [h] at hn
  cases hn

/-- A half of an operand has the temporaries of the operand: the half of one names the same
temporary. -/
theorem temps_slice? {half : Half} (h : p.slice? half = some q) : q.temps = p.temps := by
  revert h
  fun_cases slice? half p
  all_goals
    intro h
    first
      | cases h
      | obtain ⟨narrow, -, rfl⟩ := Option.map_eq_some_iff.1 h
        rfl

theorem temps_retype (ty : ValueType) (p : Part) : (p.retype ty).temps = p.temps := by
  cases p <;> rfl

mutual

/-- The operands that occur in a part are pieces of it, however deep they are. Properties of all
pieces thus hold of the operands. -/
theorem mem_pieces_of_mem_operands : ∀ (p a : Part), a ∈ p.operands → a ∈ p.pieces
  | .instruction mnemonic condition ps, a, ha => by
    rw [operands] at ha
    exact List.mem_cons_of_mem _ (mem_piecesOfAll_of_mem_operandsOfAll ps a ha)
  | .memory ⟨base, index, scale, offset⟩, a, ha => by
    rw [operands, List.mem_append, List.mem_append] at ha
    rw [pieces, List.mem_cons, List.mem_append, List.mem_append]
    exact .inr (ha.imp
      (Or.imp (mem_piecesOfOption_of_mem_operandsOfOption base a)
        (mem_piecesOfOption_of_mem_operandsOfOption index a))
      (mem_piecesOfOption_of_mem_operandsOfOption offset a))
  | .value .., _, ha | .temp .., _, ha => ha
  | .label _, _, ha | .reference .., _, ha | .register _, _, ha | .imm .., _, ha
  | .symbol _, _, ha => by cases ha

theorem mem_piecesOfAll_of_mem_operandsOfAll : ∀ (ps : List Part) (a : Part),
    a ∈ operandsOfAll ps → a ∈ piecesOfAll ps
  | [], _, ha => ha
  | p :: ps, a, ha => by
    rw [operandsOfAll, List.mem_append] at ha
    rw [piecesOfAll, List.mem_append]
    exact ha.imp (mem_pieces_of_mem_operands p a) (mem_piecesOfAll_of_mem_operandsOfAll ps a)

theorem mem_piecesOfOption_of_mem_operandsOfOption : ∀ (o : Option Part) (a : Part),
    a ∈ operandsOfOption o → a ∈ piecesOfOption o
  | none, _, ha => ha
  | some p, a, ha => mem_pieces_of_mem_operands p a ha

end

end Part

/-! ## Counting -/

namespace Subst

variable {α β : Type}

/-- Temporaries are only added, whether the step fails or not. -/
def Grows (x : Subst α) : Prop := ∀ t, t.allocated ≤ (x.run.run t).2.allocated

theorem grows_pure (a : α) : Grows (pure a) := fun _ => Nat.le_refl _

theorem grows_check (e : Except SubstFault α) : Grows (check e) := fun _ => Nat.le_refl _

/-- Steps that only add temporaries, one after the other, only add temporaries. If the first one
fails, what it has added stays. -/
theorem Grows.bind {x : Subst α} {f : α → Subst β} (hx : Grows x) (hf : ∀ a, Grows (f a)) :
    Grows (x >>= f) := by
  intro t
  have hfirst := hx t
  rw [ExceptT.run_bind, StateT.run_bind]
  generalize x.run.run t = outcome at hfirst ⊢
  obtain ⟨result, t₁⟩ := outcome
  cases result with
  | error fault => exact hfirst
  | ok a => exact hfirst.trans (hf a t₁)

/-- Looking up a temporary adds one or none. -/
theorem grows_temporary (name : String) (ty : ValueType) : Grows (temporary name ty) := by
  intro t
  cases hget : Keyed.get? name t.named with
  | some p => rw [run_temporary_of_held ty hget]
  | none =>
    rw [run_temporary_of_fresh ty hget]
    exact Nat.le_succ _

end Subst

namespace Filling

open Subst (Grows)

variable {f : Filling}

/-- Looking up a reference adds at most a temporary, and only if its name is one that has not been
looked up before. -/
theorem grows_target (f : Filling) (path : List String) : Grows (f.target path) := by
  unfold target
  dsimp only
  split
  · split
    · exact Subst.grows_check _
    · exact Subst.grows_temporary _ _
  · exact Subst.grows_check _

theorem grows_addComponent (add : Draft → Part → Except SubstFault Draft) (d : Draft)
    (o : Option Part) : Grows (addComponent add d o) := by
  cases o with
  | none => exact Subst.grows_pure d
  | some p => exact Subst.grows_check _

mutual

/-- **Filling in only adds temporaries**, also where it fails. That is why a combination which is
dropped still uses up numbers. -/
theorem grows_fill (f : Filling) : ∀ p : Part, Grows (fill f p)
  | .instruction mnemonic condition operands => by
    rw [fill]
    exact (grows_fillAll f operands).bind fun _ => Subst.grows_pure _
  | .memory ⟨base, index, scale, offset⟩ => by
    rw [fill]
    refine (grows_fillOption f base).bind fun base' => ?_
    split
    · exact Subst.grows_check _
    · refine (grows_addComponent _ _ _).bind fun _ => ?_
      refine (grows_fillOption f index).bind fun _ => ?_
      refine (grows_addComponent _ _ _).bind fun _ => ?_
      refine (grows_fillOption f offset).bind fun _ => ?_
      exact (grows_addComponent _ _ _).bind fun _ => Subst.grows_check _
  | .reference path half ty => by
    rw [fill]
    exact (grows_target f path).bind fun _ =>
      (Subst.grows_check _).bind fun _ => Subst.grows_pure _
  | .label _ | .register _ | .value .. | .temp .. | .imm .. | .symbol _ => Subst.grows_pure _

theorem grows_fillAll (f : Filling) : ∀ ps : List Part, Grows (fillAll f ps)
  | [] => Subst.grows_pure _
  | p :: ps => by
    rw [fillAll]
    exact (grows_fill f p).bind fun _ => (grows_fillAll f ps).bind fun _ => Subst.grows_pure _

theorem grows_fillOption (f : Filling) : ∀ o : Option Part, Grows (fillOption f o)
  | none => Subst.grows_pure _
  | some p => by
    rw [fillOption]
    exact (grows_fill f p).bind fun _ => Subst.grows_pure _

end

end Filling

/-! ## Rendering -/

namespace Draft

/-- Puts components together to an address. -/
def assemble (base index : Option Part) (scale : Nat) (offset : Option Part) :
    Except SubstFault Part :=
  match base, index, offset with
  | some p, none, none => ofLoneBase p
  | base, index, offset => do
    let d ← addOption addBase .start base
    let d ← addOption (fun d => d.addIndex scale) d index
    let d ← addOption addOffset d offset
    d.finish

/-- A register or a number that is a base alone is put together to the same address either way. So
the program's special case for a lone base matters for addresses only, and the rendering can leave
it out. -/
theorem ofLoneBase_of_addBase {p q : Part} {d : Draft} (hadd : addBase .start p = .ok d)
    (hfinish : d.finish = .ok q) : ofLoneBase p = .ok q := by
  cases p with
  | imm | symbol | register | value | temp =>
    cases hadd
    cases hfinish
    rfl
  | instruction | label | memory | reference => cases hadd

/-- What components are put together to on the way is what is put together at once. Nothing is
looked up between the steps, so they can be gathered. -/
theorem assemble_of_assembles {base index offset : Option Part} {scale : Nat} {q : Part}
    (h : Assembles base index scale offset q) : assemble base index scale offset = .ok q := by
  cases h with
  | lone adopted => exact adopted
  | @joined _ _ _ _ d₁ d₂ d₃ _ addedBase addedIndex addedOffset finished =>
    unfold assemble
    split
    · cases addedIndex
      cases addedOffset
      exact ofLoneBase_of_addBase addedBase finished
    · rw [addedBase, ok_bind, addedIndex, ok_bind, addedOffset, ok_bind, finished]

variable {P : Part → Prop}

/-- A component that may be absent brings in only what occurs in it, and if it is absent the draft
stays as it was. -/
theorem only_addOption {add : Draft → Part → Except SubstFault Draft} {d d' : Draft}
    {o : Option Part} (hd : d.Only P) (ho : Part.OnlyOption P o)
    (hadd : ∀ p, p.Only P → add d p = .ok d' → d'.Only P) (h : addOption add d o = .ok d') :
    d'.Only P := by
  cases o with
  | none =>
    cases h
    exact hd
  | some p => exact hadd p (Part.onlyOption_some.1 ho) h

/-- Only what occurs in its components occurs in an address that is put together, since its offset
is a sum of constants or one of them. -/
theorem only_assemble {base index offset : Option Part} {scale : Nat} {q : Part}
    (hbase : Part.OnlyOption P base) (hindex : Part.OnlyOption P index)
    (hoffset : Part.OnlyOption P offset) (h : assemble base index scale offset = .ok q) :
    q.Only P := by
  unfold assemble at h
  split at h
  · exact only_ofLoneBase (Part.onlyOption_some.1 hbase) h
  · obtain ⟨d₁, hd₁, h⟩ := bind_eq_ok.1 h
    obtain ⟨d₂, hd₂, h⟩ := bind_eq_ok.1 h
    obtain ⟨d₃, hd₃, h⟩ := bind_eq_ok.1 h
    have h₁ : d₁.Only P := only_addOption only_start hbase (fun _ => only_start.addBase) hd₁
    have h₂ : d₂.Only P := only_addOption h₁ hindex (fun _ => h₁.addIndex) hd₂
    have h₃ : d₃.Only P := only_addOption h₂ hoffset (fun _ => h₂.addOffset) hd₃
    exact h₃.finish h

end Draft

namespace Filling

variable {f : Filling} {den : String → Option Nat}

/-- What a path means, if each name of a temporary has a number. -/
def meaning (f : Filling) (den : String → Option Nat) (path : List String) :
    Except SubstFault Part :=
  let head := Part.pathHead path
  match TempName.parse? head with
  | some name =>
    match den head with
    | some n => ending head path.tail (.ok (.temp n (f.tempType name) none))
    | none => .error (.unbound head)
  | none => resolve f.block f.record f.chosen path

mutual

/-- A part of a template, with its temporaries known. -/
def render (f : Filling) (den : String → Option Nat) : Part → Except SubstFault Part
  | .instruction mnemonic condition operands => do
    let operands ← renderAll f den operands
    return .instruction mnemonic condition operands
  | .memory ⟨base, index, scale, offset⟩ => do
    let base ← renderOption f den base
    let index ← renderOption f den index
    let offset ← renderOption f den offset
    Draft.assemble base index scale offset
  | .reference path half ty => do
    let p ← f.meaning den path
    let q ← halved half p
    return retyped ty q
  | p => return p

/-- Several parts of a template, with its temporaries known. -/
def renderAll (f : Filling) (den : String → Option Nat) : List Part → Except SubstFault (List Part)
  | [] => return []
  | p :: ps => do
    let q ← render f den p
    let qs ← renderAll f den ps
    return q :: qs

/-- A part of a template that may be absent, with its temporaries known. -/
def renderOption (f : Filling) (den : String → Option Nat) :
    Option Part → Except SubstFault (Option Part)
  | none => return none
  | some p => do
    let q ← render f den p
    return some q

end

/-! ## From filling to rendering -/

/-- Every name at hand has the number that it is known to have, and the width it asks for. -/
def KnowsTemps (f : Filling) (den : String → Option Nat) (t : Temporaries) : Prop :=
  ∀ key p, Keyed.get? key t.named = some p → ∃ name n, TempName.parse? key = some name
    ∧ den key = some n ∧ p = .temp n (f.tempType name) none

/-- A name keeps its temporary, whatever other names are looked up after it. The names at the end of
a template are therefore those of all its parts. -/
theorem respects_get? : f.Respects fun t t' =>
    ∀ key p, Keyed.get? key t.named = some p → Keyed.get? key t'.named = some p where
  refl _ _ _ := id
  trans _ _ _ h h' key p := h' key p ∘ h key p
  target path r t t' h key p hkey := by
    cases targets_of_run h with
    | standing | held => exact hkey
    | fresh _ _ misses =>
      -- A new temporary is stored under a name that had none, so not under this one.
      have hne : key ≠ Part.pathHead path := by
        rintro rfl
        rw [misses] at hkey
        cases hkey
      rwa [Keyed.get?_insert_of_ne hne]

/-- What a reference came to is what its path means with the names that are known in the end. A name
that was new at the time is among these. -/
theorem meaning_of_target {path : List String} {t t' : Temporaries} {r : Part}
    (hden : f.KnowsTemps den t') (h : (f.target path).run.run t = (.ok r, t')) :
    f.meaning den path = .ok r := by
  -- A temporary is at hand once its name was met, and what is at hand is known.
  have hknown : ∀ name, TempName.parse? (Part.pathHead path) = some name → path.tail = [] →
      Keyed.get? (Part.pathHead path) t'.named = some r → f.meaning den path = .ok r := by
    intro name hname htail hget
    obtain ⟨name', n, hname', hn, rfl⟩ := hden _ _ hget
    obtain rfl : name = name' := Option.some.inj (hname.symm.trans hname')
    rw [meaning, hname]
    dsimp only
    rw [hn, htail]
    rfl
  cases targets_of_run h with
  | standing unnamed stands =>
    rw [meaning, unnamed]
    exact stands
  | held named alone holds => exact hknown _ named alone holds
  | fresh named alone => exact hknown _ named alone (Keyed.get?_insert_self _ _ _)

mutual

/-- A part that was filled in is rendered with the names that are known afterwards. Names are never
given another temporary, so what was known on the way is known in the end. -/
theorem render_of_fill : ∀ (p : Part) (t t' : Temporaries) (q : Part), f.KnowsTemps den t' →
    (fill f p).run.run t = (.ok q, t') → render f den p = .ok q
  | .instruction mnemonic condition operands, t, t', q, hden, h => by
    rw [fill, Subst.run_bind] at h
    obtain ⟨qs, t₁, hqs, h⟩ := h
    obtain ⟨rfl, rfl⟩ := Subst.run_pure.1 h
    rw [render, renderAll_of_fillAll operands t t' qs hden hqs]
    rfl
  | .memory ⟨base, index, scale, offset⟩, t, t', q, hden, h => by
    obtain ⟨base', index', offset', t₁, t₂, hbase, hindex, hoffset, hassembles⟩ := fill_memory h
    -- What is known at the end is known of the names that were at hand before.
    have hden₂ : f.KnowsTemps den t₂ := fun key p hkey =>
      hden key p (respects_fillOption respects_get? offset t₂ t' offset' hoffset key p hkey)
    have hden₁ : f.KnowsTemps den t₁ := fun key p hkey =>
      hden₂ key p (respects_fillOption respects_get? index t₁ t₂ index' hindex key p hkey)
    rw [render, renderOption_of_fillOption base t t₁ base' hden₁ hbase, ok_bind,
      renderOption_of_fillOption index t₁ t₂ index' hden₂ hindex, ok_bind,
      renderOption_of_fillOption offset t₂ t' offset' hden hoffset, ok_bind]
    exact Draft.assemble_of_assembles hassembles
  | .reference path half ty, t, t', q, hden, h => by
    rw [fill, Subst.run_bind] at h
    obtain ⟨r, t₁, hr, h⟩ := h
    obtain ⟨r', t₂, hr', hret⟩ := Subst.run_bind.1 h
    obtain ⟨hhalf, rfl⟩ := Subst.run_check.1 hr'
    obtain ⟨rfl, rfl⟩ := Subst.run_pure.1 hret
    rw [render, meaning_of_target hden hr, ok_bind, hhalf, ok_bind]
    rfl
  | .label _, t, t', q, hden, h | .register _, t, t', q, hden, h | .value .., t, t', q, hden, h
  | .temp .., t, t', q, hden, h | .imm .., t, t', q, hden, h | .symbol _, t, t', q, hden, h => by
    rw [fill] at h
    · obtain ⟨rfl, rfl⟩ := Subst.run_pure.1 h
      rfl
    all_goals
      intros
      contradiction

/-- Parts that were filled in one after the other are rendered with the names known after the last
one. The names known in between are still the same there. -/
theorem renderAll_of_fillAll : ∀ (ps : List Part) (t t' : Temporaries) (qs : List Part),
    f.KnowsTemps den t' → (fillAll f ps).run.run t = (.ok qs, t') → renderAll f den ps = .ok qs
  | [], t, t', qs, hden, h => by
    rw [fillAll, Subst.run_pure] at h
    obtain ⟨rfl, rfl⟩ := h
    rfl
  | p :: ps, t, t', qs, hden, h => by
    rw [fillAll, Subst.run_bind] at h
    obtain ⟨q, t₁, hq, h⟩ := h
    obtain ⟨qs', t₂, hqs, h⟩ := Subst.run_bind.1 h
    obtain ⟨rfl, rfl⟩ := Subst.run_pure.1 h
    -- What was known after the first part is still known after the others.
    have hden₁ : f.KnowsTemps den t₁ := fun key p hkey =>
      hden key p (respects_fillAll respects_get? ps t₁ t' qs' hqs key p hkey)
    rw [renderAll, render_of_fill p t t₁ q hden₁ hq, ok_bind,
      renderAll_of_fillAll ps t₁ t' qs' hden hqs, ok_bind]
    rfl

/-- A component that was filled in is rendered, and one that is absent stays absent, with the names
known in the end. -/
theorem renderOption_of_fillOption : ∀ (o : Option Part) (t t' : Temporaries) (o' : Option Part),
    f.KnowsTemps den t' → (fillOption f o).run.run t = (.ok o', t') → renderOption f den o = .ok o'
  | none, t, t', o', hden, h => by
    rw [fillOption, Subst.run_pure] at h
    obtain ⟨rfl, rfl⟩ := h
    rfl
  | some p, t, t', o', hden, h => by
    rw [fillOption, Subst.run_bind] at h
    obtain ⟨q, t₁, hq, h⟩ := h
    obtain ⟨rfl, rfl⟩ := Subst.run_pure.1 h
    rw [renderOption, render_of_fill p t t' q hden hq, ok_bind]
    rfl

end

/-! ## The numbers handed out -/

/-- The temporaries at hand are the ones allocated at certain places, different for different
names, and none before `lo`. -/
structure Places (f : Filling) (lo : Nat) (place : String → Nat) (t : Temporaries) : Prop where
  start : lo ≤ t.allocated
  range : ∀ key p, Keyed.get? key t.named = some p → lo ≤ place key ∧ place key < t.allocated
  distinct : ∀ key key' p p', Keyed.get? key t.named = some p → Keyed.get? key' t.named = some p' →
    place key = place key' → key = key'
  temps : ∀ key p, Keyed.get? key t.named = some p → ∃ name, TempName.parse? key = some name
    ∧ p = .temp (Session.tempNumber (place key)) (f.tempType name) none

/-- A name that is met first is given the next place. It is after all places that were given, and so
different from them. -/
theorem Places.fresh {lo : Nat} {place : String → Nat} {t : Temporaries} {key : String}
    {name : TempName} (h : f.Places lo place t) (hname : TempName.parse? key = some name) :
    f.Places lo (Function.update place key t.allocated)
      ⟨t.allocated + 1, Keyed.insert key
        (.temp (Session.tempNumber t.allocated) (f.tempType name) none) t.named⟩ := by
  have hstart := h.start
  -- All other names keep their temporaries, and these were allocated before.
  have hold : ∀ key' p, key' ≠ key → Keyed.get? key' (Keyed.insert key
      (.temp (Session.tempNumber t.allocated) (f.tempType name) none) t.named) = some p →
      Keyed.get? key' t.named = some p := fun key' p hne hget => by
    rwa [Keyed.get?_insert_of_ne hne] at hget
  refine ⟨Nat.le_succ_of_le hstart, fun key' p hget => ?_, fun k₁ k₂ p₁ p₂ h₁ h₂ heq => ?_,
    fun key' p hget => ?_⟩
  · by_cases hkey : key' = key
    · subst hkey
      rw [Function.update_self]
      exact ⟨hstart, Nat.lt_succ_self _⟩
    · rw [Function.update_of_ne hkey]
      obtain ⟨hlo, hhi⟩ := h.range key' p (hold key' p hkey hget)
      exact ⟨hlo, Nat.lt_succ_of_lt hhi⟩
  · by_cases hk₁ : k₁ = key <;> by_cases hk₂ : k₂ = key
    · rw [hk₁, hk₂]
    · have hlt := (h.range k₂ p₂ (hold k₂ p₂ hk₂ h₂)).2
      rw [hk₁, Function.update_self, Function.update_of_ne hk₂] at heq
      omega
    · have hlt := (h.range k₁ p₁ (hold k₁ p₁ hk₁ h₁)).2
      rw [hk₂, Function.update_self, Function.update_of_ne hk₁] at heq
      omega
    · rw [Function.update_of_ne hk₁, Function.update_of_ne hk₂] at heq
      exact h.distinct k₁ k₂ p₁ p₂ (hold k₁ p₁ hk₁ h₁) (hold k₂ p₂ hk₂ h₂) heq
  · by_cases hkey : key' = key
    · subst hkey
      rw [Keyed.get?_insert_self, Option.some.injEq] at hget
      rw [Function.update_self]
      exact ⟨name, hname, hget.symm⟩
    · rw [Function.update_of_ne hkey]
      exact h.temps key' p (hold key' p hkey hget)

/-- Looking up names keeps the temporaries at their places: a known name changes nothing, and a new
one is put at the next place. -/
theorem respects_places {lo : Nat} : f.Respects fun t t' =>
    (∃ place, f.Places lo place t) → ∃ place, f.Places lo place t' where
  refl _ := id
  trans _ _ _ h h' := h' ∘ h
  target path r t t' h ht := by
    cases targets_of_run h with
    | standing | held => exact ht
    | fresh named =>
      obtain ⟨place, hplace⟩ := ht
      exact ⟨_, hplace.fresh named⟩

end Filling

namespace Session

variable {lo mid hi lo' hi' n : Nat}

/-- The number is that of a temporary which is allocated while the count goes from `lo` to `hi`. -/
def Issues (lo hi n : Nat) : Prop := ∃ k, lo ≤ k ∧ k < hi ∧ n = tempNumber k

/-- What was issued in a stretch was issued in any longer one. -/
theorem Issues.mono (hlo : lo' ≤ lo) (hhi : hi ≤ hi') (h : Issues lo hi n) : Issues lo' hi' n := by
  obtain ⟨k, hk, hk', rfl⟩ := h
  exact ⟨k, hlo.trans hk, hk'.trans_le hhi, rfl⟩

/-- Before the count wraps, numbers are the places themselves. -/
theorem tempNumber_of_lt {k : Nat} (h : k < 2 ^ 32) : tempNumber k = k := Nat.mod_eq_of_lt h

/-- As long as the count does not wrap, numbers are not issued twice: not in stretches of which one
ends before the other starts. -/
theorem not_issues_of_issues (hfew : hi ≤ 2 ^ 32) (h : Issues lo mid n) (h' : Issues mid hi n) :
    False := by
  obtain ⟨k, -, hk, rfl⟩ := h
  obtain ⟨k', hk', hhi, heq⟩ := h'
  rw [tempNumber_of_lt (by omega), tempNumber_of_lt (by omega)] at heq
  omega

end Session

/-- Numbers of names that were handed out while the count went from `lo` to `hi`. As long as the
count does not wrap, different names have different numbers. -/
structure Naming (lo hi : Nat) (den : String → Option Nat) : Prop where
  range : ∀ key n, den key = some n → Session.Issues lo hi n
  distinct : hi ≤ 2 ^ 32 → ∀ key key' n, den key = some n → den key' = some n → key = key'

/-- Temporaries at different places name different numbers, as long as the count does not wrap. When
it does, two places may have one number. -/
theorem Filling.Places.naming {f : Filling} {lo : Nat} {place : String → Nat} {t : Temporaries}
    (h : f.Places lo place t) : ∃ den, Naming lo t.allocated den ∧ f.KnowsTemps den t := by
  refine ⟨fun key => (Keyed.get? key t.named).map fun _ => Session.tempNumber (place key),
    ⟨fun key n hn => ?_, fun hfew key key' n hn hn' => ?_⟩, fun key p hget => ?_⟩
  · -- Two names with one number have one place, since neither place has wrapped.
    obtain ⟨p, hget, rfl⟩ := Option.map_eq_some_iff.1 hn
    obtain ⟨hlo, hhi⟩ := h.range key p hget
    exact ⟨place key, hlo, hhi, rfl⟩
  · obtain ⟨p, hget, rfl⟩ := Option.map_eq_some_iff.1 hn
    obtain ⟨p', hget', heq⟩ := Option.map_eq_some_iff.1 hn'
    have hhi := (h.range key p hget).2
    have hhi' := (h.range key' p' hget').2
    rw [Session.tempNumber_of_lt (by omega), Session.tempNumber_of_lt (by omega)] at heq
    exact h.distinct key key' p p' hget hget' heq.symm
  · obtain ⟨name, hname, rfl⟩ := h.temps key p hget
    exact ⟨name, _, hname, Option.map_eq_some_iff.2 ⟨_, hget, rfl⟩, rfl⟩

/-- **Filling in a template is rendering it** with the numbers handed out on the way. What looked
like a process with a state is a substitution, once the numbers are known. -/
theorem Filling.exists_render {f : Filling} {ps qs : List Part} {lo : Nat} {t : Temporaries}
    (h : (fillAll f ps).run.run ⟨lo, []⟩ = (.ok qs, t)) :
    ∃ den, Naming lo t.allocated den ∧ renderAll f den ps = .ok qs := by
  have hstart : ∃ place, f.Places lo place ⟨lo, []⟩ :=
    ⟨fun _ => 0, Nat.le_refl _, fun _ _ hget => (by cases hget),
      fun _ _ _ _ hget => (by cases hget), fun _ _ hget => (by cases hget)⟩
  obtain ⟨place, hplace⟩ := respects_fillAll respects_places ps _ _ qs h hstart
  obtain ⟨den, hnaming, hden⟩ := hplace.naming
  exact ⟨den, hnaming, renderAll_of_fillAll ps _ t qs hden h⟩

/-! ## The numbers that come out -/

namespace Filling

variable {f : Filling} {den : String → Option Nat} {N : Nat → Prop}

/-- The numbers of names, and those of what paths stand for, are of one kind. -/
structure Supplies (f : Filling) (den : String → Option Nat) (N : Nat → Prop) : Prop where
  names : ∀ key n, den key = some n → N n
  paths : ∀ path r, f.StandsFor path r → r.TempsIn N

/-- What a path means has only numbers that are supplied: the number of a name, or those of what the
path stands for. -/
theorem Supplies.meaning (hs : f.Supplies den N) {path : List String} {r : Part}
    (h : f.meaning den path = .ok r) : r.TempsIn N := by
  unfold Filling.meaning at h
  dsimp only at h
  split at h
  · split at h
    · rename_i n hn
      unfold ending at h
      split at h
      · cases h
      · cases h
        intro k hk
        rw [Part.temps, Part.operands] at hk
        rw [List.mem_singleton.1 hk]
        exact hs.names _ n hn
    · cases h
  · exact hs.paths path r h

/-- Taking a half keeps the temporaries, and where none is taken nothing changes. -/
theorem temps_halved {half : Option Half} {p q : Part} (h : halved half p = .ok q) :
    q.temps = p.temps := by
  unfold halved at h
  split at h
  · cases h
    rfl
  · split at h
    · rename_i hslice
      cases h
      exact Part.temps_slice? hslice
    · cases h

theorem temps_retyped (ty : Option ValueType) (p : Part) : (retyped ty p).temps = p.temps := by
  cases ty with
  | none => rfl
  | some ty => exact Part.temps_retype ty p

mutual

/-- **No numbers come out but those that go in**: those of names, those of what paths stand for and
those that the template spells out. -/
theorem tempsIn_render (hs : f.Supplies den N) : ∀ (p q : Part), p.TempsIn N →
    render f den p = .ok q → q.TempsIn N
  | .instruction mnemonic condition operands, q, hp, h => by
    rw [render, bind_eq_ok] at h
    obtain ⟨qs, hqs, h⟩ := h
    cases h
    rw [Part.tempsIn_iff_only, Part.only_instruction] at hp ⊢
    intro q hq
    exact Part.tempsIn_iff_only.1 (tempsIn_renderAll hs operands qs
      (fun p hp' => Part.tempsIn_iff_only.2 (hp p hp')) hqs q hq)
  | .memory ⟨base, index, scale, offset⟩, q, hp, h => by
    rw [Part.tempsIn_iff_only, Part.only_memory] at hp
    obtain ⟨hbase, hindex, hoffset⟩ := hp
    rw [render, bind_eq_ok] at h
    obtain ⟨base', hbase', h⟩ := h
    obtain ⟨index', hindex', h⟩ := bind_eq_ok.1 h
    obtain ⟨offset', hoffset', h⟩ := bind_eq_ok.1 h
    exact Part.tempsIn_iff_only.2 (Draft.only_assemble
      (onlyOption_renderOption hs base base' hbase hbase')
      (onlyOption_renderOption hs index index' hindex hindex')
      (onlyOption_renderOption hs offset offset' hoffset hoffset') h)
  | .reference path half ty, q, hp, h => by
    rw [render, bind_eq_ok] at h
    obtain ⟨r, hr, h⟩ := h
    obtain ⟨r', hr', h⟩ := bind_eq_ok.1 h
    cases h
    intro n hn
    rw [temps_retyped, temps_halved hr'] at hn
    exact hs.meaning hr n hn
  | .label _, q, hp, h | .register _, q, hp, h | .value .., q, hp, h | .temp .., q, hp, h
  | .imm .., q, hp, h | .symbol _, q, hp, h => by
    rw [render] at h
    · cases h
      exact hp
    all_goals
      intros
      contradiction

/-- Part by part, no numbers come out but those that go in: those of the names, and those spelled
out in the template. -/
theorem tempsIn_renderAll (hs : f.Supplies den N) : ∀ (ps qs : List Part),
    (∀ p ∈ ps, p.TempsIn N) → renderAll f den ps = .ok qs → ∀ q ∈ qs, q.TempsIn N
  | [], qs, hps, h => by
    cases h
    exact fun q hq => by cases hq
  | p :: ps, qs, hps, h => by
    rw [renderAll, bind_eq_ok] at h
    obtain ⟨q, hq, h⟩ := h
    obtain ⟨qs', hqs', h⟩ := bind_eq_ok.1 h
    cases h
    obtain ⟨hfirst, hrest⟩ := List.forall_mem_cons.1 hps
    exact List.forall_mem_cons.2
      ⟨tempsIn_render hs p q hfirst hq, tempsIn_renderAll hs ps qs' hrest hqs'⟩

theorem onlyOption_renderOption (hs : f.Supplies den N) : ∀ (o o' : Option Part),
    Part.OnlyOption (fun a => ∀ n, a.tempId? = some n → N n) o → renderOption f den o = .ok o' →
    Part.OnlyOption (fun a => ∀ n, a.tempId? = some n → N n) o'
  | none, o', ho, h => by
    cases h
    exact Part.onlyOption_none
  | some p, o', ho, h => by
    rw [renderOption, bind_eq_ok] at h
    obtain ⟨q, hq, h⟩ := h
    cases h
    rw [Part.onlyOption_some, ← Part.tempsIn_iff_only] at ho ⊢
    exact tempsIn_render hs p q ho hq

end

end Filling

end TileSelect
