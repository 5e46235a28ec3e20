import TileSelect.Proofs.Expansion.Reads
import TileSelect.Proofs.Match.References
/-!
What compiles can be filled in, as far as names go.

A template may fail for what its operands turn out to be: a register where a number is needed, an
address that does not fit together. It may not fail because a name was looked up and not found,
and this module shows why. A reference starts with a name that the pattern introduces. The match
has an entry for it, a node or alternatives; for alternatives one of their instantiations was
chosen. Only a path that goes on is out of the compiler's hands. It continues in what was chosen,
and the alternatives of a group need not introduce the same names.

The faults are followed in the opposite direction to the computation. A step *blames* faults with
a certain property for the look-ups it fails in; steps blame what their parts blame, so a template
fails in no other look-ups than those of its references.
-/

set_option autoImplicit false

namespace TileSelect

/-! ## Faults of look-ups -/

/-- Whether the fault is that a name was looked up in vain. -/
def SubstFault.isMiss : SubstFault → Bool
  | .unbound _ | .unknownIdentifier .. | .noInstantiation _ => true
  | .notASubpattern .. | .multiPartOperand .. | .noValue _ | .cannotSplit _ | .nestedTemporary
  | .invalidAddress .. => false

/-- A computation that looks no name up in vain, whatever else it may fail for. -/
def NeverMisses {α : Type} (e : Except SubstFault α) : Prop :=
  ∀ fault, e = .error fault → fault.isMiss = false

theorem neverMisses_ok {α : Type} (a : α) : NeverMisses (.ok a) := fun _ h => nomatch h

theorem neverMisses_error {α : Type} {fault : SubstFault} (h : fault.isMiss = false) :
    NeverMisses (.error fault : Except SubstFault α) := by
  intro fault' heq
  cases heq
  exact h

/-- Two computations that look nothing up in vain do so together neither. -/
theorem NeverMisses.bind {α β : Type} {x : Except SubstFault α} {f : α → Except SubstFault β}
    (hx : NeverMisses x) (hf : ∀ a, NeverMisses (f a)) : NeverMisses (x >>= f) := by
  intro fault h
  rcases bind_eq_error.1 h with h | ⟨a, -, h⟩
  · exact hx fault h
  · exact hf a fault h

namespace Draft

/-- Adding a base looks nothing up; it may only find that the part is of the wrong kind. -/
theorem neverMisses_addBase (d : Draft) (p : Part) : NeverMisses (d.addBase p) := by
  unfold addBase
  split
  · exact neverMisses_ok _
  · split
    · exact neverMisses_ok _
    · exact neverMisses_error rfl

/-- Adding an index looks nothing up, whether it is a register, a number or an address. It may be
refused, but not for a name. -/
theorem neverMisses_addIndex (d : Draft) (scale : Nat) (p : Part) :
    NeverMisses (d.addIndex scale p) := by
  unfold addIndex
  split
  · split
    · split
      · exact neverMisses_ok _
      · exact neverMisses_error rfl
    · exact neverMisses_error rfl
  · exact neverMisses_ok _
  · split
    · exact neverMisses_ok _
    · split
      · exact neverMisses_ok _
      · exact neverMisses_error rfl

theorem neverMisses_addOffset (d : Draft) (p : Part) : NeverMisses (d.addOffset p) := by
  unfold addOffset
  split
  · exact neverMisses_ok _
  · exact neverMisses_error rfl

/-- Adding up displacements looks nothing up; two of them that cannot be added are refused as such.
-/
theorem neverMisses_foldlM_addDisplacement (ps : List Part) (sum : Part) :
    NeverMisses (ps.foldlM addDisplacement sum) := by
  induction ps generalizing sum with
  | nil => exact neverMisses_ok _
  | cons p ps ih =>
    rw [List.foldlM_cons]
    refine NeverMisses.bind ?_ ih
    unfold addDisplacement
    split
    · exact neverMisses_ok _
    · exact neverMisses_error rfl

/-- Finishing a draft looks nothing up; it may only find that there is nothing in it, or that
displacements cannot be added. -/
theorem neverMisses_finish (d : Draft) : NeverMisses d.finish := by
  have hoffset : NeverMisses d.offset := by
    unfold offset
    split
    · exact neverMisses_ok _
    · rw [map_eq_pure_bind]
      exact (neverMisses_foldlM_addDisplacement _ _).bind fun _ => neverMisses_ok _
  refine hoffset.bind fun o => ?_
  split
  · exact neverMisses_error rfl
  · exact neverMisses_ok _

theorem neverMisses_ofLoneBase (p : Part) : NeverMisses (ofLoneBase p) := by
  unfold ofLoneBase
  split
  · exact neverMisses_ok _
  · split
    · exact neverMisses_ok _
    · split
      · exact neverMisses_ok _
      · exact neverMisses_error rfl

end Draft

namespace Filling

theorem neverMisses_halved (half : Option Half) (p : Part) : NeverMisses (halved half p) := by
  unfold halved
  split
  · exact neverMisses_ok _
  · split
    · exact neverMisses_ok _
    · exact neverMisses_error rfl

/-- A node without a value is a fault of another kind than a name that is unknown. -/
theorem neverMisses_valueOf (b : Block) (id : NodeId) : NeverMisses (valueOf b id) := by
  unfold valueOf
  split
  · exact neverMisses_ok _
  · exact neverMisses_error rfl

/-- Writing a captured node looks up the node and no name. So what is captured is never the reason
for a name that is missing. -/
theorem neverMisses_captured (b : Block) (m : Match) (ident : String) (id : NodeId) :
    NeverMisses (captured b m ident id) := by
  unfold captured constantOf
  split
  · split
    · split
      · exact neverMisses_ok _
      · exact neverMisses_ok _
      · exact neverMisses_valueOf b id
    · exact neverMisses_valueOf b id
  · exact neverMisses_valueOf b id

theorem neverMisses_ending {ident : String} {rest : List String} {found : Except SubstFault Part}
    (h : NeverMisses found) : NeverMisses (ending ident rest found) := by
  cases rest with
  | nil => exact h
  | cons member rest => exact neverMisses_error rfl

theorem neverMisses_singlePart (ident : String) (parts : List Part) :
    NeverMisses (singlePart ident parts) := by
  unfold singlePart
  split
  · exact neverMisses_ok _
  · exact neverMisses_error rfl

end Filling

/-! ## Faults of templates -/

namespace Subst

variable {α β : Type} {P : SubstFault → Prop}

/-- If a step ends because a name was looked up in vain, the fault has the property. -/
def Blames (P : SubstFault → Prop) (x : Subst α) : Prop :=
  ∀ t fault t', x.run.run t = (.error fault, t') → fault.isMiss = true → P fault

theorem blames_pure (a : α) : Blames P (pure a : Subst α) := fun _ _ _ h => nomatch h

/-- A check blames what its fault is, if that is a look-up in vain. -/
theorem blames_check {e : Except SubstFault α}
    (h : ∀ fault, e = .error fault → fault.isMiss = true → P fault) : Blames P (check e) := by
  intro t fault t' hrun
  have heq : (check e).run.run t = (e, t) := rfl
  rw [heq, Prod.mk.injEq] at hrun
  exact h fault hrun.1

theorem blames_of_neverMisses {e : Except SubstFault α} (h : NeverMisses e) :
    Blames P (check e) := by
  refine blames_check fun fault heq hmiss => ?_
  rw [h fault heq] at hmiss
  cases hmiss

/-- Looking up a temporary never fails: a name that has none is given one. -/
theorem blames_temporary (name : String) (ty : ValueType) : Blames P (temporary name ty) := by
  intro t fault t' hrun
  rw [temporary, ExceptT.run_mk] at hrun
  unfold StateT.run at hrun
  dsimp only at hrun
  split at hrun <;> cases hrun

/-- Steps one after the other blame what either of them blames, as the first fault is the one that
is reported. -/
theorem Blames.bind {x : Subst α} {f : α → Subst β} (hx : Blames P x)
    (hf : ∀ a, Blames P (f a)) : Blames P (x >>= f) := by
  intro t fault t' hrun hmiss
  rw [ExceptT.run_bind, StateT.run_bind] at hrun
  generalize houtcome : x.run.run t = outcome at hrun
  obtain ⟨result, t₁⟩ := outcome
  cases result with
  | error fault' =>
    cases hrun
    exact hx t fault t₁ houtcome hmiss
  | ok a => exact hf a t₁ fault t' hrun hmiss

end Subst

namespace Filling

variable {f : Filling} {P : SubstFault → Prop}

/-- A reference blames what looking up its path blames; allocating a temporary blames nothing. -/
theorem blames_target {path : List String}
    (h : ∀ fault, resolve f.block f.record f.chosen path = .error fault → fault.isMiss = true →
      P fault) : Subst.Blames P (f.target path) := by
  unfold target
  dsimp only
  split
  · split
    · exact Subst.blames_of_neverMisses (neverMisses_error rfl)
    · exact Subst.blames_temporary _ _
  · exact Subst.blames_check h

/-- Adding a component blames nothing. -/
theorem blames_addComponent {add : Draft → Part → Except SubstFault Draft}
    (hadd : ∀ d p, NeverMisses (add d p)) (d : Draft) (o : Option Part) :
    Subst.Blames P (addComponent add d o) := by
  cases o with
  | none => exact Subst.blames_pure d
  | some p => exact Subst.blames_of_neverMisses (hadd d p)

mutual

/-- **A part blames what its references blame.** Putting operands together looks nothing up, so
among the faults of looking up there are only those of the references. -/
theorem blames_fill : ∀ p : Part, (∀ path ∈ p.references, Subst.Blames P (f.target path)) →
    Subst.Blames P (fill f p)
  | .instruction mnemonic condition operands, h => by
    rw [Part.references] at h
    rw [fill]
    exact (blames_fillAll operands h).bind fun _ => Subst.blames_pure _
  | .memory ⟨base, index, scale, offset⟩, h => by
    rw [Part.references] at h
    -- The references of a memory operand are those of its base, its index and its offset.
    have hbase := blames_fillOption base fun path hpath =>
      h path (List.mem_append_left _ (List.mem_append_left _ hpath))
    have hindex := blames_fillOption index fun path hpath =>
      h path (List.mem_append_left _ (List.mem_append_right _ hpath))
    have hoffset := blames_fillOption offset fun path hpath =>
      h path (List.mem_append_right _ hpath)
    rw [fill]
    refine hbase.bind fun base' => ?_
    split
    · exact Subst.blames_of_neverMisses (Draft.neverMisses_ofLoneBase _)
    · refine (blames_addComponent Draft.neverMisses_addBase _ _).bind fun d₁ => ?_
      refine hindex.bind fun i => ?_
      refine (blames_addComponent (fun d p => d.neverMisses_addIndex scale p) _ _).bind
        fun d₂ => ?_
      refine hoffset.bind fun o => ?_
      refine (blames_addComponent Draft.neverMisses_addOffset _ _).bind fun d₃ => ?_
      exact Subst.blames_of_neverMisses d₃.neverMisses_finish
  | .reference path half ty, h => by
    rw [Part.references] at h
    rw [fill]
    refine (h path List.mem_cons_self).bind fun p => ?_
    refine (Subst.blames_of_neverMisses (neverMisses_halved half p)).bind fun q => ?_
    exact Subst.blames_pure _
  | .label _, h | .register _, h | .value .., h | .temp .., h | .imm .., h | .symbol _, h => by
    rw [fill]
    · exact Subst.blames_pure _
    all_goals
      intros
      contradiction

/-- Several parts blame what the references of any of them blame, since nothing else in a part is
looked up. -/
theorem blames_fillAll : ∀ ps : List Part,
    (∀ path ∈ Part.referencesOfAll ps, Subst.Blames P (f.target path)) →
    Subst.Blames P (fillAll f ps)
  | [], h => by
    rw [fillAll]
    exact Subst.blames_pure _
  | p :: ps, h => by
    rw [Part.referencesOfAll] at h
    rw [fillAll]
    refine (blames_fill p fun path hpath => h path (List.mem_append_left _ hpath)).bind fun q => ?_
    refine (blames_fillAll ps fun path hpath => h path (List.mem_append_right _ hpath)).bind
      fun qs => ?_
    exact Subst.blames_pure _

theorem blames_fillOption : ∀ o : Option Part,
    (∀ path ∈ Part.referencesOfOption o, Subst.Blames P (f.target path)) →
    Subst.Blames P (fillOption f o)
  | none, h => by
    rw [fillOption]
    exact Subst.blames_pure _
  | some p, h => by
    rw [Part.referencesOfOption] at h
    rw [fillOption]
    exact (blames_fill p h).bind fun _ => Subst.blames_pure _

end

end Filling

/-! ## Matches found with compiled tables -/

/-- The match is one of a pattern of the tables, however deep in a nest of groups. -/
def Tables.Finds (t : Tables) (b : Block) (m : Match) : Prop :=
  ∃ n id, ∃ p ∈ t.patterns, p.matchWith b (t.alternatives b n) id = .ok (some m)

namespace Tables.Finds

variable {t : Tables} {b : Block} {m : Match} (ht : t.WellScoped) (hm : t.Finds b m)
include ht hm

/-- What is found is a match of a pattern of the tables, so its pattern is well scoped. -/
theorem wellScoped : m.pattern.WellScoped := by
  obtain ⟨n, id, p, hp, hmatch⟩ := hm
  rw [(Pattern.matchWith_head hmatch).1]
  exact ht.of_mem_patterns hp

/-- The alternatives of a match are found with the same tables. An induction over matches inside
matches stays within them. -/
theorem of_mem_submatches {i : String} {ms : List Match} (hms : (i, ms) ∈ m.submatches)
    {m' : Match} (hm' : m' ∈ ms) : t.Finds b m' := by
  obtain ⟨n, id, p, hp, hmatch⟩ := hm
  obtain ⟨e, he⟩ := Pattern.matchWith_placed hmatch (ht.of_mem_patterns hp).distinct
  obtain ⟨pos, g, -, hfound⟩ := he.submatches.1 hms
  cases n with
  | zero => cases hfound
  | succ n =>
    obtain ⟨q, hq, hqm⟩ := (mem_of_filterMapM hfound m').1 hm'
    exact ⟨n, e pos, q, ht.mem_patterns_of_mem_group hq, hqm⟩

/-- A match that is found has every identifier of its pattern bound. -/
theorem bindsAll : m.BindsAll m.pattern := by
  obtain ⟨n, id, p, hp, hmatch⟩ := hm
  rw [(Pattern.matchWith_head hmatch).1]
  exact Pattern.bindsAll_of_matchWith hmatch (ht.of_mem_patterns hp).distinct
    (rooted_alternatives n)

end Tables.Finds

/-- What an instantiation has chosen are instantiations of the alternatives that its match recorded.
-/
theorem Match.Instantiates.chooses {b : Block} {m : Match} {i : Instantiation}
    (h : m.Instantiates b i) : Match.Chooses b i.record.submatches i.chosen := by
  cases h with
  | intro _ _ chooses _ => exact chooses

/-- What is chosen for a group is an instantiation of a match that is found, with choices of its
own. So an argument about a match goes on in what was chosen for it. -/
theorem Tables.Finds.of_choice {t : Tables} {b : Block} {m : Match} (ht : t.WellScoped)
    (hm : t.Finds b m) {chosen : List (String × Instantiation)}
    (hchosen : Match.Chooses b m.submatches chosen) {i : String} {sub : Instantiation}
    (hsub : (i, sub) ∈ chosen) :
    t.Finds b sub.record ∧ Match.Chooses b sub.record.submatches sub.chosen := by
  obtain ⟨ms, m', hms, hm', hinst⟩ := hchosen.of_mem hsub
  refine ⟨?_, hinst.chooses⟩
  rw [hinst.record_eq]
  exact hm.of_mem_submatches ht hms hm'

/-- What can be looked up in a pattern is one of its identifiers. -/
theorem Pattern.mem_idents_of_lookup? {p : Pattern} {i : String}
    (h : (p.lookup? i).isSome = true) : i ∈ p.root.idents := by
  obtain ⟨s, hs⟩ := Option.isSome_iff_exists.1 h
  have hident := @List.find?_some _ (fun s : Shape => s.ident? == some i) _ _ hs
  exact List.mem_filterMap.2 ⟨s, List.mem_of_find?_eq_some hs, beq_iff_eq.1 hident⟩

namespace Filling

variable {t : Tables} {b : Block} {m : Match} {chosen : List (String × Instantiation)}
  {fault : SubstFault}

/-- Where a name is looked up in vain, it is unknown to the pattern, or the path continues in what
was chosen for it. All other ways to fail are excluded because a match has all identifiers of its
pattern bound. -/
theorem resolve_cons_miss (ht : t.WellScoped) (hm : t.Finds b m)
    (hchosen : Match.Chooses b m.submatches chosen) {head : String} {rest : List String}
    (h : resolve b m chosen (head :: rest) = .error fault) (hmiss : fault.isMiss = true) :
    (fault = .unknownIdentifier head m.pattern.id.group ∧ head ≠ "out"
        ∧ ¬ (TempName.parse? head).isSome = true ∧ ¬ head ∈ m.pattern.root.idents)
      ∨ ∃ sub, (head, sub) ∈ chosen ∧ rest ≠ []
          ∧ resolve b sub.record sub.chosen rest = .error fault := by
  -- A computation that looks nothing up in vain does not end with this fault.
  have habsurd : ∀ {e : Except SubstFault Part}, NeverMisses e → e ≠ .error fault := by
    intro e he heq
    rw [he fault heq] at hmiss
    cases hmiss
  rw [resolve] at h
  split at h
  · exact absurd h (habsurd (neverMisses_ending (neverMisses_valueOf b m.root)))
  · rename_i hout
    split at h
    · exact absurd h (habsurd (neverMisses_error rfl))
    · rename_i htemp
      split at h
      · rename_i hhas
        obtain ⟨ms, hms⟩ := Option.isSome_iff_exists.1 hhas
        -- For every name with alternatives something is chosen.
        obtain ⟨i, -, hi, -, -⟩ := hchosen.exists_of_mem (Keyed.mem_of_get? hms)
        obtain ⟨sub, hsub⟩ := Keyed.exists_get?_of_mem hi
        rw [hsub] at h
        dsimp only at h
        split at h
        · exact absurd h (habsurd (neverMisses_singlePart head sub.parts))
        · rename_i hrest
          refine .inr ⟨sub, Keyed.mem_of_get? hsub, ?_, h⟩
          rintro rfl
          exact hrest rfl
      · rename_i hhas
        split at h
        · exact absurd h (habsurd (neverMisses_ending (neverMisses_captured b m head _)))
        · rename_i hunbound
          -- Of an identifier of the pattern the record would say something.
          have hunknown : ¬ head ∈ m.pattern.root.idents := by
            intro hmem
            rcases (hm.bindsAll ht).captures_or_includes hmem with ⟨⟨k, hk⟩, -⟩ | ⟨-, ms, k, hms, -⟩
            · rw [hunbound] at hk
              cases hk
            · rw [Keyed.has, hms] at hhas
              exact hhas rfl
          split at h
          · rename_i hfound
            exact absurd (Pattern.mem_idents_of_lookup? hfound) hunknown
          · cases h
            exact .inl ⟨rfl, hout, htemp, hunknown⟩

/-- **The only name that can be looked up in vain is an unknown one of the path.** The induction is
on the path, which at each name but the last goes on in a choice. -/
theorem resolve_miss (ht : t.WellScoped) (path : List String) (hpath : path ≠ []) :
    ∀ m chosen, t.Finds b m → Match.Chooses b m.submatches chosen → ∀ fault,
      resolve b m chosen path = .error fault → fault.isMiss = true →
      ∃ ident group, fault = .unknownIdentifier ident group ∧ ident ∈ path := by
  induction path with
  | nil => exact absurd rfl hpath
  | cons head rest ih =>
    intro m chosen hm hchosen fault h hmiss
    -- Either the first name is unknown, or the path goes on in a choice that is found as well.
    rcases resolve_cons_miss ht hm hchosen h hmiss with ⟨rfl, -⟩ | ⟨sub, hsub, hrest, hinner⟩
    · exact ⟨head, _, rfl, List.mem_cons_self⟩
    · obtain ⟨hfound, hchoices⟩ := hm.of_choice ht hchosen hsub
      obtain ⟨ident, group, hfault, hident⟩ :=
        ih hrest sub.record sub.chosen hfound hchoices fault hinner hmiss
      exact ⟨ident, group, hfault, List.mem_cons_of_mem head hident⟩

end Filling

/-! ## Substitution -/

/-- A fault of filling in the template of a match is none of a look-up, except that an element of
a path after the first may be unknown in what was chosen for the first. -/
structure Match.OnlyLaterUnknown (b : Block) (m : Match) (chosen : List (String × Instantiation))
    (fault : SubstFault) : Prop where
  bound : ∀ i, fault ≠ .unbound i
  instantiated : ∀ i, fault ≠ .noInstantiation i
  later : ∀ i g, fault = .unknownIdentifier i g →
    ∃ head rest sub, head :: rest ∈ Part.referencesOfAll m.pattern.template
      ∧ (head, sub) ∈ chosen ∧ i ∈ rest
      ∧ Filling.resolve b sub.record sub.chosen rest = .error fault

/-- Reference by reference: where filling in looks a name up in vain, a path that starts with a
choice goes on to a name that is unknown there. -/
theorem Filling.blames_template {t : Tables} {b : Block} {m : Match}
    {chosen : List (String × Instantiation)} (ht : t.WellScoped) (hm : t.Finds b m)
    (hchosen : Match.Chooses b m.submatches chosen) :
    Subst.Blames (fun fault => ∃ ident group, fault = .unknownIdentifier ident group
        ∧ ∃ head rest sub, head :: rest ∈ Part.referencesOfAll m.pattern.template
            ∧ (head, sub) ∈ chosen ∧ ident ∈ rest
            ∧ resolve b sub.record sub.chosen rest = .error fault)
      (fillAll ⟨b, m, chosen⟩ m.pattern.template) := by
  refine blames_fillAll _ fun path hpath => blames_target fun fault h hmiss => ?_
  obtain ⟨head, rest, rfl, hknown⟩ := (hm.wellScoped ht).references path hpath
  rcases resolve_cons_miss ht hm hchosen h hmiss with
    ⟨-, hout, htemp, hunknown⟩ | ⟨sub, hsub, hrest, hinner⟩
  · -- The compiler has refused templates with an unknown first name.
    rcases hknown with hknown | hknown | hknown
    · exact absurd hknown hout
    · exact absurd hknown htemp
    · exact absurd hknown hunknown
  · obtain ⟨hfound, hchoices⟩ := hm.of_choice ht hchosen hsub
    obtain ⟨ident, group, hfault, hident⟩ :=
      resolve_miss ht rest hrest sub.record sub.chosen hfound hchoices fault hinner hmiss
    exact ⟨ident, group, hfault, head, rest, sub, hpath, hsub, hident, hinner⟩

/-- **A combination is never dropped for a first name.** Filling in a template ends with a look-up
in vain only if a path goes on from a choice to a name that is unknown there. -/
theorem Match.onlyLaterUnknown_of_instantiate {t : Tables} {b : Block} {m : Match}
    {chosen : List (String × Instantiation)} {s s' : Session} {fault : SubstFault}
    (ht : t.WellScoped) (hm : t.Finds b m) (hchosen : Match.Chooses b m.submatches chosen)
    (h : m.instantiate b chosen s = (.error fault, s')) : m.OnlyLaterUnknown b chosen fault := by
  unfold instantiate at h
  generalize hrun : (Filling.fillAll ⟨b, m, chosen⟩ m.pattern.template).run.run ⟨s.allocated, []⟩
    = outcome at h
  obtain ⟨parts, after⟩ := outcome
  cases parts with
  | ok parts => cases h
  | error fault' =>
    cases h
    have hblame := Filling.blames_template ht hm hchosen _ _ _ hrun
    -- The three faults of a look-up; two of them are none that a template can end with.
    refine ⟨?_, ?_, ?_⟩
    · rintro i rfl
      obtain ⟨ident, group, hfault, -⟩ := hblame rfl
      cases hfault
    · rintro i rfl
      obtain ⟨ident, group, hfault, -⟩ := hblame rfl
      cases hfault
    · rintro i g rfl
      obtain ⟨ident, group, hfault, hlater⟩ := hblame rfl
      cases hfault
      exact hlater

/-! ## What compiles resolves -/

namespace Tables

/-- **What compiles resolves.** With compiled tables, at every node of every block: a reference
back that is evaluated, in whichever order of operands, has something to refer to; a match binds
all that its pattern introduces, each identifier in one place; and filling in the template never
looks up in vain what the compiler has seen, which is all but the later elements of paths. The
alternatives of included groups are patterns of the tables too, matched a layer below. -/
theorem resolves_of_ofSource {source : String} {t : Tables} (h : ofSource source = .ok t)
    {p : Pattern} (hp : p ∈ t.patterns) (b : Block) (n : Nat) (id : NodeId) :
    (∀ ident k r, Shape.Evaluates b (t.alternatives b n) p.root id (.start p id)
        (.backreference ident) k r → ∃ k', r.resolve? ident = some k')
      ∧ ∀ m, p.matchWith b (t.alternatives b n) id = .ok (some m) →
          m.BindsAll p
            ∧ ∀ before chosen, Flow.Picks (Match.optionsOf b m.submatches before).1 chosen →
                ∀ s fault s', m.instantiate b chosen s = (.error fault, s') →
                  m.OnlyLaterUnknown b chosen fault := by
  have ht := wellScoped_of_ofSource h
  have hscoped := ht.of_mem_patterns hp
  constructor
  · -- References back: the positions before have introduced what is referred to, in either order of
    -- operands.
    intro ident k r heval
    obtain ⟨scope, hscope⟩ := hscoped.closed
    exact Shape.resolves_of_evaluates p.root [] scope id k (.start p id) r hscope
      (.start p id) heval
  · -- Names of the template: a match binds all identifiers, and what is chosen is found as well.
    intro m hm
    have hbinds := Pattern.bindsAll_of_matchWith hm hscoped.distinct (rooted_alternatives n)
    refine ⟨hbinds, fun before chosen hchosen s fault s' hs => ?_⟩
    have hchooses := Match.chooses_of_picks (Match.offers_optionsOf m.submatches before) hchosen
    exact Match.onlyLaterUnknown_of_instantiate ht ⟨n, id, p, hp, hm⟩ hchooses hs

/-- Three times a source, written as the sum of its double and itself, for sources that are a
number. -/
def thrice : String :=
  "source: (<r> LOCAL) -> [<r>] | (<c> CONSTANT) -> [<c>];
   thrice: (ADD (MUL <x> source (CONSTANT 2)) x) -> [MOV <out>, <x.c>] [IMUL <out>, 3];"

/-- An argument and its double, added up. -/
def tripled : Block := Build.finish ⟨"thrice", "f", "entry"⟩ do
  let x ← Build.arg 0 .i32
  let two ← Build.int 2 .i32
  let double ← Build.op .mul .i32 [x, two]
  Build.op .add .i32 [x, double]

/-- Whether a pattern refers back to `x`, and matches at a node with one group included, for the
first choice of which the template fails with the fault. -/
def failsFor (b : Block) (id : NodeId) (x : String) (fault : SubstFault) (t : Tables)
    (p : Pattern) : Bool :=
  (p.root.subshapes.any fun | .backreference i => i == x | _ => false)
    && match t.matchAt b id p with
      | .ok (some m) =>
        match (Match.optionsOf b m.submatches .start).1 with
        | [(name, i :: _)] =>
          match m.instantiate b [(name, i)] .start with
          | (.error found, _) => name == x && decide (found = fault)
          | _ => false
        | _ => false
      | _ => false

/-- If the check finds the fault, the pattern refers back and a combination of its match is dropped
for it. The check runs the matcher and fills in the template. -/
theorem exists_of_failsFor {b : Block} {id : NodeId} {x : String} {fault : SubstFault} {t : Tables}
    {p : Pattern} (h : failsFor b id x fault t p = true) :
    .backreference x ∈ p.root.subshapes ∧ ∃ m, t.matchAt b id p = .ok (some m)
      ∧ ∃ i s', Flow.Picks (Match.optionsOf b m.submatches .start).1 [(x, i)]
          ∧ m.instantiate b [(x, i)] .start = (.error fault, s') := by
  rw [failsFor, Bool.and_eq_true] at h
  obtain ⟨hrefers, h⟩ := h
  constructor
  · -- The reference back is one of the subshapes of the pattern.
    obtain ⟨s, hs, hx⟩ := List.any_eq_true.1 hrefers
    cases s with
    | backreference i =>
      rw [beq_iff_eq] at hx
      exact hx ▸ hs
    | node | producer | constant | inclusion => cases hx
  · split at h
    · rename_i m hm
      split at h
      · rename_i name i others hoptions
        split at h
        · rename_i found s' hfault
          simp only [Bool.and_eq_true, beq_iff_eq, decide_eq_true_eq] at h
          obtain ⟨rfl, rfl⟩ := h
          refine ⟨m, hm, i, s', ?_, hfault⟩
          rw [hoptions]
          exact .cons ⟨rfl, List.mem_cons_self⟩ .nil
        · cases h
      · cases h
    · cases h

set_option maxRecDepth 10000 in
theorem exists_fault_tripled : ∃ ps, ofSource thrice = .ok (.ofPatterns ps)
    ∧ (ofPatterns ps).patterns.any
        (failsFor tripled 3 "x" (.unknownIdentifier "c" "source") (.ofPatterns ps)) = true :=
  @ofSource_of_check thrice _ _ rfl (by decide +kernel)

/-- The reference to `x` is evaluated with the operands exchanged. What it refers to is no number,
so the template asks for a name that its source does not have. -/
theorem resolves_of_ofSource_tripled :
    ∃ t, ofSource thrice = .ok t ∧ ∃ p ∈ t.patterns, ∃ m, t.matchAt tripled 3 p = .ok (some m)
      ∧ m.BindsAll p
      ∧ (∃ k r, Shape.Evaluates tripled (t.included tripled) p.root 3 (.start p 3)
          (.backreference "x") k r ∧ ∃ k', r.resolve? "x" = some k')
      ∧ ∃ i s', m.instantiate tripled [("x", i)] .start
            = (.error (.unknownIdentifier "c" "source"), s')
          ∧ m.OnlyLaterUnknown tripled [("x", i)] (.unknownIdentifier "c" "source") := by
  obtain ⟨ps, hps, hany⟩ := exists_fault_tripled
  obtain ⟨p, hp, hfails⟩ := List.any_eq_true.1 hany
  obtain ⟨hrefers, m, hm, i, s', hpicks, hfault⟩ := exists_of_failsFor hfails
  -- The reference stands at some position, and a match evaluates every position.
  obtain ⟨pos, hpos⟩ := Shape.exists_at?_of_mem_subshapes hrefers
  obtain ⟨k, r, heval⟩ :=
    Shape.evaluates_of_at? p.root 3 (.start p 3) m (Pattern.matchWith_eq_some hm) pos _ hpos
  obtain ⟨hreferences, hmatches⟩ := resolves_of_ofSource hps hp tripled _ 3
  obtain ⟨hbinds, hsubst⟩ := hmatches m hm
  exact ⟨.ofPatterns ps, hps, p, hp, m, hm, hbinds, ⟨k, r, heval, hreferences "x" k r heval⟩, i, s',
    hfault, hsubst .start [("x", i)] hpicks .start _ s' hfault⟩

end Tables

end TileSelect
