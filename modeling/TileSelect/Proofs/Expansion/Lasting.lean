import TileSelect.Proofs.Expansion.Assembly
import TileSelect.Proofs.Pattern.Templates
/-!
Properties that survive filling in.

What a template becomes is put together from three sources: what is written in it, what its
references stand for, and temporaries. On the way operands are halved and given widths, and
addresses are assembled. A property of parts that holds of the sources and that none of these steps
loses holds of everything that comes out (`Filling.lasts_fill`). It may say different things of a
part and of what the part is made of: a reference stands for whole parts only.

The layers of groups are gone through once (`Tables.Finds.induction`).
-/

set_option autoImplicit false

namespace TileSelect

namespace Filling

variable {f : Filling}

/-! ## Temporaries along a template -/

/-- A relation between the temporaries before and after, which looking up a name respects. -/
structure Respects (f : Filling) (R : Temporaries → Temporaries → Prop) : Prop where
  refl : ∀ t, R t t
  trans : ∀ t₁ t₂ t₃, R t₁ t₂ → R t₂ t₃ → R t₁ t₃
  target : ∀ path r t t', (f.target path).run.run t = (.ok r, t') → R t t'

mutual

/-- Names are looked up one after the other, and nothing else touches the temporaries. So a relation
that looking up a name respects holds before and after a template is filled in. -/
theorem respects_fill {R : Temporaries → Temporaries → Prop} (hR : f.Respects R) :
    ∀ (p : Part) (t t' : Temporaries) (q : Part), (fill f p).run.run t = (.ok q, t') → R t t'
  | .instruction mnemonic condition operands, t, t', q, h => by
    rw [fill, Subst.run_bind] at h
    obtain ⟨qs, t₁, hqs, h⟩ := h
    obtain ⟨-, rfl⟩ := Subst.run_pure.1 h
    exact respects_fillAll hR operands t t' qs hqs
  | .memory ⟨base, index, scale, offset⟩, t, t', q, h => by
    obtain ⟨base', index', offset', t₁, t₂, hbase, hindex, hoffset, -⟩ := fill_memory h
    have h₁ := respects_fillOption hR base t t₁ base' hbase
    have h₂ := respects_fillOption hR index t₁ t₂ index' hindex
    have h₃ := respects_fillOption hR offset t₂ t' offset' hoffset
    exact hR.trans t t₁ t' h₁ (hR.trans t₁ t₂ t' h₂ h₃)
  | .reference path half ty, t, t', q, h => by
    rw [fill, Subst.run_bind] at h
    obtain ⟨r, t₁, hr, h⟩ := h
    obtain ⟨r', t₂, hr', hret⟩ := Subst.run_bind.1 h
    obtain ⟨-, rfl⟩ := Subst.run_check.1 hr'
    obtain ⟨-, rfl⟩ := Subst.run_pure.1 hret
    exact hR.target path r t t' hr
  | .label _, t, t', q, h | .register _, t, t', q, h | .value .., t, t', q, h
  | .temp .., t, t', q, h | .imm .., t, t', q, h | .symbol _, t, t', q, h => by
    rw [fill] at h
    · obtain ⟨-, rfl⟩ := Subst.run_pure.1 h
      exact hR.refl t'
    all_goals
      intros
      contradiction

/-- What looking up names respects is respected by filling in several parts, from the first to the
last: the relation is transitive. -/
theorem respects_fillAll {R : Temporaries → Temporaries → Prop} (hR : f.Respects R) :
    ∀ (ps : List Part) (t t' : Temporaries) (qs : List Part),
    (fillAll f ps).run.run t = (.ok qs, t') → R t t'
  | [], t, t', qs, h => by
    rw [fillAll, Subst.run_pure] at h
    exact h.2 ▸ hR.refl t
  | p :: ps, t, t', qs, h => by
    rw [fillAll, Subst.run_bind] at h
    obtain ⟨q, t₁, hq, h⟩ := h
    obtain ⟨qs', t₂, hqs, h⟩ := Subst.run_bind.1 h
    obtain ⟨-, rfl⟩ := Subst.run_pure.1 h
    exact hR.trans t t₁ t' (respects_fill hR p t t₁ q hq) (respects_fillAll hR ps t₁ t' qs' hqs)

/-- It is respected by filling in a part that may be absent, since an absent one looks nothing up.
-/
theorem respects_fillOption {R : Temporaries → Temporaries → Prop} (hR : f.Respects R) :
    ∀ (o : Option Part) (t t' : Temporaries) (o' : Option Part),
    (fillOption f o).run.run t = (.ok o', t') → R t t'
  | none, t, t', o', h => by
    rw [fillOption, Subst.run_pure] at h
    exact h.2 ▸ hR.refl t
  | some p, t, t', o', h => by
    rw [fillOption, Subst.run_bind] at h
    obtain ⟨q, t₁, hq, h⟩ := h
    obtain ⟨-, rfl⟩ := Subst.run_pure.1 h
    exact respects_fill hR p t t' q hq

end

/-- Temporaries are only added. -/
theorem respects_le_allocated : f.Respects fun t t' => t.allocated ≤ t'.allocated where
  refl _ := Nat.le_refl _
  trans _ _ _ := Nat.le_trans
  target path r t t' h := by
    cases targets_of_run h with
    | standing | held => exact Nat.le_refl _
    | fresh => exact Nat.le_succ _

end Filling

/-! ## Properties that last -/

namespace Part

/-- A property of parts that no step of filling in loses. -/
structure Lasting (Q : Part → Prop) : Prop where
  instruction : ∀ mnemonic condition (os : List Part), os.length ≤ 2 → (∀ o ∈ os, Q o) →
    Q (.instruction mnemonic condition os)
  memory : ∀ base index scale offset q, scale ∈ Address.scales → (∀ p ∈ base, Q p) →
    (∀ p ∈ index, Q p) → (∀ p ∈ offset, Q p) → Draft.Assembles base index scale offset q → Q q
  slice : ∀ half p q, slice? half p = some q → Q p → Q q
  retype : ∀ ty p, Q p → Q (p.retype ty)

/-- What a piece of a template must be for what becomes of it to have a property. -/
def Ready (Q : Part → Prop) : Part → Prop
  | .instruction _ _ os => os.length ≤ 2
  | .memory address => address.scale ∈ Address.scales
  | .reference .. => True
  | p => Q p

/-- What is written in a template is ready, if its numbers and the like have the property. Names are
ready anyhow, as it is the filling that has to say what they become. -/
theorem Written.ready {Q : Part → Prop} {p : Part} (h : p.Written)
    (hlabel : ∀ name, p = .label name → Q p) (hregister : ∀ r, p = .register r → Q p)
    (hconstant : p.isConstant = true → Q p) : p.Ready Q := by
  cases p with
  | instruction => exact h.1
  | label name => exact hlabel name rfl
  | memory => exact h
  | reference => trivial
  | register r => exact hregister r rfl
  | value | temp => exact h.elim
  | imm | symbol => exact hconstant rfl

end Part

/-! ## Templates -/

/-- The temporaries at hand have a property, and none was allocated before `lo`. -/
structure Temporaries.Hold (Q : Part → Prop) (lo : Nat) (t : Temporaries) : Prop where
  start : lo ≤ t.allocated
  named : ∀ name p, (name, p) ∈ t.named → Q p

namespace Filling

variable {f : Filling} {Q : Part → Prop} {lo hi : Nat} {t t' : Temporaries}

/-- What the names of a match stand for has a property. -/
def Refers (Q : Part → Prop) (f : Filling) : Prop := ∀ path r, f.StandsFor path r → Q r

/-- A lasting property, of what names stand for and of the temporaries allocated from `lo` on and
before `hi`. -/
structure Sources (Q : Part → Prop) (lo hi : Nat) (f : Filling) : Prop where
  lasting : Part.Lasting Q
  names : f.Refers Q
  temporaries : ∀ n ty, lo ≤ n → n < hi → Q (.temp (Session.tempNumber n) ty none)

/-- What a reference comes to has the property: it stood for something that does, or it is a
temporary, old or new, and these do as long as their numbers are in the range. -/
theorem lasts_target (hs : f.Sources Q lo hi) (ht : t.Hold Q lo) {path : List String}
    {r : Part} (h : (f.target path).run.run t = (.ok r, t')) (hhi : t'.allocated ≤ hi) :
    t'.Hold Q lo ∧ Q r := by
  cases targets_of_run h with
  | standing _ stands => exact ⟨ht, hs.names path r stands⟩
  | held _ _ holds => exact ⟨ht, ht.named _ _ (Keyed.mem_of_get? holds)⟩
  | fresh =>
    -- The temporary is allocated here, so it is one of those that have the property.
    have hfresh := fun ty => hs.temporaries t.allocated ty ht.start hhi
    refine ⟨⟨Nat.le_succ_of_le ht.start, fun name q hq => ?_⟩, hfresh _⟩
    rcases Keyed.eq_or_mem_of_mem_insert hq with heq | hq
    · cases heq
      exact hfresh _
    · exact ht.named name q hq

/-- Halving keeps a lasting property: that is part of what makes a property last, besides that
widths may be replaced. -/
theorem lasts_halved (hQ : Part.Lasting Q) {half : Option Half} {p q : Part} (hp : Q p)
    (h : halved half p = .ok q) : Q q := by
  unfold halved at h
  split at h
  · cases h
    exact hp
  · split at h
    · rename_i hslice
      cases h
      exact hQ.slice _ p _ hslice hp
    · cases h

theorem lasts_retyped (hQ : Part.Lasting Q) {p : Part} (hp : Q p) (ty : Option ValueType) :
    Q (retyped ty p) := by
  cases ty with
  | none => exact hp
  | some ty => exact hQ.retype ty p hp

mutual

/-- **A lasting property of what goes into a template is one of what comes out.** The steps that
make parts are those that `Part.Lasting` lists; the template only says in which order they are
taken. -/
theorem lasts_fill (hs : f.Sources Q lo hi) : ∀ (p : Part) (t t' : Temporaries) (q : Part),
    p.Everywhere (Part.Ready Q) → t.Hold Q lo → t'.allocated ≤ hi →
    (fill f p).run.run t = (.ok q, t') → t'.Hold Q lo ∧ Q q
  | .instruction mnemonic condition os, t, t', q, hp, ht, hhi, h => by
    obtain ⟨hfew, hoperands⟩ := Part.everywhere_instruction.1 hp
    rw [fill, Subst.run_bind] at h
    obtain ⟨os', t₁, hos, h⟩ := h
    obtain ⟨rfl, rfl⟩ := Subst.run_pure.1 h
    obtain ⟨ht', hlength, hall⟩ := lasts_fillAll hs os t t' os' hoperands ht hhi hos
    exact ⟨ht', hs.lasting.instruction mnemonic condition os' (hlength.trans_le hfew) hall⟩
  | .memory ⟨base, index, scale, offset⟩, t, t', q, hp, ht, hhi, h => by
    obtain ⟨hscale, hbase, hindex, hoffset⟩ := Part.everywhere_memory.1 hp
    obtain ⟨base', index', offset', t₁, t₂, hfillBase, hfillIndex, hfillOffset, hassembles⟩ :=
      fill_memory h
    -- What is allocated for one component stays below what is allocated for the next.
    have hle₂ := respects_fillOption respects_le_allocated offset t₂ t' offset' hfillOffset
    have hle₁ := respects_fillOption respects_le_allocated index t₁ t₂ index' hfillIndex
    obtain ⟨ht₁, hbase'⟩ := lasts_fillOption hs base t t₁ base' hbase ht (by omega) hfillBase
    obtain ⟨ht₂, hindex'⟩ := lasts_fillOption hs index t₁ t₂ index' hindex ht₁ (by omega) hfillIndex
    obtain ⟨ht', hoffset'⟩ := lasts_fillOption hs offset t₂ t' offset' hoffset ht₂ hhi hfillOffset
    exact ⟨ht', hs.lasting.memory _ _ _ _ q hscale hbase' hindex' hoffset' hassembles⟩
  | .reference path half ty, t, t', q, hp, ht, hhi, h => by
    rw [fill, Subst.run_bind] at h
    obtain ⟨r, t₁, hr, h⟩ := h
    obtain ⟨r', t₂, hr', hret⟩ := Subst.run_bind.1 h
    obtain ⟨hhalf, rfl⟩ := Subst.run_check.1 hr'
    obtain ⟨rfl, rfl⟩ := Subst.run_pure.1 hret
    obtain ⟨ht', hres⟩ := lasts_target hs ht hr hhi
    exact ⟨ht', lasts_retyped hs.lasting (lasts_halved hs.lasting hres hhalf) ty⟩
  | .label _, t, t', q, hp, ht, hhi, h | .register _, t, t', q, hp, ht, hhi, h
  | .value .., t, t', q, hp, ht, hhi, h | .temp .., t, t', q, hp, ht, hhi, h
  | .imm .., t, t', q, hp, ht, hhi, h | .symbol _, t, t', q, hp, ht, hhi, h => by
    rw [fill] at h
    · obtain ⟨rfl, rfl⟩ := Subst.run_pure.1 h
      exact ⟨ht, hp.self⟩
    all_goals
      intros
      contradiction

/-- The same for several parts. That there are as many of them as before is used for the operands of
an instruction. -/
theorem lasts_fillAll (hs : f.Sources Q lo hi) : ∀ (ps : List Part) (t t' : Temporaries)
    (qs : List Part), (∀ p ∈ ps, p.Everywhere (Part.Ready Q)) → t.Hold Q lo → t'.allocated ≤ hi →
    (fillAll f ps).run.run t = (.ok qs, t') →
    t'.Hold Q lo ∧ qs.length = ps.length ∧ ∀ q ∈ qs, Q q
  | [], t, t', qs, hp, ht, hhi, h => by
    rw [fillAll, Subst.run_pure] at h
    obtain ⟨rfl, rfl⟩ := h
    exact ⟨ht, rfl, by simp⟩
  | p :: ps, t, t', qs, hp, ht, hhi, h => by
    rw [fillAll, Subst.run_bind] at h
    obtain ⟨q, t₁, hq, h⟩ := h
    obtain ⟨qs', t₂, hqs, h⟩ := Subst.run_bind.1 h
    obtain ⟨rfl, rfl⟩ := Subst.run_pure.1 h
    -- The parts after the first may allocate more, but the first one stays below the same bound.
    have hle := respects_fillAll respects_le_allocated ps t₁ t' qs' hqs
    obtain ⟨hfirst, hrest⟩ := List.forall_mem_cons.1 hp
    obtain ⟨ht₁, hq'⟩ := lasts_fill hs p t t₁ q hfirst ht (by omega) hq
    obtain ⟨ht', hlength, hqs'⟩ := lasts_fillAll hs ps t₁ t' qs' hrest ht₁ hhi hqs
    exact ⟨ht', by rw [List.length_cons, List.length_cons, hlength],
      List.forall_mem_cons.2 ⟨hq', hqs'⟩⟩

/-- A component that is absent stays absent, and one that is there is filled in with something that
has the property. -/
theorem lasts_fillOption (hs : f.Sources Q lo hi) : ∀ (o : Option Part) (t t' : Temporaries)
    (o' : Option Part), Part.EverywhereOption (Part.Ready Q) o → t.Hold Q lo → t'.allocated ≤ hi →
    (fillOption f o).run.run t = (.ok o', t') → t'.Hold Q lo ∧ ∀ q ∈ o', Q q
  | none, t, t', o', hp, ht, hhi, h => by
    rw [fillOption, Subst.run_pure] at h
    obtain ⟨rfl, rfl⟩ := h
    exact ⟨ht, fun _ hq => by cases hq⟩
  | some p, t, t', o', hp, ht, hhi, h => by
    rw [fillOption, Subst.run_bind] at h
    obtain ⟨q, t₁, hq, h⟩ := h
    obtain ⟨rfl, rfl⟩ := Subst.run_pure.1 h
    obtain ⟨ht', hq'⟩ := lasts_fill hs p t t' q (hp p rfl) ht hhi hq
    exact ⟨ht', fun _ hmem => by cases hmem; exact hq'⟩

end

end Filling

/-! ## Layers of groups -/

/-- What an instantiation emits, and what the names inside it stand for, has a property. -/
structure Instantiation.BuiltOf (Q : Part → Prop) (b : Block) (i : Instantiation) : Prop where
  parts : ∀ p ∈ i.parts, Q p
  names : Filling.Refers Q ⟨b, i.record, i.chosen⟩

/-- What is built of parts with one property is built of parts with any weaker one. -/
theorem Instantiation.BuiltOf.mono {Q Q' : Part → Prop} {b : Block} {i : Instantiation}
    (hQ : ∀ p, Q p → Q' p) (h : i.BuiltOf Q b) : i.BuiltOf Q' b :=
  ⟨fun p hp => hQ p (h.parts p hp), fun path r hr => hQ r (h.names path r hr)⟩

namespace Filling

variable {Q : Part → Prop} {b : Block} {m : Match} {r : Part}

/-- Names stand for what has a property if the root, the captured nodes and the choices do. These
are the only things that a name can stand for. -/
theorem refers_of_choices {chosen : List (String × Instantiation)}
    (hroot : ∀ r, valueOf b m.root = .ok r → Q r)
    (hcaptured : ∀ name k r, (name, k) ∈ m.bindings → captured b m name k = .ok r → Q r)
    (hchosen : ∀ choice ∈ chosen, choice.2.BuiltOf Q b) : Refers Q ⟨b, m, chosen⟩ := by
  intro path r hr
  cases path with
  | nil => cases hr
  | cons head rest =>
    rcases hr.inv with ⟨-, -, hvalue⟩ | ⟨-, ⟨k, hk, -, hfound⟩ | ⟨sub, hsub, hcase⟩⟩
    · exact hroot r hvalue
    · exact hcaptured head k r (Keyed.mem_of_get? hk) hfound
    · have hbuilt := hchosen _ (Keyed.mem_of_get? hsub)
      rcases hcase with ⟨-, hparts⟩ | ⟨-, hrest⟩
      · exact hbuilt.parts r (by simp [hparts])
      · exact hbuilt.names rest r hrest

/-- The value of a node is not made of parts, so no operand of a template becomes an address by
capturing a node. -/
theorem not_isComposite_of_valueOf {k : NodeId} (h : valueOf b k = .ok r) :
    r.isComposite = false := by
  unfold valueOf at h
  split at h
  · rename_i p hp
    cases h
    obtain ⟨v, ty, rfl, -⟩ := Block.valueOf?_eq_some hp
    rfl
  · cases h

/-- A captured node is written as its value, a number or a symbol, and so is not made of parts.
Addresses and instructions can only come from groups. -/
theorem not_isComposite_of_captured {name : String} {k : NodeId}
    (h : captured b m name k = .ok r) : r.isComposite = false := by
  unfold captured constantOf at h
  split at h
  · split at h
    · split at h
      · cases h
        rfl
      · cases h
        rfl
      · exact not_isComposite_of_valueOf h
    · exact not_isComposite_of_valueOf h
  · exact not_isComposite_of_valueOf h

end Filling

/-- The number is that of a temporary which was allocated when the template of the instantiation
was filled in. -/
def Instantiation.Allocates (b : Block) (i : Instantiation) (n : Nat) : Prop :=
  ∃ s s' k, i.record.instantiate b i.chosen s = (.ok i, s')
    ∧ s.allocated ≤ k ∧ k < s'.allocated ∧ n = Session.tempNumber k

/-- A lasting property holds of all that an instantiation is made from. -/
structure Instantiation.MadeFrom (Q : Part → Prop) (b : Block) (i : Instantiation) : Prop where
  lasting : Part.Lasting Q
  label : ∀ name, Q (.label name)
  register : ∀ r, Q (.register r)
  written : ∀ p ∈ i.record.pattern.template, ∀ q ∈ p.pieces, q.isConstant = true → Q q
  root : ∀ r, Filling.valueOf b i.record.root = .ok r → Q r
  captured : ∀ name k r, (name, k) ∈ i.record.bindings →
    Filling.captured b i.record name k = .ok r → Q r
  temporaries : ∀ n ty, i.Allocates b n → Q (.temp n ty none)
  chosen : ∀ choice ∈ i.chosen, choice.2.BuiltOf Q b

/-- **One layer.** With a compiled template, what holds of all that an instantiation is made from
holds of what it emits and of what its names stand for. -/
theorem Match.Instantiates.builtOf {Q : Part → Prop} {b : Block} {m : Match} {i : Instantiation}
    (hi : m.Instantiates b i) (hcompiled : m.pattern.Compiled) (h : i.MadeFrom Q b) :
    i.BuiltOf Q b := by
  have hnames := Filling.refers_of_choices h.root h.captured h.chosen
  refine ⟨?_, hnames⟩
  cases hi with
  | @intro _ chosen parts allocated after chooses filled =>
    -- A compiled template has references, names, registers and constants, all of which are ready.
    have hready : ∀ p ∈ m.pattern.template, p.Everywhere (Part.Ready Q) := by
      intro p hp q hq
      refine (hcompiled.written p hp q hq).ready ?_ ?_ (h.written p hp q hq)
      · rintro name rfl
        exact h.label name
      · rintro r rfl
        exact h.register r
    -- The temporaries from the count before to the count after are those of this template.
    have hsources : Filling.Sources Q allocated after.allocated ⟨b, m, chosen⟩ := by
      refine ⟨h.lasting, hnames, fun n ty hlo hhi => h.temporaries _ ty ?_⟩
      refine ⟨⟨allocated, #[]⟩, ⟨after.allocated, #[]⟩, n, ?_, hlo, hhi, rfl⟩
      simp only [Match.instantiate, filled]
    have hstart : Temporaries.Hold Q allocated ⟨allocated, []⟩ := ⟨Nat.le_refl _, by simp⟩
    exact (Filling.lasts_fillAll hsources m.pattern.template _ after parts hready hstart
      (Nat.le_refl _) filled).2.2

/-- A property of what is found that holds as soon as it holds of what was chosen. -/
def Tables.Inductive (t : Tables) (b : Block) (motive : Instantiation → Prop) : Prop :=
  ∀ m i, t.Finds b m → m.Instantiates b i → (∀ choice ∈ i.chosen, motive choice.2) → motive i

mutual

/-- **Induction over choices.** To prove something of the instantiations of all matches that are
found, it may be assumed of what was chosen. -/
theorem Tables.Finds.induction {t : Tables} {b : Block} {motive : Instantiation → Prop}
    (ht : t.WellScoped) (step : t.Inductive b motive) : ∀ (i : Instantiation) (m : Match),
    t.Finds b m → m.Instantiates b i → motive i
  | ⟨record, parts, covered, inputs, chosen⟩, m, hm, hi => by
    -- Groups only include alternatives of the tables, so what was chosen was found with them too.
    have hchosen := hi.chooses
    refine step m _ hm hi (inductionChoices ht step chosen _ hchosen ?_)
    intro ident ms hms m' hm'
    rw [hi.record_eq] at hms
    exact hm.of_mem_submatches ht hms hm'

/-- The induction for the choices of a match, one after the other. Each of them was made from a
match that is found with the same tables, so the induction applies to it. -/
theorem Tables.Finds.inductionChoices {t : Tables} {b : Block} {motive : Instantiation → Prop}
    (ht : t.WellScoped) (step : t.Inductive b motive) :
    ∀ (chosen : List (String × Instantiation)) (subs : List (String × List Match)),
    Match.Chooses b subs chosen → (∀ ident ms, (ident, ms) ∈ subs → ∀ m ∈ ms, t.Finds b m) →
    ∀ choice ∈ chosen, motive choice.2
  | [], _, _, _ => by simp
  | (_, i) :: rest, _, h, hsubs => by
    cases h with
    | cons hmem hfirst hothers =>
      intro choice hchoice
      rcases List.mem_cons.1 hchoice with rfl | hrest
      · exact Tables.Finds.induction ht step i _ (hsubs _ _ List.mem_cons_self _ hmem) hfirst
      · exact inductionChoices ht step rest _ hothers
          (fun ident ms hms => hsubs ident ms (List.mem_cons_of_mem _ hms)) choice hrest

end

/-! ## Memory operands -/

/-- If the part is a memory operand, the target can encode its address. -/
def Part.EncodableMemory (p : Part) : Prop := ∀ a, p = .memory a → a.Encodable

theorem Part.encodableMemory_of_not_isComposite {p : Part} (h : p.isComposite = false) :
    p.Everywhere EncodableMemory := by
  rw [everywhere_iff_of_not_isComposite h]
  rintro a rfl
  cases h

/-- Memory operands are assembled anew, so it does not matter what was asked of them before. What
does matter is that an address which is adopted as a component was one that can be encoded. -/
theorem Part.lasting_encodableMemory : Lasting (·.Everywhere EncodableMemory) where
  instruction _ _ _ _ h := everywhere_instruction.2 ⟨(fun _ ha => nomatch ha), h⟩
  memory base index scale offset q hscale hbase hindex _ h := by
    obtain ⟨c, rfl, hc⟩ := Draft.Assembles.madeOf (R := fun _ => True) (D := fun _ => True) h
      hscale (fun _ _ _ => trivial) (fun _ _ _ => trivial) (fun _ _ _ => trivial) fun a ha =>
        ⟨ha.elim (fun h => (hbase _ h).self a rfl) fun h => (hindex _ h).self a rfl,
          fun _ _ => trivial, fun _ _ => .inl trivial⟩
    -- The components of the new address are registers and constants, which hold no address.
    have hsimple : ∀ p : Part, p.isComposite = false → p.EncodableMemory :=
      fun p hp => (encodableMemory_of_not_isComposite hp).self
    refine hc.everywhere (fun a ha => ?_) (fun p hp => hsimple p ?_) fun p hp => hsimple p ?_
    · cases ha
      exact hc.toEncodable
    · exact not_isComposite_of_isRegisterLike (hp.elim (hc.base p) (hc.index p))
    · exact not_isComposite_of_isConstant (hc.offset p hp)
  slice half p q hq _ := encodableMemory_of_not_isComposite (not_isComposite_of_slice? hq).2
  retype ty p h := by
    cases p with
    | value | temp | imm => exact encodableMemory_of_not_isComposite rfl
    | instruction | label | memory | reference | register | symbol => exact h

namespace Tables.Finds

variable {source : String} {t : Tables} {b : Block} {m : Match} {i : Instantiation}

/-- What is found is of a compiled pattern if the tables were compiled. -/
theorem compiled (ht : ofSource source = .ok t) (hm : t.Finds b m) : m.pattern.Compiled := by
  obtain ⟨n, id, p, hp, hmatch⟩ := hm
  rw [(Pattern.matchWith_head hmatch).1]
  exact compiled_of_ofSource ht hp

/-- **With compiled tables, every memory operand that is emitted can be encoded**, however deep
groups are nested: the scale is one of four, and base, index and offset are what the target has in
these places. -/
theorem builtOf_encodableMemory (ht : ofSource source = .ok t) (hm : t.Finds b m)
    (hi : m.Instantiates b i) : i.BuiltOf (·.Everywhere Part.EncodableMemory) b := by
  refine induction (wellScoped_of_ofSource ht) (fun m i hm hi ih => ?_) i m hm hi
  have hsimple : ∀ {r : Part}, r.isComposite = false → r.Everywhere Part.EncodableMemory :=
    Part.encodableMemory_of_not_isComposite
  refine hi.builtOf (hm.compiled ht) ?_
  exact {
    lasting := Part.lasting_encodableMemory
    label := fun _ => hsimple rfl
    register := fun _ => hsimple rfl
    written := fun _ _ _ _ hq => hsimple (Part.not_isComposite_of_isConstant hq)
    root := fun _ hr => hsimple (Filling.not_isComposite_of_valueOf hr)
    captured := fun _ _ _ _ hr => hsimple (Filling.not_isComposite_of_captured hr)
    temporaries := fun _ _ _ => hsimple rfl
    chosen := ih }

end Tables.Finds

end TileSelect
