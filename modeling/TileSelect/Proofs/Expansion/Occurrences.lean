import TileSelect.Proofs.Expansion.Explicit
/-!
The operands that occur in a filled template.

Filling in moves operands around and changes them in two ways only: it takes halves and imposes
widths. So what occurs in a filled template is known from what its references stand for, and a
property of operands (which value, of which width, which half of it) holds of all of them as soon as
it holds at every reference. Unlike the values alone, which are the same whole or halved, operands
depend on how a reference is written.

What is chosen for a group is treated in the same way. `Instantiation.MadeOf` says that only such
operands occur in what it emits and in what any name inside it stands for, so that a path may lead
into it. The layers of groups follow by induction, given a condition on nodes that a match hands on
from its root to all that it names.
-/

set_option autoImplicit false

namespace TileSelect

/-! ## Operands -/

namespace Part

mutual

/-- The values and temporaries that occur in a part, as they are written. -/
def operands : Part → List Part
  | .instruction _ _ ps => operandsOfAll ps
  | .memory ⟨base, index, _, offset⟩ =>
    operandsOfOption base ++ operandsOfOption index ++ operandsOfOption offset
  | .value v ty half => [.value v ty half]
  | .temp k ty half => [.temp k ty half]
  | .label _ | .reference .. | .register _ | .imm .. | .symbol _ => []

/-- The values and temporaries that occur in several parts. -/
def operandsOfAll : List Part → List Part
  | [] => []
  | p :: ps => operands p ++ operandsOfAll ps

/-- The values and temporaries that occur in a part that may be absent. -/
def operandsOfOption : Option Part → List Part
  | none => []
  | some p => operands p

end

/-- Only operands of one kind occur. -/
def Only (P : Part → Prop) (p : Part) : Prop := ∀ a ∈ p.operands, P a

/-- Only operands of one kind occur in a part that may be absent. -/
def OnlyOption (P : Part → Prop) (o : Option Part) : Prop := ∀ p ∈ o, p.Only P

variable {P : Part → Prop}

theorem only_value {v : Nat} {ty : ValueType} {half : Option Half} :
    (Part.value v ty half).Only P ↔ P (.value v ty half) := by
  simp [Only, operands]

theorem only_temp {k : Nat} {ty : ValueType} {half : Option Half} :
    (Part.temp k ty half).Only P ↔ P (.temp k ty half) := by
  simp [Only, operands]

/-- What occurs in several parts occurs in one of them. -/
theorem mem_operandsOfAll {a : Part} {ps : List Part} :
    a ∈ operandsOfAll ps ↔ ∃ p ∈ ps, a ∈ p.operands := by
  induction ps with
  | nil => simp [operandsOfAll]
  | cons p ps ih => simp [operandsOfAll, ih]

/-- Only operands of a kind occur in an instruction if this holds of each of its operands. -/
theorem only_instruction {mnemonic : String} {condition : Option Condition} {ps : List Part} :
    (Part.instruction mnemonic condition ps).Only P ↔ ∀ p ∈ ps, p.Only P := by
  simp only [Only, operands, mem_operandsOfAll]
  grind

theorem only_plain {mnemonic : String} {ps : List Part} :
    (Part.plain mnemonic ps).Only P ↔ ∀ p ∈ ps, p.Only P := only_instruction

/-- Only operands of a kind occur in memory if this holds of base, index and offset; an absent
component has no operands. -/
theorem only_memory {a : Address Part} :
    (Part.memory a).Only P
      ↔ OnlyOption P a.base ∧ OnlyOption P a.index ∧ OnlyOption P a.offset := by
  obtain ⟨base, index, scale, offset⟩ := a
  have hoption : ∀ o : Option Part, (∀ q ∈ operandsOfOption o, P q) ↔ OnlyOption P o := by
    intro o
    cases o <;> simp [operandsOfOption, OnlyOption, Only]
  rw [Only, operands]
  simp only [List.mem_append, or_imp, forall_and, hoption, and_assoc]

theorem onlyOption_none : OnlyOption P none := fun _ h => by cases h

theorem onlyOption_some {p : Part} : OnlyOption P (some p) ↔ p.Only P := by
  simp [OnlyOption]

/-- Where no operand occurs, none of a wrong kind does. -/
theorem only_of_operands_eq_nil {p : Part} (h : p.operands = []) : p.Only P := by
  intro a ha
  rw [h] at ha
  cases ha

theorem only_of_isConstant {p : Part} (h : p.isConstant = true) : p.Only P := by
  have hnone : p.operands = [] := by
    cases p <;> first | rfl | cases h
  exact only_of_operands_eq_nil hnone

/-- The number of a value. -/
def valueId? : Part → Option Nat
  | .value v _ _ => some v
  | _ => none

mutual

/-- The values that occur are those of the operands. What is known of the operands of a tile
therefore says something about its values. -/
theorem values_eq_operands : ∀ p : Part, p.values = p.operands.filterMap valueId?
  | .instruction _ _ ps => by
    rw [values_instruction, operands]
    exact valuesOfAll_eq_operands ps
  | .memory ⟨base, index, _, offset⟩ => by
    rw [values_memory, operands, List.filterMap_append, List.filterMap_append,
      valuesOfOption_eq_operands base, valuesOfOption_eq_operands index,
      valuesOfOption_eq_operands offset]
  | .value .. | .temp .. | .label _ | .reference .. | .register _ | .imm .. | .symbol _ => rfl

theorem valuesOfAll_eq_operands :
    ∀ ps : List Part, valuesOfAll ps = (operandsOfAll ps).filterMap valueId?
  | [] => rfl
  | p :: ps => by
    rw [valuesOfAll_cons, operandsOfAll, List.filterMap_append, values_eq_operands p,
      valuesOfAll_eq_operands ps]

theorem valuesOfOption_eq_operands :
    ∀ o : Option Part, valuesOfOption o = (operandsOfOption o).filterMap valueId?
  | none => rfl
  | some p => by
    rw [valuesOfOption_some, operandsOfOption]
    exact values_eq_operands p

end

end Part

/-! ## Addresses -/

namespace Draft

variable {P : Part → Prop} {d d' : Draft} {p q : Part}

/-- Only operands of one kind are in. -/
structure Only (P : Part → Prop) (d : Draft) : Prop where
  base : Part.OnlyOption P d.base
  index : Part.OnlyOption P d.index
  displacements : ∀ p ∈ d.displacements, p.Only P

/-- A draft to which nothing was added has nothing in it. -/
theorem only_start : Draft.start.Only P :=
  ⟨Part.onlyOption_none, Part.onlyOption_none, fun _ h => by cases h⟩

/-- A displacement of the kind may be added. -/
theorem Only.displace (h : d.Only P) (hp : p.Only P) : (d.displace p).Only P := by
  refine ⟨h.base, h.index, fun q hq => ?_⟩
  rcases List.mem_append.1 hq with hq | hq
  · exact h.displacements q hq
  · rw [List.mem_singleton.1 hq]
    exact hp

/-- A base brings in what occurs in it, as a register or as a displacement, and nothing else is
added to the draft. -/
theorem Only.addBase (h : d.Only P) (hp : p.Only P) (hadd : d.addBase p = .ok d') :
    d'.Only P := by
  rw [Draft.addBase] at hadd
  split at hadd
  · cases hadd
    exact h.displace hp
  · split at hadd
    · cases hadd
      exact ⟨Part.onlyOption_some.2 hp, h.index, h.displacements⟩
    · cases hadd

/-- An index brings in what occurs in it. A number is multiplied by the scale, which leaves it a
number; of an address the components are taken over. -/
theorem Only.addIndex {scale : Nat} (h : d.Only P) (hp : p.Only P)
    (hadd : d.addIndex scale p = .ok d') : d'.Only P := by
  unfold Draft.addIndex at hadd
  split at hadd
  · -- An index that became a memory operand: its own index takes the place.
    split at hadd
    · split at hadd
      · cases hadd
        exact ⟨h.base, (Part.only_memory.1 hp).2.1, h.displacements⟩
      · cases hadd
    · cases hadd
  · -- A number is scaled here and now.
    cases hadd
    exact h.displace (Part.only_of_isConstant rfl)
  · split at hadd
    · cases hadd
      exact h.displace hp
    · split at hadd
      · cases hadd
        exact ⟨h.base, Part.onlyOption_some.2 hp, h.displacements⟩
      · cases hadd

/-- An offset brings in what occurs in it. -/
theorem Only.addOffset (h : d.Only P) (hp : p.Only P) (hadd : d.addOffset p = .ok d') :
    d'.Only P := by
  rw [Draft.addOffset] at hadd
  split at hadd
  · cases hadd
    exact h.displace hp
  · cases hadd

/-- Displacements are added up to a number, or there is only one. Of a number nothing is asked,
because it is no operand of a kind. -/
theorem Only.offset {o : Option Part} (h : d.Only P) (hoffset : d.offset = .ok o) :
    Part.OnlyOption P o := by
  unfold Draft.offset at hoffset
  split at hoffset
  · cases hoffset
    exact Part.onlyOption_none
  · rename_i first rest hdisplacements
    have hfirst : first.Only P :=
      h.displacements first (by rw [hdisplacements]; exact List.mem_cons_self)
    -- Adding up fails unless both are numbers, so a sum is a number.
    cases hsum : rest.foldlM addDisplacement first with
    | error fault =>
      rw [hsum] at hoffset
      cases hoffset
    | ok sum =>
      rw [hsum] at hoffset
      cases hoffset
      refine Part.onlyOption_some.2 (foldlM_keeps (fun q : Part => q.Only P) ?_ hfirst hsum)
      intro q q' a _ _ hstep
      unfold addDisplacement at hstep
      split at hstep
      · cases hstep
        exact Part.only_of_isConstant rfl
      · cases hstep

/-- What a draft becomes has in it what the draft had. -/
theorem Only.finish (h : d.Only P) (hfinish : d.finish = .ok q) : q.Only P := by
  rw [Draft.finish, bind_eq_ok] at hfinish
  obtain ⟨o, ho, hfinish⟩ := hfinish
  split at hfinish
  · cases hfinish
  · cases hfinish
    exact Part.only_memory.2 ⟨h.base, h.index, h.offset ho⟩

/-- A component that stands alone is adopted with what occurs in it, as it is or as the one
component of an address. -/
theorem only_ofLoneBase (hp : p.Only P) (h : ofLoneBase p = .ok q) : q.Only P := by
  unfold ofLoneBase at h
  split at h
  · cases h
    exact hp
  · split at h
    · cases h
      exact Part.only_memory.2
        ⟨Part.onlyOption_none, Part.onlyOption_none, Part.onlyOption_some.2 hp⟩
    · split at h
      · cases h
        exact Part.only_memory.2
          ⟨Part.onlyOption_some.2 hp, Part.onlyOption_none, Part.onlyOption_none⟩
      · cases h

end Draft

/-! ## Templates -/

/-- A test of references: of the path, the half and the width. -/
abbrev ReferenceTest := List String → Option Half → Option ValueType → Bool

namespace Part

mutual

/-- Whether no operand occurs in a template yet, and its references pass a test. -/
def refersBy (test : ReferenceTest) : Part → Bool
  | .instruction _ _ ps => refersByAll test ps
  | .memory ⟨base, index, _, offset⟩ =>
    refersByOption test base && refersByOption test index && refersByOption test offset
  | .reference path half ty => test path half ty
  | .value .. | .temp .. => false
  | .label _ | .register _ | .imm .. | .symbol _ => true

/-- The same for several parts. -/
def refersByAll (test : ReferenceTest) : List Part → Bool
  | [] => true
  | p :: ps => refersBy test p && refersByAll test ps

/-- The same for a part that may be absent. -/
def refersByOption (test : ReferenceTest) : Option Part → Bool
  | none => true
  | some p => refersBy test p

end

end Part

namespace Filling

variable {f : Filling} {P : Part → Prop} {test : ReferenceTest} {t t' : Temporaries}

/-- What a path may stand for, temporaries of the template included. -/
def MayBe (f : Filling) (path : List String) (r : Part) : Prop :=
  f.StandsFor path r
    ∨ ∃ name k, TempName.parse? (Part.pathHead path) = some name
        ∧ r = .temp k (f.tempType name) none

/-- Whatever a reference becomes, only operands of one kind occur in it. -/
def Suits (f : Filling) (P : Part → Prop) (path : List String) (half : Option Half)
    (ty : Option ValueType) : Prop :=
  ∀ r q, f.MayBe path r → halved half r = .ok q → (retyped ty q).Only P

/-- Every temporary has the width that its name asks for. -/
def Keeps (f : Filling) (t : Temporaries) : Prop :=
  ∀ key p, (key, p) ∈ t.named →
    ∃ name k, TempName.parse? key = some name ∧ p = .temp k (f.tempType name) none

/-- A temporary is given the width that its name asks for, and keeps it: whenever the name is looked
up again, the same width is asked for. -/
theorem Keeps.temporary (ht : f.Keeps t) {key : String} {name : TempName} {p : Part}
    (hname : TempName.parse? key = some name)
    (h : (Subst.temporary key (f.tempType name)).run.run t = (.ok p, t')) :
    f.Keeps t' ∧ ∃ k, p = .temp k (f.tempType name) none := by
  cases hget : Keyed.get? key t.named with
  | some q =>
    -- The template named it before, and its name has one width.
    cases (Subst.run_temporary_of_held _ hget).symm.trans h
    obtain ⟨name', k, hname', rfl⟩ := ht key p (Keyed.mem_of_get? hget)
    rw [hname, Option.some.injEq] at hname'
    exact ⟨ht, k, hname' ▸ rfl⟩
  | none =>
    cases (Subst.run_temporary_of_fresh _ hget).symm.trans h
    refine ⟨fun key' q hq => ?_, _, rfl⟩
    rcases Keyed.eq_or_mem_of_mem_insert hq with heq | hq
    · cases heq
      exact ⟨name, _, hname, rfl⟩
    · exact ht key' q hq

/-- Whatever a path comes to is something that it may stand for, and the temporaries still have
their widths: a new one has the width that its name asks for. -/
theorem Keeps.target (ht : f.Keeps t) {path : List String} {r : Part}
    (h : (f.target path).run.run t = (.ok r, t')) : f.Keeps t' ∧ f.MayBe path r := by
  unfold Filling.target at h
  dsimp only at h
  split at h
  · rename_i name hname
    split at h
    · exact absurd (Subst.run_check.1 h).1 (by simp)
    · obtain ⟨ht', k, rfl⟩ := ht.temporary hname h
      exact ⟨ht', .inr ⟨name, k, hname, rfl⟩⟩
  · obtain ⟨hr, rfl⟩ := Subst.run_check.1 h
    exact ⟨ht, .inl hr⟩

/-- A component that is there is added; an absent one changes nothing. How it is added is left open,
as there are three ways to do so. -/
theorem only_addComponent {add : Draft → Part → Except SubstFault Draft} {d d' : Draft}
    {o : Option Part} (hd : d.Only P) (ho : Part.OnlyOption P o)
    (hadd : ∀ p d', p.Only P → add d p = .ok d' → d'.Only P)
    (h : (addComponent add d o).run.run t = (.ok d', t')) : t' = t ∧ d'.Only P := by
  cases o with
  | none =>
    obtain ⟨rfl, rfl⟩ := Subst.run_pure.1 h
    exact ⟨rfl, hd⟩
  | some p =>
    obtain ⟨hp, rfl⟩ := Subst.run_check.1 h
    exact ⟨rfl, hadd p d' (Part.onlyOption_some.1 ho) hp⟩

/-- References that pass the test become what suits. -/
def Trusts (f : Filling) (P : Part → Prop) (test : ReferenceTest) : Prop :=
  ∀ path half ty, test path half ty = true → f.Suits P path half ty

mutual

/-- **Only what its references become occurs in a filled template.** The template itself brings in
no operand, which is part of the test on its references. -/
theorem only_fill (htest : f.Trusts P test) : ∀ (p : Part) (t t' : Temporaries) (q : Part),
    p.refersBy test = true → f.Keeps t → (fill f p).run.run t = (.ok q, t') → f.Keeps t' ∧ q.Only P
  | .instruction mnemonic condition ps, t, t', q, hp, ht, h => by
    rw [fill, Subst.run_bind] at h
    obtain ⟨qs, t₁, hqs, h⟩ := h
    obtain ⟨rfl, rfl⟩ := Subst.run_pure.1 h
    rw [Part.refersBy] at hp
    obtain ⟨ht', hall⟩ := only_fillAll htest ps t t' qs hp ht hqs
    exact ⟨ht', Part.only_instruction.2 hall⟩
  | .memory ⟨base, index, scale, offset⟩, t, t', q, hp, ht, h => by
    rw [Part.refersBy, Bool.and_eq_true, Bool.and_eq_true] at hp
    obtain ⟨⟨hbase, hindex⟩, hoffset⟩ := hp
    rw [fill, Subst.run_bind] at h
    obtain ⟨base', t₁, hb, h⟩ := h
    obtain ⟨ht₁, hbase'⟩ := only_fillOption htest base t t₁ base' hbase ht hb
    split at h
    · -- A base alone: what it became takes its place.
      obtain ⟨hlone, rfl⟩ := Subst.run_check.1 h
      exact ⟨ht₁, Draft.only_ofLoneBase (Part.onlyOption_some.1 hbase') hlone⟩
    · -- Each component is filled and then added, so the two properties go on alternately.
      obtain ⟨d₁, t₂, hd₁, h⟩ := Subst.run_bind.1 h
      obtain ⟨i, t₃, hi, h⟩ := Subst.run_bind.1 h
      obtain ⟨d₂, t₄, hd₂, h⟩ := Subst.run_bind.1 h
      obtain ⟨o, t₅, ho, h⟩ := Subst.run_bind.1 h
      obtain ⟨d₃, t₆, hd₃, h⟩ := Subst.run_bind.1 h
      obtain ⟨hfinish, rfl⟩ := Subst.run_check.1 h
      obtain ⟨rfl, honly₁⟩ := only_addComponent Draft.only_start hbase'
        (fun p d' => Draft.only_start.addBase) hd₁
      obtain ⟨ht₃, hindex'⟩ := only_fillOption htest index _ t₃ i hindex ht₁ hi
      obtain ⟨rfl, honly₂⟩ := only_addComponent honly₁ hindex' (fun p d' => honly₁.addIndex) hd₂
      obtain ⟨ht₅, hoffset'⟩ := only_fillOption htest offset _ t₅ o hoffset ht₃ ho
      obtain ⟨rfl, honly₃⟩ := only_addComponent honly₂ hoffset' (fun p d' => honly₂.addOffset) hd₃
      exact ⟨ht₅, honly₃.finish hfinish⟩
  | .reference path half ty, t, t', q, hp, ht, h => by
    rw [fill, Subst.run_bind] at h
    obtain ⟨r, t₁, hr, h⟩ := h
    obtain ⟨ht₁, hmay⟩ := ht.target hr
    obtain ⟨r', t₂, hr', hret⟩ := Subst.run_bind.1 h
    obtain ⟨hhalf, rfl⟩ := Subst.run_check.1 hr'
    obtain ⟨rfl, rfl⟩ := Subst.run_pure.1 hret
    exact ⟨ht₁, htest path half ty hp r r' hmay hhalf⟩
  | .value .., _, _, _, hp, _, _ | .temp .., _, _, _, hp, _, _ => by cases hp
  | .label _, t, t', q, hp, ht, h | .register _, t, t', q, hp, ht, h
  | .imm .., t, t', q, hp, ht, h | .symbol _, t, t', q, hp, ht, h => by
    rw [fill] at h
    · obtain ⟨rfl, rfl⟩ := Subst.run_pure.1 h
      exact ⟨ht, Part.only_of_operands_eq_nil rfl⟩
    -- What is left is that `fill` does not treat these parts in an earlier case.
    all_goals
      intros
      contradiction

/-- Several parts are filled in from the first to the last, with operands of the kind only. -/
theorem only_fillAll (htest : f.Trusts P test) : ∀ (ps : List Part) (t t' : Temporaries)
    (qs : List Part), Part.refersByAll test ps = true → f.Keeps t →
    (fillAll f ps).run.run t = (.ok qs, t') →
    f.Keeps t' ∧ ∀ q ∈ qs, q.Only P
  | [], t, t', qs, hp, ht, h => by
    rw [fillAll, Subst.run_pure] at h
    obtain ⟨rfl, rfl⟩ := h
    exact ⟨ht, fun q hq => by cases hq⟩
  | p :: ps, t, t', qs, hp, ht, h => by
    rw [Part.refersByAll, Bool.and_eq_true] at hp
    rw [fillAll, Subst.run_bind] at h
    obtain ⟨q, t₁, hq, h⟩ := h
    obtain ⟨qs', t₂, hqs, h⟩ := Subst.run_bind.1 h
    obtain ⟨rfl, rfl⟩ := Subst.run_pure.1 h
    obtain ⟨ht₁, hfirst⟩ := only_fill htest p t t₁ q hp.1 ht hq
    obtain ⟨ht₂, hrest⟩ := only_fillAll htest ps t₁ t' qs' hp.2 ht₁ hqs
    exact ⟨ht₂, List.forall_mem_cons.2 ⟨hfirst, hrest⟩⟩

/-- A component that may be absent is filled in with operands of the kind only, or stays absent. -/
theorem only_fillOption (htest : f.Trusts P test) : ∀ (o : Option Part) (t t' : Temporaries)
    (o' : Option Part), Part.refersByOption test o = true → f.Keeps t →
    (fillOption f o).run.run t = (.ok o', t') →
    f.Keeps t' ∧ Part.OnlyOption P o'
  | none, t, t', o', hp, ht, h => by
    rw [fillOption, Subst.run_pure] at h
    obtain ⟨rfl, rfl⟩ := h
    exact ⟨ht, Part.onlyOption_none⟩
  | some p, t, t', o', hp, ht, h => by
    rw [fillOption, Subst.run_bind] at h
    obtain ⟨q, t₁, hq, h⟩ := h
    obtain ⟨rfl, rfl⟩ := Subst.run_pure.1 h
    rw [Part.refersByOption] at hp
    obtain ⟨ht', honly⟩ := only_fill htest p t t' q hp ht hq
    exact ⟨ht', Part.onlyOption_some.2 honly⟩

end

end Filling

/-! ## Names and choices -/

/-- Only operands of one kind occur in what an instantiation emits, and in what any path of names
inside it stands for. -/
structure Instantiation.MadeOf (P : Part → Prop) (b : Block) (i : Instantiation) : Prop where
  parts : ∀ p ∈ i.parts, p.Only P
  names : ∀ path r, Filling.StandsFor ⟨b, i.record, i.chosen⟩ path r → r.Only P

namespace Filling

variable {P : Part → Prop} {b : Block} {m : Match} {chosen : List (String × Instantiation)}

/-- A captured node is written as its value, or as a number or symbol; only in the first case does
an operand occur. -/
theorem only_captured {ident : String} {k : NodeId} {r : Part}
    (hvalue : ∀ p, valueOf b k = .ok p → p.Only P) (h : captured b m ident k = .ok r) :
    r.Only P := by
  unfold captured at h
  split at h
  · unfold constantOf at h
    split at h
    · split at h
      · cases h
        exact Part.only_of_isConstant rfl
      · cases h
        exact Part.only_of_isConstant rfl
      · exact hvalue r h
    · exact hvalue r h
  · exact hvalue r h

/-- What a path stands for depends on what its first name is: the root, a captured node, or a group.
In the last case it is a matter of the choice that was made for the group. -/
theorem only_of_standsFor {head : String} {rest : List String} {r : Part}
    (hout : head = "out" → ∀ p, valueOf b m.root = .ok p → p.Only P)
    (hbound : head ≠ "out" → ∀ k, (head, k) ∈ m.bindings → ∀ p, valueOf b k = .ok p → p.Only P)
    (hchosen : head ≠ "out" → ∀ sub, (head, sub) ∈ chosen → sub.MadeOf P b)
    (h : StandsFor ⟨b, m, chosen⟩ (head :: rest) r) : r.Only P := by
  rcases h.inv with ⟨hhead, -, hvalue⟩ | ⟨hne, ⟨k, hk, -, hfound⟩ | ⟨sub, hsub, hcase⟩⟩
  · exact hout hhead r hvalue
  · exact only_captured (hbound hne k (Keyed.mem_of_get? hk)) hfound
  · have hmade := hchosen hne sub (Keyed.mem_of_get? hsub)
    rcases hcase with ⟨-, hparts⟩ | ⟨-, hrest⟩
    · exact hmade.parts r (by simp [hparts])
    · exact hmade.names rest r hrest

end Filling

/-! ## Plain patterns -/

/-- Whether a reference takes neither a half nor a width, and is not to a temporary. -/
def isPlainReference : ReferenceTest := fun path half ty =>
  half.isNone && ty.isNone && (TempName.parse? (Part.pathHead path)).isNone

/-- Whether all groups that a pattern includes are among these. -/
def Pattern.includesOnly (groups : List String) (p : Pattern) : Bool :=
  p.root.subshapes.all fun s =>
    match s with
    | .inclusion _ g => groups.contains g
    | _ => true

/-- Whether the template writes whole what it refers to. -/
def Pattern.isPlain (p : Pattern) : Bool := Part.refersByAll isPlainReference p.template

/-- For these groups, at nodes of one kind, only operands of one kind are made. -/
def Inclusion.MakesOnly (P : Part → Prop) (C : NodeId → Prop) (groups : List String) (b : Block)
    (inc : Inclusion) : Prop :=
  ∀ g ∈ groups, ∀ k ms, inc g k = .ok ms → C k → ∀ m ∈ ms, ∀ i, m.Instantiates b i → i.MadeOf P b

/-- Wherever the pattern lies with its top on a node of one kind, all that it names are nodes of
that kind. -/
def Pattern.HandsOn (b : Block) (C : NodeId → Prop) (p : Pattern) : Prop :=
  ∀ inc id m e, Shape.Placed b inc p.root id (.start p id) m e → C id →
    ∀ pos s name, p.root.at? pos = some s → s.ident? = some name → C (e pos)

section Made

variable {P : Part → Prop} {C : NodeId → Prop} {groups : List String} {b : Block}
  {inc : Inclusion} {id : NodeId} {p : Pattern} {m : Match} {i : Instantiation}

/-- A group at some position of a pattern is one of those that the pattern includes. -/
theorem Pattern.mem_groups (h : p.includesOnly groups = true) {pos : Shape.Position}
    {ident g : String} (hpos : p.root.at? pos = some (.inclusion ident g)) : g ∈ groups :=
  List.contains_iff_mem.1 (List.all_eq_true.1 h _ (Shape.mem_subshapes_of_at? hpos))

/-- A plain pattern makes only the operands that its names stand for: it takes no halves, states no
widths and has no temporaries. -/
theorem Match.Instantiates.madeOf (hinc : inc.MakesOnly P C groups b) (hnd : p.root.idents.Nodup)
    (hvalue : ∀ k p, C k → Filling.valueOf b k = .ok p → p.Only P)
    (hgroups : p.includesOnly groups = true) (hplain : p.isPlain = true) (hands : p.HandsOn b C)
    (hid : C id) (hm : p.matchWith b inc id = .ok (some m)) (hi : m.Instantiates b i) :
    i.MadeOf P b := by
  obtain ⟨e, he⟩ := Pattern.matchWith_placed hm hnd
  obtain ⟨rfl, hroot⟩ := Pattern.matchWith_head hm
  cases hi with
  | @intro _ chosen parts allocated after chooses filled =>
    have hnames : ∀ path r, Filling.StandsFor ⟨b, m, chosen⟩ path r → r.Only P := by
      intro path r hr
      cases path with
      | nil => cases hr
      | cons head rest =>
        refine Filling.only_of_standsFor (fun _ q => hvalue _ q (hroot ▸ hid))
          (fun _ k hk q => ?_) (fun _ sub hsub => ?_) hr
        · obtain ⟨pos, s, hpos, hs, rfl⟩ := he.bindings.1 hk
          exact hvalue _ q (hands _ _ _ _ he hid pos s head hpos (Shape.ident?_eq_some.2 (.inl hs)))
        · obtain ⟨pos, g, ms, hpos, hfound, m', hm', hinst⟩ := he.position_of_choice chooses hsub
          exact hinc g (Pattern.mem_groups hgroups hpos) _ ms hfound
            (hands _ _ _ _ he hid pos _ head hpos rfl) m' hm' sub hinst
    refine ⟨?_, hnames⟩
    -- A plain reference becomes what its path stands for, and that is known already.
    refine (Filling.only_fillAll (fun path half ty htest r q hmay hhalf => ?_) _ _ _ _ hplain
      (fun _ _ h => absurd h List.not_mem_nil) filled).2
    simp only [isPlainReference, Bool.and_eq_true, Option.isNone_iff_eq_none] at htest
    obtain ⟨⟨rfl, rfl⟩, htemp⟩ := htest
    cases hhalf
    rcases hmay with hr | ⟨name, k, hname, -⟩
    · exact hnames path r hr
    · rw [htemp] at hname
      cases hname

/-- **However deep plain groups are nested, only such operands are made.** The induction is on the
depth, and a pattern hands its node on to the groups that it includes. -/
theorem Tables.makesOnly_alternatives {t : Tables} (ht : t.Distinct)
    (hvalue : ∀ k p, C k → Filling.valueOf b k = .ok p → p.Only P)
    (hgroups : ∀ g ∈ groups, ∀ q ∈ t.group g, q.includesOnly groups = true ∧ q.isPlain = true)
    (hands : ∀ g ∈ groups, ∀ q ∈ t.group g, q.HandsOn b C) (n : Nat) :
    (t.alternatives b n).MakesOnly P C groups b := by
  induction n with
  | zero =>
    intro g _ k ms h
    cases h
  | succ n ih =>
    intro g hg k ms h hk m hm i hi
    obtain ⟨q, hq, hqm⟩ := (mem_of_filterMapM h m).1 hm
    obtain ⟨hincludes, hplain⟩ := hgroups g hg q hq
    exact hi.madeOf ih (ht.of_mem_group hq) hvalue hincludes hplain (hands g hg q hq) hk hqm

end Made

end TileSelect
