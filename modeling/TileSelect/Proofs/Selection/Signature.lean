import TileSelect.Proofs.Expansion.Enumeration
import TileSelect.Proofs.Expansion.Explicit
import TileSelect.Proofs.Selection.Alone
/-!
Patterns that match whatever has the right widths.

Whether a pattern makes a tile depends in general on the block around a node. For some patterns the
operation and the widths of the node and its operands are enough: those whose arguments are values
or groups with an alternative that matches any value, and whose template makes sense whatever values
these are. `Pattern.serves` recognises such patterns, for a signature that may leave widths open,
and the main result is that it is right: at every node with the signature the pattern matches, and
its match has an instantiation that is a tile of the node alone.

The alternatives of a group matter only as far as one of them must be there. It is a fragment: any
value, written as it is or as the memory it points to. Each group of a match is given its fragment,
and then every name in the template stands for a part of known kind (`Filling.Knows`). A template in
which nothing but that is used can be filled in without temporaries.
-/

set_option autoImplicit false

namespace TileSelect

/-! ## Signatures -/

/-- The node yields a value of known width, which is the given one if one is given. -/
def Block.HasWidth (b : Block) (id : NodeId) (ty : Option ValueType) : Prop :=
  ∃ w, b.typeOf? id = some w ∧ ∀ t ∈ ty, w = t

/-- An operation with the widths of its result and of its operands, as far as they are stated. -/
structure Signature where
  op : Operation
  out : Option ValueType
  ins : List (Option ValueType)
deriving DecidableEq

/-- The node has the operation and the widths of the signature. -/
structure Signature.Fits (sig : Signature) (b : Block) (id : NodeId) (n : Node) : Prop where
  op : n.op = sig.op
  out : sig.op.isProducer = true → b.HasWidth id sig.out
  ins : List.Forall₂ (fun ty x => b.HasWidth x ty) sig.ins n.inputs

namespace Block

variable {b : Block} {id : NodeId} {ty : Option ValueType}

/-- Its value is an operand of the width, which is known. -/
theorem HasWidth.valueOf (h : b.HasWidth id ty) :
    ∃ v w, Filling.valueOf b id = .ok (.value v w none) ∧ ∀ t ∈ ty, w = t := by
  obtain ⟨w, hw, hty⟩ := h
  obtain ⟨v, hv⟩ := valueOf?_of_typeOf? hw
  exact ⟨v, w, by rw [Filling.valueOf, hv], hty⟩

/-- A node of known width is there and yields a value. A node that is not there has no width, and
neither has one without a value. -/
theorem HasWidth.producer (h : b.HasWidth id ty) :
    ∃ n, b.node? id = some n ∧ n.isProducer = true := by
  obtain ⟨w, hw, -⟩ := h
  rw [typeOf?] at hw
  split at hw
  · rename_i n hn
    obtain ⟨v, hv, -⟩ := Option.bind_eq_some_iff.1 hw
    exact ⟨n, hn, by rw [Node.isProducer, hv]; rfl⟩
  · cases hw

/-- A width that is asked for is there if it is the stated one. If none is asked for there is
nothing to check. -/
theorem HasWidth.hasType {wanted : Option ValueType} (h : b.HasWidth id ty)
    (hwanted : (wanted.isNone || wanted == ty) = true) : b.hasType id wanted = true := by
  obtain ⟨w, hw, hty⟩ := h
  cases wanted with
  | none => rfl
  | some t =>
    have ht : some t = ty := by simpa using hwanted
    simp only [Block.hasType, hw, hty t ht.symm, beq_self_eq_true]

end Block

/-! ## Kinds of parts -/

/-- What is known of the part that a name stands for. -/
inductive PartKind where
  /-- A whole value, of the given width if one is given. -/
  | value (ty : Option ValueType)
  /-- The memory that a value points to. -/
  | memory

namespace PartKind

/-- The part is of the kind. -/
def Admits : PartKind → Part → Prop
  | .value ty, p => ∃ v w, p = .value v w none ∧ ∀ t ∈ ty, w = t
  | .memory, p => ∃ v w, p = .memory (.ofBase (.value v w none))

def isValue : PartKind → Bool
  | .value _ => true
  | .memory => false

end PartKind

/-- Whether an operand of a template makes sense, given the kinds of what its names stand for. -/
def Part.isFillable (kind? : String → Option PartKind) : Part → Bool
  | .reference [name] none _ => (kind? name).isSome
  | .reference [name] (some _) _ =>
    match kind? name with
    | some (.value (some ty)) => ty.half.isSome
    | _ => false
  | .memory ⟨some (.reference [name] none none), none, _, none⟩ =>
    (kind? name).any PartKind.isValue
  | .memory ⟨some (.reference [name] none none), none, _, some (.imm ..)⟩ =>
    (kind? name).any PartKind.isValue
  | .register _ | .imm .. => true
  | _ => false

/-- Whether an item of a template is an instruction with such operands. -/
def Part.isExecutable (kind? : String → Option PartKind) : Part → Bool
  | .instruction _ _ operands => operands.all (isFillable kind?)
  | _ => false

namespace Filling

variable {f : Filling} {kind? : String → Option PartKind} {name : String} {r : Part}

/-- Every name with a kind stands for a part of that kind. -/
def Knows (f : Filling) (kind? : String → Option PartKind) : Prop :=
  ∀ name kind, kind? name = some kind →
    TempName.parse? name = none ∧ ∃ r, f.StandsFor [name] r ∧ kind.Admits r

/-- A name is filled in with what it stands for, or with a half of that, and no temporary is taken.
A width behind the name is imposed on the part. -/
theorem run_reference (htemp : TempName.parse? name = none) (hr : f.StandsFor [name] r)
    (half : Option Half) {q : Part} (hq : halved half r = .ok q) (ty : Option ValueType)
    (t : Temporaries) :
    (fill f (.reference [name] half ty)).run.run t = (.ok (retyped ty q), t) := by
  have htarget : (f.target [name]).run.run t = (.ok r, t) := by
    unfold target
    simp only [Part.pathHead, List.headD_cons, htemp]
    exact Subst.run_check.2 ⟨hr, rfl⟩
  rw [fill]
  exact Subst.run_bind.2 ⟨r, t, htarget, Subst.run_bind.2 ⟨q, t, Subst.run_check.2 ⟨hq, rfl⟩,
    Subst.run_pure.2 ⟨rfl, rfl⟩⟩⟩

/-- A name for a value in brackets is the memory that the value points to. Nothing needs to be put
together, since the base is the only component. -/
theorem run_loneBase {v : Nat} {w : ValueType} (htemp : TempName.parse? name = none)
    (hr : f.StandsFor [name] (.value v w none)) (scale : Nat) (t : Temporaries) :
    (fill f (.memory ⟨some (.reference [name] none none), none, scale, none⟩)).run.run t
      = (.ok (.memory (.ofBase (.value v w none))), t) := by
  have hbase := run_reference htemp hr none rfl none t
  rw [fill]
  refine Subst.run_bind.2 ⟨some (.value v w none), t, ?_, Subst.run_check.2 ⟨rfl, rfl⟩⟩
  rw [fillOption]
  exact Subst.run_bind.2 ⟨_, t, hbase, Subst.run_pure.2 ⟨rfl, rfl⟩⟩

/-- A name for a value in brackets with a number is the memory that far behind what the value points
to. Without an index the scale comes out as one, whatever is written. -/
theorem run_displaced {v : Nat} {w : ValueType} (htemp : TempName.parse? name = none)
    (hr : f.StandsFor [name] (.value v w none)) (scale : Nat) (value : Int64)
    (ty : Option ValueType) (t : Temporaries) :
    (fill f (.memory
        ⟨some (.reference [name] none none), none, scale, some (.imm value ty)⟩)).run.run t
      = (.ok (.memory ⟨some (.value v w none), none, 1, some (.imm value ty)⟩), t) := by
  have hbase := run_reference htemp hr none rfl none t
  rw [fill]
  -- The base is filled in first. There is no index, and the number stays as it is.
  refine Subst.run_bind.2 ⟨some (.value v w none), t, ?_, ?_⟩
  · rw [fillOption]
    exact Subst.run_bind.2 ⟨_, t, hbase, Subst.run_pure.2 ⟨rfl, rfl⟩⟩
  · rfl

/-- **An operand that makes sense is filled in, and takes no temporary.** There are only a few forms
of operands that make sense, and each of them is followed step by step. -/
theorem run_of_isFillable (hf : f.Knows kind?) {p : Part} (hp : p.isFillable kind? = true) :
    ∃ q, ∀ t, (fill f p).run.run t = (.ok q, t) := by
  unfold Part.isFillable at hp
  split at hp
  · rename_i name ty
    obtain ⟨kind, hkind⟩ := Option.isSome_iff_exists.1 hp
    obtain ⟨htemp, r, hr, -⟩ := hf name kind hkind
    exact ⟨_, run_reference htemp hr none rfl ty⟩
  · -- Only what has a stated width is cut in halves, because not every width has them.
    rename_i name half ty
    split at hp
    · rename_i w hkind
      obtain ⟨htemp, r, hr, v, w', rfl, hwidth⟩ := hf name _ hkind
      obtain rfl := hwidth w rfl
      obtain ⟨narrow, hnarrow⟩ := Option.isSome_iff_exists.1 hp
      have hhalf : halved (some half) (.value v w' none) = .ok (.value v narrow (some half)) := by
        simp only [halved, Part.slice?, hnarrow, Option.map_some]
      exact ⟨_, run_reference htemp hr _ hhalf ty⟩
    · cases hp
  · rename_i name scale
    obtain ⟨kind, hkind, hvalue⟩ := (Option.any_eq_true _ _).1 hp
    obtain ⟨htemp, r, hr, hadmits⟩ := hf name kind hkind
    cases kind with
    | memory => cases hvalue
    | value w =>
      obtain ⟨v, w', rfl, -⟩ := hadmits
      exact ⟨_, run_loneBase htemp hr scale⟩
  · rename_i name scale value ty
    obtain ⟨kind, hkind, hvalue⟩ := (Option.any_eq_true _ _).1 hp
    obtain ⟨htemp, r, hr, hadmits⟩ := hf name kind hkind
    cases kind with
    | memory => cases hvalue
    | value w =>
      obtain ⟨v, w', rfl, -⟩ := hadmits
      exact ⟨_, run_displaced htemp hr scale value ty⟩
  · exact ⟨_, fun t => by simp only [fill]; exact Subst.run_pure.2 ⟨rfl, rfl⟩⟩
  · exact ⟨_, fun t => by simp only [fill]; exact Subst.run_pure.2 ⟨rfl, rfl⟩⟩
  · cases hp

/-- Several operands are filled in from left to right, none of them taking a temporary, so that the
parts do not depend on the counter. -/
theorem run_operands (hf : f.Knows kind?) {ps : List Part}
    (hps : ps.all (Part.isFillable kind?) = true) :
    ∃ qs, ∀ t, (fillAll f ps).run.run t = (.ok qs, t) := by
  induction ps with
  | nil => exact ⟨[], fun t => by rw [fillAll]; exact Subst.run_pure.2 ⟨rfl, rfl⟩⟩
  | cons p ps ih =>
    rw [List.all_cons, Bool.and_eq_true] at hps
    obtain ⟨q, hq⟩ := run_of_isFillable hf hps.1
    obtain ⟨qs, hqs⟩ := ih hps.2
    refine ⟨q :: qs, fun t => ?_⟩
    rw [fillAll]
    exact Subst.run_bind.2 ⟨q, t, hq t,
      Subst.run_bind.2 ⟨qs, t, hqs t, Subst.run_pure.2 ⟨rfl, rfl⟩⟩⟩

/-- **A template of such instructions is filled in with instructions.** No temporary is taken, so
what is filled in is the same in every session, and it can stand alone. -/
theorem run_template (hf : f.Knows kind?) {ps : List Part}
    (hps : ps.all (Part.isExecutable kind?) = true) :
    ∃ qs, (∀ t, (fillAll f ps).run.run t = (.ok qs, t)) ∧ ∀ q ∈ qs, q.isStandalone = true := by
  induction ps with
  | nil => exact ⟨[], fun t => by rw [fillAll]; exact Subst.run_pure.2 ⟨rfl, rfl⟩, by simp⟩
  | cons p ps ih =>
    rw [List.all_cons, Bool.and_eq_true] at hps
    obtain ⟨qs, hqs, hall⟩ := ih hps.2
    -- Only an instruction passes the check.
    cases p with
    | instruction mnemonic condition operands =>
      obtain ⟨os, hos⟩ := run_operands hf hps.1
      refine ⟨.instruction mnemonic condition os :: qs, fun t => ?_, ?_⟩
      · rw [fillAll, fill]
        exact Subst.run_bind.2 ⟨_, t, Subst.run_bind.2 ⟨os, t, hos t, Subst.run_pure.2 ⟨rfl, rfl⟩⟩,
          Subst.run_bind.2 ⟨qs, t, hqs t, Subst.run_pure.2 ⟨rfl, rfl⟩⟩⟩
      · intro q hq
        rcases List.mem_cons.1 hq with rfl | hq
        · rfl
        · exact hall q hq
    | label | memory | reference | register | value | temp | imm | symbol => cases hps.1

end Filling

/-! ## Choosing an instantiation for every group -/

namespace Match

variable {b : Block} {P : Instantiation → Prop}

/-- What one of several matches has an instantiation for, they all have one for together. The
matches before it leave another session behind, which is why it has to have one from every session.
-/
theorem exists_mem_instantiationsOfAll {m : Match} {ms : List Match} (hm : m ∈ ms)
    (h : ∀ s, ∃ i ∈ (instantiations b m s).1, P i) (s : Session) :
    ∃ i ∈ (instantiationsOfAll b ms s).1, P i := by
  induction ms generalizing s with
  | nil => cases hm
  | cons m' ms ih =>
    rw [instantiationsOfAll]
    rcases List.mem_cons.1 hm with rfl | hm
    · obtain ⟨i, hi, hP⟩ := h s
      exact ⟨i, List.mem_append_left _ hi, hP⟩
    · obtain ⟨i, hi, hP⟩ := ih hm (instantiations b m' s).2
      exact ⟨i, List.mem_append_right _ hi, hP⟩

/-- If every group has an alternative with an instantiation of some sort, whatever was allocated
before, then there is a combination of such instantiations. The groups are gone through one after
the other, the later ones from a higher count. -/
theorem exists_picks_optionsOf {Q : String → Instantiation → Prop}
    {subs : List (String × List Match)}
    (h : ∀ sub ∈ subs, ∃ m ∈ sub.2, ∀ s, ∃ i ∈ (instantiations b m s).1, Q sub.1 i)
    (s : Session) :
    ∃ chosen, Flow.Picks (optionsOf b subs s).1 chosen ∧ ∀ c ∈ chosen, Q c.1 c.2 := by
  -- The induction is on the inclusions: one is chosen from each, in the session that those before
  -- it have left.
  induction subs generalizing s with
  | nil => exact ⟨[], .nil, by simp⟩
  | cons sub subs ih =>
    obtain ⟨ident, alternatives⟩ := sub
    obtain ⟨m, hm, hinst⟩ := h _ List.mem_cons_self
    obtain ⟨i, hi, hQ⟩ := exists_mem_instantiationsOfAll hm hinst s
    obtain ⟨chosen, hpicks, hall⟩ := ih (fun sub hsub => h sub (List.mem_cons_of_mem _ hsub))
      (instantiationsOfAll b alternatives s).2
    refine ⟨(ident, i) :: chosen, ?_, fun c hc => ?_⟩
    · rw [optionsOf]
      exact .cons ⟨rfl, hi⟩ hpicks
    · rcases List.mem_cons.1 hc with rfl | hc
      · exact hQ
      · exact hall c hc

/-- A combination for which the template is filled in is an instantiation. It covers and reads what
the record does and what its choices do. -/
theorem exists_mem_instantiations {m : Match} {s : Session} {chosen : List (String × Instantiation)}
    {parts : List Part} (hpicks : Flow.Picks (optionsOf b m.submatches s).1 chosen)
    (hfill : ∀ t, (Filling.fillAll ⟨b, m, chosen⟩ m.pattern.template).run.run t = (.ok parts, t)) :
    ∃ i ∈ (instantiations b m s).1, i.parts = parts ∧ i.covered = m.coveredWith chosen
      ∧ i.inputs = (m.readWith chosen).diff (m.coveredWith chosen) := by
  have hfits : m.fits b chosen = true := by
    rw [fits, instantiate, hfill]
    rfl
  -- What is found is all combinations that fit, in order; so this one is there.
  have hmem : chosen ∈ (instantiations b m s).1.map Instantiation.chosen := by
    rw [instantiations_eq, chosen_fillEach, List.mem_filter]
    exact ⟨Flow.mem_product.2 hpicks, hfits⟩
  obtain ⟨i, hi, rfl⟩ := List.mem_map.1 hmem
  refine ⟨i, hi, ?_⟩
  cases instantiates_of_mem m s i hi with
  | intro allocated after chooses filled =>
    rw [hfill] at filled
    cases filled
    exact ⟨rfl, rfl, rfl⟩

end Match

/-! ## Fragments -/

/-- What any value is written as by an alternative of a group, as far as the alternative matches any
value and writes it as it is or as the memory it points to. -/
def Pattern.fragment? (p : Pattern) (ty : Option ValueType) : Option PartKind :=
  match p.root, p.template with
  | .producer (some name) none, [.reference [name'] none none] =>
    if name = name' ∧ isReserved name = false then some (.value ty) else none
  | .producer (some name) none, [.memory ⟨some (.reference [name'] none none), none, _, none⟩] =>
    if name = name' ∧ isReserved name = false then some .memory else none
  | _, _ => none

namespace Pattern

variable {b : Block} {inc : Inclusion} {p : Pattern} {id : NodeId} {ty : Option ValueType}
  {kind : PartKind}

/-- The match of a pattern that matches any value. -/
theorem matchWith_producer {name : String} (hroot : p.root = .producer (some name) none)
    (hid : b.HasWidth id ty) : p.matchWith b inc id
      = .ok (some (((Match.start p id).bind (some name) id).read id)) := by
  obtain ⟨n, hn, hproducer⟩ := hid.producer
  rw [matchWith, hroot, Shape.attempt, Block.node_eq_ok.2 hn, ok_bind, hproducer]
  rfl

/-- The template of a fragment, filled in where the name stands for a value. There are two forms of
fragments: the value itself, and memory at it. -/
theorem run_of_fragment? (h : p.fragment? ty = some kind) :
    ∃ name, p.root = .producer (some name) none ∧ isReserved name = false
      ∧ ∀ (f : Filling) (v : Nat) (w : ValueType), f.StandsFor [name] (.value v w none) →
          (∀ t ∈ ty, w = t) →
          ∃ r, kind.Admits r ∧ ∀ t, (Filling.fillAll f p.template).run.run t = (.ok [r], t) := by
  -- A template of one part is filled in with one part.
  have hsingle : ∀ (f : Filling) (part r : Part) (t : Temporaries),
      (Filling.fill f part).run.run t = (.ok r, t) →
      (Filling.fillAll f [part]).run.run t = (.ok [r], t) := by
    intro f part r t hr
    rw [Filling.fillAll, Filling.fillAll]
    exact Subst.run_bind.2 ⟨r, t, hr, Subst.run_bind.2 ⟨[], t, Subst.run_pure.2 ⟨rfl, rfl⟩,
      Subst.run_pure.2 ⟨rfl, rfl⟩⟩⟩
  unfold fragment? at h
  split at h
  · rename_i name name' hroot htemplate
    split at h
    · rename_i hname
      obtain ⟨rfl, hname⟩ := hname
      cases h
      have htemp := parse?_of_not_isReserved hname
      refine ⟨name, hroot, hname,
        fun f v w hf hw => ⟨.value v w none, ⟨v, w, rfl, hw⟩, fun t => ?_⟩⟩
      rw [htemplate]
      exact hsingle f _ _ t (Filling.run_reference htemp hf none rfl none t)
    · cases h
  · rename_i name name' scale hroot htemplate
    split at h
    · rename_i hname
      obtain ⟨rfl, hname⟩ := hname
      cases h
      have htemp := parse?_of_not_isReserved hname
      refine ⟨name, hroot, hname, fun f v w hf hw =>
        ⟨.memory (.ofBase (.value v w none)), ⟨v, w, rfl⟩, fun t => ?_⟩⟩
      rw [htemplate]
      exact hsingle f _ _ t (Filling.run_loneBase htemp hf scale t)
    · cases h
  · cases h

/-- **A fragment writes a value as it says**, and covers nothing. It matches every node of the
width, and what it reads is that node. -/
theorem exists_instantiation_of_fragment? (h : p.fragment? ty = some kind)
    (hid : b.HasWidth id ty) : ∃ m, p.matchWith b inc id = .ok (some m)
      ∧ ∀ s, ∃ i ∈ (Match.instantiations b m s).1, (∃ r, i.parts = [r] ∧ kind.Admits r)
          ∧ (∀ x, ¬ x ∈ i.covered) ∧ ∀ x ∈ i.inputs, x = id := by
  obtain ⟨name, hroot, hname, hrun⟩ := run_of_fragment? h
  obtain ⟨v, w, hvalue, hw⟩ := hid.valueOf
  refine ⟨_, matchWith_producer hroot hid, fun s => ?_⟩
  -- The one name of the fragment stands for the value of the node.
  have hstands : Filling.StandsFor
      ⟨b, ((Match.start p id).bind (some name) id).read id, []⟩ [name] (.value v w none) := by
    obtain ⟨hout, htemp⟩ := isReserved_eq_false hname
    have hlookup : p.lookup? name = some (.producer (some name) none) := by
      rw [lookup?, hroot]
      simp [Shape.subshapes, Shape.ident?]
    unfold Filling.StandsFor
    rw [Filling.resolve, if_neg hout, if_neg htemp]
    simp only [Match.start, Match.bind, Match.read, Keyed.has, Keyed.get?, Keyed.insert,
      Option.isSome_none, Bool.false_eq_true, if_false, if_true, Filling.ending,
      Filling.captured, hlookup]
    exact hvalue
  obtain ⟨r, hr, hfill⟩ := hrun _ v w hstands hw
  obtain ⟨i, hi, hparts, hcovered, hinputs⟩ := Match.exists_mem_instantiations
    (s := s) (m := ((Match.start p id).bind (some name) id).read id) .nil hfill
  refine ⟨i, hi, ⟨r, hparts, hr⟩, fun x hx => ?_, fun x hx => ?_⟩
  · rw [hcovered] at hx
    exact NodeSet.not_mem_empty x hx
  · rw [hinputs] at hx
    have hread := (NodeSet.mem_insert.1 (NodeSet.mem_diff.1 hx).1)
    exact hread.resolve_right (NodeSet.not_mem_empty x)

end Pattern

/-! ## Arguments -/

namespace Shape

/-- The name that an argument introduces and the kind of what it stands for, if the argument matches
every operand of the given width. -/
def operandKind? (t : Tables) (known : Option ValueType) : Shape → Option (String × PartKind)
  | .producer (some name) ty =>
    if ty.isNone || ty == known then some (name, .value known) else none
  | .inclusion name group => ((t.group group).findSome? (·.fragment? known)).map (name, ·)
  | _ => none

variable {t : Tables} {b : Block} {known : Option ValueType} {s : Shape} {x : NodeId}
  {entry : String × PartKind}

/-- The argument is a value of any width or of the right one, or an inclusion of a group with a
fragment. Nothing else counts as an operand here. -/
theorem operandKind?_cases (h : s.operandKind? t known = some entry) :
    (∃ ty, s = .producer (some entry.1) ty ∧ (ty.isNone || ty == known) = true
        ∧ entry.2 = .value known)
      ∨ ∃ g q, s = .inclusion entry.1 g ∧ q ∈ t.group g ∧ q.fragment? known = some entry.2 := by
  -- The kind is read off the shape; an inclusion has that of the first fragment in its group.
  unfold operandKind? at h
  split at h
  · rename_i name ty
    split at h
    · cases h
      exact .inl ⟨ty, rfl, ‹_›, rfl⟩
    · cases h
  · rename_i name g
    obtain ⟨kind, hkind, rfl⟩ := Option.map_eq_some_iff.1 h
    obtain ⟨q, hq, hfragment⟩ := List.exists_of_findSome?_eq_some hkind
    exact .inr ⟨g, q, rfl, hq, hfragment⟩
  · cases h

/-- There is nothing below such an argument: values and inclusions have no arguments of their own.
-/
theorem at?_of_operandKind? (h : s.operandKind? t known = some entry) {pos : Position} {s' : Shape}
    (hpos : s.at? pos = some s') : pos = [] ∧ s' = s := by
  have hleaf : ∀ k rest, s.at? (k :: rest) = none := by
    rcases operandKind?_cases h with ⟨ty, rfl, -⟩ | ⟨g, q, rfl, -⟩ <;> exact fun _ _ => rfl
  cases pos with
  | nil => exact ⟨rfl, (Option.some.inj hpos).symm⟩
  | cons k rest =>
    rw [hleaf] at hpos
    cases hpos

/-- The fragment of a group is one of the alternatives that match. -/
theorem exists_alternative {g : String} {q : Pattern} {kind : PartKind} {ms : List Match}
    (hms : t.included b g x = .ok ms) (hq : q ∈ t.group g) (hkind : q.fragment? known = some kind)
    (hx : b.HasWidth x known) :
    ∃ m ∈ ms, ∀ s, ∃ i ∈ (Match.instantiations b m s).1, (∃ r, i.parts = [r] ∧ kind.Admits r)
      ∧ (∀ y, ¬ y ∈ i.covered) ∧ ∀ y ∈ i.inputs, y = x := by
  obtain ⟨m, hm, hinst⟩ := Pattern.exists_instantiation_of_fragment? hkind hx
  exact ⟨m, (mem_of_filterMapM (Tables.included_fix hms) m).2 ⟨q, hq, hm⟩, hinst⟩

/-- **The argument matches every operand of the width.** A value matches as such. An inclusion finds
at least the alternative that its fragment makes. -/
theorem attempt_of_operandKind? (h : s.operandKind? t known = some entry)
    (hx : b.HasWidth x known) (htotal : ∀ g, ∃ ms, t.included b g x = .ok ms) (r : Match) :
    ∃ r', s.attempt b (t.included b) x r = .ok ⟨true, r'⟩ := by
  obtain ⟨n, hn, hproducer⟩ := hx.producer
  rcases operandKind?_cases h with ⟨ty, rfl, hty, -⟩ | ⟨g, q, rfl, hq, hfragment⟩
  · rw [attempt, Block.node_eq_ok.2 hn, ok_bind, hx.hasType hty, hproducer]
    exact ⟨_, rfl⟩
  · obtain ⟨ms, hms⟩ := htotal g
    obtain ⟨m, hm, -⟩ := exists_alternative hms hq hfragment hx
    -- An inclusion fails only if it finds no alternatives.
    have hne : ms.isEmpty = false := by
      cases ms with
      | nil => cases hm
      | cons => rfl
    rw [attempt, Block.node_eq_ok.2 hn, ok_bind, hms, ok_bind, hne]
    exact ⟨_, rfl⟩

/-- Such arguments match operands of the widths, from left to right, each with the record that the
one before it left. -/
theorem attemptAll_of_operandKind? {ss : List Shape} {tys : List (Option ValueType)}
    {ids : List NodeId} (htotal : ∀ g, ∀ x ∈ ids, ∃ ms, t.included b g x = .ok ms)
    (hss : ∀ a ∈ ss.zip tys, (a.1.operandKind? t a.2).isSome = true)
    (hids : List.Forall₂ (fun ty x => b.HasWidth x ty) tys ids) (r : Match) :
    ∃ r', attemptAll b (t.included b) ss ids r = .ok ⟨true, r'⟩ := by
  induction hids generalizing ss r with
  | nil => exact ⟨r, by rw [attemptAll]; exacts [rfl, by simp]⟩
  | cons hx hids ih =>
    cases ss with
    | nil => exact ⟨r, rfl⟩
    | cons s ss =>
      rename_i ty x tys ids
      obtain ⟨entry, hentry⟩ := Option.isSome_iff_exists.1 (hss (s, ty) (by simp))
      -- The first argument matches, whatever the record, and then the others do.
      obtain ⟨r₁, hr₁⟩ := attempt_of_operandKind? hentry hx (fun g => htotal g x (by simp)) r
      have hrest : ∀ a ∈ ss.zip tys, (a.1.operandKind? t a.2).isSome = true :=
        fun a ha => hss a (by simp [ha])
      obtain ⟨r', hr'⟩ := ih (fun g y hy => htotal g y (List.mem_cons_of_mem x hy)) hrest r₁
      refine ⟨r', ?_⟩
      rw [attemptAll, hr₁, ok_bind]
      exact hr'

end Shape

/-! ## Patterns -/

/-- The kinds of the names in a template, for a pattern with these arguments. -/
def Signature.kinds (sig : Signature) (t : Tables) (args : List Shape) :
    List (String × PartKind) :=
  (if sig.op.isProducer then [("out", .value sig.out)] else [])
    ++ (args.zip sig.ins).filterMap fun a => a.1.operandKind? t a.2

/-- Whether a pattern makes a tile for every node with the signature. -/
def Pattern.serves (t : Tables) (sig : Signature) (p : Pattern) : Bool :=
  match p.root with
  | .node none ty op args =>
    op == sig.op && (ty.isNone || (ty == sig.out && op.isProducer))
      && args.length == sig.ins.length
      && (args.zip sig.ins).all (fun a => (a.1.operandKind? t a.2).isSome)
      -- The operands may be matched in either order, so it must not matter.
      && (!op.isCommutative || sig.ins.reverse == sig.ins)
      && decide p.root.idents.Nodup && p.root.idents.all (fun i => !isReserved i)
      && decide ((sig.kinds t args).map Prod.fst).Nodup
      && p.root.storedOp?.isNone
      && p.template.all (Part.isExecutable fun name => Keyed.get? name (sig.kinds t args))
  | _ => false

/-- What `Pattern.serves` has made sure of. -/
structure Pattern.Serves (t : Tables) (sig : Signature) (p : Pattern) (ty : Option ValueType)
    (args : List Shape) : Prop where
  root : p.root = .node none ty sig.op args
  width : ty.isNone = true ∨ (ty = sig.out ∧ sig.op.isProducer = true)
  length : args.length = sig.ins.length
  operands : ∀ a ∈ args.zip sig.ins, (a.1.operandKind? t a.2).isSome = true
  order : sig.op.isCommutative = true → sig.ins.reverse = sig.ins
  nodup : p.root.idents.Nodup
  unreserved : ∀ i ∈ p.root.idents, isReserved i = false
  keys : ((sig.kinds t args).map Prod.fst).Nodup
  stored : p.root.storedOp? = none
  template : p.template.all
    (Part.isExecutable fun name => Keyed.get? name (sig.kinds t args)) = true

namespace Pattern

/-- What was made sure of, taken apart: the test is a conjunction of conditions on the pattern, and
they become the fields. -/
theorem exists_serves {t : Tables} {sig : Signature} {p : Pattern} (h : p.serves t sig = true) :
    ∃ ty args, p.Serves t sig ty args := by
  unfold serves at h
  split at h
  · rename_i ty op args hroot
    simp only [Bool.and_eq_true, Bool.or_eq_true, beq_iff_eq, decide_eq_true_eq, List.all_eq_true,
      Bool.not_eq_true', Option.isNone_iff_eq_none] at h
    obtain ⟨⟨⟨⟨⟨⟨⟨⟨⟨rfl, hty⟩, hlength⟩, hargs⟩, horder⟩, hnodup⟩, hunreserved⟩, hkeys⟩, hstored⟩,
      htemplate⟩ := h
    exact ⟨ty, args, hroot, by simpa using hty, hlength, hargs,
      fun hcomm => horder.resolve_left (by simp [hcomm]), hnodup,
      hunreserved, hkeys, hstored, by simpa using htemplate⟩
  · cases h

section Serves

variable {t : Tables} {sig : Signature} {p : Pattern} {ty : Option ValueType} {args : List Shape}
  {b : Block} {id : NodeId} {n : Node} {m : Match} {e : Shape.Embedding} {k : Nat} {s : Shape}
  (hp : p.Serves t sig ty args)
include hp

/-- An argument has a kind, for the width that the signature states at its place. It is listed among
the kinds under the name of the argument. -/
theorem Serves.exists_kind (hs : args[k]? = some s) :
    ∃ known entry, sig.ins[k]? = some known ∧ s.operandKind? t known = some entry
      ∧ entry ∈ sig.kinds t args := by
  have hk : k < sig.ins.length := hp.length ▸ (List.getElem?_eq_some_iff.1 hs).1
  have hins : sig.ins[k]? = some sig.ins[k] := List.getElem?_eq_getElem hk
  have hzip : (s, sig.ins[k]) ∈ args.zip sig.ins :=
    List.mem_of_getElem? (List.getElem?_zip_eq_some.2 ⟨hs, hins⟩)
  obtain ⟨entry, hentry⟩ := Option.isSome_iff_exists.1 (hp.operands _ hzip)
  exact ⟨_, entry, hins, hentry,
    List.mem_append_right _ (List.mem_filterMap.2 ⟨_, hzip, hentry⟩)⟩

/-- The positions of the pattern are its top and its arguments. Below the arguments there is
nothing. -/
theorem Serves.position_cases {pos : Shape.Position} (hpos : p.root.at? pos = some s) :
    (pos = [] ∧ s = .node none ty sig.op args) ∨ ∃ k, pos = [k] ∧ args[k]? = some s := by
  rw [hp.root] at hpos
  cases pos with
  | nil => exact .inl ⟨rfl, (Option.some.inj hpos).symm⟩
  | cons k rest =>
    obtain ⟨a, ha, hrest⟩ := (Shape.at?_node_cons _ _ _ _ _ _ _).1 hpos
    obtain ⟨known, entry, -, hentry, -⟩ := hp.exists_kind ha
    obtain ⟨rfl, rfl⟩ := Shape.at?_of_operandKind? hentry hrest
    exact .inr ⟨k, rfl, ha⟩

theorem Serves.at?_argument (hs : args[k]? = some s) : p.root.at? [k] = some s := by
  rw [hp.root]
  exact (Shape.at?_node_cons _ _ _ _ _ _ _).2 ⟨s, hs, Shape.at?_nil s⟩

/-- **The pattern matches every node with the signature.** Its operation and its width are those of
the node, and each of its arguments matches the operand at its place. -/
theorem Serves.exists_match (htotal : ∀ g, ∀ x ∈ n.inputs, ∃ ms, t.included b g x = .ok ms)
    (hn : b.node? id = some n) (hsig : sig.Fits b id n) :
    ∃ m, t.matchAt b id p = .ok (some m) := by
  have htype : b.hasType id ty = true := by
    rcases hp.width with hnone | ⟨rfl, hproducer⟩
    · rw [Option.isNone_iff_eq_none.1 hnone]
      rfl
    · exact (hsig.out hproducer).hasType (by simp)
  have hlength : n.inputs.length = args.length := by rw [hp.length, hsig.ins.length_eq]
  -- The operation and the width at the top are the ones of the node, so it remains to match the
  -- operands.
  obtain ⟨r', hr'⟩ := Shape.attemptAll_of_operandKind? (b := b) (fun g x hx => htotal g x hx)
    hp.operands hsig.ins (.start p id)
  rw [Tables.matchAt, Pattern.matchWith, hp.root, Shape.attempt, Block.node_eq_ok.2 hn, ok_bind,
    if_pos (by simp [htype, hsig.op, hlength]), hr', ok_bind]
  exact ⟨_, rfl⟩

variable (hm : t.matchAt b id p = .ok (some m))
  (he : Shape.Placed b (t.included b) p.root id (.start p id) m e)
  (hn : b.node? id = some n) (hsig : sig.Fits b id n)
include he hn hsig

/-- An argument lies on an operand of the width that the signature states at its place. Where the
order of operands is free, the two widths are the same, so it does not matter which of them it is.
-/
theorem Serves.hasWidth {known : Option ValueType} (hknown : sig.ins[k]? = some known) :
    e [k] ∈ n.inputs ∧ b.HasWidth (e [k]) known := by
  have hlies := he.lies [] _ (Shape.at?_nil _)
  rw [hp.root] at hlies
  obtain ⟨-, n', hn', -, hlength, horder⟩ := hlies
  rw [he.top, hn, Option.some.injEq] at hn'
  subst hn'
  have hk : k < n.inputs.length := by
    rw [← hsig.ins.length_eq]
    exact (List.getElem?_eq_some_iff.1 hknown).1
  refine ⟨horder.child_mem hk, ?_⟩
  -- The operands, or the operands reversed: the signature reads the same both ways.
  have hwidth : ∀ {xs : List NodeId}, List.Forall₂ (fun ty x => b.HasWidth x ty) sig.ins xs →
      (∀ k x, xs[k]? = some x → e [k] = x) → b.HasWidth (e [k]) known := by
    intro xs hxs hchild
    obtain ⟨hk, rfl⟩ := List.getElem?_eq_some_iff.1 hknown
    have hk' : k < xs.length := hxs.length_eq ▸ hk
    rw [hchild k xs[k] (List.getElem?_eq_getElem hk')]
    exact hxs.get hk hk'
  rcases horder with hchild | ⟨hcomm, -, hchild⟩
  · exact hwidth hsig.ins hchild
  · have hreverse := List.forall₂_reverse_iff.2 hsig.ins
    rw [hp.order hcomm] at hreverse
    exact hwidth hreverse hchild

omit hp he hn hsig in
/-- The instantiation is a single part of the kind that the name has, it computes nothing, and it
reads operands of the node. -/
def Stands (kinds : List (String × PartKind)) (n : Node) (name : String) (i : Instantiation) :
    Prop :=
  (∃ kind r, (name, kind) ∈ kinds ∧ i.parts = [r] ∧ kind.Admits r)
    ∧ (∀ x, ¬ x ∈ i.covered) ∧ ∀ x ∈ i.inputs, x ∈ n.inputs

/-- Every group of the match has an alternative that stands for its name. A group was included by an
argument, and the fragment of the group matches what the argument lies on. -/
theorem Serves.exists_stands {name : String} {ms : List Match} (hms : (name, ms) ∈ m.submatches) :
    ∃ m' ∈ ms, ∀ s, ∃ i ∈ (Match.instantiations b m' s).1, Stands (sig.kinds t args) n name i := by
  obtain ⟨pos, g, hpos, hfound⟩ := he.submatches.1 hms
  -- The alternatives were found at an argument, since the top is an operation.
  rcases hp.position_cases hpos with ⟨-, hnode⟩ | ⟨k, rfl, hk⟩
  · cases hnode
  · obtain ⟨known, entry, hknown, hentry, hmem⟩ := hp.exists_kind hk
    obtain ⟨hoperand, hwidth⟩ := hp.hasWidth he hn hsig hknown
    rcases Shape.operandKind?_cases hentry with ⟨ty, hs, -⟩ | ⟨g', q, hs, hq, hfragment⟩
    · cases hs
    · cases hs
      obtain ⟨m', hm', hinst⟩ := Shape.exists_alternative hfound hq hfragment hwidth
      refine ⟨m', hm', fun s => ?_⟩
      obtain ⟨i, hi, ⟨r, hparts, hadmits⟩, hcovered, hinputs⟩ := hinst s
      exact ⟨i, hi, ⟨entry.2, r, hmem, hparts, hadmits⟩, hcovered,
        fun x hx => hinputs x hx ▸ hoperand⟩

include hm

/-- **With such choices every name of the template stands for a part of its kind.** A name is the
one of the root, of an argument that is a value, or of an inclusion, for which a choice was made. -/
theorem Serves.knows {chosen : List (String × Instantiation)}
    (hchosen : Match.Chooses b m.submatches chosen)
    (hstands : ∀ c ∈ chosen, Stands (sig.kinds t args) n c.1 c.2) :
    Filling.Knows ⟨b, m, chosen⟩ fun name => Keyed.get? name (sig.kinds t args) := by
  obtain ⟨hpattern, hroot⟩ := Pattern.matchWith_head hm
  intro name kind hkind
  have hmem := Keyed.mem_of_get? hkind
  -- A name is that of the result or of an argument.
  rcases List.mem_append.1 hmem with hout | harg
  · split at hout
    · rename_i hproducer
      rw [List.mem_singleton] at hout
      cases hout
      obtain ⟨v, w, hv, hw⟩ := (hsig.out hproducer).valueOf
      exact ⟨by decide, _, Filling.standsFor_out.2 (hroot ▸ hv), v, w, rfl, hw⟩
    · cases hout
  · obtain ⟨⟨s, known⟩, hzip, hentry⟩ := List.mem_filterMap.1 harg
    obtain ⟨k, hk⟩ := List.getElem?_of_mem hzip
    obtain ⟨hs, hknown⟩ := List.getElem?_zip_eq_some.1 hk
    have hpos := hp.at?_argument hs
    obtain ⟨-, hwidth⟩ := hp.hasWidth he hn hsig hknown
    rcases Shape.operandKind?_cases hentry with ⟨ty, hshape, -, hvalue⟩ | ⟨g, q, hshape, -, -⟩
    · dsimp only at hshape hvalue
      subst hshape hvalue
      have hname := hp.unreserved name (Shape.mem_idents_of_at? hpos rfl)
      obtain ⟨v, w, hv, hw⟩ := hwidth.valueOf
      refine ⟨parse?_of_not_isReserved hname, _,
        (he.standsFor_captured hp.nodup hname hpos rfl).2 ?_, v, w, rfl, hw⟩
      rw [Filling.captured, hpattern, Pattern.lookup?_of_at? hp.nodup hpos rfl]
      exact hv
    · dsimp only at hshape
      subst hshape
      have hname := hp.unreserved name (Shape.mem_idents_of_at? hpos rfl)
      obtain ⟨sub, ms, hsub, -, -⟩ := he.choice_of_position hchosen hpos
      obtain ⟨⟨kind', r, hkind', hparts, hadmits⟩, -⟩ := hstands _ hsub
      have hsame : kind = kind' :=
        Option.some.inj (hkind.symm.trans (Keyed.get?_of_mem hp.keys hkind'))
      refine ⟨parse?_of_not_isReserved hname, r, ?_, hsame ▸ hadmits⟩
      rw [Filling.standsFor_chosen (Pattern.submatches_nodup hm) hchosen hname hsub]
      replace hparts : sub.parts = [r] := hparts
      simp only [List.isEmpty_nil, if_true, hparts, Filling.singlePart]

/-- **The match has an instantiation that is a tile of the node alone.** Its choices are the
fragments, which cover nothing and read only operands, so the tile covers the node and nothing else.
-/
theorem Serves.exists_alone (s : Session) :
    ∃ i ∈ (Match.instantiations b m s).1, i.toTile.Alone b id := by
  obtain ⟨hpattern, -⟩ := Pattern.matchWith_head hm
  obtain ⟨chosen, hpicks, hstands⟩ := Match.exists_picks_optionsOf
    (fun sub hsub => hp.exists_stands he hn hsig hsub) s
  have hchosen := Match.chooses_of_picks (Match.offers_optionsOf m.submatches s) hpicks
  have hknows := hp.knows hm he hn hsig hchosen hstands
  obtain ⟨parts, hparts, hstandalone⟩ := Filling.run_template hknows hp.template
  obtain ⟨i, hi, hiparts, hcovered, hinputs⟩ :=
    Match.exists_mem_instantiations hpicks (hpattern.symm ▸ hparts)
  refine ⟨i, hi, fun x hx => ?_, fun x hx => ⟨n, hn, ?_⟩, fun q hq => ?_⟩
  · -- The arguments are values and groups, which cover nothing, and so do the fragments.
    replace hx : x ∈ m.coveredWith chosen := hcovered ▸ hx
    rcases Match.mem_coveredWith.1 hx with hx | ⟨c, hc, hx⟩
    · obtain ⟨pos, s', hpos, hcomputed, rfl⟩ := he.covered.1 hx
      rcases hp.position_cases hpos with ⟨rfl, -⟩ | ⟨k, rfl, hk⟩
      · exact he.top
      · obtain ⟨known, entry, -, hentry, -⟩ := hp.exists_kind hk
        rcases Shape.operandKind?_cases hentry with ⟨ty, rfl, -⟩ | ⟨g, q, rfl, -⟩ <;>
          cases hcomputed
    · exact absurd hx ((hstands c hc).2.1 x)
  · replace hx : x ∈ (m.readWith chosen).diff (m.coveredWith chosen) := hinputs ▸ hx
    rcases Match.mem_readWith.1 (NodeSet.mem_diff.1 hx).1 with hx | ⟨c, hc, hx⟩
    · obtain ⟨pos, s', hpos, hread, rfl⟩ := he.inputs.1 hx
      rcases hp.position_cases hpos with ⟨-, rfl⟩ | ⟨k, rfl, hk⟩
      · cases hread
      · obtain ⟨known, -, hknown, -, -⟩ := hp.exists_kind hk
        exact (hp.hasWidth he hn hsig hknown).1
    · exact (hstands c hc).2.2 x hx
  · exact hstandalone q (hiparts ▸ hq)

end Serves

/-- **A pattern that serves a signature makes a tile of the node alone**, for every node with the
signature. It matches such a node, and the match has an instantiation of this kind. -/
theorem exists_alone_of_serves {t : Tables} {sig : Signature} {p : Pattern} {b : Block}
    {id : NodeId} {n : Node} (hp : p.serves t sig = true)
    (htotal : ∀ g, ∀ x ∈ n.inputs, ∃ ms, t.included b g x = .ok ms) (hn : b.node? id = some n)
    (hsig : sig.Fits b id n) :
    ∃ m, t.matchAt b id p = .ok (some m)
      ∧ ∀ s, ∃ i ∈ (Match.instantiations b m s).1, i.toTile.Alone b id := by
  obtain ⟨ty, args, hserves⟩ := exists_serves hp
  obtain ⟨m, hm⟩ := hserves.exists_match htotal hn hsig
  obtain ⟨e, he⟩ := matchWith_placed hm hserves.nodup
  exact ⟨m, hm, hserves.exists_alone hm he hn hsig⟩

/-- A pattern that serves a signature is among the candidates for the operation of the signature. -/
theorem rootKey?_of_serves {t : Tables} {sig : Signature} {p : Pattern}
    (hp : p.serves t sig = true) : p.rootKey? = some sig.op := by
  obtain ⟨ty, args, hserves⟩ := exists_serves hp
  have hstandalone : p.isStandalone = true := by
    refine List.all_eq_true.2 fun q hq => ?_
    have hq := List.all_eq_true.1 hserves.template q hq
    cases q <;> first | rfl | cases hq
  rw [rootKey?, hserves.stored, candidateOp?, if_pos hstandalone, hserves.root]
  rfl

end Pattern

end TileSelect
