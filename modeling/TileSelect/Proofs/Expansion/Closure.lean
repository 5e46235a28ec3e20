import Mathlib.Logic.Relation
import TileSelect.Proofs.Expansion.Lasting
/-!
What is emitted is closed.

Templates are full of names, and what is emitted has none left: every piece of it can be traced to
where it came from. A value is that of a node which the instantiation computes or reads. A number
or a symbol is written in a template, is the payload of a constant that is covered, or is computed
from such numbers. A temporary was allocated for one of the templates that were filled in, the
instantiation's own or one in the tree of its choices.

Where something came from is said of an instantiation as a whole, so the property changes from one
layer of groups to the next. It only grows: what a choice computes, reads and contains is computed,
read and contained by the instantiation that chose it.
-/

set_option autoImplicit false

namespace TileSelect

namespace Instantiation

/-- The instantiation itself, what was chosen in it, what was chosen there, and so on. -/
def Contains : Instantiation → Instantiation → Prop :=
  Relation.ReflTransGen fun i j => ∃ name, (name, j) ∈ i.chosen

/-- The instantiation computes or reads the node. -/
def Involves (i : Instantiation) (x : NodeId) : Prop := x ∈ i.covered ∨ x ∈ i.inputs

/-- The numbers and symbols that an instantiation is given. Those of the templates and of covered
constants are, and so are halves of numbers. A width may be imposed on a number, which leaves the
number as it is. -/
inductive Gives (b : Block) (i : Instantiation) : Part → Prop
  | written {j : Instantiation} {p q : Part} (contains : i.Contains j)
      (template : p ∈ j.record.pattern.template) (piece : q ∈ p.pieces)
      (constant : q.isConstant = true) : Gives b i q
  | number {x : NodeId} {n : Node} {v : Int64} (covered : x ∈ i.covered)
      (node : b.node? x = some n) (constant : n.op = .constant)
      (payload : n.imm = some (.int v)) : Gives b i (.imm v (b.typeOf? x))
  | symbol {x : NodeId} {n : Node} {name : String} (covered : x ∈ i.covered)
      (node : b.node? x = some n) (constant : n.op = .constant)
      (payload : n.imm = some (.symbol name)) : Gives b i (.symbol name)
  | half {p q : Part} (half : Half) (whole : Gives b i p) (sliced : p.slice? half = some q) :
      Gives b i q
  | width {v : Int64} {ty : Option ValueType} (ty' : ValueType) (same : Gives b i (.imm v ty)) :
      Gives b i (.imm v (some ty'))

/-- What is given, or a number that is given times the scale of an index. -/
def Displaces (b : Block) (i : Instantiation) (p : Part) : Prop :=
  i.Gives b p
    ∨ ∃ v ty, ∃ s ∈ Address.scales, i.Gives b (.imm v ty) ∧ p = .imm (v * Int64.ofNat s) ty

/-- Where the numbers and symbols that an instantiation emits come from: they are given, or
displacements that were scaled and added up. -/
def Derives (b : Block) (i : Instantiation) (p : Part) : Prop := p.SumOf (i.Displaces b)

/-- What may be a piece of what an instantiation emits. -/
def Explains (b : Block) (i : Instantiation) : Part → Prop
  | .instruction _ _ operands => operands.length ≤ 2
  | .memory address => address.Encodable
  | .reference .. => False
  | .value v _ _ => ∃ x, i.Involves x ∧ b.Yields x v
  | .temp n _ _ => ∃ j, i.Contains j ∧ j.Allocates b n
  | .imm v ty => i.Derives b (.imm v ty)
  | .symbol name => i.Derives b (.symbol name)
  | .label _ | .register _ => True

/-- What a name may stand for: all its pieces can be traced, and a number has not been scaled or
added up yet. -/
structure Traces (b : Block) (i : Instantiation) (p : Part) : Prop where
  everywhere : p.Everywhere (i.Explains b)
  given : p.isConstant = true → i.Gives b p

variable {b : Block} {i sub : Instantiation} {name : String} {p : Part}

/-- For numbers and symbols, to be explained is to come from a template or a covered constant. -/
theorem explains_iff_of_isConstant (hp : p.isConstant = true) :
    i.Explains b p ↔ i.Derives b p := by
  cases p with
  | imm | symbol => exact Iff.rfl
  | instruction | label | memory | reference | register | value | temp => cases hp

/-- What is given can be traced, since nothing was done to it yet. -/
theorem traces_of_gives (hp : p.isConstant = true) (h : i.Gives b p) : i.Traces b p := by
  refine ⟨?_, fun _ => h⟩
  rw [Part.everywhere_iff_of_not_isComposite (Part.not_isComposite_of_isConstant hp),
    explains_iff_of_isConstant hp]
  exact .inl (.inl h)

/-- What is neither made of parts nor a constant can be traced as soon as it is explained. -/
theorem traces_of_explains (hp : p.isConstant = false) (hsimple : p.isComposite = false)
    (h : i.Explains b p) : i.Traces b p :=
  ⟨(Part.everywhere_iff_of_not_isComposite hsimple).2 h, fun hconst => by simp [hp] at hconst⟩

/-- The components of an address that was emitted can be traced. -/
theorem madeOf_of_everywhere {a : Address Part} (h : (Part.memory a).Everywhere (i.Explains b)) :
    a.MadeOf (i.Explains b) (i.Displaces b) := by
  obtain ⟨hself, hbase, hindex, hoffset⟩ := Part.everywhere_memory.1 h
  refine ⟨hself, fun p hp => ?_, fun p hp => ?_⟩
  · exact hp.elim (fun hp => (hbase p hp).self) fun hp => (hindex p hp).self
  · exact (explains_iff_of_isConstant (hself.offset p hp)).1 (hoffset p hp).self

/-- No step of filling in makes a piece that cannot be traced. Scaling and adding up are the steps
to look at, as they make numbers that stand in no template. -/
theorem lasting_traces (b : Block) (i : Instantiation) : Part.Lasting (i.Traces b) where
  instruction _ _ os hfew h :=
    ⟨Part.everywhere_instruction.2 ⟨hfew, fun o ho => (h o ho).everywhere⟩, fun hconst => by
      cases hconst⟩
  memory base index scale offset q hscale hbase hindex hoffset h := by
    obtain ⟨c, rfl, hc⟩ := h.madeOf hscale (R := i.Explains b) (D := i.Displaces b)
      (fun p hp _ => (hp.elim (hbase p) (hindex p)).everywhere.self)
      (fun p hp hconst =>
        .inl ((hp.elim (hbase p) fun hp => hp.elim (hindex p) (hoffset p)).given hconst))
      (fun v ty hp => .inr ⟨v, ty, scale, hscale, (hindex _ hp).given rfl, rfl⟩)
      (fun a ha => madeOf_of_everywhere (ha.elim (hbase _) (hindex _)).everywhere)
    refine ⟨hc.everywhere hc.toEncodable hc.registers fun p hp => ?_, fun hconst => by
      cases hconst⟩
    exact (explains_iff_of_isConstant (hc.offset p hp)).2 (hc.displacement p hp)
  slice half p q hq h := by
    have hslice := hq
    revert hq
    fun_cases Part.slice? half p
    all_goals
      intro hq
      first
        | cases hq
        | obtain ⟨narrow, -, rfl⟩ := Option.map_eq_some_iff.1 hq
    -- Values and temporaries keep their number when they are halved, and numbers do not.
    · exact traces_of_explains rfl rfl h.everywhere.self
    · exact traces_of_explains rfl rfl h.everywhere.self
    · exact traces_of_gives rfl (.half half (h.given rfl) hslice)
  retype ty p h := by
    cases p with
    | value | temp => exact traces_of_explains rfl rfl h.everywhere.self
    | imm v ty' => exact traces_of_gives rfl (.width ty (h.given rfl))
    | instruction | label | memory | reference | register | symbol => exact h

/-! ## From a choice to what chose it -/

/-- What a choice is given the instantiation that chose it is given too, provided that it covers
what the choice covers. -/
theorem Gives.of_choice (hsub : (name, sub) ∈ i.chosen)
    (hcovered : ∀ x ∈ sub.covered, x ∈ i.covered) (h : sub.Gives b p) : i.Gives b p := by
  induction h with
  | written contains template piece constant =>
    exact .written (.head ⟨name, hsub⟩ contains) template piece constant
  | number covered node constant payload =>
    exact .number (hcovered _ covered) node constant payload
  | symbol covered node constant payload =>
    exact .symbol (hcovered _ covered) node constant payload
  | half half _ sliced ih => exact .half half ih sliced
  | width ty' _ ih => exact .width ty' ih

theorem Derives.of_choice (hsub : (name, sub) ∈ i.chosen)
    (hcovered : ∀ x ∈ sub.covered, x ∈ i.covered) (h : sub.Derives b p) : i.Derives b p := by
  refine Part.SumOf.mono (fun q hq => ?_) h
  rcases hq with hq | ⟨v, ty, s, hs, hv, rfl⟩
  · exact .inl (hq.of_choice hsub hcovered)
  · exact .inr ⟨v, ty, s, hs, hv.of_choice hsub hcovered, rfl⟩

end Instantiation

namespace Match.Instantiates

variable {b : Block} {m : Match} {i sub : Instantiation} {name : String} {x : NodeId} {p : Part}
  (hi : m.Instantiates b i)
include hi

theorem mem_covered (hx : x ∈ m.covered) : x ∈ i.covered := by
  cases hi
  exact mem_coveredWith.2 (.inl hx)

theorem involves_of_read (hx : x ∈ m.readWith i.chosen) : i.Involves x := by
  cases hi
  by_cases hcovered : x ∈ m.coveredWith ‹_›
  · exact .inl hcovered
  · exact .inr (NodeSet.mem_diff.2 ⟨hx, hcovered⟩)

/-- What a match reads its instantiations read, or compute. -/
theorem involves_of_mem_inputs (hx : x ∈ m.inputs) : i.Involves x :=
  hi.involves_of_read (mem_readWith.2 (.inl hx))

/-- What a choice covers is covered by the instantiation that chose it. -/
theorem mem_covered_of_choice (hsub : (name, sub) ∈ i.chosen) (hx : x ∈ sub.covered) :
    x ∈ i.covered := by
  cases hi
  exact mem_coveredWith.2 (.inr ⟨_, hsub, hx⟩)

/-- What a choice computes or reads is computed or read by the instantiation that chose it. An input
of the choice may be computed further up, and so is no input any more. -/
theorem involves_of_choice (hsub : (name, sub) ∈ i.chosen) (hx : sub.Involves x) :
    i.Involves x := by
  rcases hx with hx | hx
  · exact .inl (hi.mem_covered_of_choice hsub hx)
  · exact hi.involves_of_read (mem_readWith.2 (.inr ⟨_, hsub, hx⟩))

/-- What can be traced in a choice can be traced in the instantiation that chose it, because all the
sets grow on the way up. -/
theorem explains_of_choice (hsub : (name, sub) ∈ i.chosen) (h : sub.Explains b p) :
    i.Explains b p := by
  cases p with
  | value v ty half =>
    obtain ⟨x, hx, hyields⟩ := h
    exact ⟨x, hi.involves_of_choice hsub hx, hyields⟩
  | temp n ty half =>
    obtain ⟨j, hj, hallocates⟩ := h
    exact ⟨j, .head ⟨name, hsub⟩ hj, hallocates⟩
  | imm | symbol =>
    exact Instantiation.Derives.of_choice hsub (fun x => hi.mem_covered_of_choice hsub) h
  | instruction | label | memory | reference | register => exact h

theorem traces_of_choice (hsub : (name, sub) ∈ i.chosen) (h : sub.Traces b p) : i.Traces b p :=
  ⟨h.everywhere.mono fun _ => hi.explains_of_choice hsub, fun hconst =>
    (h.given hconst).of_choice hsub fun _ => hi.mem_covered_of_choice hsub⟩

end Match.Instantiates

/-! ## The nodes of a match -/

namespace Filling

variable {b : Block} {i : Instantiation} {x : NodeId} {r : Part}

/-- The value of a node that is computed or read can be traced to that node, since it is the value
that the node yields. -/
theorem traces_of_valueOf (hx : i.Involves x) (h : valueOf b x = .ok r) : i.Traces b r := by
  unfold valueOf at h
  split at h
  · rename_i p hp
    cases h
    obtain ⟨v, ty, rfl, hyields⟩ := Block.valueOf?_eq_some hp
    exact Instantiation.traces_of_explains rfl rfl ⟨x, hx, hyields⟩
  · cases h

/-- A captured constant is written as its payload, or else as its value. The one can be traced to
the number or symbol in the node, and the other to the node. -/
theorem traces_of_constantOf {n : Node} (hx : x ∈ i.covered) (hn : b.node? x = some n)
    (hop : n.op = .constant) (h : constantOf b x = .ok r) : i.Traces b r := by
  unfold constantOf at h
  rw [hn] at h
  dsimp only at h
  -- A payload that is a number, one that is a symbol, or none, and then the value stands for it.
  split at h
  · rename_i v hpayload
    cases h
    exact Instantiation.traces_of_gives rfl (.number hx hn hop hpayload)
  · rename_i name hpayload
    cases h
    exact Instantiation.traces_of_gives rfl (.symbol hx hn hop hpayload)
  · exact traces_of_valueOf (.inl hx) h

end Filling

namespace Tables.Finds

variable {t : Tables} {b : Block} {m : Match} {i : Instantiation}

/-- What a name captures is computed or read, and constants are computed. Which of these it is
depends on the kind of the position in the pattern at which the name stands. -/
theorem traces_of_captured (ht : t.WellScoped) (hm : t.Finds b m) (hi : m.Instantiates b i)
    {name : String} {k : NodeId} {r : Part} (hbound : (name, k) ∈ m.bindings)
    (h : Filling.captured b m name k = .ok r) : i.Traces b r := by
  obtain ⟨n, id, p, hp, hmatch⟩ := hm
  have hnd := (ht.of_mem_patterns hp).distinct
  obtain ⟨e, he⟩ := Pattern.matchWith_placed hmatch hnd
  obtain ⟨pos, s, hpos, hcaptured, rfl⟩ := he.bindings.1 hbound
  rw [Filling.captured, (Pattern.matchWith_head hmatch).1,
    Pattern.lookup?_of_at? hnd hpos (Shape.ident?_eq_some.2 (.inl hcaptured))] at h
  -- The kind of the position decides: nodes and constants are covered, producers are inputs.
  cases s with
  | node =>
    have hcovered := hi.mem_covered (he.covered.2 ⟨pos, _, hpos, rfl, rfl⟩)
    exact Filling.traces_of_valueOf (.inl hcovered) h
  | producer =>
    have hread := hi.involves_of_mem_inputs (he.inputs.2 ⟨pos, _, hpos, rfl, rfl⟩)
    exact Filling.traces_of_valueOf hread h
  | constant =>
    obtain ⟨-, n, hn, hop, -⟩ := he.lies pos _ hpos
    have hcovered := hi.mem_covered (he.covered.2 ⟨pos, _, hpos, rfl, rfl⟩)
    exact Filling.traces_of_constantOf hcovered hn hop h
  | inclusion | backreference => cases hcaptured

/-- The root of a match is computed or read: by the top of the pattern or, if that is a group, by
what was chosen for it. -/
theorem involves_root (ht : t.WellScoped) (hm : t.Finds b m) (hi : m.Instantiates b i) :
    i.Involves i.record.root := by
  let motive : Instantiation → Prop := fun i => i.Involves i.record.root
  refine induction (motive := motive) ht (fun m i hm hi ih => ?_) i m hm hi
  obtain ⟨n, id, p, hp, hmatch⟩ := hm
  obtain ⟨e, he⟩ := Pattern.matchWith_placed hmatch (ht.of_mem_patterns hp).distinct
  obtain ⟨scope, hscope⟩ := (ht.of_mem_patterns hp).closed
  have hroot : i.record.root = e [] := by
    rw [hi.record_eq, (Pattern.matchWith_head hmatch).2, he.top]
  show i.Involves i.record.root
  rw [hroot]
  cases htop : p.root with
  | node | constant =>
    exact .inl (hi.mem_covered (he.covered.2 ⟨[], p.root, rfl, by rw [htop]; rfl, rfl⟩))
  | producer =>
    exact hi.involves_of_mem_inputs (he.inputs.2 ⟨[], p.root, rfl, by rw [htop]; rfl, rfl⟩)
  | inclusion ident g =>
    -- What was chosen for the group has the same root, and involves it.
    have hchosen := hi.chooses
    rw [hi.record_eq] at hchosen
    obtain ⟨sub, ms, hsub, hms, m', hm', hinst⟩ := he.choice_of_position hchosen
      (show p.root.at? [] = some (.inclusion ident g) by rw [htop]; rfl)
    have hsame : sub.record.root = e [] := by
      rw [hinst.record_eq]
      exact rooted_alternatives n g (e []) ms hms m' hm'
    exact hsame ▸ hi.involves_of_choice hsub (ih _ hsub)
  | backreference ident =>
    -- A reference at the top would have nothing to refer to.
    rw [htop] at hscope
    cases hscope

/-- What is contained in an instantiation of a match that is found instantiates one too, found with
the same tables. The induction goes along the choices from the outside in. -/
theorem exists_of_contains (ht : t.WellScoped) (hm : t.Finds b m) (hi : m.Instantiates b i)
    {j : Instantiation} (hj : i.Contains j) : ∃ m', t.Finds b m' ∧ m'.Instantiates b j := by
  induction hj with
  | refl => exact ⟨m, hm, hi⟩
  | tail _ hchosen ih =>
    obtain ⟨name, hsub⟩ := hchosen
    obtain ⟨m₁, hm₁, hinst₁⟩ := ih
    have hchooses := hinst₁.chooses
    rw [hinst₁.record_eq] at hchooses
    obtain ⟨ms, m₂, hms, hm₂, hinst₂⟩ := hchooses.of_mem hsub
    exact ⟨m₂, hm₁.of_mem_submatches ht hms hm₂, hinst₂⟩

/-- **All that is emitted can be traced**, however deep groups are nested. The induction is on the
nesting: what was chosen has been built of what can be traced there, and so can be traced here. -/
theorem builtOf_traces {source : String} (ht : ofSource source = .ok t) (hm : t.Finds b m)
    (hi : m.Instantiates b i) : i.BuiltOf (i.Traces b) b := by
  have hscoped := wellScoped_of_ofSource ht
  refine induction (motive := fun i => i.BuiltOf (i.Traces b) b) hscoped
    (fun m i hm hi ih => ?_) i m hm hi
  -- What is left to show is that everything a name may stand for can be traced.
  refine hi.builtOf (hm.compiled ht) ?_
  exact {
    lasting := i.lasting_traces b
    label := fun _ => Instantiation.traces_of_explains rfl rfl trivial
    register := fun _ => Instantiation.traces_of_explains rfl rfl trivial
    written := fun p hp q hq hconst =>
      Instantiation.traces_of_gives hconst (.written .refl hp hq hconst)
    root := fun r hr => Filling.traces_of_valueOf (hm.involves_root hscoped hi) hr
    captured := fun name k r hbound hr => by
      rw [hi.record_eq] at hbound hr
      exact hm.traces_of_captured hscoped hi hbound hr
    temporaries := fun n ty hn => Instantiation.traces_of_explains rfl rfl ⟨i, .refl, hn⟩
    chosen := fun choice hchoice =>
      (ih choice hchoice).mono fun p => hi.traces_of_choice hchoice }

end Tables.Finds

/-- **What is emitted is closed.** With compiled tables, for every instantiation of a match and all
that is contained in it, every piece of every part is free of references and, if it is an
instruction, has at most two operands; its values are those of nodes that are covered or inputs,
its numbers and symbols come from templates and covered constants, and its temporaries were
allocated for one of the templates. -/
theorem Match.instantiations_closed {source : String} {t : Tables} {b : Block} {m : Match}
    {s : Session} {i j : Instantiation} (ht : Tables.ofSource source = .ok t) (hm : t.Finds b m)
    (hi : i ∈ (m.instantiations b s).1) (hj : i.Contains j) {p q : Part} (hp : p ∈ j.parts)
    (hq : q ∈ p.pieces) :
    (∀ path half ty, q ≠ .reference path half ty)
      ∧ (∀ mnemonic condition os, q = .instruction mnemonic condition os → os.length ≤ 2)
      ∧ (∀ v ty half, q = .value v ty half →
          ∃ x, (x ∈ j.covered ∨ x ∈ j.inputs) ∧ b.Yields x v)
      ∧ (q.isConstant = true → j.Derives b q)
      ∧ ∀ n ty half, q = .temp n ty half → ∃ k, j.Contains k ∧ k.Allocates b n := by
  -- What is contained in an instantiation instantiates a match of its own, to which all this
  -- applies.
  obtain ⟨m', hm', hinst⟩ := hm.exists_of_contains (Tables.wellScoped_of_ofSource ht)
    (Match.instantiates_of_mem m s i hi) hj
  have hexplains : j.Explains b q := ((hm'.builtOf_traces ht hinst).parts p hp).everywhere q hq
  -- Being explained means something else for each kind of piece; these are its five readings.
  refine ⟨?_, ?_, ?_, fun hconst => ?_, ?_⟩
  · rintro path half ty rfl
    exact hexplains
  · rintro mnemonic condition os rfl
    exact hexplains
  · rintro v ty half rfl
    exact hexplains
  · exact (Instantiation.explains_iff_of_isConstant hconst).1 hexplains
  · rintro n ty half rfl
    exact hexplains

namespace Match

/-- A load from a place in a record, by way of a temporary. -/
def fieldReads : String :=
  "place: (ADD (<base> LOCAL) (<field> CONSTANT)) -> [[<base> + <field> + 8]];
   read: (LOAD place) -> [MOV <tmp>, [<place>]] [MOV <out>, <tmp>];"

/-- The load of a field at 16 of what an argument points to. -/
def fieldRead : Block := Build.finish ⟨"fields", "f", "entry"⟩ do
  let base ← Build.arg 0 .i32
  let field ← Build.int 16 .i32
  let place ← Build.op .add .i32 [base, field]
  Build.load .i32 place none

/-- What is emitted for the load: the two numbers are added up. -/
def fieldReadParts : List Part :=
  [.plain "MOV" [.temp 0 .i32 none,
      .memory ⟨some (.value 0 .i32 none), none, 1, some (.literal 24)⟩],
   .plain "MOV" [.value 3 .i32 none, .temp 0 .i32 none]]

/-- Whether a pattern matches at a node and some instantiation emits these parts. -/
def emits (b : Block) (id : NodeId) (parts : List Part) (t : Tables) (p : Pattern) : Bool :=
  match t.matchAt b id p with
  | .ok (some m) => (m.instantiations b .start).1.any fun i => decide (i.parts = parts)
  | _ => false

/-- If the check finds the parts, there is an instantiation that emits them. The check runs the
enumeration from the start of a session, so that it can be evaluated. -/
theorem exists_of_emits {b : Block} {id : NodeId} {parts : List Part} {t : Tables} {p : Pattern}
    (hp : p ∈ t.patterns) (h : emits b id parts t p = true) :
    ∃ m, t.Finds b m ∧ ∃ i ∈ (m.instantiations b .start).1, i.parts = parts := by
  unfold emits at h
  split at h
  · rename_i m hm
    obtain ⟨i, hi, hparts⟩ := List.any_eq_true.1 h
    exact ⟨m, ⟨_, id, p, hp, hm⟩, i, hi, of_decide_eq_true hparts⟩
  · cases h

set_option maxRecDepth 10000 in
/-- Evaluating the patterns at the load finds the parts. -/
theorem exists_emits_fieldRead : ∃ ps, Tables.ofSource fieldReads = .ok (.ofPatterns ps)
    ∧ (Tables.ofPatterns ps).patterns.any
        (emits fieldRead 3 fieldReadParts (.ofPatterns ps)) = true :=
  @Tables.ofSource_of_check fieldReads _ _ rfl (by decide +kernel)

/-- The argument is read, the sum comes from the field and the template, and the temporary is one of
this load. All of it shows in one load of a field behind a pointer. -/
theorem instantiations_closed_fieldRead :
    ∃ t m i, Tables.ofSource fieldReads = .ok t ∧ t.Finds fieldRead m
      ∧ i ∈ (m.instantiations fieldRead .start).1 ∧ i.Contains i ∧ i.parts = fieldReadParts
      ∧ (∃ x, (x ∈ i.covered ∨ x ∈ i.inputs) ∧ fieldRead.Yields x 0)
      ∧ i.Derives fieldRead (.literal 24) ∧ ∃ k, i.Contains k ∧ k.Allocates fieldRead 0 := by
  obtain ⟨ps, hps, hany⟩ := exists_emits_fieldRead
  obtain ⟨p, hp, hemits⟩ := List.any_eq_true.1 hany
  obtain ⟨m, hm, i, hi, hparts⟩ := exists_of_emits hp hemits
  -- The theorem at every piece of what is emitted; below it is read off for three of them.
  have hclosed : ∀ p ∈ fieldReadParts, ∀ q ∈ p.pieces, _ := fun p hp q hq =>
    instantiations_closed hps hm hi .refl (hparts ▸ hp) hq
  refine ⟨_, m, i, hps, hm, hi, .refl, hparts, ?_, ?_, ?_⟩
  · exact (hclosed _ List.mem_cons_self _ (by decide)).2.2.1 0 .i32 none rfl
  · exact (hclosed _ List.mem_cons_self _ (by decide)).2.2.2.1 rfl
  · exact (hclosed _ List.mem_cons_self _ (by decide)).2.2.2.2 0 .i32 none rfl

end Match

end TileSelect
