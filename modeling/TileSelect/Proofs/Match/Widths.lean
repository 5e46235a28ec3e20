import TileSelect.Proofs.Match.Exactness
/-!
Widths that a match implies.

Where a pattern asks for a width, the node it lies on has that width. In a well-typed block more is
known: arithmetic has the width of its operands, and an address is never 64 bits wide. So from the
widths that a shape asks for, and from what is known of the node at its top, the nodes at many other
positions are known not to be 64 bits wide. `Shape.narrowNames` collects the identifiers at these
positions. It looks at the shape alone, and what it says holds wherever the shape lies.
-/

set_option autoImplicit false

namespace TileSelect

/-! ## Well-typed blocks -/

/-- Whether the operands are as wide as the result. -/
def Operation.keepsWidth : Operation → Bool
  | .add | .sub | .mul | .sdiv | .udiv | .srem | .urem => true
  | .and | .or | .xor | .shl | .shr | .sar | .neg | .not => true
  | _ => false

namespace Node

/-- The operand that is an address: that of memory, or that of the callee of an indirect call. -/
def pointer? (n : Node) : Option NodeId :=
  match n.op with
  | .load | .store => n.inputs.head?
  | .call | .callVoid => if n.imm matches some (.symbol _) then none else n.inputs.head?
  | _ => none

/-- Whether the widths of a node and its operands go together. -/
def isWellTyped (b : Block) (id : NodeId) (n : Node) : Bool :=
  (!n.op.keepsWidth || n.inputs.all fun x => b.typeOf? x == b.typeOf? id)
    && (!n.op.isComparison || n.inputs.all fun x => n.inputs.all fun y =>
      b.typeOf? x == b.typeOf? y)
    -- The arms of a select come after its condition.
    && (n.op != .select || n.inputs.tail.all fun x => b.typeOf? x == b.typeOf? id)
    && n.pointer?.all fun x => b.typeOf? x != some .i64

end Node

namespace Block

/-- Arithmetic has the width of its operands, so has a select that of its arms, comparisons compare
values of one width, and addresses are not 64 bits wide. -/
def WellTyped (b : Block) : Prop :=
  ∀ id < b.size, ∀ n, b.node? id = some n → n.isWellTyped b id = true

instance (b : Block) : Decidable b.WellTyped := inferInstanceAs (Decidable (∀ _ < _, _))

/-- The node does not yield a 64-bit value. -/
def Narrow (b : Block) (id : NodeId) : Prop := b.typeOf? id ≠ some .i64

variable {b : Block} {id x : NodeId} {n : Node}

/-- In a well-typed block the widths at every node go together. -/
theorem WellTyped.isWellTyped (hb : b.WellTyped) (hn : b.node? id = some n) :
    n.isWellTyped b id = true :=
  hb id (node?_isSome_iff.1 ⟨n, hn⟩) n hn

/-- The operands of arithmetic with a narrow result are narrow, since they are as wide as the
result. -/
theorem WellTyped.narrow_of_keepsWidth (hb : b.WellTyped) (hn : b.node? id = some n)
    (hop : n.op.keepsWidth = true) (hx : x ∈ n.inputs) (hid : b.Narrow id) : b.Narrow x := by
  have hwell := hb.isWellTyped hn
  simp only [Node.isWellTyped, hop, Bool.and_eq_true, Bool.not_true, Bool.false_or,
    List.all_eq_true, beq_iff_eq] at hwell
  rw [Narrow, hwell.1.1.1 x hx]
  exact hid

/-- An address is never wide, as the target has addresses of 32 bits. -/
theorem WellTyped.narrow_of_pointer? (hb : b.WellTyped) (hn : b.node? id = some n)
    (hx : n.pointer? = some x) : b.Narrow x := by
  have hwell := hb.isWellTyped hn
  rw [Node.isWellTyped, Bool.and_eq_true, hx, Option.all_some, bne_iff_ne] at hwell
  exact hwell.2

/-- A node that was tested for a width other than 64 bits is narrow. A pattern that asks for no
width tells nothing. -/
theorem narrow_of_hasType {ty : Option ValueType} (h : b.hasType id ty = true)
    (hty : ty.any (· != .i64) = true) : b.Narrow id := by
  cases ty with
  | none => cases hty
  | some t =>
    rw [Option.any_some, bne_iff_ne] at hty
    rw [hasType, beq_iff_eq] at h
    rw [Narrow, h, ne_eq, Option.some.injEq]
    exact hty

end Block

/-! ## Narrow positions -/

/-- Whether an operand is narrow, by its place and by whether the result is. -/
def Operation.narrowsOperand (op : Operation) (narrow : Bool) (k : Nat) : Bool :=
  (op.keepsWidth && narrow) || (k == 0 && (op == .load || op == .store))

namespace Shape

mutual

/-- The identifiers at positions that cannot lie on 64-bit values, given whether the top is known
not to. -/
def narrowNames (narrow : Bool) : Shape → List String
  | .node ident ty op args =>
    let here := narrow || ty.any (· != .i64)
    (if here then ident.toList else []) ++ narrowNamesOfAll (op.narrowsOperand here) 0 args
  | .producer ident ty | .constant ident ty _ =>
    if narrow || ty.any (· != .i64) then ident.toList else []
  | .inclusion ident _ => if narrow then [ident] else []
  | .backreference _ => []

/-- The same for arguments, from the `k`-th on. -/
def narrowNamesOfAll (narrow : Nat → Bool) (k : Nat) : List Shape → List String
  | [] => []
  | a :: as => narrowNames (narrow k) a ++ narrowNamesOfAll narrow (k + 1) as

end

/-- The narrow names of several arguments are those of each, where an argument is given what its
place says about it. -/
theorem mem_narrowNamesOfAll {narrow : Nat → Bool} {name : String} {args : List Shape} {k : Nat} :
    name ∈ narrowNamesOfAll narrow k args
      ↔ ∃ j a, args[j]? = some a ∧ name ∈ narrowNames (narrow (k + j)) a := by
  induction args generalizing k with
  | nil => simp [narrowNamesOfAll]
  | cons a as ih =>
    rw [narrowNamesOfAll, List.mem_append, ih]
    constructor
    · rintro (h | ⟨j, a', ha', h⟩)
      · exact ⟨0, a, rfl, h⟩
      · exact ⟨j + 1, a', ha', by rwa [← Nat.add_assoc, Nat.add_right_comm]⟩
    · -- The first argument, or one of the others, whose places are counted from one further on.
      rintro ⟨_ | j, a', ha', h⟩
      · cases ha'
        exact .inl h
      · exact .inr ⟨j, a', ha', by rwa [Nat.add_right_comm, Nat.add_assoc]⟩

variable {b : Block} {admits refers : String → NodeId → Prop}

/-- What narrows an operand is right: the operand of arithmetic is as wide as the result, and the
first operand of a load or a store is an address. Exchanging operands does no harm, since only
commutative arithmetic may be exchanged and both of its operands are alike. -/
theorem narrow_of_narrowsOperand (hb : b.WellTyped) {id : NodeId} {n : Node}
    (hn : b.node? id = some n) {child : Nat → NodeId} (horder : InOrder n.op n.inputs child)
    {k : Nat} (hk : k < n.inputs.length) {narrow : Bool} (hid : narrow = true → b.Narrow id)
    (h : n.op.narrowsOperand narrow k = true) : b.Narrow (child k) := by
  simp only [Operation.narrowsOperand, Bool.or_eq_true, Bool.and_eq_true, beq_iff_eq] at h
  rcases h with ⟨hop, hnarrow⟩ | ⟨rfl, hop⟩
  · exact hb.narrow_of_keepsWidth hn hop (horder.child_mem hk) (hid hnarrow)
  · -- Neither operation commutes, so the first argument lies on the first operand.
    have hpointer : n.pointer? = n.inputs.head? := by
      rcases hop with hop | hop <;> rw [Node.pointer?, hop]
    have hcommute : n.op.isCommutative = false := by
      rcases hop with hop | hop <;> rw [hop] <;> rfl
    obtain ⟨x, rest, hinputs⟩ := List.exists_cons_of_length_pos hk
    have hchild : child 0 = x := by
      rcases horder with horder | ⟨hcommutes, -⟩
      · exact horder 0 x (by rw [hinputs]; rfl)
      · rw [hcommute] at hcommutes
        cases hcommutes
    rw [hchild]
    exact hb.narrow_of_pointer? hn (by rw [hpointer, hinputs]; rfl)

/-- **Narrow names lie on narrow nodes.** The induction is on the shape; what is known of the node
at the top goes on to those of the arguments as far as the operation allows. -/
theorem exists_narrow_of_mem_narrowNames (hb : b.WellTyped) {name : String} (s : Shape) :
    ∀ (e : Embedding) (narrow : Bool), s.Everywhere e (LiesOn b admits refers) →
      (narrow = true → b.Narrow (e [])) → name ∈ s.narrowNames narrow →
      ∃ pos s', s.at? pos = some s' ∧ s'.ident? = some name ∧ b.Narrow (e pos) := by
  -- A node is narrow if it was known to be, or if its shape states a width that is.
  have hhere : ∀ {id : NodeId} {narrow : Bool} {ty : Option ValueType}, b.hasType id ty = true →
      (narrow = true → b.Narrow id) → (narrow || ty.any (· != .i64)) = true → b.Narrow id := by
    intro id narrow ty hty htop h
    rcases Bool.or_eq_true_iff.1 h with h | h
    · exact htop h
    · exact Block.narrow_of_hasType hty h
  induction s using Shape.induction with
  | node ident ty op args ih =>
    intro e narrow hlies htop hname
    obtain ⟨⟨hty, n, hn, rfl, hlength, horder⟩, hargs⟩ := everywhere_node.1 hlies
    rw [narrowNames, List.mem_append] at hname
    rcases hname with hname | hname
    · split at hname
      · exact ⟨[], _, at?_nil _, Option.mem_toList.1 hname, hhere hty htop ‹_›⟩
      · cases hname
    · -- The name is one of an argument, and what is known of that argument comes from its place.
      obtain ⟨k, a, ha, hname⟩ := mem_narrowNamesOfAll.1 hname
      rw [Nat.zero_add] at hname
      have hk : k < n.inputs.length := hlength ▸ (List.getElem?_eq_some_iff.1 ha).1
      obtain ⟨pos, s', hpos, hident, hnarrow⟩ := ih a (List.mem_of_getElem? ha)
        (fun pos => e (k :: pos)) _ (hargs k a ha)
        (narrow_of_narrowsOperand hb hn horder hk (hhere hty htop)) hname
      exact ⟨k :: pos, s', (at?_node_cons ..).2 ⟨a, ha, hpos⟩, hident, hnarrow⟩
  | producer ident ty | constant ident ty value =>
    intro e narrow hlies htop hname
    obtain ⟨hty, -⟩ := hlies [] _ (at?_nil _)
    rw [narrowNames] at hname
    split at hname
    · exact ⟨[], _, at?_nil _, Option.mem_toList.1 hname, hhere hty htop ‹_›⟩
    · cases hname
  | inclusion ident group =>
    intro e narrow hlies htop hname
    rw [narrowNames] at hname
    split at hname
    · exact ⟨[], _, at?_nil _, by rw [List.mem_singleton.1 hname]; rfl, htop ‹_›⟩
    · cases hname
  | backreference ident =>
    intro e narrow hlies htop hname
    cases hname

end Shape

/-- The node on which an identifier of a placed pattern lies is narrow, if its name is. An
identifier is introduced at one position, so the position that was found is the one that is meant.
-/
theorem Shape.Placed.narrow {b : Block} {inc : Inclusion} {id : NodeId} {p : Pattern} {m : Match}
    {e : Shape.Embedding} (he : Shape.Placed b inc p.root id (.start p id) m e)
    (hb : b.WellTyped) (hnd : p.root.idents.Nodup) {narrow : Bool}
    (hid : narrow = true → b.Narrow id) {pos : Shape.Position} {s : Shape} {name : String}
    (hpos : p.root.at? pos = some s) (hs : s.ident? = some name)
    (hname : name ∈ p.root.narrowNames narrow) : b.Narrow (e pos) := by
  obtain ⟨pos', s', hpos', hs', hnarrow⟩ := Shape.exists_narrow_of_mem_narrowNames hb p.root e
    narrow he.lies (by rw [he.top]; exact hid) hname
  rw [Shape.position_unique hnd hpos hs hpos' hs']
  exact hnarrow

end TileSelect
