import TileSelect.Match.Attempt
/-!
Positions in shapes, and what it means for a shape to lie on a block.

A position is a path from the top of a shape, the number of the argument to go into at every
step. An *embedding* of a shape sends its positions to nodes. It is a total function on paths,
of which only the values at positions of the shape matter: embeddings of the arguments then join
to one of the operation without any bookkeeping, as `e (k :: rest)` is the embedding of the
`k`-th argument.

`Shape.LiesOn` is what one position asks of its node, case by case and without any word about
how matching proceeds. What it means that a group is admitted at a node, or that an identifier
stands for one, is left open here: the matcher and the declarative reading fill it in
differently, and the two are compared later.
-/

set_option autoImplicit false

namespace TileSelect

namespace Shape

/-- A path from the top of a shape to one of its parts. -/
abbrev Position := List Nat

/-- Where the positions of a shape lie. -/
abbrev Embedding := Position → NodeId

/-- Induction on shapes, with the hypothesis for every argument of an operation. The one that comes
with the type has a second statement for lists of arguments, which would be the same every time. -/
@[elab_as_elim] theorem induction {motive : Shape → Prop}
    (node : ∀ ident ty op args, (∀ a ∈ args, motive a) → motive (.node ident ty op args))
    (producer : ∀ ident ty, motive (.producer ident ty))
    (constant : ∀ ident ty value, motive (.constant ident ty value))
    (inclusion : ∀ ident group, motive (.inclusion ident group))
    (backreference : ∀ ident, motive (.backreference ident)) (s : Shape) : motive s :=
  match s with
  | .node ident ty op args =>
    node ident ty op args fun a _ =>
      induction node producer constant inclusion backreference a
  | .producer ident ty => producer ident ty
  | .constant ident ty value => constant ident ty value
  | .inclusion ident group => inclusion ident group
  | .backreference ident => backreference ident

/-! ## Positions -/

/-- The part of a shape at a position. -/
def at? : Shape → Position → Option Shape
  | s, [] => some s
  | .node _ _ _ args, k :: rest =>
    match args[k]? with
    | some a => a.at? rest
    | none => none
  | _, _ :: _ => none

@[simp] theorem at?_nil (s : Shape) : s.at? [] = some s := by
  cases s <;> rfl

/-- A position that goes on below an operation goes on in one of its arguments. -/
theorem at?_node_cons (ident : Option String) (ty : Option ValueType) (op : Operation)
    (args : List Shape) (k : Nat) (rest : Position) (s : Shape) :
    (node ident ty op args).at? (k :: rest) = some s
      ↔ ∃ a, args[k]? = some a ∧ a.at? rest = some s := by
  rw [at?]
  cases args[k]? <;> simp

/-- What stands below a position of an operation stands below one of its arguments; so what stands
at the end of a path has an operation before it. -/
theorem at?_concat {s s' : Shape} {pos : Position} {k : Nat} (h : s.at? (pos ++ [k]) = some s') :
    ∃ ident ty op args, s.at? pos = some (.node ident ty op args) ∧ args[k]? = some s' := by
  induction pos generalizing s with
  | nil =>
    cases s with
    | node ident ty op args =>
      rw [List.nil_append, at?_node_cons] at h
      obtain ⟨a, ha, h⟩ := h
      rw [at?_nil, Option.some.injEq] at h
      exact ⟨ident, ty, op, args, at?_nil _, h ▸ ha⟩
    | producer | constant | inclusion | backreference => cases h
  | cons j pos ih =>
    cases s with
    | node ident ty op args =>
      rw [List.cons_append, at?_node_cons] at h
      obtain ⟨a, ha, h⟩ := h
      obtain ⟨ident', ty', op', args', hpos, hk⟩ := ih h
      exact ⟨ident', ty', op', args', (at?_node_cons ..).2 ⟨a, ha, hpos⟩, hk⟩
    | producer | constant | inclusion | backreference => cases h

/-- What stands at an argument stands below the operation, at the position that ends with the number
of the argument. -/
theorem at?_concat_of_getElem? {s a : Shape} {pos : Position} {ident : Option String}
    {ty : Option ValueType} {op : Operation} {args : List Shape} {k : Nat}
    (hpos : s.at? pos = some (.node ident ty op args)) (ha : args[k]? = some a) :
    s.at? (pos ++ [k]) = some a := by
  induction pos generalizing s with
  | nil =>
    rw [at?_nil, Option.some.injEq] at hpos
    subst hpos
    exact (at?_node_cons ..).2 ⟨a, ha, at?_nil a⟩
  | cons j pos ih =>
    cases s with
    | node ident' ty' op' args' =>
      obtain ⟨c, hc, hpos⟩ := (at?_node_cons ..).1 hpos
      exact (at?_node_cons ..).2 ⟨c, hc, ih hpos⟩
    | producer | constant | inclusion | backreference => cases hpos

/-! ## Somewhere and everywhere -/

/-- Something holds at some position and its node. -/
def Somewhere (s : Shape) (e : Embedding) (P : Shape → NodeId → Prop) : Prop :=
  ∃ pos s', s.at? pos = some s' ∧ P s' (e pos)

/-- Something holds at every position, of its node and the nodes of its arguments. -/
def Everywhere (s : Shape) (e : Embedding) (Q : Shape → NodeId → (Nat → NodeId) → Prop) : Prop :=
  ∀ pos s', s.at? pos = some s' → Q s' (e pos) fun k => e (pos ++ [k])

variable {e : Embedding} {P : Shape → NodeId → Prop}
  {Q Q' : Shape → NodeId → (Nat → NodeId) → Prop}

/-- Something holds somewhere in an operation if it does at its node, or somewhere in one of its
arguments with the embedding cut off at the argument. -/
theorem somewhere_node {ident : Option String} {ty : Option ValueType} {op : Operation}
    {args : List Shape} :
    (node ident ty op args).Somewhere e P
      ↔ P (.node ident ty op args) (e [])
        ∨ ∃ (k : Nat) (a : Shape), args[k]? = some a ∧ a.Somewhere (fun pos => e (k :: pos)) P := by
  constructor
  · rintro ⟨pos, s', hpos, hP⟩
    -- The empty position is the top; any other one goes on in an argument.
    cases pos with
    | nil =>
      rw [at?_nil, Option.some.injEq] at hpos
      exact .inl (hpos ▸ hP)
    | cons k pos =>
      obtain ⟨a, ha, hpos⟩ := (at?_node_cons ..).1 hpos
      exact .inr ⟨k, a, ha, pos, s', hpos, hP⟩
  · rintro (hP | ⟨k, a, ha, pos, s', hpos, hP⟩)
    · exact ⟨[], _, at?_nil _, hP⟩
    · exact ⟨k :: pos, s', (at?_node_cons ..).2 ⟨a, ha, hpos⟩, hP⟩

/-- Something holds everywhere in an operation if it does at its node, of the nodes of the
arguments, and everywhere in each argument. -/
theorem everywhere_node {ident : Option String} {ty : Option ValueType} {op : Operation}
    {args : List Shape} :
    (node ident ty op args).Everywhere e Q
      ↔ Q (.node ident ty op args) (e []) (fun k => e [k])
        ∧ ∀ (k : Nat) (a : Shape), args[k]? = some a →
            a.Everywhere (fun pos => e (k :: pos)) Q := by
  constructor
  · intro h
    refine ⟨h [] _ (at?_nil _), fun k a ha pos s' hpos => ?_⟩
    exact h (k :: pos) s' ((at?_node_cons ..).2 ⟨a, ha, hpos⟩)
  · -- The position is that of the top, or it goes on in some argument.
    rintro ⟨htop, hargs⟩ pos s' hpos
    cases pos with
    | nil =>
      rw [at?_nil, Option.some.injEq] at hpos
      exact hpos ▸ htop
    | cons k pos =>
      obtain ⟨a, ha, hpos⟩ := (at?_node_cons ..).1 hpos
      exact hargs k a ha pos s' hpos

/-- A shape without arguments has one position, so what holds somewhere holds at its node. -/
theorem somewhere_leaf {s : Shape} (h : ∀ k rest, s.at? (k :: rest) = none) :
    s.Somewhere e P ↔ P s (e []) := by
  constructor
  · rintro ⟨pos, s', hpos, hP⟩
    cases pos with
    | nil =>
      rw [at?_nil, Option.some.injEq] at hpos
      exact hpos ▸ hP
    | cons k rest =>
      rw [h k rest] at hpos
      cases hpos
  · intro hP
    exact ⟨[], s, at?_nil s, hP⟩

/-- In a shape without arguments, what holds everywhere is what holds at its node. There is nothing
that the positions below could be. -/
theorem everywhere_leaf {s : Shape} (h : ∀ k rest, s.at? (k :: rest) = none) :
    s.Everywhere e Q ↔ Q s (e []) fun k => e [k] := by
  constructor
  · intro hQ
    exact hQ [] s (at?_nil s)
  · intro hQ pos s' hpos
    cases pos with
    | nil =>
      rw [at?_nil, Option.some.injEq] at hpos
      exact hpos ▸ hQ
    | cons k rest =>
      rw [h k rest] at hpos
      cases hpos

/-- A weaker condition holds wherever a stronger one does. -/
theorem Everywhere.imp {s : Shape} (h : s.Everywhere e Q)
    (hQ : ∀ s' id child, Q s' id child → Q' s' id child) : s.Everywhere e Q' :=
  fun pos s' hpos => hQ _ _ _ (h pos s' hpos)

/-! ## Lying on a node -/

/-- The nodes of the arguments are the operands, in order or, where the two may be exchanged,
in the opposite order. -/
def InOrder (op : Operation) (operands : List NodeId) (child : Nat → NodeId) : Prop :=
  (∀ k x, operands[k]? = some x → child k = x)
    ∨ (op.isCommutative = true ∧ operands.length = 2
        ∧ ∀ k x, operands.reverse[k]? = some x → child k = x)

/-- In either order, every argument lies on an operand of the node, so that what lies below is read
by the node. -/
theorem InOrder.child_mem {op : Operation} {operands : List NodeId} {child : Nat → NodeId}
    (h : InOrder op operands child) {k : Nat} (hk : k < operands.length) :
    child k ∈ operands := by
  rcases h with h | ⟨-, -, h⟩
  · rw [h k _ (List.getElem?_eq_getElem hk)]
    exact List.getElem_mem hk
  · rw [← List.length_reverse] at hk
    rw [h k _ (List.getElem?_eq_getElem hk), ← List.mem_reverse]
    exact List.getElem_mem hk

/-- In either order, every operand has an argument on it, if there are as many arguments as
operands. No operand is left out. -/
theorem InOrder.exists_child {op : Operation} {operands : List NodeId} {child : Nat → NodeId}
    (h : InOrder op operands child) {x : NodeId} (hx : x ∈ operands) :
    ∃ k, k < operands.length ∧ child k = x := by
  rcases h with h | ⟨-, -, h⟩
  · obtain ⟨k, hk⟩ := List.mem_iff_getElem?.1 hx
    exact ⟨k, (List.getElem?_eq_some_iff.1 hk).1, h k x hk⟩
  · obtain ⟨k, hk⟩ := List.mem_iff_getElem?.1 (List.mem_reverse.2 hx)
    have hlt := (List.getElem?_eq_some_iff.1 hk).1
    rw [List.length_reverse] at hlt
    exact ⟨k, hlt, h k x hk⟩

/-- What the top of a shape asks of the node it lies on and of the nodes its arguments lie on,
given where groups are admitted and which nodes identifiers stand for. -/
def LiesOn (b : Block) (admits refers : String → NodeId → Prop) :
    Shape → NodeId → (Nat → NodeId) → Prop
  | .node _ ty op args, id, child =>
    b.hasType id ty = true
      ∧ ∃ n, b.node? id = some n ∧ n.op = op ∧ n.inputs.length = args.length
          ∧ InOrder op n.inputs child
  | .producer _ ty, id, _ =>
    b.hasType id ty = true ∧ ∃ n, b.node? id = some n ∧ n.isProducer = true
  | .constant _ ty value, id, _ =>
    b.hasType id ty = true
      ∧ ∃ n, b.node? id = some n ∧ n.op = .constant ∧ n.isProducer = true
          ∧ ∀ v, value = some v → n.literal? = some v
  | .inclusion _ group, id, _ => id < b.size ∧ admits group id
  | .backreference ident, id, _ => id < b.size ∧ refers ident id

/-- A shape that lies on a node still does if more groups are admitted and more identifiers refer.
Where a shape lies can be carried from one layer to the next with this. -/
theorem LiesOn.imp {b : Block} {admits admits' refers refers' : String → NodeId → Prop}
    (ha : ∀ g id, id < b.size → admits g id → admits' g id)
    (hr : ∀ i id, refers i id → refers' i id) {s : Shape} {id : NodeId}
    {child : Nat → NodeId} (h : s.LiesOn b admits refers id child) :
    s.LiesOn b admits' refers' id child := by
  cases s with
  | node | producer | constant => exact h
  | inclusion ident group => exact ⟨h.1, ha _ _ h.1 h.2⟩
  | backreference ident => exact ⟨h.1, hr _ _ h.2⟩

end Shape

end TileSelect
