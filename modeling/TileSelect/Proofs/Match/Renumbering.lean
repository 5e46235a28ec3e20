import TileSelect.Match.Attempt
import TileSelect.Proofs.Block.Renumbering
import TileSelect.Proofs.Expansion.Numbering
/-!
Matching on renumbered blocks.

A record on a block becomes a record on the renumbered block when every node in it is renamed, in
the records of its alternatives too. Matching commutes with that. It compares numbers only for
equality, at a reference back, so it is enough that different nodes get different numbers.

The statement is about outcomes as a whole, faults included: a fault names the node that is
missing, and the fault of the other run names it by its new number. So nothing has to be assumed of
the block, nor of the groups that the pattern includes.
-/

set_option autoImplicit false

namespace TileSelect

/-! ## Outcomes -/

section Outcomes

variable {α β α' β' : Type} {f : NodeId → NodeId}

/-- One outcome is the other under a renaming: the answer up to a view, or the same fault. -/
def Renamed (f : NodeId → NodeId) (view : α → α') (x : Except Fault α) (x' : Except Fault α') :
    Prop :=
  x' = (x.map view).mapError (Fault.rename f)

/-- Answers correspond if the second is the view of the first. -/
theorem Renamed.pure {view : α → α'} {a : α} {a' : α'} (h : a' = view a) :
    Renamed f view (Pure.pure a) (Pure.pure a') := by
  subst h
  rfl

/-- Computations that correspond step by step correspond as a whole. If the first step fails, then
it fails with the same fault in both runs, about the node under its new number. -/
theorem Renamed.bind {view : α → α'} {view' : β → β'} {x : Except Fault α}
    {x' : Except Fault α'} {k : α → Except Fault β} {k' : α' → Except Fault β'}
    (hx : Renamed f view x x') (hk : ∀ a, Renamed f view' (k a) (k' (view a))) :
    Renamed f view' (x >>= k) (x' >>= k') := by
  subst hx
  cases x with
  | error fault => rfl
  | ok a => exact hk a

/-- A test that has the same result in both runs, so that both go on in the same branch. -/
theorem Renamed.ite {view : α → α'} {c : Prop} [Decidable c] {x y : Except Fault α}
    {x' y' : Except Fault α'} (hx : Renamed f view x x') (hy : Renamed f view y y') :
    Renamed f view (if c then x else y) (if c then x' else y') := by
  split
  · exact hx
  · exact hy

theorem Renamed.eq_ok {view : α → α'} {x : Except Fault α} {x' : Except Fault α'}
    (h : Renamed f view x x') {a : α} (hx : x = .ok a) : x' = .ok (view a) := by
  subst hx
  exact h

/-- Filtering maps over the same members correspond if what is found for each member does. Where one
fails, the other fails. -/
theorem Renamed.filterMapM {γ : Type} {view : β → β'} {g : γ → Except Fault (Option β)}
    {g' : γ → Except Fault (Option β')} (h : ∀ c, Renamed f (Option.map view) (g c) (g' c))
    (l : List γ) : Renamed f (List.map view) (l.filterMapM g) (l.filterMapM g') := by
  induction l with
  | nil => exact .pure rfl
  | cons c l ih =>
    rw [List.filterMapM_cons, List.filterMapM_cons]
    refine (h c).bind fun o => ?_
    cases o with
    | none => exact ih
    | some y => exact ih.bind fun rest => .pure rfl

end Outcomes

/-- A node is found under its new number exactly if it is found under the old one. -/
theorem Block.Renumbers.node {f : NodeId → NodeId} {b b' : Block} (hr : b.Renumbers f b')
    (id : NodeId) : Renamed f (Node.rename f) (b.node id) (b'.node (f id)) := by
  rw [Block.node, Block.node, hr.node?]
  cases b.node? id <;> rfl

/-! ## Records -/

namespace Match

mutual

/-- The record with every node renamed. -/
def rename (f : NodeId → NodeId) : Match → Match
  | ⟨pattern, root, bindings, submatches, covered, inputs⟩ =>
    ⟨pattern, f root, bindings.map (Prod.map id f), renameGroups f submatches, covered.map f,
      inputs.map f⟩

/-- The same for the alternatives of included groups. -/
def renameGroups (f : NodeId → NodeId) :
    List (String × List Match) → List (String × List Match)
  | [] => []
  | (ident, ms) :: rest => (ident, renameAll f ms) :: renameGroups f rest

/-- The same for several records. -/
def renameAll (f : NodeId → NodeId) : List Match → List Match
  | [] => []
  | m :: ms => rename f m :: renameAll f ms

end

variable {f : NodeId → NodeId}

theorem renameAll_eq_map (ms : List Match) : renameAll f ms = ms.map (rename f) := by
  induction ms with
  | nil => rfl
  | cons m ms ih => rw [renameAll, ih, List.map_cons]

/-- Alternatives are renamed group by group, and the identifiers of the groups stay. -/
theorem renameGroups_eq_map (groups : List (String × List Match)) :
    renameGroups f groups = groups.map (Prod.map id (List.map (rename f))) := by
  induction groups with
  | nil => rfl
  | cons group rest ih =>
    rw [renameGroups, ih, renameAll_eq_map, List.map_cons, Prod.map, id]

@[simp] theorem pattern_rename (m : Match) : (m.rename f).pattern = m.pattern := by
  cases m
  rfl

@[simp] theorem root_rename (m : Match) : (m.rename f).root = f m.root := by
  cases m
  rfl

/-- A renamed record binds the same identifiers, to the new numbers. -/
@[simp] theorem bindings_rename (m : Match) :
    (m.rename f).bindings = m.bindings.map (Prod.map id f) := by
  cases m
  rfl

/-- It has the renamed alternatives under the same identifiers. -/
@[simp] theorem submatches_rename (m : Match) :
    (m.rename f).submatches = m.submatches.map (Prod.map id (List.map (rename f))) := by
  cases m
  exact renameGroups_eq_map _

@[simp] theorem covered_rename (m : Match) : (m.rename f).covered = m.covered.map f := by
  cases m
  rfl

@[simp] theorem inputs_rename (m : Match) : (m.rename f).inputs = m.inputs.map f := by
  cases m
  rfl

/-- A node may be captured before the renaming, or its new number after it. -/
theorem bind_rename (m : Match) (ident : Option String) (id : NodeId) :
    (m.bind ident id).rename f = (m.rename f).bind ident (f id) := by
  cases m
  cases ident with
  | none => rfl
  | some i => simp only [bind, rename, Keyed.insert_map]

theorem cover_rename (m : Match) (id : NodeId) :
    (m.cover id).rename f = (m.rename f).cover (f id) := by
  cases m
  simp only [cover, rename, NodeSet.map_insert]

theorem read_rename (m : Match) (id : NodeId) :
    (m.read id).rename f = (m.rename f).read (f id) := by
  cases m
  simp only [read, rename, NodeSet.map_insert]

/-- Alternatives may be added before the renaming, or the renamed ones after it. -/
theorem addAlternatives_rename (m : Match) (ident : String) (ms : List Match) :
    (m.addAlternatives ident ms).rename f
      = (m.rename f).addAlternatives ident (ms.map (rename f)) := by
  cases m
  simp only [addAlternatives, rename, renameGroups_eq_map, Keyed.insert_map]

/-- An identifier stands for the node it stood for, under its new number. For a group that is the
root of the first alternative, and renaming keeps them in order. -/
theorem resolve?_rename (m : Match) (ident : String) :
    (m.rename f).resolve? ident = (m.resolve? ident).map f := by
  rw [resolve?, resolve?, submatches_rename, bindings_rename, Keyed.get?_map, Keyed.get?_map]
  cases Keyed.get? ident m.submatches with
  | none => rfl
  | some ms =>
    cases ms with
    | nil => rfl
    | cons first rest => simp

end Match

/-- The outcome of an attempt with every node renamed. -/
def Attempt.rename (f : NodeId → NodeId) (a : Attempt) : Attempt := ⟨a.matched, a.record.rename f⟩

/-! ## Attempts -/

section Attempts

variable {f : NodeId → NodeId} {b b' : Block}

/-- The test of a width has the same outcome for a node and its new number. -/
theorem Block.Renumbers.hasType (hr : b.Renumbers f b') (id : NodeId) (ty : Option ValueType) :
    b'.hasType (f id) ty = b.hasType id ty := by
  cases ty with
  | none => rfl
  | some t => rw [Block.hasType, Block.hasType, hr.typeOf?]

/-- What inclusions find on one block is what they find on the other, renamed. -/
def Inclusion.Renames (f : NodeId → NodeId) (inc inc' : Inclusion) : Prop :=
  ∀ group id, Renamed f (List.map (Match.rename f)) (inc group id) (inc' group (f id))

namespace Shape

variable {inc inc' : Inclusion}

mutual

/-- **An attempt on the renumbered block is the attempt, renamed.** Every test looks at something
that renumbering does not change, except for references, where two nodes are compared: these are the
same exactly if their new numbers are. -/
theorem attempt_renamed (hr : b.Renumbers f b') (hinc : inc.Renames f inc') :
    ∀ (s : Shape) (id : NodeId) (r : Match),
      Renamed f (Attempt.rename f) (s.attempt b inc id r) (s.attempt b' inc' (f id) (r.rename f))
  | .node ident ty op args, id, r => by
    have hsucceeded : ∀ a : Attempt, Renamed f (Attempt.rename f)
        (pure (.succeeded ((a.record.cover id).bind ident id)))
        (pure (.succeeded (((a.rename f).record.cover (f id)).bind ident (f id)))) := by
      intro a
      refine .pure ?_
      rw [Attempt.succeeded, Attempt.rename, ← Match.cover_rename, ← Match.bind_rename]
      rfl
    rw [attempt, attempt]
    refine (hr.node id).bind fun n => ?_
    rw [hr.hasType]
    simp only [Node.rename, List.length_map]
    refine .ite ((attemptAll_renamed hr hinc args n.inputs r).bind fun first => ?_) (.pure rfl)
    refine .ite (hsucceeded first) (.ite ?_ (.pure rfl))
    rw [← List.map_reverse]
    refine (attemptAll_renamed hr hinc args n.inputs.reverse r).bind fun second => ?_
    exact .ite (hsucceeded second) (.pure rfl)
  | .producer ident ty, id, r => by
    rw [attempt, attempt]
    refine (hr.node id).bind fun n => ?_
    rw [hr.hasType, Node.isProducer_rename, ← Match.bind_rename, ← Match.read_rename]
    exact .ite (.pure rfl) (.pure rfl)
  | .constant ident ty value, id, r => by
    rw [attempt, attempt]
    refine (hr.node id).bind fun n => ?_
    rw [hr.hasType, Node.isProducer_rename, Node.literal?_rename, ← Match.bind_rename,
      ← Match.cover_rename]
    exact .ite (.pure rfl) (.pure rfl)
  | .inclusion ident group, id, r => by
    rw [attempt, attempt]
    refine (hr.node id).bind fun _ => (hinc group id).bind fun ms => ?_
    rw [List.isEmpty_map, ← Match.addAlternatives_rename]
    exact .ite (.pure rfl) (.pure rfl)
  | .backreference ident, id, r => by
    rw [attempt, attempt]
    refine (hr.node id).bind fun _ => ?_
    -- Two nodes are the same exactly if their new numbers are.
    have hsame : ((r.rename f).resolve? ident == some (f id)) = (r.resolve? ident == some id) := by
      rw [Match.resolve?_rename, ← Option.map_some, Bool.eq_iff_iff, beq_iff_eq, beq_iff_eq]
      exact (Option.map_injective hr.injective).eq_iff
    rw [hsame]
    exact .ite (.pure rfl) (.pure rfl)

/-- Several shapes come to the same under the new numbers, each tried at its own node, with the
record handed on in both runs. -/
theorem attemptAll_renamed (hr : b.Renumbers f b') (hinc : inc.Renames f inc') :
    ∀ (ss : List Shape) (ids : List NodeId) (r : Match),
      Renamed f (Attempt.rename f) (attemptAll b inc ss ids r)
        (attemptAll b' inc' ss (ids.map f) (r.rename f))
  | s :: ss, id :: ids, r => by
    rw [List.map_cons, attemptAll, attemptAll]
    refine (attempt_renamed hr hinc s id r).bind fun a => ?_
    exact .ite (attemptAll_renamed hr hinc ss ids a.record) (.pure rfl)
  | [], ids, r => .pure rfl
  | s :: ss, [], r => .pure rfl

end

end Shape

/-! ## Patterns and groups -/

/-- A pattern is matched on the renumbered block as it is on the block. -/
theorem Pattern.matchWith_renamed {inc inc' : Inclusion} (hr : b.Renumbers f b')
    (hinc : inc.Renames f inc') (id : NodeId) (p : Pattern) :
    Renamed f (Option.map (Match.rename f)) (p.matchWith b inc id)
      (p.matchWith b' inc' (f id)) := by
  refine (Shape.attempt_renamed hr hinc p.root id (.start p id)).bind fun a => .pure ?_
  rw [apply_ite (Option.map (Match.rename f))]
  rfl

namespace Tables

variable {t : Tables}

/-- Every layer finds the same alternatives on the renumbered block. The induction is on the layers,
and at the bottom neither block has an answer. -/
theorem alternatives_renamed (hr : b.Renumbers f b') (n : Nat) :
    (t.alternatives b n).Renames f (t.alternatives b' n) := by
  induction n with
  | zero => exact fun group id => rfl
  | succ n ih =>
    exact fun group id => .filterMapM (fun p => Pattern.matchWith_renamed hr ih id p) _

/-- **A pattern matches on the renumbered block as it does on the block.** The number of layers is
the same for both, since it depends only on how many nodes there are. -/
theorem matchAt_renamed (hr : b.Renumbers f b') (id : NodeId) (p : Pattern) :
    Renamed f (Option.map (Match.rename f)) (t.matchAt b id p) (t.matchAt b' (f id) p) := by
  have hdepth : t.inclusionDepth b' = t.inclusionDepth b := by
    rw [inclusionDepth, inclusionDepth, hr.size]
  rw [matchAt, matchAt, included, included, hdepth]
  exact Pattern.matchWith_renamed hr (alternatives_renamed hr _) id p

end Tables

end Attempts

end TileSelect
