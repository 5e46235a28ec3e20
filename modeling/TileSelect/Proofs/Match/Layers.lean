import Mathlib.Data.Finset.Card
import Mathlib.Data.Finset.Prod
import Mathlib.Logic.Relation
import TileSelect.Proofs.Block.Reachability
import TileSelect.Proofs.Match.Embedding
import TileSelect.Proofs.Tables
/-!
Nested inclusions: more layers never change an answer, and there are always enough.

Groups come into matching in layers, and the bottom layer answers with a fault. Two facts make
the layers invisible. Whatever a layer answers, every higher layer answers too; so the included
groups satisfy the equation that one would have written down without layers (`included_fix`).
And if no group includes itself at its root and the operands form no cycle, the bottom is never
reached: entering a group at a node either goes to an operand or keeps the node and goes along a
root inclusion, so no pair of a group and a node is met twice on the way down. There are
`nodes * groups` such pairs, and the layers are one more (`included_total`).
-/

set_option autoImplicit false

namespace TileSelect

open Relation

/-! ## More layers -/

/-- Whatever the first answers, the second answers too. -/
def Inclusion.Le (f g : Inclusion) : Prop :=
  ∀ group id ms, f group id = .ok ms → g group id = .ok ms

/-- Every alternative that is found was found at the node where it was looked for. -/
def Inclusion.Rooted (f : Inclusion) : Prop :=
  ∀ group id ms, f group id = .ok ms → ∀ m ∈ ms, m.root = id

namespace Shape

variable {b : Block} {f g : Inclusion}

/-- Arguments keep their outcome if each of them does. The induction is on the arguments, and the
records are the same on both sides throughout. -/
theorem attemptAll_mono {ss : List Shape}
    (ih : ∀ s ∈ ss, ∀ id r a, attempt b f s id r = .ok a → attempt b g s id r = .ok a) :
    ∀ ids r a, attemptAll b f ss ids r = .ok a → attemptAll b g ss ids r = .ok a := by
  induction ss with
  | nil =>
    intro ids r a h
    exact h
  | cons s ss ihss =>
    intro ids r a h
    cases ids with
    | nil => exact h
    | cons id ids =>
      rw [attemptAll, bind_eq_ok] at h
      obtain ⟨a₁, h₁, h⟩ := h
      rw [attemptAll, ih s List.mem_cons_self id r a₁ h₁, ok_bind]
      -- The first argument has matched, and then the others are tried, or it has not.
      split at h
      · rename_i hm
        rw [if_pos hm]
        exact ihss (fun s' hs' => ih s' (List.mem_cons_of_mem s hs')) ids a₁.record a h
      · rename_i hm
        rw [if_neg hm]
        exact h

/-- An attempt keeps its outcome when inclusions can do more. Only an outcome is kept and not a
fault: an inclusion that had no answer may have one now. -/
theorem attempt_mono (hfg : Inclusion.Le f g) (s : Shape) :
    ∀ id r a, attempt b f s id r = .ok a → attempt b g s id r = .ok a := by
  induction s using Shape.induction with
  | node ident ty op args ih =>
    intro id r a h
    have hall := attemptAll_mono (b := b) ih
    rw [attempt, bind_eq_ok] at h
    obtain ⟨n, hn, h⟩ := h
    rw [attempt, hn, ok_bind]
    split at h
    · rename_i hcond
      rw [if_pos hcond]
      -- The arguments in the order of the operands, and the other way around if need be.
      obtain ⟨first, hfirst, h⟩ := bind_eq_ok.1 h
      rw [hall _ _ _ hfirst, ok_bind]
      split at h
      · rename_i hm
        rw [if_pos hm]
        exact h
      · rename_i hm
        rw [if_neg hm]
        split at h
        · rename_i hcomm
          rw [if_pos hcomm]
          obtain ⟨second, hsecond, h⟩ := bind_eq_ok.1 h
          rw [hall _ _ _ hsecond, ok_bind]
          exact h
        · rename_i hcomm
          rw [if_neg hcomm]
          exact h
    · rename_i hcond
      rw [if_neg hcond]
      exact h
  | inclusion ident group =>
    intro id r a h
    rw [attempt, bind_eq_ok] at h
    obtain ⟨n, hn, h⟩ := h
    obtain ⟨ms, hms, h⟩ := bind_eq_ok.1 h
    rw [attempt, hn, ok_bind, hfg group id ms hms, ok_bind]
    exact h
  | producer | constant | backreference =>
    intro id r a h
    rw [attempt] at h ⊢
    exact h

end Shape

/-- A pattern keeps its outcome when inclusions can do more. -/
theorem Pattern.matchWith_mono {b : Block} {f g : Inclusion} (hfg : Inclusion.Le f g)
    {id : NodeId} {p : Pattern} {o : Option Match} (h : p.matchWith b f id = .ok o) :
    p.matchWith b g id = .ok o := by
  rw [matchWith, bind_eq_ok] at h
  obtain ⟨a, ha, h⟩ := h
  rw [matchWith, Shape.attempt_mono hfg p.root id _ a ha, ok_bind]
  exact h

namespace Tables

variable {t : Tables} {b : Block}

/-- One more layer answers whatever the layers below it answer. The bottom layer answers nothing,
and from there the induction goes up. -/
theorem alternatives_le (n : Nat) :
    Inclusion.Le (t.alternatives b n) (t.alternatives b (n + 1)) := by
  induction n with
  | zero =>
    intro group id ms h
    cases h
  | succ n ih =>
    intro group id ms h
    exact filterMapM_mono (fun p _ o => Pattern.matchWith_mono ih) h

/-- **Included groups without layers.** The alternatives found for a group are the records of those
of its patterns that match. This is the equation that the recursion of the matcher would satisfy. -/
theorem included_fix {group : String} {id : NodeId} {ms : List Match}
    (h : t.included b group id = .ok ms) : (t.group group).filterMapM (t.matchAt b id) = .ok ms :=
  filterMapM_mono (fun _ _ _ => Pattern.matchWith_mono (alternatives_le _)) h

/-- What any layer finds at a node are records of that node, since a pattern is matched from a
record that starts there. -/
theorem rooted_alternatives (n : Nat) : (t.alternatives b n).Rooted := by
  intro group id ms h m hm
  cases n with
  | zero => cases h
  | succ n =>
    obtain ⟨p, -, hp⟩ := (mem_of_filterMapM h m).1 hm
    exact (Pattern.matchWith_head hp).2

end Tables

/-! ## Enough layers -/

namespace Shape

variable {b : Block} {inc : Inclusion}

/-- The node that a position can lie on if its top lies on `id`: that node itself, or some node
further down. -/
def Below (b : Block) (pos : Position) (id k : NodeId) : Prop :=
  match pos with
  | [] => k = id
  | _ :: _ => TransGen b.Operand id k

/-- In a block where nothing points outside, what is below a node of the block is a node of the
block. The induction goes along the position. -/
theorem lt_size_of_below (hb : b.OperandsInRange) {pos : Position} {id k : NodeId}
    (hid : id < b.size) (h : Below b pos id k) : k < b.size := by
  cases pos with
  | nil =>
    rw [show k = id from h]
    exact hid
  | cons =>
    obtain ⟨y, -, hyk⟩ := TransGen.tail'_iff.1 h
    exact hb y k hyk

/-- Below an operand is below the node. -/
theorem below_cons {j : Nat} {pos : Position} {id x k : NodeId} (hx : b.Operand id x)
    (h : Below b pos x k) : Below b (j :: pos) id k := by
  cases pos with
  | nil =>
    rw [show k = x from h]
    exact .single hx
  | cons => exact .head hx h

/-- Inclusions can do what a shape asks of them, wherever below a node that may be. -/
def Served (b : Block) (inc : Inclusion) (s : Shape) (id : NodeId) : Prop :=
  ∀ pos ident group k, s.at? pos = some (.inclusion ident group) → Below b pos id k →
    ∃ ms, inc group k = .ok ms

/-- Arguments come to an end if each of them does, whatever the records on the way. The first that
fails ends the attempt early. -/
theorem attemptAll_total {ss : List Shape}
    (ih : ∀ s ∈ ss, ∀ id r, id < b.size → Served b inc s id → ∃ a, attempt b inc s id r = .ok a) :
    ∀ ids r, (∀ x ∈ ids, x < b.size) → (∀ s ∈ ss, ∀ x ∈ ids, Served b inc s x) →
      ∃ a, attemptAll b inc ss ids r = .ok a := by
  induction ss with
  | nil =>
    intro ids r _ _
    exact ⟨_, rfl⟩
  | cons s ss ihss =>
    intro ids r hids hserved
    cases ids with
    | nil => exact ⟨_, rfl⟩
    | cons id ids =>
      obtain ⟨a, ha⟩ := ih s List.mem_cons_self id r (hids id List.mem_cons_self)
        (hserved s List.mem_cons_self id List.mem_cons_self)
      rw [attemptAll, ha, ok_bind]
      -- After an argument that matched the others are tried; otherwise this was the end.
      split
      · exact ihss (fun s' hs' => ih s' (List.mem_cons_of_mem s hs')) ids a.record
          (fun x hx => hids x (List.mem_cons_of_mem id hx))
          fun s' hs' x hx => hserved s' (List.mem_cons_of_mem s hs') x (List.mem_cons_of_mem id hx)
      · exact ⟨a, rfl⟩

/-- An attempt has an outcome if its inclusions have. Both orders of the operands are shown to come
to an end first, whether or not the second is tried. -/
theorem attempt_total (hb : b.OperandsInRange) (s : Shape) :
    ∀ id r, id < b.size → Served b inc s id → ∃ a, attempt b inc s id r = .ok a := by
  induction s using Shape.induction with
  | node ident ty op args ih =>
    intro id r hid hserved
    obtain ⟨n, hn⟩ := Block.node?_isSome_iff.2 hid
    -- In any order the operands are nodes of the block, and what the arguments ask for is below
    -- this node.
    have hargs : ∀ operands, (∀ x ∈ operands, x ∈ n.inputs) →
        ∃ a, attemptAll b inc args operands r = .ok a := by
      intro operands hsub
      have hop : ∀ x ∈ operands, b.Operand id x := fun x hx => ⟨n, hn, hsub x hx⟩
      refine attemptAll_total ih operands r (fun x hx => hb id x (hop x hx)) ?_
      intro a ha x hx pos ident' group k hpos hk
      obtain ⟨j, hj⟩ := List.mem_iff_getElem?.1 ha
      exact hserved (j :: pos) ident' group k ((at?_node_cons ..).2 ⟨a, hj, hpos⟩)
        (below_cons (hop x hx) hk)
    obtain ⟨first, hfirst⟩ := hargs n.inputs fun x hx => hx
    obtain ⟨second, hsecond⟩ := hargs n.inputs.reverse fun x hx => List.mem_reverse.1 hx
    rw [attempt, Block.node_eq_ok.2 hn, ok_bind, hfirst, hsecond]
    simp only [ok_bind]
    split
    · split
      · exact ⟨_, rfl⟩
      · split
        · split <;> exact ⟨_, rfl⟩
        · exact ⟨_, rfl⟩
    · exact ⟨_, rfl⟩
  | inclusion ident group =>
    intro id r hid hserved
    obtain ⟨n, hn⟩ := Block.node?_isSome_iff.2 hid
    obtain ⟨ms, hms⟩ := hserved [] ident group id rfl rfl
    rw [attempt, Block.node_eq_ok.2 hn, ok_bind, hms, ok_bind]
    split <;> exact ⟨_, rfl⟩
  | producer | constant | backreference =>
    intro id r hid hserved
    obtain ⟨n, hn⟩ := Block.node?_isSome_iff.2 hid
    rw [attempt, Block.node_eq_ok.2 hn, ok_bind]
    split <;> exact ⟨_, rfl⟩

end Shape

namespace Tables

/-- A group has an alternative that is nothing but an inclusion of another group. -/
def RootIncludes (t : Tables) (g g' : String) : Prop :=
  ∃ p ∈ t.group g, ∃ ident, p.root = .inclusion ident g'

/-- No group includes itself at the root, directly or through other groups. -/
def RootAcyclic (t : Tables) : Prop := ∀ g, ¬ TransGen t.RootIncludes g g

/-- No group includes itself at its root if no pattern is nothing but an inclusion. This is easy to
check, and holds of many tables. -/
theorem rootAcyclic_of_roots {ps : List Pattern}
    (h : ∀ p ∈ ps, ∀ ident g, p.root ≠ .inclusion ident g) : (ofPatterns ps).RootAcyclic := by
  intro g hcycle
  obtain ⟨g', ⟨p, hp, ident, hroot⟩, -⟩ := TransGen.head'_iff.1 hcycle
  exact h p (mem_group_ofPatterns.1 hp).1 ident g' hroot

/-- Looking for a group at a node may lead to looking for another group at another node. -/
def Enters (t : Tables) (b : Block) (x y : String × NodeId) : Prop :=
  ∃ p ∈ t.group x.1, ∃ pos ident,
    p.root.at? pos = some (.inclusion ident y.1) ∧ Shape.Below b pos x.2 y.2

variable {t : Tables} {b : Block}

/-- On the way down the node moves along operands or the group along root inclusions. Each step does
the one or the other, and as soon as a node has moved it never comes back, in a block without
cycles. -/
theorem descent_of_enters {x y : String × NodeId} (h : TransGen (t.Enters b) x y) :
    TransGen b.Operand x.2 y.2 ∨ (y.2 = x.2 ∧ TransGen t.RootIncludes x.1 y.1) := by
  have step : ∀ {x y : String × NodeId}, t.Enters b x y →
      TransGen b.Operand x.2 y.2 ∨ (y.2 = x.2 ∧ t.RootIncludes x.1 y.1) := by
    rintro x y ⟨p, hp, pos, ident, hpos, hbelow⟩
    cases pos with
    | nil =>
      rw [Shape.at?_nil, Option.some.injEq] at hpos
      exact .inr ⟨hbelow, p, hp, ident, hpos⟩
    | cons => exact .inl hbelow
  induction h with
  | single hxy =>
    rcases step hxy with h | ⟨h, hroot⟩
    · exact .inl h
    · exact .inr ⟨h, .single hroot⟩
  | tail _ hyz ih =>
    -- The way so far and the last step: if either has moved the node, the whole has.
    rcases ih with h | ⟨h, hroot⟩ <;> rcases step hyz with h' | ⟨h', hroot'⟩
    · exact .inl (h.trans h')
    · exact .inl (h'.symm ▸ h)
    · exact .inl (h ▸ h')
    · exact .inr ⟨h'.trans h, hroot.tail hroot'⟩

/-- Looking for a group at a node never leads to looking for it there again: neither the operands
nor the root inclusions form a cycle. -/
theorem not_enters_self (ht : t.RootAcyclic) (hb : b.OperandsAcyclic) (x : String × NodeId) :
    ¬ TransGen (t.Enters b) x x := by
  intro h
  rcases descent_of_enters h with hcycle | ⟨-, hcycle⟩
  · exact hb x.2 hcycle
  · exact ht x.1 hcycle

/-- A group without a name in the tables has no patterns. Looking for it finds nothing, and that at
once. -/
theorem group_eq_nil {g : String} (h : ¬ g ∈ t.groupNames) : t.group g = [] := by
  unfold group Index.get
  unfold groupNames Index.keys at h
  generalize t.groups.entries = entries at h ⊢
  induction entries with
  | nil => rfl
  | cons entry rest ih =>
    obtain ⟨k, items⟩ := entry
    rw [List.map_cons, List.mem_cons, not_or] at h
    rw [Index.itemsOf, if_neg (Ne.symm h.1)]
    exact ih h.2

open Classical in
/-- The pairs of a group and a node that can still be met. -/
noncomputable def ahead (t : Tables) (b : Block) (x : String × NodeId) :
    Finset (String × NodeId) :=
  (t.groupNames.toFinset ×ˢ Finset.range b.size).filter (TransGen (t.Enters b) x)

/-- What is ahead are the pairs that can be reached, as far as there are such groups and nodes. -/
theorem mem_ahead {x y : String × NodeId} :
    y ∈ t.ahead b x ↔ (y.1 ∈ t.groupNames ∧ y.2 < b.size) ∧ TransGen (t.Enters b) x y := by
  simp [ahead]

/-- Fewer pairs are ahead after a step than before it: all that is ahead then was ahead before, and
the pair that was entered is not ahead of itself. -/
theorem card_ahead_lt (hself : ∀ x, ¬ TransGen (t.Enters b) x x) {x y : String × NodeId}
    (hxy : t.Enters b x y) (hy : y.1 ∈ t.groupNames) (hsize : y.2 < b.size) :
    (t.ahead b y).card < (t.ahead b x).card := by
  refine Finset.card_lt_card ⟨fun z hz => ?_, fun hsub => ?_⟩
  · rw [mem_ahead] at hz ⊢
    exact ⟨hz.1, hz.2.head hxy⟩
  · have hin : y ∈ t.ahead b x := mem_ahead.2 ⟨⟨hy, hsize⟩, .single hxy⟩
    exact hself y (mem_ahead.1 (hsub hin)).2

/-- There are fewer pairs ahead of a group at a node than pairs at all, as it is not ahead of
itself. The number of pairs is the depth that the matcher is given. -/
theorem card_ahead_lt_mul (hself : ∀ x, ¬ TransGen (t.Enters b) x x) {x : String × NodeId}
    (hx : x.1 ∈ t.groupNames) (hsize : x.2 < b.size) :
    (t.ahead b x).card < b.size * t.groupNames.length := by
  have hin : x ∈ t.groupNames.toFinset ×ˢ Finset.range b.size := by
    simp [hx, hsize]
  have hlt : (t.ahead b x).card < (t.groupNames.toFinset ×ˢ Finset.range b.size).card := by
    refine Finset.card_lt_card ⟨fun z hz => ?_, fun hsub => ?_⟩
    · simpa using (mem_ahead.1 hz).1
    · exact hself x (mem_ahead.1 (hsub hin)).2
  rw [Finset.card_product, Finset.card_range, Nat.mul_comm] at hlt
  exact hlt.trans_le (Nat.mul_le_mul_left _ (List.toFinset_card_le _))

/-- A layer that is higher than what is ahead has an answer. The induction is on the layer, which
gets lower with every group that is entered, as does the number of pairs ahead. -/
theorem alternatives_total (ht : t.RootAcyclic) (hb : b.OperandsAcyclic)
    (hr : b.OperandsInRange) (n : Nat) :
    ∀ g id, id < b.size → 0 < n → (g ∈ t.groupNames → (t.ahead b (g, id)).card + 1 < n) →
      ∃ ms, t.alternatives b n g id = .ok ms := by
  induction n with
  | zero =>
    intro g id _ hpos _
    exact absurd hpos (Nat.lt_irrefl 0)
  | succ n ih =>
    intro g id hid _ hahead
    refine filterMapM_total fun p hp => ?_
    have hg : g ∈ t.groupNames := Decidable.byContradiction fun hg => by
      rw [group_eq_nil hg] at hp
      cases hp
    have hn := hahead hg
    -- Whatever the pattern includes is entered from here, so less is ahead of it.
    have hserved : Shape.Served b (t.alternatives b n) p.root id := by
      intro pos ident g' k hpos hbelow
      have hk : k < b.size := Shape.lt_size_of_below hr hid hbelow
      refine ih g' k hk (by omega) fun hg' => ?_
      have hstep : t.Enters b (g, id) (g', k) := ⟨p, hp, pos, ident, hpos, hbelow⟩
      have := card_ahead_lt (not_enters_self ht hb) hstep hg' hk
      omega
    obtain ⟨a, ha⟩ := Shape.attempt_total hr p.root id (.start p id) hid hserved
    exact ⟨_, by rw [Pattern.matchWith, ha]; rfl⟩

/-- **There are always enough layers.** If no group includes itself at its root and the operands
form no cycle, looking for a group at a node has an answer. The number of layers is that of all
pairs of a group and a node. -/
theorem included_total (ht : t.RootAcyclic) (hb : b.OperandsAcyclic) (hr : b.OperandsInRange)
    {g : String} {id : NodeId} (hid : id < b.size) : ∃ ms, t.included b g id = .ok ms := by
  refine alternatives_total ht hb hr _ g id hid (Nat.succ_pos _) fun hg => ?_
  have hlt := @card_ahead_lt_mul t b (not_enters_self ht hb) (g, id) hg hid
  rw [inclusionDepth]
  omega

/-- Matching a pattern has an outcome under the same conditions. -/
theorem matchAt_total (ht : t.RootAcyclic) (hb : b.OperandsAcyclic) (hr : b.OperandsInRange)
    {id : NodeId} (hid : id < b.size) (p : Pattern) : ∃ found, t.matchAt b id p = .ok found := by
  have hserved : Shape.Served b (t.included b) p.root id := fun pos ident g k _ hbelow =>
    included_total ht hb hr (Shape.lt_size_of_below hr hid hbelow)
  obtain ⟨a, ha⟩ := Shape.attempt_total hr p.root id (.start p id) hid hserved
  exact ⟨_, by rw [matchAt, Pattern.matchWith, ha]; rfl⟩

end Tables

end TileSelect
