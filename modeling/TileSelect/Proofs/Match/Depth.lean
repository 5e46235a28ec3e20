import Mathlib.Combinatorics.Pigeonhole
import Mathlib.Order.Interval.Finset.Nat
import TileSelect.Proofs.Match.Layers
/-!
The bound on nesting takes nothing away.

Groups come into matching in layers, and a fixed number of them is used. `Layers` shows that these
are enough where no group comes back to a node; here nothing is assumed of the tables or the block.
Whatever some number of layers answers, the layers that are used answer too
(`included_of_alternatives`), so they fail for want of layers only where every number of layers
does: where matching does not end.

The argument counts. A layer that is of use answers for some group at some node for the first time,
and different layers do so for different pairs. Above the first layer, the group has patterns and
the node is one of the block, so there are at most as many such layers as there are groups times
nodes; and a layer that is of no use is followed by none that is.
-/

set_option autoImplicit false

namespace TileSelect

/-- An attempt that ends has found its node. Every kind of shape looks the node up first. -/
theorem Shape.lt_size_of_attempt {b : Block} {inc : Inclusion} {s : Shape} {id : NodeId}
    {r : Match} {a : Attempt} (h : attempt b inc s id r = .ok a) : id < b.size := by
  cases s with
  | node | producer | constant | inclusion | backreference =>
    rw [attempt, bind_eq_ok] at h
    obtain ⟨n, hn, -⟩ := h
    exact Block.node?_isSome_iff.1 ⟨n, Block.node_eq_ok.1 hn⟩

/-- A pattern that was tried to an end was tried at a node of the block. -/
theorem Pattern.lt_size_of_matchWith {b : Block} {inc : Inclusion} {p : Pattern} {id : NodeId}
    {o : Option Match} (h : p.matchWith b inc id = .ok o) : id < b.size := by
  rw [matchWith, bind_eq_ok] at h
  obtain ⟨a, ha, -⟩ := h
  exact Shape.lt_size_of_attempt ha

namespace Tables

variable {t : Tables} {b : Block} {n m : Nat} {g : String} {id : NodeId} {ms : List Match}

/-- More layers answer at least as often as fewer, and give the same answers. -/
theorem alternatives_le_of_le (h : n ≤ m) :
    Inclusion.Le (t.alternatives b n) (t.alternatives b m) := by
  induction h with
  | refl => exact fun _ _ _ => fun h => h
  | step _ ih => exact fun group id ms h => alternatives_le _ group id ms (ih group id ms h)

/-! ## Layers of use -/

/-- One more layer answers nothing new. -/
def Saturated (t : Tables) (b : Block) (n : Nat) : Prop :=
  Inclusion.Le (t.alternatives b (n + 1)) (t.alternatives b n)

/-- The layer is the first to answer for this group at this node. -/
def FirstAnswers (t : Tables) (b : Block) (n : Nat) (x : String × NodeId) : Prop :=
  ∃ ms, t.alternatives b (n + 1) x.1 x.2 = .ok ms ∧ t.alternatives b n x.1 x.2 ≠ .ok ms

/-- If one more layer is of use, then there is a group and a node for which it is the first to
answer. -/
theorem exists_firstAnswers (h : ¬ t.Saturated b n) : ∃ x, t.FirstAnswers b n x := by
  unfold Saturated Inclusion.Le at h
  push Not at h
  obtain ⟨group, id, ms, hms, hne⟩ := h
  exact ⟨(group, id), ms, hms, hne⟩

/-- No two layers are the first for one pair: the later of them would not be first. The number of
the layer can therefore serve as a measure. -/
theorem FirstAnswers.unique {x : String × NodeId} (h : t.FirstAnswers b n x)
    (h' : t.FirstAnswers b m x) : n = m := by
  have hnot : ∀ n m, t.FirstAnswers b n x → t.FirstAnswers b m x → ¬ n < m := by
    rintro n m ⟨ms, hms, -⟩ ⟨ms', hms', hne⟩ hlt
    have hm : t.alternatives b m x.1 x.2 = .ok ms := alternatives_le_of_le hlt _ _ _ hms
    have hnext : t.alternatives b (m + 1) x.1 x.2 = .ok ms := alternatives_le m _ _ _ hm
    rw [hms', Except.ok.injEq] at hnext
    exact hne (hnext ▸ hm)
  have hle : ¬ n < m := hnot n m h h'
  have hge : ¬ m < n := hnot m n h' h
  omega

/-- Above the first layer, there are as many pairs to be the first for as groups and nodes. A group
without patterns is answered by the first layer already, for every node. -/
theorem FirstAnswers.inside {x : String × NodeId} (hn : 0 < n) (h : t.FirstAnswers b n x) :
    x.1 ∈ t.groupNames ∧ x.2 < b.size := by
  obtain ⟨ms, hms, hne⟩ := h
  obtain ⟨k, rfl⟩ : ∃ k, n = k + 1 := ⟨n - 1, by omega⟩
  rw [alternatives] at hms hne
  dsimp only at hms hne
  cases hgroup : t.group x.1 with
  | nil =>
    -- A group without patterns is answered for in the first layer.
    rw [hgroup] at hms hne
    exact absurd hms hne
  | cons p ps =>
    refine ⟨Decidable.byContradiction fun hx => ?_, ?_⟩
    · rw [group_eq_nil hx] at hgroup
      cases hgroup
    · rw [hgroup, List.filterMapM_cons, bind_eq_ok] at hms
      obtain ⟨o, ho, -⟩ := hms
      exact Pattern.lt_size_of_matchWith ho

/-- **Some layer up to the bound is of no use.** Otherwise each layer would be the first for a pair
of its own, and there are fewer pairs than layers. -/
theorem exists_saturated (t : Tables) (b : Block) :
    ∃ n, n ≤ t.inclusionDepth b ∧ t.Saturated b n := by
  by_contra hnone
  push Not at hnone
  have hfirst : ∀ n, ∃ x, n ≤ t.inclusionDepth b → t.FirstAnswers b n x := fun n => by
    by_cases hn : n ≤ t.inclusionDepth b
    · obtain ⟨x, hx⟩ := exists_firstAnswers (hnone n hn)
      exact ⟨x, fun _ => hx⟩
    · exact ⟨("", 0), fun h => absurd h hn⟩
  choose pair hpair using hfirst
  -- All layers but the first are sent to pairs of a group and a node, and there are too many.
  have hmaps : ∀ n ∈ Finset.Icc 1 (t.inclusionDepth b),
      pair n ∈ t.groupNames.toFinset ×ˢ Finset.range b.size := by
    intro n hn
    rw [Finset.mem_Icc] at hn
    have hinside := (hpair n hn.2).inside (by omega)
    simpa using hinside
  have hcard : (t.groupNames.toFinset ×ˢ Finset.range b.size).card
      < (Finset.Icc 1 (t.inclusionDepth b)).card := by
    have hnames : t.groupNames.toFinset.card * b.size ≤ b.size * t.groupNames.length := by
      rw [Nat.mul_comm]
      exact Nat.mul_le_mul_left _ (List.toFinset_card_le _)
    rw [Finset.card_product, Finset.card_range, Nat.card_Icc, inclusionDepth]
    omega
  obtain ⟨n, hn, m, hm, hne, heq⟩ :=
    Finset.exists_ne_map_eq_of_card_lt_of_maps_to hcard hmaps
  have hn' := hpair n (Finset.mem_Icc.1 hn).2
  have hm' := hpair m (Finset.mem_Icc.1 hm).2
  rw [heq] at hn'
  exact hne (hn'.unique hm')

/-- No layer above one that is of no use is of use. The layers are built one from the other, so they
stay the same once one of them adds nothing. -/
theorem Saturated.le (h : t.Saturated b n) (m : Nat) :
    Inclusion.Le (t.alternatives b m) (t.alternatives b n) := by
  induction m with
  | zero =>
    intro group id ms hms
    cases hms
  | succ m ih =>
    intro group id ms hms
    refine h group id ms ?_
    exact filterMapM_mono (fun p _ o => Pattern.matchWith_mono ih) hms

/-! ## The bound -/

/-- **The layers that are used answer whatever any number of layers answers.** So the bound on the
nesting is no limit of the matcher: it is never the reason for an answer that is missing. -/
theorem included_of_alternatives (n : Nat) :
    Inclusion.Le (t.alternatives b n) (t.included b) := by
  obtain ⟨k, hk, hsaturated⟩ := exists_saturated t b
  intro group id ms hms
  exact alternatives_le_of_le hk _ _ _ (hsaturated.le n group id ms hms)

/-- Matching that ends with some number of layers ends with those that are used, and finds the same.
-/
theorem matchAt_of_alternatives {p : Pattern} {o : Option Match}
    (h : p.matchWith b (t.alternatives b n) id = .ok o) : t.matchAt b id p = .ok o :=
  Pattern.matchWith_mono (included_of_alternatives n) h

end Tables

end TileSelect
