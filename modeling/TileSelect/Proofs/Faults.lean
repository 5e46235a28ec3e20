import TileSelect.Block.Basic
/-!
Reading facts off an answer that is not a fault.

Everything that looks nodes up answers in `Except Fault`. A proof about such an answer always
starts the same way: the answer is `.ok`, so every look-up on the way was `.ok` as well. This
module says that once, for sequencing and for the list walks the library uses, so that no later
proof opens the error monad by hand.

The walks are described by what they say about the *members* of a list, not by the order of the
steps: that is the form in which sets of nodes are used afterwards.
-/

set_option autoImplicit false

namespace TileSelect

variable {ε α β σ : Type}

/-! ## One step -/

/-- **Two steps succeed if each does.** With this, computations that can fail are taken apart step
by step, and are never unfolded. -/
theorem bind_eq_ok {x : Except ε α} {f : α → Except ε β} {y : β} :
    x >>= f = .ok y ↔ ∃ a, x = .ok a ∧ f a = .ok y := by
  cases x with
  | error e => simp [bind, Except.bind]
  | ok a => simp [bind, Except.bind]

/-- And fail if one of them does, which is the first one, or the second one with what the first has
given. -/
theorem bind_eq_error {x : Except ε α} {f : α → Except ε β} {e : ε} :
    x >>= f = .error e ↔ x = .error e ∨ ∃ a, x = .ok a ∧ f a = .error e := by
  cases x with
  | error e' => simp [bind, Except.bind]
  | ok a => simp [bind, Except.bind]

theorem pure_eq_ok {a b : α} : (pure a : Except ε α) = .ok b ↔ a = b := by
  simp [pure, Except.pure]

@[simp] theorem ok_bind (a : α) (f : α → Except ε β) : (Except.ok a >>= f) = f a := rfl

/-- A look-up succeeds exactly on the nodes of the block, and gives the node. -/
theorem Block.node_eq_ok {b : Block} {id : NodeId} {n : Node} :
    b.node id = .ok n ↔ b.node? id = some n := by
  unfold Block.node
  cases b.node? id <;> simp

/-- The nodes of a block are numbered without a gap, so a position has a node exactly if it lies
below the size. -/
theorem Block.node?_isSome_iff {b : Block} {id : NodeId} :
    (∃ n, b.node? id = some n) ↔ id < b.size := by
  unfold Block.node? Block.size
  constructor
  · rintro ⟨n, hn⟩
    exact (Array.getElem?_eq_some_iff.1 hn).1
  · intro h
    exact ⟨b.nodes[id], Array.getElem?_eq_getElem h⟩

/-! ## Walks along a list -/

/-- The results of a map are the results of members. Together with `map_of_mapM` this is all that is
used of maps that can fail. -/
theorem mem_of_mapM {f : α → Except ε β} {l : List α} {r : List β} (h : l.mapM f = .ok r) :
    ∀ y ∈ r, ∃ a ∈ l, f a = .ok y := by
  induction l generalizing r with
  | nil =>
    rw [List.mapM_nil, pure_eq_ok] at h
    subst h
    simp
  | cons a l ih =>
    rw [List.mapM_cons, bind_eq_ok] at h
    obtain ⟨c, hc, h⟩ := h
    obtain ⟨rest, hrest, h⟩ := bind_eq_ok.1 h
    rw [pure_eq_ok] at h
    subst h
    intro y hy
    rcases List.mem_cons.1 hy with rfl | hy
    · exact ⟨a, List.mem_cons_self, hc⟩
    · obtain ⟨x, hx, hxy⟩ := ih hrest y hy
      exact ⟨x, List.mem_cons_of_mem a hx, hxy⟩

/-- A map keeps what each of its steps keeps, in order. With a view of the argument and one of the
result, the two lists look the same. -/
theorem map_of_mapM {γ : Type} {f : α → Except ε β} {after : β → γ} {before : α → γ} {l : List α}
    {r : List β} (hstep : ∀ a ∈ l, ∀ y, f a = .ok y → after y = before a)
    (h : l.mapM f = .ok r) : r.map after = l.map before := by
  induction l generalizing r with
  | nil =>
    rw [List.mapM_nil, pure_eq_ok] at h
    subst h
    rfl
  | cons a l ih =>
    rw [List.mapM_cons, bind_eq_ok] at h
    obtain ⟨y, hy, h⟩ := h
    obtain ⟨rest, hrest, h⟩ := bind_eq_ok.1 h
    rw [pure_eq_ok] at h
    subst h
    rw [List.map_cons, List.map_cons, hstep a List.mem_cons_self y hy,
      ih (fun x hx => hstep x (List.mem_cons_of_mem a hx)) hrest]

/-- A map fails where one of its members does, with the fault of that member. It is the first that
fails, but this is not needed. -/
theorem exists_of_mapM_error {f : α → Except ε β} {l : List α} {e : ε}
    (h : l.mapM f = .error e) : ∃ a ∈ l, f a = .error e := by
  induction l with
  | nil => cases h
  | cons a l ih =>
    rw [List.mapM_cons, bind_eq_error] at h
    rcases h with h | ⟨b, -, h⟩
    · exact ⟨a, List.mem_cons_self, h⟩
    · rcases bind_eq_error.1 h with h | ⟨rest, -, h⟩
      · obtain ⟨x, hx, hfault⟩ := ih h
        exact ⟨x, List.mem_cons_of_mem a hx, hfault⟩
      · cases h

/-- The results of a filtering map are the results found for members, and all of them, since it ends
well only if none of the steps failed. -/
theorem mem_of_filterMapM {f : α → Except ε (Option β)} {l : List α} {r : List β}
    (h : l.filterMapM f = .ok r) (y : β) : y ∈ r ↔ ∃ a ∈ l, f a = .ok (some y) := by
  induction l generalizing r with
  | nil =>
    rw [List.filterMapM_nil, pure_eq_ok] at h
    subst h
    simp
  | cons a l ih =>
    rw [List.filterMapM_cons, bind_eq_ok] at h
    obtain ⟨o, ho, h⟩ := h
    -- A member for which nothing is found leaves the results as they are.
    cases o with
    | none =>
      rw [ih h]
      simp [ho]
    | some b =>
      obtain ⟨rest, hrest, h⟩ := bind_eq_ok.1 h
      rw [pure_eq_ok] at h
      subst h
      rw [List.mem_cons, ih hrest]
      simp [ho, eq_comm]

/-- A filtering map succeeds if every member does, whether or not there is a result for it. -/
theorem filterMapM_total {f : α → Except ε (Option β)} {l : List α}
    (h : ∀ a ∈ l, ∃ o, f a = .ok o) : ∃ r, l.filterMapM f = .ok r := by
  induction l with
  | nil => exact ⟨[], rfl⟩
  | cons a l ih =>
    obtain ⟨o, ho⟩ := h a List.mem_cons_self
    obtain ⟨rest, hrest⟩ := ih fun x hx => h x (List.mem_cons_of_mem a hx)
    rw [List.filterMapM_cons, ho, ok_bind]
    cases o with
    | none => exact ⟨rest, hrest⟩
    | some b => exact ⟨b :: rest, by rw [hrest]; rfl⟩

/-- A filtering map keeps its answer when the function is replaced by one that answers the same
wherever the first answered. The new function may answer where the first one failed. -/
theorem filterMapM_mono {f g : α → Except ε (Option β)} {l : List α} {r : List β}
    (hfg : ∀ a ∈ l, ∀ o, f a = .ok o → g a = .ok o) (h : l.filterMapM f = .ok r) :
    l.filterMapM g = .ok r := by
  induction l generalizing r with
  | nil => exact h
  | cons a l ih =>
    have hrest : ∀ x ∈ l, ∀ o, f x = .ok o → g x = .ok o := fun x hx =>
      hfg x (List.mem_cons_of_mem a hx)
    rw [List.filterMapM_cons, bind_eq_ok] at h
    obtain ⟨o, ho, h⟩ := h
    rw [List.filterMapM_cons, hfg a List.mem_cons_self o ho, ok_bind]
    cases o with
    | none => exact ih hrest h
    | some b =>
      obtain ⟨rest, hr, h⟩ := bind_eq_ok.1 h
      exact bind_eq_ok.2 ⟨rest, ih hrest hr, h⟩

/-- A filtering map looks at nothing but what its function gives for the members. -/
theorem filterMapM_congr {f g : α → Except ε (Option β)} {l : List α}
    (h : ∀ a ∈ l, f a = g a) : l.filterMapM f = l.filterMapM g := by
  induction l with
  | nil => rfl
  | cons a l ih =>
    rw [List.filterMapM_cons, List.filterMapM_cons, h a List.mem_cons_self,
      ih fun x hx => h x (List.mem_cons_of_mem a hx)]

/-- A filtering map fails where one of its members does, and with the fault of that member, as it
stops at the first one. -/
theorem exists_of_filterMapM_error {f : α → Except ε (Option β)} {l : List α} {e : ε}
    (h : l.filterMapM f = .error e) : ∃ a ∈ l, f a = .error e := by
  induction l with
  | nil => cases h
  | cons a l ih =>
    rw [List.filterMapM_cons, bind_eq_error] at h
    rcases h with h | ⟨o, -, h⟩
    · exact ⟨a, List.mem_cons_self, h⟩
    · have hrest : l.filterMapM f = .error e := by
        cases o with
        | none => exact h
        | some b =>
          rcases bind_eq_error.1 h with h | ⟨rest, -, h⟩
          · exact h
          · cases h
      obtain ⟨x, hx, hfault⟩ := ih hrest
      exact ⟨x, List.mem_cons_of_mem a hx, hfault⟩

/-- Filtering keeps what was kept before and adds the members that pass. The members are kept in a
list that grows at the front, so the order is not part of the statement. -/
private theorem mem_of_filterAuxM {p : α → Except ε Bool} {l acc r : List α}
    (h : l.filterAuxM p acc = .ok r) (y : α) :
    y ∈ r ↔ y ∈ acc ∨ (y ∈ l ∧ p y = .ok true) := by
  induction l generalizing acc with
  | nil =>
    rw [List.filterAuxM, pure_eq_ok] at h
    subst h
    simp
  | cons a l ih =>
    rw [List.filterAuxM, bind_eq_ok] at h
    obtain ⟨t, ht, h⟩ := h
    rw [ih h]
    cases t with
    | false =>
      have hne : ∀ x, p x = .ok true → x ≠ a := by
        rintro x hx rfl
        rw [ht] at hx
        cases hx
      simp only [cond_false, List.mem_cons]
      grind
    | true =>
      simp only [cond_true, List.mem_cons]
      grind

/-- Filtering keeps the members that pass. That it ended well means that the test has a result for
every member. -/
theorem mem_of_filterM {p : α → Except ε Bool} {l r : List α} (h : l.filterM p = .ok r) (y : α) :
    y ∈ r ↔ y ∈ l ∧ p y = .ok true := by
  rw [List.filterM, bind_eq_ok] at h
  obtain ⟨acc, hacc, h⟩ := h
  rw [pure_eq_ok] at h
  subst h
  rw [List.mem_reverse, mem_of_filterAuxM hacc]
  simp

/-- A search that finds nothing has looked at every member, and none of them failed or passed the
test. -/
theorem forall_of_findM?_none {p : α → Except ε Bool} {l : List α}
    (h : l.findM? p = .ok none) : ∀ a ∈ l, p a = .ok false := by
  induction l with
  | nil => simp
  | cons a l ih =>
    rw [List.findM?, bind_eq_ok] at h
    obtain ⟨t, ht, h⟩ := h
    cases t with
    | true => cases h
    | false =>
      intro x hx
      rcases List.mem_cons.1 hx with rfl | hx
      · exact ht
      · exact ih h x hx

/-- A search for a result that finds none has looked at every member, and none of them failed or had
one. -/
theorem forall_of_findSomeM?_none {f : α → Except ε (Option β)} {l : List α}
    (h : l.findSomeM? f = .ok none) : ∀ a ∈ l, f a = .ok none := by
  induction l with
  | nil => simp
  | cons a l ih =>
    rw [List.findSomeM?_cons, bind_eq_ok] at h
    obtain ⟨o, ho, h⟩ := h
    cases o with
    | some b => cases h
    | none =>
      intro x hx
      rcases List.mem_cons.1 hx with rfl | hx
      · exact ho
      · exact ih h x hx

/-- A filter succeeds if every member does. The library walks along the list with an accumulator,
which the induction has to allow for. -/
theorem filterM_total {p : α → Except ε Bool} {l : List α} (h : ∀ a ∈ l, ∃ t, p a = .ok t) :
    ∃ r, l.filterM p = .ok r := by
  have haux : ∀ acc, ∃ r, l.filterAuxM p acc = .ok r := by
    induction l with
    | nil => exact fun acc => ⟨acc, rfl⟩
    | cons a l ih =>
      intro acc
      obtain ⟨t, ht⟩ := h a List.mem_cons_self
      rw [List.filterAuxM, ht, ok_bind]
      exact ih (fun x hx => h x (List.mem_cons_of_mem a hx)) _
  obtain ⟨r, hr⟩ := haux []
  exact ⟨r.reverse, by rw [List.filterM, hr]; rfl⟩

/-- A search succeeds if every member does, although it need not come to the last of them. -/
theorem findM?_total {p : α → Except ε Bool} {l : List α} (h : ∀ a ∈ l, ∃ t, p a = .ok t) :
    ∃ o, l.findM? p = .ok o := by
  induction l with
  | nil => exact ⟨none, rfl⟩
  | cons a l ih =>
    obtain ⟨t, ht⟩ := h a List.mem_cons_self
    rw [List.findM?, ht, ok_bind]
    cases t with
    | true => exact ⟨some a, rfl⟩
    | false => exact ih fun x hx => h x (List.mem_cons_of_mem a hx)

/-- A search for a result succeeds if every member does. -/
theorem findSomeM?_total {f : α → Except ε (Option β)} {l : List α}
    (h : ∀ a ∈ l, ∃ o, f a = .ok o) : ∃ o, l.findSomeM? f = .ok o := by
  induction l with
  | nil => exact ⟨none, rfl⟩
  | cons a l ih =>
    obtain ⟨o, ho⟩ := h a List.mem_cons_self
    rw [List.findSomeM?_cons, ho, ok_bind]
    cases o with
    | some y => exact ⟨some y, rfl⟩
    | none => exact ih fun x hx => h x (List.mem_cons_of_mem a hx)

/-- **What every step keeps, a walk keeps.** The walk ends well, so every one of its steps did, and
the induction goes along them. -/
theorem foldlM_keeps {f : σ → α → Except ε σ} {l : List α} (Inv : σ → Prop)
    (hstep : ∀ s s' a, a ∈ l → Inv s → f s a = .ok s' → Inv s') {s s' : σ} (hs : Inv s)
    (h : l.foldlM f s = .ok s') : Inv s' := by
  induction l generalizing s with
  | nil =>
    rw [List.foldlM_nil, pure_eq_ok] at h
    exact h ▸ hs
  | cons a l ih =>
    rw [List.foldlM_cons, bind_eq_ok] at h
    obtain ⟨t, ht, h⟩ := h
    exact ih (fun s s' x hx => hstep s s' x (List.mem_cons_of_mem a hx))
      (hstep s t a List.mem_cons_self hs ht) h

end TileSelect
