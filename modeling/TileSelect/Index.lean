/-!
Ordered indexes: several items under each key.

Keys stand in the order of their first arrival, and the items of a key in the order in which
they came. Both orders show in output. What an index answers for a key is exactly the items
that arrived under it, in order (`get_ofList`): sorting items into an index loses none of them
and invents none. Listing a whole index gives all items back, key by key (`items_ofList`).
-/

set_option autoImplicit false

namespace TileSelect

/-- Items by key, keys in order of first arrival. -/
structure Index (κ α : Type) where
  entries : List (κ × List α)

namespace Index

variable {κ α : Type} [DecidableEq κ]

/-- Nothing under any key. -/
def empty : Index κ α := ⟨[]⟩

/-- Appends an item to the entry of its key, or opens an entry at the end. -/
def pushTo (key : κ) (a : α) : List (κ × List α) → List (κ × List α)
  | [] => [(key, [a])]
  | (k, items) :: rest =>
    if k = key then (k, items ++ [a]) :: rest else (k, items) :: pushTo key a rest

/-- Adds an item under a key. -/
def push (index : Index κ α) (key : κ) (a : α) : Index κ α := ⟨pushTo key a index.entries⟩

/-- The items of the first entry with this key. -/
def itemsOf (key : κ) : List (κ × List α) → List α
  | [] => []
  | (k, items) :: rest => if k = key then items else itemsOf key rest

/-- The items under a key, in order of arrival; none for an unknown key. -/
def get (index : Index κ α) (key : κ) : List α := itemsOf key index.entries

/-- The keys, in order of first arrival. -/
def keys (index : Index κ α) : List κ := index.entries.map Prod.fst

/-- Every item, key by key. -/
def items (index : Index κ α) : List α := index.entries.flatMap Prod.snd

/-- The index of a list of items, each under the key that is found for it; an item without a
key is left out. -/
def ofList (key : α → Option κ) (l : List α) : Index κ α :=
  l.foldl (fun index a => match key a with | some k => index.push k a | none => index) empty

/-- An item that arrives is found last under its own key, and under no other key. This holds of the
entries in any order, because only the first entry with a key is ever looked at or added to. -/
theorem itemsOf_pushTo (key other : κ) (a : α) (entries : List (κ × List α)) :
    itemsOf other (pushTo key a entries)
      = itemsOf other entries ++ if other = key then [a] else [] := by
  induction entries with
  | nil => grind [pushTo, itemsOf]
  | cons entry rest ih => grind [pushTo, itemsOf]

/-- The same for an index: adding an item changes what one key answers, and that by the item alone.
-/
theorem get_push (index : Index κ α) (key other : κ) (a : α) :
    (index.push key a).get other = index.get other ++ if other = key then [a] else [] :=
  itemsOf_pushTo key other a index.entries

/-- **An index answers what arrived.** Under each key stand the items with that key, in the order of
the list. The induction is on the list with the index that was filled so far left open. -/
theorem get_ofList (key : α → Option κ) (l : List α) (k : κ) :
    (ofList key l).get k = l.filter fun a => decide (key a = some k) := by
  -- The fold carries an index, so the statement is about any index to start from.
  suffices h : ∀ start : Index κ α,
      (l.foldl (fun index a => match key a with | some k => index.push k a | none => index)
        start).get k = start.get k ++ l.filter fun a => decide (key a = some k) by
    simpa [ofList, empty, get, itemsOf] using h empty
  induction l with
  | nil => simp
  | cons a l ih =>
    intro start
    rw [List.foldl_cons, ih]
    cases hk : key a with
    | none => simp [hk]
    | some k' =>
      by_cases hkk : k = k'
      · subst hkk; simp [get_push, hk]
      · have hne : ¬ k' = k := fun h => hkk h.symm
        simp [get_push, hk, hkk, hne]

/-! ## Listing all items -/

/-- No item is lost or doubled when one is added: read entry by entry, the items are the old ones
and the new one, though it may stand in the middle. -/
theorem perm_pushTo (key : κ) (a : α) (entries : List (κ × List α)) :
    ((pushTo key a entries).flatMap Prod.snd).Perm (entries.flatMap Prod.snd ++ [a]) := by
  induction entries with
  | nil => simp [pushTo]
  | cons entry rest ih =>
    obtain ⟨k, items⟩ := entry
    rw [pushTo]
    split
    · simp only [List.flatMap_cons, List.append_assoc]
      exact List.perm_append_comm.append_left items
    · simp only [List.flatMap_cons, List.append_assoc]
      exact ih.append_left items

/-- A key that is new is put at the end, and one that is known stays where it is. -/
theorem keys_pushTo (key : κ) (a : α) (entries : List (κ × List α)) :
    (pushTo key a entries).map Prod.fst
      = entries.map Prod.fst ++ if key ∈ entries.map Prod.fst then [] else [key] := by
  induction entries with
  | nil => simp [pushTo]
  | cons entry rest ih => grind [pushTo]

/-- The keys are different, and every item stands under its own key. -/
structure Sorted (key : α → Option κ) (entries : List (κ × List α)) : Prop where
  nodup : (entries.map Prod.fst).Nodup
  keyed : ∀ k items, (k, items) ∈ entries → ∀ a ∈ items, key a = some k

omit [DecidableEq κ] in
/-- What holds of all entries holds of all but the first. -/
theorem Sorted.tail {key : α → Option κ} {entry : κ × List α} {rest : List (κ × List α)}
    (h : Sorted key (entry :: rest)) : Sorted key rest where
  nodup := (List.nodup_cons.1 h.nodup).2
  keyed k items hmem := h.keyed k items (List.mem_cons_of_mem entry hmem)

/-- Items stay under their own keys: the new one is added to an entry with its key, or opens one. So
whatever is found under a key has that key, in however many steps the index was built. -/
theorem keyed_pushTo {key : α → Option κ} {entries : List (κ × List α)} (h : Sorted key entries)
    {k : κ} {a : α} (ha : key a = some k) :
    ∀ k' items, (k', items) ∈ pushTo k a entries → ∀ c ∈ items, key c = some k' := by
  induction entries with
  | nil => simpa [pushTo] using ha
  | cons entry rest ih =>
    obtain ⟨k₀, items₀⟩ := entry
    have hhead := h.keyed k₀ items₀ List.mem_cons_self
    intro k' items hmem c hc
    rw [pushTo] at hmem
    -- The entry grows if it has the key of the item; otherwise the item goes further down.
    by_cases hk : k₀ = k
    · rw [if_pos hk, List.mem_cons, Prod.mk.injEq] at hmem
      rcases hmem with ⟨rfl, rfl⟩ | hmem
      · rcases List.mem_append.1 hc with hc | hc
        · exact hhead c hc
        · rw [List.mem_singleton.1 hc, hk, ha]
      · exact h.keyed k' items (List.mem_cons_of_mem _ hmem) c hc
    · rw [if_neg hk, List.mem_cons, Prod.mk.injEq] at hmem
      rcases hmem with ⟨rfl, rfl⟩ | hmem
      · exact hhead c hc
      · exact ih h.tail k' items hmem c hc

/-- **Adding an item keeps the order of an index.** A known key opens no second entry, so the keys
stay different. -/
theorem sorted_pushTo {key : α → Option κ} {entries : List (κ × List α)}
    (h : Sorted key entries) {k : κ} {a : α} (ha : key a = some k) :
    Sorted key (pushTo k a entries) := by
  refine ⟨?_, keyed_pushTo h ha⟩
  rw [keys_pushTo]
  have hnodup := h.nodup
  split
  · rwa [List.append_nil]
  · rename_i hk
    rw [List.nodup_append]
    exact ⟨hnodup, by simp, by grind⟩

/-- Among all items, those of a key stand in the order in which they came. They all come from one
entry, since the keys are different and every item stands under its own. -/
theorem filter_of_sorted {key : α → Option κ} {entries : List (κ × List α)}
    (h : Sorted key entries) (k : κ) :
    (entries.flatMap Prod.snd).filter (fun a => decide (key a = some k)) = itemsOf k entries := by
  induction entries with
  | nil => rfl
  | cons entry rest ih =>
    obtain ⟨k₀, items⟩ := entry
    have hitems : ∀ a ∈ items, key a = some k₀ := h.keyed k₀ items List.mem_cons_self
    rw [List.flatMap_cons, List.filter_append, itemsOf]
    by_cases hk : k₀ = k
    · have hall : items.filter (fun a => decide (key a = some k)) = items := by
        rw [List.filter_eq_self]
        intro a ha
        simp [hitems a ha, hk]
      -- The key does not come again, so no later item has it.
      have hnone : (rest.flatMap Prod.snd).filter (fun a => decide (key a = some k)) = [] := by
        rw [List.filter_eq_nil_iff]
        intro a ha hak
        obtain ⟨⟨k', items'⟩, hmem, ha⟩ := List.mem_flatMap.1 ha
        have hkey := h.tail.keyed k' items' hmem a ha
        rw [of_decide_eq_true hak, Option.some.injEq, ← hk] at hkey
        refine (List.nodup_cons.1 h.nodup).1 ?_
        rw [hkey]
        exact List.mem_map.2 ⟨(k', items'), hmem, rfl⟩
      rw [hall, hnone, List.append_nil, if_pos hk]
    · have hnone : items.filter (fun a => decide (key a = some k)) = [] := by
        rw [List.filter_eq_nil_iff]
        intro a ha
        simp [hitems a ha, hk]
      rw [hnone, List.nil_append, if_neg hk, ih h.tail]

/-- **Listing an index loses nothing and keeps the order under each key.** As a whole the list is
permuted, since the items of a key are brought together. -/
theorem items_ofList (key : α → κ) (l : List α) :
    (ofList (fun a => some (key a)) l).items.Perm l
      ∧ ∀ k, (ofList (fun a => some (key a)) l).items.filter (fun a => decide (key a = k))
          = l.filter fun a => decide (key a = k) := by
  -- Both invariants of the fold at once: the entries stay in order, and no item is lost.
  have hfold : ∀ start : Index κ α, Sorted (fun a => some (key a)) start.entries →
      Sorted (fun a => some (key a)) (l.foldl (fun index a => index.push (key a) a) start).entries
        ∧ (l.foldl (fun index a => index.push (key a) a) start).items.Perm (start.items ++ l) := by
    induction l with
    | nil => exact fun start hstart => ⟨hstart, by simp⟩
    | cons a l ih =>
      intro start hstart
      obtain ⟨hsorted, hperm⟩ := ih (start.push (key a) a) (sorted_pushTo hstart rfl)
      refine ⟨hsorted, hperm.trans ?_⟩
      have hpush : (start.push (key a) a).items.Perm (start.items ++ [a]) :=
        perm_pushTo (key a) a start.entries
      simpa using hpush.append_right l
  obtain ⟨hsorted, hperm⟩ := hfold empty ⟨by simp [empty], by simp [empty]⟩
  refine ⟨hperm, fun k => ?_⟩
  -- The items of one key are what the index answers for it, which is known of the list.
  have hfilter := filter_of_sorted hsorted k
  have hget := get_ofList (fun a => some (key a)) l k
  simp only [Option.some.injEq] at hfilter hget
  exact hfilter.trans hget

end Index

end TileSelect
