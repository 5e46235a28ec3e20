import TileSelect.Proofs.Faults
import TileSelect.Proofs.Match.Position
/-!
Records as sets of entries.

A record says four kinds of things: an identifier is bound to a node, an identifier has these
alternatives, a node is covered, a node is read. All four grow in the same way, so they are made
cases of one type here, and every operation on records is described by the entry it adds. What a
position of a shape contributes is then one relation, and leak-freedom is one statement instead
of four.

Storing under a name replaces what was there. The lemmas below need that the name is new; the
identifiers of a shape are different, so that is what matching always finds.
-/

set_option autoImplicit false

namespace TileSelect

/-! ## Entries of a record -/

/-- One thing that a record says. -/
inductive Entry where
  | bound (ident : String) (id : NodeId)
  | included (ident : String) (alternatives : List Match)
  | covered (id : NodeId)
  | read (id : NodeId)

/-- The identifier that an entry is about. -/
def Entry.ident? : Entry → Option String
  | .bound ident _ | .included ident _ => some ident
  | .covered _ | .read _ => none

namespace Keyed

variable {α : Type}

/-- Storing under a new name adds one entry and touches no other. That the name is new is what keeps
this an equivalence; storing under a known name would take an entry away. -/
theorem mem_insert_of_fresh {name key : String} {a c : α} {entries : List (String × α)}
    (h : ∀ d, ¬ (name, d) ∈ entries) :
    (key, c) ∈ insert name a entries ↔ (key = name ∧ c = a) ∨ (key, c) ∈ entries := by
  induction entries with
  | nil => simp [insert]
  | cons entry rest ih =>
    obtain ⟨k, d⟩ := entry
    -- The first entry has another name, since the name is new.
    have hne : name ≠ k := by
      rintro rfl
      exact h d List.mem_cons_self
    have hrest : ∀ d, ¬ (name, d) ∈ rest := fun d hd => h d (List.mem_cons_of_mem _ hd)
    rw [insert, if_neg hne]
    split
    · rw [List.mem_cons, Prod.mk.injEq]
    · rw [List.mem_cons, List.mem_cons, ih hrest, Prod.mk.injEq]
      grind

/-- Storing adds at most the one entry, new or not. -/
theorem eq_or_mem_of_mem_insert {name : String} {a : α} {entry : String × α}
    {entries : List (String × α)} (h : entry ∈ insert name a entries) :
    entry = (name, a) ∨ entry ∈ entries := by
  induction entries with
  | nil => simpa [insert] using h
  | cons first rest ih => grind [insert]

/-- What is found under a name is stored under it. The converse needs that names are stored once. -/
theorem mem_of_get? {name : String} {a : α} {entries : List (String × α)}
    (h : get? name entries = some a) : (name, a) ∈ entries := by
  induction entries with
  | nil => cases h
  | cons entry rest ih =>
    obtain ⟨k, d⟩ := entry
    rw [get?] at h
    split at h
    · rename_i hk
      rw [Option.some.injEq] at h
      rw [hk, h]
      exact List.mem_cons_self
    · exact List.mem_cons_of_mem _ (ih h)

/-- Something is found under every name that something is stored under. It is the first entry with
the name, so not always the one that is meant. -/
theorem exists_get?_of_mem {name : String} {a : α} {entries : List (String × α)}
    (h : (name, a) ∈ entries) : ∃ c, get? name entries = some c := by
  induction entries with
  | nil => cases h
  | cons entry rest ih =>
    obtain ⟨k, d⟩ := entry
    rw [get?]
    split
    · exact ⟨d, rfl⟩
    · rename_i hne
      rcases List.mem_cons.1 h with heq | hrest
      · cases heq
        exact absurd rfl hne
      · exact ih hrest

end Keyed

namespace Match

/-- The record says this. -/
def Holds (m : Match) : Entry → Prop
  | .bound ident id => (ident, id) ∈ m.bindings
  | .included ident ms => (ident, ms) ∈ m.submatches
  | .covered id => id ∈ m.covered
  | .read id => id ∈ m.inputs

/-- The record says nothing about an identifier. -/
def Free (m : Match) (ident : String) : Prop := ∀ x, x.ident? = some ident → ¬ m.Holds x

/-- The record says that an identifier stands for a node. -/
def Refers (m : Match) (ident : String) (id : NodeId) : Prop :=
  m.Holds (.bound ident id)
    ∨ ∃ first rest, m.Holds (.included ident (first :: rest)) ∧ first.root = id

/-- What an identifier resolves to is said by an entry of the record: a capture, or alternatives
with that root, of which the first decides. -/
theorem refers_of_resolve? {m : Match} {ident : String} {id : NodeId}
    (h : m.resolve? ident = some id) : m.Refers ident id := by
  rw [resolve?] at h
  split at h
  · rename_i first rest hget
    rw [Option.some.injEq] at h
    exact .inr ⟨first, rest, Keyed.mem_of_get? hget, h⟩
  · exact .inl (Keyed.mem_of_get? h)

/-- An identifier that is bound resolves to something. If it has alternatives as well, these come
first. -/
theorem exists_resolve?_of_bound {m : Match} {ident : String} {id : NodeId}
    (h : (ident, id) ∈ m.bindings) : ∃ x, m.resolve? ident = some x := by
  rw [resolve?]
  split
  · exact ⟨_, rfl⟩
  · exact Keyed.exists_get?_of_mem h

theorem exists_resolve?_of_included {m : Match} {ident : String} {ms : List Match}
    (h : (ident, ms) ∈ m.submatches) (hne : ∀ ms', (ident, ms') ∈ m.submatches → ms' ≠ []) :
    ∃ x, m.resolve? ident = some x := by
  obtain ⟨ms', hget⟩ := Keyed.exists_get?_of_mem h
  cases ms' with
  | nil => exact absurd rfl (hne [] (Keyed.mem_of_get? hget))
  | cons first rest => exact ⟨first.root, by rw [resolve?, hget]⟩

/-- A record that says more refers to at least as much. -/
theorem Refers.imp {m m' : Match} (h : ∀ x, m.Holds x → m'.Holds x) {ident : String}
    {id : NodeId} (hr : m.Refers ident id) : m'.Refers ident id := by
  rcases hr with hr | ⟨first, rest, hr, hroot⟩
  · exact .inl (h _ hr)
  · exact .inr ⟨first, rest, h _ hr, hroot⟩

theorem not_holds_start (p : Pattern) (root : NodeId) (x : Entry) : ¬ (start p root).Holds x := by
  cases x <;> simp [Holds, start]

theorem free_start (p : Pattern) (root : NodeId) (ident : String) : (start p root).Free ident :=
  fun x _ => not_holds_start p root x

/-- Covering a node adds that one entry. -/
theorem holds_cover {m : Match} {id : NodeId} {x : Entry} :
    (m.cover id).Holds x ↔ m.Holds x ∨ x = .covered id := by
  cases x with
  | covered k =>
    simp only [Holds, cover, NodeSet.mem_insert, Entry.covered.injEq]
    exact or_comm
  | bound | included | read => simp [Holds, cover]

/-- Reading a node adds that one entry. -/
theorem holds_read {m : Match} {id : NodeId} {x : Entry} :
    (m.read id).Holds x ↔ m.Holds x ∨ x = .read id := by
  cases x with
  | read k =>
    simp only [Holds, read, NodeSet.mem_insert, Entry.read.injEq]
    exact or_comm
  | bound | included | covered => simp [Holds, read]

/-- Binding an identifier that is new adds one entry; binding none changes nothing. With the lemmas
for covering, reading and adding alternatives, records are never opened again. -/
theorem holds_bind {m : Match} {ident : Option String} {id : NodeId} {x : Entry}
    (h : ∀ i, ident = some i → m.Free i) :
    (m.bind ident id).Holds x ↔ m.Holds x ∨ ∃ i, ident = some i ∧ x = .bound i id := by
  cases ident with
  | none => simp [bind]
  | some i =>
    -- Only captures are concerned, and there only the entry under the new name.
    cases x with
    | bound j k =>
      have hfresh : ∀ d, ¬ (i, d) ∈ m.bindings := fun d => h i rfl (.bound i d) rfl
      simp only [Holds, bind, Keyed.mem_insert_of_fresh hfresh, Option.some.injEq,
        exists_eq_left', Entry.bound.injEq]
      exact or_comm
    | included | covered | read => simp [Holds, bind]

/-- Adding alternatives under an identifier that is new adds one entry, and all others are still
there. -/
theorem holds_addAlternatives {m : Match} {ident : String} {ms : List Match} {x : Entry}
    (h : m.Free ident) :
    (m.addAlternatives ident ms).Holds x ↔ m.Holds x ∨ x = .included ident ms := by
  cases x with
  | included j l =>
    have hfresh : ∀ d, ¬ (ident, d) ∈ m.submatches := fun d => h (.included ident d) rfl
    simp only [Holds, addAlternatives, Keyed.mem_insert_of_fresh hfresh, Entry.included.injEq]
    exact or_comm
  | bound | covered | read => simp [Holds, addAlternatives]

end Match

namespace Shape

/-- What a position contributes to the record. -/
def Records (inc : Inclusion) : Shape → NodeId → Entry → Prop
  | .node ident _ _ _, id, x => x = .covered id ∨ ∃ i, ident = some i ∧ x = .bound i id
  | .producer ident _, id, x => x = .read id ∨ ∃ i, ident = some i ∧ x = .bound i id
  | .constant ident _ _, id, x => x = .covered id ∨ ∃ i, ident = some i ∧ x = .bound i id
  | .inclusion ident group, id, x => ∃ ms, inc group id = .ok ms ∧ x = .included ident ms
  | .backreference _, _, _ => False

/-! ## Identifiers -/

/-- The parts of several shapes are the parts of any of them. -/
theorem mem_subshapesList {s : Shape} {ss : List Shape} :
    s ∈ subshapesList ss ↔ ∃ a ∈ ss, s ∈ a.subshapes := by
  induction ss with
  | nil => simp [subshapesList]
  | cons a ss ih => simp [subshapesList, ih]

/-- The identifiers that several shapes introduce. -/
def identsList (ss : List Shape) : List String := (subshapesList ss).filterMap ident?

@[simp] theorem identsList_nil : identsList [] = [] := rfl

@[simp] theorem identsList_cons (s : Shape) (ss : List Shape) :
    identsList (s :: ss) = s.idents ++ identsList ss := by
  rw [identsList, subshapesList, List.filterMap_append, idents, identsList]

/-- An operation introduces its own identifier and those of its arguments. -/
theorem idents_node (ident : Option String) (ty : Option ValueType) (op : Operation)
    (args : List Shape) :
    (node ident ty op args).idents = ident.toList ++ identsList args := by
  rw [idents, subshapes, identsList, List.filterMap_cons]
  cases ident <;> rfl

/-- The part of a shape at a position is one of its parts. Positions say where a part stands and the
list of the parts does not, so this goes in one direction with and in the other without a witness.
-/
theorem mem_subshapes_of_at? {s s' : Shape} {pos : Position} (h : s.at? pos = some s') :
    s' ∈ s.subshapes := by
  induction pos generalizing s with
  | nil =>
    rw [at?_nil, Option.some.injEq] at h
    subst h
    cases s <;> simp [subshapes]
  | cons k pos ih =>
    cases s with
    | node ident ty op args =>
      obtain ⟨a, ha, h⟩ := (at?_node_cons ..).1 h
      rw [subshapes]
      exact List.mem_cons_of_mem _ (mem_subshapesList.2 ⟨a, List.mem_of_getElem? ha, ih h⟩)
    | producer | constant | inclusion | backreference => cases h

/-- Every part of a shape stands at a position. Together with the converse, what holds of all parts
can be said of all positions. -/
theorem exists_at?_of_mem_subshapes {s s' : Shape} (h : s' ∈ s.subshapes) :
    ∃ pos, s.at? pos = some s' := by
  induction s using Shape.induction with
  | node ident ty op args ih =>
    rw [subshapes] at h
    rcases List.mem_cons.1 h with rfl | h
    · exact ⟨[], at?_nil _⟩
    · obtain ⟨a, ha, h⟩ := mem_subshapesList.1 h
      obtain ⟨pos, hpos⟩ := ih a ha h
      obtain ⟨k, hk⟩ := List.mem_iff_getElem?.1 ha
      exact ⟨k :: pos, (at?_node_cons ..).2 ⟨a, hk, hpos⟩⟩
  | producer | constant | inclusion | backreference =>
    rw [subshapes, List.mem_singleton] at h
    · exact ⟨[], by rw [h, at?_nil]⟩
    · intros
      contradiction

/-- What a position contributes about an identifier is about the identifier it introduces. So two
positions never contribute about the same one. -/
theorem ident?_of_records {inc : Inclusion} {s : Shape} {id : NodeId} {i : String} {x : Entry}
    (hx : x.ident? = some i) (h : s.Records inc id x) : s.ident? = some i := by
  cases s with
  | node ident _ _ _ | producer ident _ | constant ident _ _ =>
    rcases h with rfl | ⟨j, hj, rfl⟩
    · cases hx
    · exact hj.trans hx
  | inclusion ident group =>
    obtain ⟨ms, -, rfl⟩ := h
    exact hx
  | backreference ident => exact h.elim

theorem mem_idents_of_at? {s s' : Shape} {pos : Position} {i : String} (hpos : s.at? pos = some s')
    (hi : s'.ident? = some i) : i ∈ s.idents := by
  rw [idents, List.mem_filterMap]
  exact ⟨s', mem_subshapes_of_at? hpos, hi⟩

/-- What some position contributes about an identifier is introduced by the shape. -/
theorem mem_idents_of_somewhere {inc : Inclusion} {s : Shape} {e : Embedding} {i : String}
    {x : Entry} (hx : x.ident? = some i) (h : s.Somewhere e fun s' k => s'.Records inc k x) :
    i ∈ s.idents := by
  obtain ⟨pos, s', hpos, hrec⟩ := h
  exact mem_idents_of_at? hpos (ident?_of_records hx hrec)

/-- What several shapes introduce is introduced by one of them. -/
theorem mem_identsList {ss : List Shape} {i : String} :
    i ∈ identsList ss ↔ ∃ a ∈ ss, i ∈ a.idents := by
  induction ss with
  | nil => simp
  | cons a ss ih => simp [ih]

/-- Different arguments introduce different identifiers, if no identifier is introduced twice. The
induction is on the list of arguments, with both places moving along. -/
theorem argument_unique {ss : List Shape} (hnd : (identsList ss).Nodup) {j k : Nat} {a c : Shape}
    {i : String} (ha : ss[j]? = some a) (hc : ss[k]? = some c) (hia : i ∈ a.idents)
    (hic : i ∈ c.idents) : j = k := by
  induction ss generalizing j k with
  | nil => cases ha
  | cons s ss ih =>
    rw [identsList_cons, List.nodup_append] at hnd
    -- What the first argument introduces none of the others does.
    obtain ⟨-, hndss, hdisj⟩ := hnd
    cases j with
    | zero =>
      cases k with
      | zero => rfl
      | succ k =>
        rw [List.getElem?_cons_zero, Option.some.injEq] at ha
        rw [List.getElem?_cons_succ] at hc
        have hmem := mem_identsList.2 ⟨c, List.mem_of_getElem? hc, hic⟩
        exact absurd rfl (hdisj i (ha ▸ hia) i hmem)
    | succ j =>
      rw [List.getElem?_cons_succ] at ha
      cases k with
      | zero =>
        rw [List.getElem?_cons_zero, Option.some.injEq] at hc
        have hmem := mem_identsList.2 ⟨a, List.mem_of_getElem? ha, hia⟩
        exact absurd rfl (hdisj i (hc ▸ hic) i hmem)
      | succ k =>
        rw [List.getElem?_cons_succ] at hc
        exact congrArg Nat.succ (ih hndss ha hc)

/-- If an operation introduces no identifier twice, then none of its arguments does, as theirs are
among its own. -/
theorem idents_nodup_of_mem {ss : List Shape} (hnd : (identsList ss).Nodup) {a : Shape}
    (ha : a ∈ ss) : a.idents.Nodup := by
  induction ss with
  | nil => cases ha
  | cons s ss ih =>
    rw [identsList_cons, List.nodup_append] at hnd
    rcases List.mem_cons.1 ha with rfl | ha
    · exact hnd.1
    · exact ih hnd.2.1 ha

/-- **An identifier is introduced at one position.** The induction is on the first of the two
positions; at every operation on the way, both go on in the same argument. -/
theorem position_unique {s : Shape} (hnd : s.idents.Nodup) {pos pos' : Position}
    {s₁ s₂ : Shape} {i : String} (h₁ : s.at? pos = some s₁) (hi₁ : s₁.ident? = some i)
    (h₂ : s.at? pos' = some s₂) (hi₂ : s₂.ident? = some i) : pos = pos' := by
  induction pos generalizing s pos' with
  | nil =>
    cases pos' with
    | nil => rfl
    | cons k rest =>
      cases s with
      | node ident ty op args =>
        rw [at?_nil, Option.some.injEq] at h₁
        subst h₁
        obtain ⟨a, ha, hrest⟩ := (at?_node_cons ..).1 h₂
        rw [idents_node, List.nodup_append] at hnd
        -- Introduced at the top, it is not introduced in an argument.
        have htop : i ∈ ident.toList := Option.mem_toList.2 hi₁
        have hmem := mem_identsList.2 ⟨a, List.mem_of_getElem? ha, mem_idents_of_at? hrest hi₂⟩
        exact absurd rfl (hnd.2.2 i htop i hmem)
      | producer | constant | inclusion | backreference => cases h₂
  | cons j pos ih =>
    cases s with
    | node ident ty op args =>
      obtain ⟨a, ha, hpos⟩ := (at?_node_cons ..).1 h₁
      rw [idents_node, List.nodup_append] at hnd
      cases pos' with
      | nil =>
        rw [at?_nil, Option.some.injEq] at h₂
        subst h₂
        have htop : i ∈ ident.toList := Option.mem_toList.2 hi₂
        have hmem := mem_identsList.2 ⟨a, List.mem_of_getElem? ha, mem_idents_of_at? hpos hi₁⟩
        exact absurd rfl (hnd.2.2 i htop i hmem)
      | cons k rest =>
        obtain ⟨c, hc, hrest⟩ := (at?_node_cons ..).1 h₂
        -- Below an operation: the identifier decides which argument it is introduced in.
        obtain rfl : j = k := argument_unique hnd.2.1 ha hc (mem_idents_of_at? hpos hi₁)
          (mem_idents_of_at? hrest hi₂)
        rw [ha, Option.some.injEq] at hc
        subst hc
        rw [ih (idents_nodup_of_mem hnd.2.1 (List.mem_of_getElem? ha)) hpos hrest]
    | producer | constant | inclusion | backreference => cases h₁

theorem introduced_once {s : Shape} (hnd : s.idents.Nodup) {pos pos' : Position} {s₁ s₂ : Shape}
    {i : String} (h₁ : s.at? pos = some s₁) (hi₁ : s₁.ident? = some i)
    (h₂ : s.at? pos' = some s₂) (hi₂ : s₂.ident? = some i) : pos = pos' ∧ s₁ = s₂ := by
  obtain rfl := position_unique hnd h₁ hi₁ h₂ hi₂
  rw [h₁, Option.some.injEq] at h₂
  exact ⟨rfl, h₂⟩

end Shape

/-- The part that is looked up under an identifier is the part that introduces it. The look-up takes
the first part that does, and there is only one. -/
theorem Pattern.lookup?_of_at? {p : Pattern} (hnd : p.root.idents.Nodup) {pos : Shape.Position}
    {s : Shape} {i : String} (hpos : p.root.at? pos = some s) (hi : s.ident? = some i) :
    p.lookup? i = some s := by
  have hmem := Shape.mem_subshapes_of_at? hpos
  cases hfound : p.lookup? i with
  | none =>
    have hnone := List.find?_eq_none.1 hfound s hmem
    exact absurd (beq_iff_eq.2 hi) hnone
  | some s' =>
    have hi' := @List.find?_some _ (fun s : Shape => s.ident? == some i) _ _ hfound
    rw [beq_iff_eq] at hi'
    -- What was found stands at a position too, which has to be the same one.
    obtain ⟨pos', hpos'⟩ := Shape.exists_at?_of_mem_subshapes (List.mem_of_find?_eq_some hfound)
    rw [Shape.position_unique hnd hpos hi hpos' hi', hpos'] at hpos
    exact hpos

end TileSelect
