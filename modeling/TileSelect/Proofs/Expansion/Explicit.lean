import TileSelect.Proofs.Expansion.Filling
import TileSelect.Proofs.Expansion.Reads
import TileSelect.Proofs.Pattern.Scope
/-!
Templates that write what their patterns read.

Nothing in the pattern language makes a template use the values it was matched for, or keeps it
from using the value of a node in the middle of what it covers. Pattern files are written so that
neither happens, and whether a file is can be checked: every value that a pattern matches is
captured and mentioned, every group it includes is mentioned as a whole, and nothing else is
mentioned but the root and temporaries. `Pattern.Explicit` is that check.

For tables of explicit patterns the values in an instantiation are known exactly. They are those
of the nodes it reads and, if the template mentions it, that of its root. Nested groups come in by
induction on the layers: a mention of a group stands for what was chosen, whose values are known.
-/

set_option autoImplicit false

namespace TileSelect

/-! ## The check -/

namespace Pattern

/-- The paths that the template refers to. -/
def references (p : Pattern) : List (List String) := Part.referencesOfAll p.template

/-- Whether a path of the template starts with a name. -/
def mentions (p : Pattern) (name : String) : Bool :=
  p.references.any fun path => path.head? == some name

/-- Whether a path is that of the root, a temporary, a captured value or constant or a group, or
leads to the only thing that any alternative of a group mentions. -/
def understands (t : Tables) (p : Pattern) : List String → Bool
  | [name] =>
    name == "out" || (TempName.parse? name).isSome
      || match p.lookup? name with
        | some (.producer ..) | some (.constant ..) | some (.inclusion ..) => true
        | _ => false
  | [name, member] =>
    match p.lookup? name with
    | some (.inclusion _ g) => (t.group g).all fun q => q.references == [[member]]
    | _ => false
  | _ => false

/-- Whether what a part of the tree reads is mentioned. The alternatives of a group must not
mention their root, which would be a node in the middle. -/
def accountsFor (t : Tables) (p : Pattern) : Shape → Bool
  | .producer ident _ => ident.any p.mentions
  | .constant ident _ _ => ident.all p.mentions
  | .inclusion ident g => p.mentions ident && (t.group g).all fun q => !q.mentions "out"
  | .node .. | .backreference .. => true

/-- The template writes what the tree reads, and only that. -/
def Explicit (t : Tables) (p : Pattern) : Prop :=
  Part.valuesOfAll p.template = [] ∧ (∀ i ∈ p.root.idents, isReserved i = false)
    ∧ (∀ path ∈ p.references, p.understands t path = true)
    ∧ ∀ s ∈ p.root.subshapes, p.accountsFor t s = true

instance (t : Tables) (p : Pattern) : Decidable (p.Explicit t) :=
  inferInstanceAs (Decidable (_ ∧ _ ∧ _ ∧ _))

variable {t : Tables} {p : Pattern} {name : String}

/-- A name that is mentioned is the first one of some path. -/
theorem exists_of_mentions (h : p.mentions name = true) :
    ∃ path ∈ p.references, path.head? = some name := by
  obtain ⟨path, hpath, hhead⟩ := List.any_eq_true.1 h
  exact ⟨path, hpath, beq_iff_eq.1 hhead⟩

/-- No name of an explicit pattern has a fixed meaning, so a name that is mentioned is one of the
pattern. -/
theorem Explicit.unreserved (h : p.Explicit t) {pos : Shape.Position} {s : Shape}
    (hpos : p.root.at? pos = some s) (hi : s.ident? = some name) : isReserved name = false :=
  h.2.1 name (Shape.mem_idents_of_at? hpos hi)

/-- Every position of an explicit pattern is accounted for, not only those with a name. -/
theorem Explicit.accounts (h : p.Explicit t) {pos : Shape.Position} {s : Shape}
    (hpos : p.root.at? pos = some s) : p.accountsFor t s = true :=
  h.2.2.2 s (Shape.mem_subshapes_of_at? hpos)

/-- A path is a name alone, or leads into a group. In the second case it has two names, and the
second one is all that any alternative of the group refers to. -/
theorem Explicit.path_cases (h : p.Explicit t) {path : List String} (hpath : path ∈ p.references)
    (hhead : path.head? = some name) :
    path = [name] ∨ ∃ member ident g, path = [name, member]
      ∧ p.lookup? name = some (.inclusion ident g)
      ∧ ∀ q ∈ t.group g, q.references = [[member]] := by
  have hknown := h.2.2.1 path hpath
  -- How many names the path has decides; with more than two it would not be understood.
  match path with
  | [] => cases hhead
  | [i] =>
    cases hhead
    exact .inl rfl
  | [i, member] =>
    cases hhead
    rw [understands] at hknown
    split at hknown
    · rename_i ident g hlookup
      refine .inr ⟨member, ident, g, rfl, hlookup, fun q hq => ?_⟩
      exact beq_iff_eq.1 (List.all_eq_true.1 hknown q hq)
    · cases hknown
  | i :: j :: k :: rest => cases hknown

/-- A name alone is one of four things: the value of the root, a temporary, a value or constant that
was captured, or a group. -/
theorem Explicit.name_cases (h : p.Explicit t) (hpath : [name] ∈ p.references) :
    name = "out" ∨ (TempName.parse? name).isSome = true
      ∨ ∃ s, p.lookup? name = some s
          ∧ ((∃ ident ty, s = .producer ident ty) ∨ (∃ ident ty value, s = .constant ident ty value)
            ∨ ∃ ident g, s = .inclusion ident g) := by
  have hknown := h.2.2.1 [name] hpath
  rw [understands, Bool.or_eq_true, Bool.or_eq_true, beq_iff_eq] at hknown
  rcases hknown with (hout | htemp) | hlookup
  · exact .inl hout
  · exact .inr (.inl htemp)
  · refine .inr (.inr ?_)
    split at hlookup
    · rename_i ident ty heq
      exact ⟨_, heq, .inl ⟨ident, ty, rfl⟩⟩
    · rename_i ident ty value heq
      exact ⟨_, heq, .inr (.inl ⟨ident, ty, value, rfl⟩)⟩
    · rename_i ident g heq
      exact ⟨_, heq, .inr (.inr ⟨ident, g, rfl⟩)⟩
    · cases hlookup

/-- What is found under a name stands at a position and introduces the name. -/
theorem exists_at?_of_lookup? {s : Shape} (h : p.lookup? name = some s) :
    ∃ pos, p.root.at? pos = some s ∧ s.ident? = some name := by
  have hi := @List.find?_some _ (fun s : Shape => s.ident? == some name) _ _ h
  obtain ⟨pos, hpos⟩ := Shape.exists_at?_of_mem_subshapes (List.mem_of_find?_eq_some h)
  exact ⟨pos, hpos, beq_iff_eq.1 hi⟩

end Pattern

/-! ## What captures are written as -/

namespace Filling

variable {b : Block} {m : Match} {ident : String} {k : NodeId} {r : Part}

/-- The operand for a node holds the value that the node yields, and no other. -/
theorem mem_values_valueOf (h : valueOf b k = .ok r) (v : Nat) : v ∈ r.values ↔ b.Yields k v := by
  unfold valueOf at h
  split at h
  · rename_i p hp
    cases h
    exact Block.mem_values_of_valueOf? hp v
  · cases h

/-- A constant is written as a value only if it has neither a number nor a symbol. This is the one
case in which a template reads a node that the match covers. -/
theorem mem_values_constantOf (h : constantOf b k = .ok r) (v : Nat) :
    v ∈ r.values ↔ b.isBare k = true ∧ b.Yields k v := by
  unfold constantOf at h
  unfold Block.isBare
  cases hn : b.node? k with
  | none =>
    rw [hn] at h
    rw [mem_values_valueOf h]
    simp
  | some n =>
    rw [hn] at h
    dsimp only at h ⊢
    -- With a number or a symbol there is no value to read; with any other payload, or none, there
    -- is.
    generalize n.imm = imm at h ⊢
    match imm with
    | some (.int w) | some (.symbol name) =>
      cases h
      simp [Part.values]
    | some (.arg _) | some (.slot _) | none =>
      rw [mem_values_valueOf h]
      simp

/-- Only a choice with a single part can be written as an operand. -/
theorem parts_of_singlePart {parts : List Part} (h : singlePart ident parts = .ok r) :
    parts = [r] := by
  unfold singlePart at h
  split at h
  · cases h
    rfl
  · cases h

/-- **What a path may stand for**: the value of the root, a captured node, the one part of a choice,
or what the rest of the path stands for in a choice. The four cases exclude each other by their
names. -/
theorem StandsFor.inv {b : Block} {m : Match} {chosen : List (String × Instantiation)}
    {head : String} {rest : List String} (h : StandsFor ⟨b, m, chosen⟩ (head :: rest) r) :
    (head = "out" ∧ rest = [] ∧ valueOf b m.root = .ok r)
      ∨ head ≠ "out" ∧
        ((∃ k, Keyed.get? head m.bindings = some k ∧ rest = [] ∧ captured b m head k = .ok r)
          ∨ ∃ sub, Keyed.get? head chosen = some sub
            ∧ ((rest = [] ∧ sub.parts = [r])
              ∨ (rest ≠ [] ∧ StandsFor ⟨b, sub.record, sub.chosen⟩ rest r))) := by
  have hending : ∀ {found : Except SubstFault Part}, ending head rest found = .ok r →
      rest = [] ∧ found = .ok r := by
    intro found hfound
    unfold ending at hfound
    split at hfound
    · cases hfound
    · exact ⟨rfl, hfound⟩
  unfold StandsFor at h
  rw [resolve] at h
  split at h
  · obtain ⟨hrest, hvalue⟩ := hending h
    exact .inl ⟨‹_›, hrest, hvalue⟩
  · rename_i hne
    refine .inr ⟨hne, ?_⟩
    split at h
    · -- A temporary has no meaning outside its template.
      cases h
    · split at h
      · -- A group: what was chosen stands for its one part, or the path goes on inside it.
        split at h
        · cases h
        · rename_i sub hsub
          refine .inr ⟨sub, hsub, ?_⟩
          split at h
          · exact .inl ⟨List.isEmpty_iff.1 ‹_›, parts_of_singlePart h⟩
          · exact .inr ⟨mt List.isEmpty_iff.2 ‹_›, h⟩
      · split at h
        · rename_i k hk
          obtain ⟨hrest, hcaptured⟩ := hending h
          exact .inl ⟨k, hk, hrest, hcaptured⟩
        · split at h <;> cases h

end Filling

/-! ## Known instantiations -/

/-- **What is known of an instantiation.** Its inputs are the nodes it reads less those it covers,
and the values in it are those of the nodes it reads and, if mentioned, that of its root. -/
structure Instantiation.Accounted (b : Block) (i : Instantiation) : Prop where
  inputs : ∀ x, x ∈ i.inputs ↔ x ∈ i.reads b ∧ ¬ x ∈ i.covered
  yields : ∀ x ∈ i.reads b, ∃ v, b.Yields x v
  writes : Filling.Writes ⟨b, i.record, i.chosen⟩ i.record.pattern.references
    (Part.valuesOfAll i.parts)
  values : ∀ v, v ∈ Part.valuesOfAll i.parts
    ↔ (i.record.pattern.mentions "out" = true ∧ b.Yields i.record.root v)
      ∨ ∃ x ∈ i.reads b, b.Yields x v

/-- Everything that can be chosen for a group is an instantiation of one of its alternatives and
is known. -/
def Inclusion.Accounted (t : Tables) (b : Block) (inc : Inclusion) : Prop :=
  ∀ g k ms, inc g k = .ok ms → ∀ m ∈ ms, m.pattern ∈ t.group g
    ∧ ∀ i, m.Instantiates b i → i.Accounted b

section Placed

variable {t : Tables} {b : Block} {inc : Inclusion} {id : NodeId} {p : Pattern} {m : Match}
  {e : Shape.Embedding} {chosen : List (String × Instantiation)} {name : String}
  {pos : Shape.Position} {s : Shape} {sub : Instantiation} {r : Part} {v : Nat}
  (he : Shape.Placed b inc p.root id (.start p id) m e) (hnd : p.root.idents.Nodup)
  (hpattern : m.pattern = p) (hkeys : (m.submatches.map Prod.fst).Nodup)
  (hchosen : Match.Chooses b m.submatches chosen) (hinc : inc.Accounted t b)
  (hp : p.Explicit t)

/-! ### What names stand for -/

/-- A name that is not reserved is neither the root nor a temporary. -/
theorem isReserved_eq_false (h : isReserved name = false) :
    name ≠ "out" ∧ ¬ (TempName.parse? name).isSome = true := by
  simp only [isReserved, Bool.or_eq_false_iff, beq_eq_false_iff_ne] at h
  exact ⟨h.1.1.1, by simp [h.2]⟩

/-- A name that is not reserved is no name of a temporary. -/
theorem parse?_of_not_isReserved (h : isReserved name = false) : TempName.parse? name = none :=
  Option.not_isSome_iff_eq_none.1 (isReserved_eq_false h).2

/-- The name of the result stands for the value of the root. -/
theorem Filling.standsFor_out : Filling.StandsFor ⟨b, m, chosen⟩ ["out"] r
    ↔ Filling.valueOf b m.root = .ok r := by
  unfold Filling.StandsFor
  rw [Filling.resolve, if_pos rfl, Filling.ending]

include he hnd in
/-- A name that captures a node is not one of a group, as names are introduced once. Looking up the
name finds the node. -/
theorem Shape.Placed.not_has_of_captured (hpos : p.root.at? pos = some s)
    (hs : s.captured? = some name) : ¬ Keyed.has name m.submatches = true := by
  intro h
  obtain ⟨ms, hms⟩ := Option.isSome_iff_exists.1 h
  obtain ⟨pos', g, hpos', -⟩ := he.submatches.1 (Keyed.mem_of_get? hms)
  obtain rfl := Shape.position_unique hnd hpos (Shape.ident?_eq_some.2 (.inl hs)) hpos' rfl
  rw [hpos, Option.some.injEq] at hpos'
  rw [hpos'] at hs
  cases hs

include he hnd in
/-- The name of a captured position is bound to the node on which the position lies. -/
theorem Shape.Placed.get?_bindings (hpos : p.root.at? pos = some s)
    (hs : s.captured? = some name) : Keyed.get? name m.bindings = some (e pos) := by
  obtain ⟨k, hk⟩ := Keyed.exists_get?_of_mem (he.bindings.2 ⟨pos, s, hpos, hs, rfl⟩)
  obtain ⟨pos', s', hpos', hs', rfl⟩ := he.bindings.1 (Keyed.mem_of_get? hk)
  obtain rfl := Shape.position_unique hnd hpos (Shape.ident?_eq_some.2 (.inl hs)) hpos'
    (Shape.ident?_eq_some.2 (.inl hs'))
  exact hk

include he hnd in
/-- The name of a captured position stands for the node that the position lies on, and for nothing
else: it has no fixed meaning and no group has it. -/
theorem Shape.Placed.standsFor_captured (hname : isReserved name = false)
    (hpos : p.root.at? pos = some s) (hs : s.captured? = some name) :
    Filling.StandsFor ⟨b, m, chosen⟩ [name] r
      ↔ Filling.captured b m name (e pos) = .ok r := by
  obtain ⟨hout, htemp⟩ := isReserved_eq_false hname
  unfold Filling.StandsFor
  rw [Filling.resolve, if_neg hout, if_neg htemp, if_neg (he.not_has_of_captured hnd hpos hs),
    he.get?_bindings hnd hpos hs]
  rfl

include hkeys hchosen in
/-- The name of a group stands for what was chosen, and a longer path for something in it. This
needs that the names of the groups are different and that none of them has a fixed meaning. -/
theorem Filling.standsFor_chosen (hname : isReserved name = false) (hsub : (name, sub) ∈ chosen)
    (rest : List String) : Filling.StandsFor ⟨b, m, chosen⟩ (name :: rest) r
      ↔ if rest.isEmpty then Filling.singlePart name sub.parts = .ok r
        else Filling.StandsFor ⟨b, sub.record, sub.chosen⟩ rest r := by
  obtain ⟨ms, -, hms, -⟩ := hchosen.of_mem hsub
  obtain ⟨ms', hms'⟩ := Keyed.exists_get?_of_mem hms
  have hhas : Keyed.has name m.submatches = true := Option.isSome_iff_exists.2 ⟨ms', hms'⟩
  have hget : Keyed.get? name chosen = some sub :=
    Keyed.get?_of_mem (hchosen.keys.symm ▸ hkeys) hsub
  obtain ⟨hout, htemp⟩ := isReserved_eq_false hname
  unfold Filling.StandsFor
  rw [Filling.resolve, if_neg hout, if_neg htemp, if_pos hhas, hget]
  dsimp only
  split <;> rfl

/-! ### Values by name -/

include he hnd hpattern hp in
/-- The name of a value stands for the operand of its node, which has that node's value. -/
theorem Shape.Placed.mem_values_producer {ty : Option ValueType}
    (hpos : p.root.at? pos = some (.producer (some name) ty))
    (hr : Filling.StandsFor ⟨b, m, chosen⟩ [name] r) : v ∈ r.values ↔ b.Yields (e pos) v := by
  rw [he.standsFor_captured hnd (hp.unreserved hpos rfl) hpos rfl, Filling.captured, hpattern,
    Pattern.lookup?_of_at? hnd hpos rfl] at hr
  exact Filling.mem_values_valueOf hr v

include he hnd hpattern hp in
/-- The name of a constant has a value only if the constant has neither a number nor a symbol. -/
theorem Shape.Placed.mem_values_constant {ty : Option ValueType} {value : Option Int64}
    (hpos : p.root.at? pos = some (.constant (some name) ty value))
    (hr : Filling.StandsFor ⟨b, m, chosen⟩ [name] r) :
    v ∈ r.values ↔ b.isBare (e pos) = true ∧ b.Yields (e pos) v := by
  rw [he.standsFor_captured hnd (hp.unreserved hpos rfl) hpos rfl, Filling.captured, hpattern,
    Pattern.lookup?_of_at? hnd hpos rfl] at hr
  exact Filling.mem_values_constantOf hr v

include he hchosen hinc in
/-- What is chosen belongs to a group that the pattern includes, and is known to be accounted for.
This is how the induction over inclusions reaches a template. -/
theorem Shape.Placed.accounted_of_choice (hsub : (name, sub) ∈ chosen) :
    ∃ pos g, p.root.at? pos = some (.inclusion name g) ∧ sub.record.pattern ∈ t.group g
      ∧ sub.Accounted b := by
  obtain ⟨pos, g, ms, hpos, hfound, m', hm', hinst⟩ := he.position_of_choice hchosen hsub
  obtain ⟨hgroup, haccounted⟩ := hinc g _ ms hfound m' hm'
  refine ⟨pos, g, hpos, ?_, haccounted sub hinst⟩
  rw [hinst.record_eq]
  exact hgroup

include he hnd hkeys hchosen hinc hp in
/-- A path that starts with the name of a group has the values of what was chosen for it, whether
the choice is written whole or by the one name that all alternatives of the group refer to. -/
theorem Shape.Placed.mem_values_chosen {path : List String} (hsub : (name, sub) ∈ chosen)
    (hpath : path ∈ p.references) (hhead : path.head? = some name)
    (hr : Filling.StandsFor ⟨b, m, chosen⟩ path r) :
    v ∈ r.values ↔ v ∈ Part.valuesOfAll sub.parts := by
  obtain ⟨pos, g, hpos, hgroup, haccounted⟩ := he.accounted_of_choice hchosen hinc hsub
  have hname := hp.unreserved hpos rfl
  rcases hp.path_cases hpath hhead with rfl | ⟨member, ident, g', rfl, hlookup, honly⟩
  · rw [Filling.standsFor_chosen hkeys hchosen hname hsub, if_pos List.isEmpty_nil] at hr
    rw [Filling.parts_of_singlePart hr]
    simp
  · -- All that the choice mentions is what the path leads to, so its values are all there are.
    rw [Pattern.lookup?_of_at? hnd hpos rfl, Option.some.injEq] at hlookup
    cases hlookup
    rw [Filling.standsFor_chosen hkeys hchosen hname hsub, if_neg (by simp)] at hr
    rw [haccounted.writes.mem_values, honly _ hgroup]
    constructor
    · intro hv
      exact ⟨[member], List.mem_singleton.2 rfl, r, hr, hv⟩
    · rintro ⟨path', hpath', r', hr', hv⟩
      rw [List.mem_singleton.1 hpath'] at hr'
      rw [hr.unique hr']
      exact hv

/-- A name that is mentioned stands for something, if the template was filled in: otherwise the
reference would have been a fault. -/
theorem Filling.Writes.exists_standsFor {values : List Nat}
    (hw : Filling.Writes ⟨b, m, chosen⟩ p.references values) (hmention : p.mentions name = true)
    (htemp : ¬ (TempName.parse? name).isSome = true) :
    ∃ path ∈ p.references, path.head? = some name
      ∧ ∃ r, Filling.StandsFor ⟨b, m, chosen⟩ path r := by
  obtain ⟨path, hpath, hhead⟩ := Pattern.exists_of_mentions hmention
  refine ⟨path, hpath, hhead, (hw.resolved path hpath).resolve_left ?_⟩
  cases path with
  | nil => cases hhead
  | cons head rest =>
    cases hhead
    exact htemp

include hp in
/-- What is captured is mentioned alone. A longer path would lead into a group, and a captured name
is not one of a group. -/
theorem Pattern.Explicit.eq_singleton_of_captured (hnd : p.root.idents.Nodup)
    (hpos : p.root.at? pos = some s) (hs : s.captured? = some name) {path : List String}
    (hpath : path ∈ p.references)
    (hhead : path.head? = some name) : path = [name] := by
  rcases hp.path_cases hpath hhead with rfl | ⟨member, ident, g, rfl, hlookup, -⟩
  · rfl
  · rw [Pattern.lookup?_of_at? hnd hpos (Shape.ident?_eq_some.2 (.inl hs)),
      Option.some.injEq] at hlookup
    rw [hlookup] at hs
    cases hs

/-! ### All values -/

include he hnd hpattern hkeys hchosen hinc hp in
/-- Whatever is written is the value of the root or of a node that is read. The proof goes through
what a path may be and what its first name introduces. -/
theorem Shape.Placed.yields_of_standsFor {path : List String} (hpath : path ∈ p.references)
    (hr : Filling.StandsFor ⟨b, m, chosen⟩ path r) (hv : v ∈ r.values) :
    (p.mentions "out" = true ∧ b.Yields m.root v)
      ∨ ∃ x, (x ∈ m.reads b ∨ ∃ choice ∈ chosen, x ∈ choice.2.reads b) ∧ b.Yields x v := by
  obtain ⟨name, hhead⟩ : ∃ name, path.head? = some name := by
    cases path with
    | nil => cases hr
    | cons name rest => exact ⟨name, rfl⟩
  have hgroup : ∀ ident g, p.lookup? name = some (.inclusion ident g) →
      ∃ x, (x ∈ m.reads b ∨ ∃ choice ∈ chosen, x ∈ choice.2.reads b) ∧ b.Yields x v := by
    intro ident g hlookup
    obtain ⟨pos, hpos, hident⟩ := Pattern.exists_at?_of_lookup? hlookup
    obtain rfl : ident = name := Option.some.inj hident
    obtain ⟨sub, -, hsub, -⟩ := he.choice_of_position hchosen hpos
    obtain ⟨pos', g', hpos', hmem, haccounted⟩ := he.accounted_of_choice hchosen hinc hsub
    rw [he.mem_values_chosen hnd hkeys hchosen hinc hp hsub hpath hhead hr,
      haccounted.values] at hv
    -- The alternatives of a group do not mention their root.
    have hsilent := hp.accounts hpos'
    rw [Pattern.accountsFor, Bool.and_eq_true, List.all_eq_true] at hsilent
    rcases hv with ⟨hout, -⟩ | ⟨x, hx, hyields⟩
    · have hnot := hsilent.2 _ hmem
      rw [hout] at hnot
      cases hnot
    · exact ⟨x, .inr ⟨_, hsub, hx⟩, hyields⟩
  rcases hp.path_cases hpath hhead with rfl | ⟨member, ident, g, rfl, hlookup, -⟩
  · rcases hp.name_cases hpath with rfl | htemp | ⟨s, hlookup, hs⟩
    · rw [Filling.standsFor_out] at hr
      exact .inl ⟨List.any_eq_true.2 ⟨_, hpath, rfl⟩, (Filling.mem_values_valueOf hr v).1 hv⟩
    · exact absurd hr (Filling.not_standsFor_of_temp htemp)
    · obtain ⟨pos, hpos, hident⟩ := Pattern.exists_at?_of_lookup? hlookup
      rcases hs with ⟨ident, ty, rfl⟩ | ⟨ident, ty, value, rfl⟩ | ⟨ident, g, rfl⟩
      · obtain rfl : ident = some name := hident
        rw [he.mem_values_producer hnd hpattern hp hpos hr] at hv
        have hread : e pos ∈ m.inputs := he.inputs.2 ⟨pos, _, hpos, rfl, rfl⟩
        exact .inr ⟨e pos, .inl ((he.mem_reads hnd hpattern).2 (.inl hread)), hv⟩
      · obtain rfl : ident = some name := hident
        rw [he.mem_values_constant hnd hpattern hp hpos hr] at hv
        have hread : e pos ∈ m.reads b :=
          (he.mem_reads hnd hpattern).2 (.inr ⟨pos, name, ty, value, hpos, rfl, hv.1⟩)
        exact .inr ⟨e pos, .inl hread, hv.2⟩
      · exact .inr (hgroup ident g hlookup)
  · exact .inr (hgroup ident g hlookup)

include he hnd hpattern hkeys hchosen hinc hp in
/-- Whatever is read is written, and the root if it is mentioned. This is where explicitness is
used: what a position reads has a name, and that name is mentioned. -/
theorem Shape.Placed.exists_standsFor_of_yields {values : List Nat}
    (hw : Filling.Writes ⟨b, m, chosen⟩ p.references values)
    (h : (p.mentions "out" = true ∧ b.Yields m.root v)
      ∨ ∃ x, (x ∈ m.reads b ∨ ∃ choice ∈ chosen, x ∈ choice.2.reads b) ∧ b.Yields x v) :
    ∃ path ∈ p.references, ∃ r, Filling.StandsFor ⟨b, m, chosen⟩ path r ∧ v ∈ r.values := by
  rcases h with ⟨hout, hv⟩ | ⟨x, hx | ⟨⟨name, sub⟩, hsub, hx⟩, hv⟩
  · obtain ⟨path, hpath, hhead, r, hr⟩ := hw.exists_standsFor hout (by decide)
    refine ⟨path, hpath, r, hr, ?_⟩
    rcases hp.path_cases hpath hhead with rfl | ⟨member, ident, g, rfl, hlookup, -⟩
    · exact (Filling.mem_values_valueOf (Filling.standsFor_out.1 hr) v).2 hv
    · -- No group has the name of the root.
      obtain ⟨pos, hpos, hident⟩ := Pattern.exists_at?_of_lookup? hlookup
      exact absurd rfl (isReserved_eq_false (hp.unreserved hpos hident)).1
  · have hmentioned : ∀ {pos s name}, p.root.at? pos = some s → s.captured? = some name →
        p.mentions name = true →
          ∃ r, [name] ∈ p.references ∧ Filling.StandsFor ⟨b, m, chosen⟩ [name] r := by
      intro pos s name hpos hs hmention
      have hname := hp.unreserved hpos (Shape.ident?_eq_some.2 (.inl hs))
      obtain ⟨path, hpath, hhead, r, hr⟩ :=
        hw.exists_standsFor hmention (isReserved_eq_false hname).2
      obtain rfl := hp.eq_singleton_of_captured hnd hpos hs hpath hhead
      exact ⟨r, hpath, hr⟩
    rcases (he.mem_reads hnd hpattern).1 hx with hx | ⟨pos, name, ty, value, hpos, rfl, hbare⟩
    · obtain ⟨pos, s, hpos, hread, rfl⟩ := he.inputs.1 hx
      have haccounts := hp.accounts hpos
      cases s with
      | producer ident ty =>
        obtain ⟨name, rfl, hmention⟩ := (Option.any_eq_true ..).1 haccounts
        obtain ⟨r, hpath, hr⟩ := hmentioned hpos rfl hmention
        exact ⟨[name], hpath, r, hr, (he.mem_values_producer hnd hpattern hp hpos hr).2 hv⟩
      | node | constant | inclusion | backreference => cases hread
    · obtain ⟨r, hpath, hr⟩ := hmentioned hpos rfl (hp.accounts hpos)
      exact ⟨[name], hpath, r, hr,
        (he.mem_values_constant hnd hpattern hp hpos hr).2 ⟨hbare, hv⟩⟩
  · obtain ⟨pos, g, hpos, -, haccounted⟩ := he.accounted_of_choice hchosen hinc hsub
    have hmention := hp.accounts hpos
    rw [Pattern.accountsFor, Bool.and_eq_true] at hmention
    obtain ⟨path, hpath, hhead, r, hr⟩ := hw.exists_standsFor hmention.1
      (isReserved_eq_false (hp.unreserved hpos rfl)).2
    refine ⟨path, hpath, r, hr, ?_⟩
    rw [he.mem_values_chosen hnd hkeys hchosen hinc hp hsub hpath hhead hr, haccounted.values]
    exact .inr ⟨x, hx, hv⟩

end Placed

/-! ## Nested groups -/

/-- An instantiation of an explicit pattern is known if all that can be chosen for its groups is.
Reading and writing are compared for the match first, and then for the choices. -/
theorem Match.Instantiates.accounted {t : Tables} {b : Block} {inc : Inclusion} {id : NodeId}
    {p : Pattern} {m : Match} {i : Instantiation} (hinc : inc.Accounted t b)
    (hnd : p.root.idents.Nodup) (hp : p.Explicit t) (hm : p.matchWith b inc id = .ok (some m))
    (hi : m.Instantiates b i) : i.Accounted b := by
  obtain ⟨e, he⟩ := Pattern.matchWith_placed hm hnd
  have hkeys := Pattern.submatches_nodup hm
  obtain ⟨rfl, -⟩ := Pattern.matchWith_head hm
  cases hi with
  | @intro _ chosen parts allocated after chooses filled =>
    have hknown : ∀ choice ∈ chosen, choice.2.Accounted b := by
      rintro ⟨name, sub⟩ hsub
      obtain ⟨-, -, -, -, haccounted⟩ := he.accounted_of_choice chooses hinc hsub
      exact haccounted
    have hwrites : Filling.Writes ⟨b, m, chosen⟩ m.pattern.references (Part.valuesOfAll parts) :=
      (Filling.writes_fillAll _ _ _ _ hp.1 (fun _ _ h => absurd h List.not_mem_nil) filled).2
    constructor
    · intro x
      rw [NodeSet.mem_diff, Match.mem_readWith, Instantiation.mem_reads]
      refine and_congr_left fun hout => ?_
      rw [Match.mem_coveredWith, not_or] at hout
      -- Nothing that is read is left out of the inputs but what is covered.
      refine or_congr ⟨fun hx => ?_, fun hx => ?_⟩ (exists_congr fun choice => ?_)
      · exact (he.mem_reads hnd rfl).2 (.inl hx)
      · exact (he.mem_inputs_or_covered hnd rfl hx).resolve_right hout.1
      · refine and_congr_right fun hchoice => ?_
        rw [(hknown choice hchoice).inputs]
        exact and_iff_left fun hx => hout.2 ⟨choice, hchoice, hx⟩
    · intro x hx
      rcases Instantiation.mem_reads.1 hx with hown | ⟨choice, hchoice, hother⟩
      · exact he.yields_of_mem_reads hnd rfl hown
      · exact (hknown choice hchoice).yields x hother
    · exact hwrites
    · intro v
      refine Iff.trans ?_ (or_congr_right (exists_congr fun x =>
        and_congr_left fun _ => Instantiation.mem_reads.symm))
      constructor
      · intro hv
        obtain ⟨path, hpath, r, hr, hmem⟩ := (hwrites.mem_values v).1 hv
        exact he.yields_of_standsFor hnd rfl hkeys chooses hinc hp hpath hr hmem
      · intro h
        refine (hwrites.mem_values v).2 ?_
        exact he.exists_standsFor_of_yields hnd rfl hkeys chooses hinc hp hwrites h

namespace Tables

/-- All patterns are explicit. -/
def Explicit (t : Tables) : Prop := ∃ ps, t = .ofPatterns ps ∧ ∀ p ∈ ps, p.Explicit t

variable {t : Tables}

/-- However deep groups are nested, what is chosen for them is known. The induction is on the depth
up to which groups are entered; at depth nought there are no alternatives. -/
theorem accounted_alternatives (ht : t.Distinct) (hexplicit : t.Explicit) (b : Block) (n : Nat) :
    (t.alternatives b n).Accounted t b := by
  induction n with
  | zero =>
    intro g k ms h
    cases h
  | succ n ih =>
    intro g k ms h m hm
    -- An alternative is the match of one pattern of the group, so one layer is enough.
    obtain ⟨q, hq, hqm⟩ := (mem_of_filterMapM h m).1 hm
    obtain ⟨ps, rfl, hps⟩ := hexplicit
    refine ⟨?_, fun i hi => ?_⟩
    · rw [(Pattern.matchWith_head hqm).1]
      exact hq
    · exact hi.accounted ih (ht.of_mem_group hq) (hps q (mem_group_ofPatterns.1 hq).1) hqm

/-- **In tables of explicit patterns every instantiation is known.** -/
theorem accounted_of_instantiates {b : Block} {id : NodeId} {op : Operation}
    {stored : Option Operation} {p : Pattern} {m : Match} {i : Instantiation} (ht : t.Distinct)
    (hexplicit : t.Explicit) (hp : p ∈ t.candidates op stored)
    (hm : t.matchAt b id p = .ok (some m)) (hi : m.Instantiates b i) : i.Accounted b := by
  have hinc := accounted_alternatives ht hexplicit b (t.inclusionDepth b)
  obtain ⟨ps, rfl, hps⟩ := hexplicit
  exact hi.accounted hinc (ht.of_mem_candidates hp).1 (hps p (mem_candidates_ofPatterns hp).1) hm

end Tables

end TileSelect
