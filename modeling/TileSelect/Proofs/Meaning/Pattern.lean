import TileSelect.Proofs.Expansion.Explicit
import TileSelect.Proofs.Meaning.Shape
import TileSelect.Proofs.Meaning.Template
import TileSelect.Proofs.Selection.Subgraph
/-!
Patterns whose templates compute what their trees stand for.

`Pattern.computes` carries out the template of a pattern on formulas and compares the outcome with
the formula of the tree. The main result is that it is right: if it says yes, then every
instantiation of every match of the pattern, with any choice for its groups, is a tile that computes
the node it matched.

An alternative of a group is written as an operand, not as instructions, and stands for the node
that it matched: as a word, or as the memory at that word. That is all that is needed of most
groups. If the alternatives of a group have one formula in common, over names that all of them
capture, the group can be opened: a path may then lead to such a name, and the formula says how the
word of the node depends on it.
-/

set_option autoImplicit false

namespace TileSelect

open Relation (TransGen ReflTransGen)

/-! ## The check -/

namespace Pattern

/-- Whether the name is that of a value or a constant. -/
def captures (p : Pattern) (name : String) : Bool :=
  match p.lookup? name with
  | some (.producer ..) | some (.constant ..) => true
  | _ => false

/-- What the captured names stand for: the words of their nodes. -/
def ownNames (p : Pattern) : Known
  | [name] => if p.captures name then some (.number (.name [name])) else none
  | _ => none

/-- The formula of a tree without groups. -/
def ownFormula? (p : Pattern) : Option Formula := p.root.formula? fun _ _ => none

/-- What an alternative is written as, if that stands for the node it matches. -/
def content? (p : Pattern) : Option (Datum Formula) :=
  match p.template with
  | [part] => do
    let d ← part.symbolic? p.ownNames
    let f ← p.ownFormula?
    if d.weight.agrees f then some d else none
  | _ => none

/-- Whether the names are different and mean nothing fixed. -/
def isClear (p : Pattern) : Bool :=
  decide p.root.idents.Nodup && p.root.idents.all fun i => !isReserved i

end Pattern

namespace Tables

/-- The formula that all alternatives of a group have in common. -/
def common? (t : Tables) (g : String) : Option Formula :=
  match t.group g with
  | [] => none
  | q :: qs => q.ownFormula?.filter fun f => qs.all fun q' => q'.ownFormula?.any f.agrees

/-- The formula of a group under the name it is included by. -/
def includedFormula (t : Tables) (ident g : String) : Formula :=
  match t.common? g with
  | some f => f.within ident
  | none => .name [ident]

/-- What a group is written as, if all its alternatives are written alike and stand for the word of
the formula. -/
def written? (t : Tables) (g : String) (f : Formula) : Option (Datum Formula) :=
  if (t.group g).all fun q => q.content? matches some (.number _) then some (.number f)
  else if (t.group g).all fun q => q.content? matches some (.memory _) then some (.memory f)
  else none

end Tables

namespace Pattern

/-- What the paths in the template of a pattern stand for. -/
def names (t : Tables) (p : Pattern) : Known
  | [name] =>
    match p.lookup? name with
    | some (.inclusion _ g) => t.written? g (t.includedFormula name g)
    | _ => p.ownNames [name]
  | [name, member] =>
    match p.lookup? name with
    | some (.inclusion _ g) =>
      if (t.group g).all (·.captures member) then some (.number (.name [name, member])) else none
    | _ => none
  | _ => none

/-- Whether the template computes what the tree stands for. -/
def computes (t : Tables) (p : Pattern) : Bool :=
  match p.root.formula? fun ident g => some (t.includedFormula ident g),
    p.template.foldlM (Part.after? (p.names t)) (.name ["out"]) with
  | some f, some content =>
    p.root.rootOp?.isSome && !p.template.isEmpty && content.agrees f
  | _, _ => false

end Pattern

/-! ## Words of paths -/

/-- The word of the node that a path leads to, in a match with its choices. A path that ends at a
group leads to the node of what was chosen; the value of the root starts with some word. -/
def Match.wordAt (word : NodeId → Word) (start : Word) (m : Match)
    (chosen : List (String × Instantiation)) : List String → Word
  | [] => word m.root
  | head :: rest =>
    if head = "out" then start
    else
      match Keyed.get? head chosen with
      | some sub => wordAt word start sub.record sub.chosen rest
      | none => (Keyed.get? head m.bindings).elim start word

/-- Every value is a 32-bit word. -/
def Block.AllWords (b : Block) : Prop := ∀ x v, b.Yields x v → b.widthOf? v = some .i32

namespace Filling

variable {b : Block} {w : World} {word : NodeId → Word} {id x : NodeId} {st : State} {r : Part}
  (hwords : b.AllWords)
include hwords

/-- In a block of words the part for a node is its value, whole and of the width of a word. What the
part stands for can be looked up in the state. -/
theorem exists_of_valueOf (h : valueOf b x = .ok r) :
    ∃ v, r = .value v .i32 none ∧ b.Yields x v := by
  unfold valueOf at h
  split at h
  · rename_i p hp
    cases h
    unfold Block.valueOf? at hp
    split at hp
    · rename_i n hn
      split at hp
      · rename_i v hv
        rw [hwords x v ⟨n, hn, hv⟩] at hp
        cases hp
        exact ⟨v, rfl, n, hn, hv⟩
      · cases hp
    · cases hp
  · cases h

variable (hst : b.HoldsAllBut id word st) (hx : x ≠ id)
include hst hx

/-- The value of another node stands for the word of that node, as the state holds it. -/
theorem datum?_valueOf (h : valueOf b x = .ok r) : r.datum? w st = some (.number (word x)) := by
  obtain ⟨v, rfl, hv⟩ := exists_of_valueOf hwords h
  rw [← hst x v hx hv]
  rfl

/-- A constant stands for the word of its node, however it is written: as a number, as a symbol, or
as the value that the state holds. -/
theorem datum?_constantOf (hword : b.Consistent w word) {n : Node} (hn : b.node? x = some n)
    (hop : n.op = .constant) (h : constantOf b x = .ok r) :
    r.datum? w st = some (.number (word x)) := by
  unfold constantOf at h
  rw [hn] at h
  dsimp only at h
  split at h
  · rename_i v himm
    cases h
    rw [hword.literal hn (v := v) (by rw [Node.literal?, hop, himm])]
    rfl
  · rename_i name himm
    cases h
    rw [hword.symbol hn hop himm]
    rfl
  · exact datum?_valueOf hwords hst hx h

end Filling

namespace Pattern

theorem nodup_of_isClear {p : Pattern} (h : p.isClear = true) : p.root.idents.Nodup := by
  rw [isClear, Bool.and_eq_true, decide_eq_true_eq] at h
  exact h.1

/-- A name of a clear pattern cannot be mistaken for one that has a fixed meaning. -/
theorem unreserved_of_isClear {p : Pattern} (h : p.isClear = true) {i : String}
    (hi : i ∈ p.root.idents) : isReserved i = false := by
  rw [isClear, Bool.and_eq_true, List.all_eq_true] at h
  simpa using h.2 i hi

/-- A captured name is introduced by a value or by a constant, at some position of the tree; an
inclusion is no capture. -/
theorem exists_at?_of_captures {p : Pattern} {name : String} (h : p.captures name = true) :
    ∃ pos s, p.root.at? pos = some s ∧ s.captured? = some name
      ∧ ((∃ ident ty, s = .producer ident ty)
        ∨ ∃ ident ty value, s = .constant ident ty value) := by
  unfold captures at h
  split at h
  · rename_i ident ty hs
    obtain ⟨pos, hpos, hident⟩ := exists_at?_of_lookup? hs
    exact ⟨pos, _, hpos, hident, .inl ⟨ident, ty, rfl⟩⟩
  · rename_i ident ty value hs
    obtain ⟨pos, hpos, hident⟩ := exists_at?_of_lookup? hs
    exact ⟨pos, _, hpos, hident, .inr ⟨ident, ty, value, rfl⟩⟩
  · cases h

end Pattern

/-! ## Patterns in place -/

section Placed

variable {t : Tables} {b : Block} {w : World} {word : NodeId → Word} {id : NodeId} {st : State}
  {inc : Inclusion} {p : Pattern} {k : NodeId} {m : Match} {e : Shape.Embedding}
  {chosen : List (String × Instantiation)} {name : String} {pos : Shape.Position} {s : Shape}
  (he : Shape.Placed b inc p.root k (.start p k) m e) (hp : p.isClear = true)
  (hpattern : m.pattern = p) (hchosen : Match.Chooses b m.submatches chosen)
include he

/-- Below the top, a pattern lies on nodes that the top depends on. The induction is on the
position, one operand at a time. -/
theorem Shape.Placed.transGen (hpos : p.root.at? pos = some s) (hne : pos ≠ []) :
    TransGen b.Operand k (e pos) := by
  induction pos using List.reverseRecOn generalizing s with
  | nil => exact absurd rfl hne
  | append_singleton above i ih =>
    obtain ⟨-, hoperand⟩ := he.operand_of_concat hpos
    obtain ⟨ident, ty, op, args, habove, -⟩ := Shape.at?_concat hpos
    rcases List.eq_nil_or_concat' above with rfl | ⟨above', i', rfl⟩
    · rw [he.top] at hoperand
      exact .single hoperand
    · exact (ih habove (by simp)).tail hoperand

/-- Names are not at the top of a pattern that is an operation, so they lie on such nodes. -/
theorem Shape.Placed.transGen_of_leaf (hroot : p.root.rootOp?.isSome = true)
    (hpos : p.root.at? pos = some s) (hs : s.rootOp? = none) : TransGen b.Operand k (e pos) := by
  refine he.transGen hpos ?_
  rintro rfl
  rw [Shape.at?_nil, Option.some.injEq] at hpos
  rw [hpos, hs] at hroot
  cases hroot

include hp hchosen

/-- A captured name leads to the node that the pattern has there: names are different, so the
position of the name is the one that is found. -/
theorem Shape.Placed.wordAt_captured (start : Word) (hpos : p.root.at? pos = some s)
    (hs : s.captured? = some name) : m.wordAt word start chosen [name] = word (e pos) := by
  have hnd := Pattern.nodup_of_isClear hp
  have hname := Pattern.unreserved_of_isClear hp
    (Shape.mem_idents_of_at? hpos (Shape.ident?_eq_some.2 (.inl hs)))
  have hnone : Keyed.get? name chosen = none := by
    refine Option.eq_none_iff_forall_ne_some.2 fun sub hsub => ?_
    obtain ⟨ms, -, hms, -⟩ := hchosen.of_mem (Keyed.mem_of_get? hsub)
    exact he.not_has_of_captured hnd hpos hs
      (Option.isSome_iff_exists.2 (Keyed.exists_get?_of_mem hms))
  rw [Match.wordAt, if_neg (isReserved_eq_false hname).1, hnone, he.get?_bindings hnd hpos hs]
  rfl

/-- A tree without groups stands for the word of the node it lies on. -/
theorem Shape.Placed.eval_ownFormula? (start : Word) (hword : b.Consistent w word) {f : Formula}
    (hf : p.ownFormula? = some f) : f.eval w (m.wordAt word start chosen) = word k := by
  rw [← he.top]
  refine Shape.eval_formula? hword p.root he.lies
    (fun pos s i hpos hs => he.wordAt_captured hp hchosen start hpos hs) ?_ hf
  intro pos i g f hpos hf
  cases hf

include hpattern

/-- The captured names stand for the words of the nodes they lie on. None of these is the node that
the template is for, whose value may not have been written yet. -/
theorem Shape.Placed.denotes_ownNames (start : Word) (hwords : b.AllWords)
    (hword : b.Consistent w word) (hst : b.HoldsAllBut id word st)
    (hfree : ∀ pos s, p.root.at? pos = some s → s.rootOp? = none → e pos ≠ id) :
    Filling.Denotes ⟨b, m, chosen⟩ w st (m.wordAt word start chosen) p.ownNames := by
  intro path d hd
  unfold Pattern.ownNames at hd
  split at hd
  · rename_i name
    split at hd
    · rename_i hcaptures
      cases hd
      obtain ⟨pos, s, hpos, hs, hcases⟩ := Pattern.exists_at?_of_captures hcaptures
      have hident : s.ident? = some name := Shape.ident?_eq_some.2 (.inl hs)
      have hnd := Pattern.nodup_of_isClear hp
      have hname := Pattern.unreserved_of_isClear hp (Shape.mem_idents_of_at? hpos hident)
      refine ⟨parse?_of_not_isReserved hname, fun r hr => ?_⟩
      rw [he.standsFor_captured hnd hname hpos hs, Filling.captured, hpattern,
        Pattern.lookup?_of_at? hnd hpos hident] at hr
      simp only [Datum.map, Formula.eval, he.wordAt_captured hp hchosen start hpos hs]
      -- A value is held by the state, and a constant is written out or held by the state.
      rcases hcases with ⟨ident, ty, rfl⟩ | ⟨ident, ty, value, rfl⟩
      · exact Filling.datum?_valueOf hwords hst (hfree pos _ hpos rfl) hr
      · obtain ⟨-, n, hn, hop, -⟩ := he.lies pos _ hpos
        exact Filling.datum?_constantOf hwords hst (hfree pos _ hpos rfl) hword hn hop hr
    · cases hd
  · cases hd

/-- An alternative is written as what it says, and that stands for the node: its one part stands for
its formula, and the formula agrees with that of the tree. -/
theorem Shape.Placed.datum?_content (hwords : b.AllWords) (hword : b.Consistent w word)
    (hst : b.HoldsAllBut id word st)
    (hfree : ∀ pos s, p.root.at? pos = some s → s.rootOp? = none → e pos ≠ id)
    {d : Datum Formula} (hd : p.content? = some d) {parts : List Part} {before after : Temporaries}
    (hfill : (Filling.fillAll ⟨b, m, chosen⟩ p.template).run.run before = (.ok parts, after)) :
    ∃ r, parts = [r] ∧ r.datum? w st = some (d.map fun _ => word k) := by
  have hdenotes : Filling.Denotes ⟨b, m, chosen⟩ w st (m.wordAt word 0 chosen) p.ownNames :=
    he.denotes_ownNames hp hpattern hchosen 0 hwords hword hst hfree
  unfold Pattern.content? at hd
  split at hd
  · rename_i part htemplate
    simp only [Option.bind_eq_bind, Option.bind_eq_some_iff] at hd
    obtain ⟨d', hpart, f, hf, hd⟩ := hd
    split at hd
    · rename_i hagrees
      cases hd
      have hweight : d.weight.eval w (m.wordAt word 0 chosen) = word k :=
        (Formula.eval_eq_of_agrees hagrees).trans (he.eval_ownFormula? hp hchosen 0 hword hf)
      rw [htemplate] at hfill
      obtain ⟨r, t₁, rest, hr, hrest, rfl⟩ := Filling.run_fillAll_cons hfill
      rw [Filling.fillAll, Subst.run_pure] at hrest
      obtain ⟨rfl, -⟩ := hrest
      refine ⟨r, rfl, ?_⟩
      rw [Filling.datum?_fill hdenotes hpart hr, Datum.map_eq_const hweight]
    · cases hd
  · cases hd

end Placed

/-! ## Choices for groups -/

/-- What an instantiation of an alternative of a group is good for, at a node: it stands for the
node, and where the group can be opened, its members stand for what the formula takes them to be. -/
structure Tables.Represents (t : Tables) (b : Block) (w : World) (word : NodeId → Word) (st : State)
    (start : Word) (g : String) (k : NodeId) (i : Instantiation) : Prop where
  root : i.record.root = k
  common : ∀ f, t.common? g = some f → f.eval w (i.record.wordAt word start i.chosen) = word k
  written : ∀ f d, t.written? g f = some d →
    ∃ r, i.parts = [r] ∧ r.datum? w st = some (d.map fun _ => word k)
  members : ∀ member, (t.group g).all (·.captures member) = true →
    ∀ r, Filling.StandsFor ⟨b, i.record, i.chosen⟩ [member] r →
      r.datum? w st = some (.number (i.record.wordAt word start i.chosen [member]))

/-- A group is written as its formula, whether as a word or as an address. In the second case the
formula is where the word is found. -/
theorem Tables.weight_of_written? {t : Tables} {g : String} {f : Formula} {d : Datum Formula}
    (h : t.written? g f = some d) : d.weight = f := by
  unfold written? at h
  split at h
  · cases h
    rfl
  · split at h
    · cases h
      rfl
    · cases h

/-- What a group is written as, its alternatives are written as. There are two ways, as a word and
as an address, and the alternatives have to agree on one of them. -/
theorem Tables.content?_of_written? {t : Tables} {g : String} {f : Formula} {d : Datum Formula}
    (h : t.written? g f = some d) {q : Pattern} (hq : q ∈ t.group g) (x : Word) :
    ∃ d', q.content? = some d' ∧ d'.map (fun _ => x) = d.map fun _ => x := by
  unfold written? at h
  split at h
  · rename_i hall
    cases h
    have hcontent := List.all_eq_true.1 hall q hq
    split at hcontent
    · rename_i hd
      exact ⟨_, hd, rfl⟩
    · cases hcontent
  · split at h
    · rename_i hall
      cases h
      have hcontent := List.all_eq_true.1 hall q hq
      split at hcontent
      · rename_i hd
        exact ⟨_, hd, rfl⟩
      · cases hcontent
    · cases h

/-- The formula that a group has in common is that of its first alternative, and those of all others
agree with it. -/
theorem Tables.exists_agrees_of_common? {t : Tables} {g : String} {f : Formula}
    (h : t.common? g = some f) {q : Pattern} (hq : q ∈ t.group g) :
    ∃ f', q.ownFormula? = some f' ∧ (f' = f ∨ f.agrees f' = true) := by
  unfold common? at h
  split at h
  · cases h
  · rename_i first rest hgroup
    obtain ⟨hf, hrest⟩ := Option.filter_eq_some_iff.1 h
    rw [hgroup] at hq
    rcases List.mem_cons.1 hq with rfl | hq
    · exact ⟨f, hf, .inl rfl⟩
    · obtain ⟨f', hf', hagrees⟩ := (Option.any_eq_true _ _).1 (List.all_eq_true.1 hrest q hq)
      exact ⟨f', hf', .inr hagrees⟩

section Choices

variable {t : Tables} {b : Block} {w : World} {word : NodeId → Word} {id : NodeId} {st : State}
  (hclear : ∀ g, ∀ q ∈ t.group g, q.isClear = true) (hacyclic : b.OperandsAcyclic)
  (hwords : b.AllWords) (hword : b.Consistent w word) (hst : b.HoldsAllBut id word st)
include hclear hacyclic hwords hword hst

/-- **Every instantiation of an alternative represents the node that it matched**, if that is a node
which the one under consideration depends on. -/
theorem Tables.represents_of_included {g : String} {k : NodeId} {ms : List Match}
    {m : Match} {i : Instantiation} (hk : TransGen b.Operand id k)
    (hms : t.included b g k = .ok ms) (hm : m ∈ ms) (hi : m.Instantiates b i) (start : Word) :
    t.Represents b w word st start g k i := by
  -- The alternative comes from a pattern of the group, and lies on nodes that the node depends on.
  obtain ⟨q, hq, hmatch⟩ := (mem_of_filterMapM (included_fix hms) m).1 hm
  have hqclear := hclear g q hq
  obtain ⟨hpattern, hroot⟩ := Pattern.matchWith_head hmatch
  obtain ⟨e, he⟩ := Pattern.matchWith_placed hmatch (Pattern.nodup_of_isClear hqclear)
  have hne : ∀ x, TransGen b.Operand id x → x ≠ id := by
    rintro x hx rfl
    exact hacyclic x hx
  -- An alternative may be a name and nothing else; then it is the position of the group that is
  -- below the node.
  have hfree : ∀ pos s, q.root.at? pos = some s → s.rootOp? = none → e pos ≠ id := by
    intro pos s hpos _
    rcases eq_or_ne pos [] with rfl | hpos'
    · exact hne _ (he.top.symm ▸ hk)
    · exact hne _ (hk.trans (he.transGen hpos hpos'))
  cases hi with
  | intro allocated after hchosen hfilled =>
    rw [hpattern] at hfilled
    refine ⟨hroot, fun f hf => ?_, fun f d hd => ?_, fun member hmember r hr => ?_⟩
    · obtain ⟨f', hf', hagrees⟩ := exists_agrees_of_common? hf hq
      have heval := he.eval_ownFormula? hqclear hchosen start hword hf'
      rcases hagrees with rfl | hagrees
      · exact heval
      · exact (Formula.eval_eq_of_agrees hagrees).trans heval
    · obtain ⟨d', hd', hsame⟩ := content?_of_written? hd hq (word k)
      rw [← hsame]
      exact he.datum?_content hqclear hpattern hchosen hwords hword hst hfree hd' hfilled
    · have hcaptures := List.all_eq_true.1 hmember q hq
      have hdenotes := he.denotes_ownNames hqclear hpattern hchosen start hwords hword hst hfree
      exact (hdenotes [member] _ (if_pos hcaptures)).2 r hr

end Choices

/-! ## Whole patterns -/

section Whole

variable {t : Tables} {b : Block} {w : World} {word : NodeId → Word} {id : NodeId} {st : State}
  {start : Word} {inc : Inclusion} {p : Pattern} {m : Match} {e : Shape.Embedding}
  {chosen : List (String × Instantiation)} {name g : String} {k : NodeId} {sub : Instantiation}
  (he : Shape.Placed b inc p.root id (.start p id) m e) (hp : p.isClear = true)
  (hpattern : m.pattern = p) (hkeys : (m.submatches.map Prod.fst).Nodup)
  (hchosen : Match.Chooses b m.submatches chosen)
  (hchoices : ∀ pos name g, p.root.at? pos = some (.inclusion name g) →
    ∃ i, (name, i) ∈ chosen ∧ t.Represents b w word st start g (e pos) i)

include hkeys hchosen in
/-- A path into a group continues in what was chosen for it. -/
theorem Match.wordAt_chosen (hname : isReserved name = false) (hsub : (name, sub) ∈ chosen)
    (rest : List String) :
    m.wordAt word start chosen (name :: rest) = sub.record.wordAt word start sub.chosen rest := by
  rw [Match.wordAt, if_neg (isReserved_eq_false hname).1,
    Keyed.get?_of_mem (hchosen.keys.symm ▸ hkeys) hsub]

include hkeys hchosen in
/-- Under the name it is included by, the formula of a group stands for the word of the node that
was chosen. Paths into the group read the same from inside and outside. -/
theorem Tables.Represents.eval_includedFormula (h : t.Represents b w word st start g k sub)
    (hname : isReserved name = false) (hsub : (name, sub) ∈ chosen) :
    (t.includedFormula name g).eval w (m.wordAt word start chosen) = word k := by
  have hwordAt : ∀ rest, m.wordAt word start chosen (name :: rest)
      = sub.record.wordAt word start sub.chosen rest :=
    Match.wordAt_chosen hkeys hchosen hname hsub
  unfold includedFormula
  split
  · rename_i f hf
    rw [Formula.eval_within, funext hwordAt]
    exact h.common f hf
  · rw [Formula.eval, hwordAt, Match.wordAt, h.root]

include he hp hkeys hchosen hchoices in
/-- The tree of a pattern stands for the word of the node it lies on, where its groups stand for the
words of the nodes that they lie on. -/
theorem Shape.Placed.eval_formula? (hword : b.Consistent w word) {f : Formula}
    (hf : (p.root.formula? fun ident g => some (t.includedFormula ident g)) = some f) :
    f.eval w (m.wordAt word start chosen) = word id := by
  rw [← he.top]
  refine Shape.eval_formula? hword p.root he.lies
    (fun pos s i hpos hs => he.wordAt_captured hp hchosen start hpos hs) ?_ hf
  intro pos name g f hpos hf
  cases hf
  obtain ⟨i, hi, hrep⟩ := hchoices pos name g hpos
  exact hrep.eval_includedFormula hkeys hchosen
    (Pattern.unreserved_of_isClear hp (Shape.mem_idents_of_at? hpos rfl)) hi

include he hp hpattern hkeys hchosen hchoices in
/-- **The paths in the template stand for what they are known to stand for.** A path is the name of
a value or a constant, or it leads into a group, and then to the alternative that has been chosen.
-/
theorem Shape.Placed.denotes_names (hwords : b.AllWords) (hword : b.Consistent w word)
    (hst : b.HoldsAllBut id word st)
    (hfree : ∀ pos s, p.root.at? pos = some s → s.rootOp? = none → e pos ≠ id) :
    Filling.Denotes ⟨b, m, chosen⟩ w st (m.wordAt word start chosen) (p.names t) := by
  have hown := he.denotes_ownNames hp hpattern hchosen start hwords hword hst hfree
  have hgroup : ∀ name ident g, p.lookup? name = some (.inclusion ident g) →
      isReserved name = false ∧ ∃ k i, (name, i) ∈ chosen
        ∧ t.Represents b w word st start g k i := by
    intro name ident g hlookup
    obtain ⟨pos, hpos, hident⟩ := Pattern.exists_at?_of_lookup? hlookup
    cases hident
    obtain ⟨i, hi, hrep⟩ := hchoices pos name g hpos
    exact ⟨Pattern.unreserved_of_isClear hp (Shape.mem_idents_of_at? hpos rfl), _, i, hi, hrep⟩
  intro path d hd
  unfold Pattern.names at hd
  split at hd
  · rename_i name
    split at hd
    · rename_i ident g hlookup
      -- A group is replaced by the one part that was chosen for it.
      obtain ⟨hname, k, i, hi, hrep⟩ := hgroup name ident g hlookup
      refine ⟨parse?_of_not_isReserved hname, fun r hr => ?_⟩
      obtain ⟨r', hparts, hdatum⟩ := hrep.written _ d hd
      rw [Filling.standsFor_chosen hkeys hchosen hname hi] at hr
      simp only [List.isEmpty_nil, if_true, hparts, Filling.singlePart, Except.ok.injEq] at hr
      rw [← hr, hdatum]
      exact congrArg some (Datum.map_eq_const (Tables.weight_of_written? hd ▸
        hrep.eval_includedFormula hkeys hchosen hname hi)).symm
    · exact hown _ d hd
  · rename_i name member
    split at hd
    · rename_i ident g hlookup
      split at hd
      · rename_i hmember
        cases hd
        obtain ⟨hname, k, i, hi, hrep⟩ := hgroup name ident g hlookup
        refine ⟨parse?_of_not_isReserved hname, fun r hr => ?_⟩
        rw [Filling.standsFor_chosen hkeys hchosen hname hi] at hr
        rw [hrep.members member hmember r hr, Datum.map, Formula.eval,
          Match.wordAt_chosen hkeys hchosen hname hi]
      · cases hd
    · cases hd
  · cases hd

end Whole

/-- **A pattern that passes the check computes what it matches.** In a block without cycles, all of
whose values are words, every instantiation of every match of such a pattern is a tile that computes
the matched node. -/
theorem Pattern.computes_of_instantiates {t : Tables} {p : Pattern} {b : Block} {id : NodeId}
    {m : Match} {i : Instantiation} (hcheck : p.computes t = true) (hp : p.isClear = true)
    (hclear : ∀ g, ∀ q ∈ t.group g, q.isClear = true) (hacyclic : b.OperandsAcyclic)
    (hdistinct : b.DistinctValues) (hwords : b.AllWords) (hm : t.matchAt b id p = .ok (some m))
    (hi : m.Instantiates b i) : i.toTile.Computes b id := by
  intro w word hword st hst
  unfold computes at hcheck
  split at hcheck
  · rename_i f content hf hcontent
    simp only [Bool.and_eq_true, Bool.not_eq_true', List.isEmpty_eq_false_iff] at hcheck
    obtain ⟨⟨hroot, hne⟩, hagrees⟩ := hcheck
    obtain ⟨hpattern, hmroot⟩ := matchWith_head hm
    obtain ⟨e, he⟩ := matchWith_placed hm (nodup_of_isClear hp)
    have hkeys := submatches_nodup hm
    -- Names stand for nodes below, so none stands for the node whose value is overwritten.
    have hfree : ∀ pos s, p.root.at? pos = some s → s.rootOp? = none → e pos ≠ id := by
      intro pos s hpos hs heq
      exact hacyclic id (heq ▸ he.transGen_of_leaf hroot hpos hs)
    cases hi with
    | intro allocated after hchosen hfilled =>
      rename_i chosen parts
      rw [hpattern] at hfilled
      have hchoices : ∀ st', b.HoldsAllBut id word st' → ∀ start pos name g,
          p.root.at? pos = some (.inclusion name g) →
          ∃ i, (name, i) ∈ chosen ∧ t.Represents b w word st' start g (e pos) i := by
        intro st' hst' start pos name g hpos
        obtain ⟨i, ms, hi, hms, m', hm', hinst⟩ := he.choice_of_position hchosen hpos
        exact ⟨i, hi, Tables.represents_of_included hclear hacyclic hwords hword hst'
          (he.transGen_of_leaf hroot hpos rfl) hms hm' hinst start⟩
      obtain ⟨out, hout⟩ := Filling.exists_standsFor_out hcontent hne hfilled
      obtain ⟨v, rfl, hv⟩ := Filling.exists_of_valueOf hwords (Filling.standsFor_out.1 hout)
      rw [hmroot] at hv
      have hdenotes : ∀ st', b.HoldsAllBut id word st' → Filling.Denotes ⟨b, m, chosen⟩ w st'
          (m.wordAt word (st v) chosen) (p.names t) := fun st' hst' =>
        he.denotes_names hp hpattern hkeys hchosen (hchoices st' hst' _) hwords hword hst' hfree
      -- What the other nodes' values hold is the invariant of the run; the root's value starts
      -- with whatever it held.
      obtain ⟨st', hrun, hst'⟩ := Filling.foldlM_step?_fillAll (v := v)
        (fun r hr => hr.unique hout) (fun st' x h => h.set hdistinct hv x) hdenotes hcontent hfilled
        hst (by rw [Formula.eval, Match.wordAt, if_pos rfl])
      refine ⟨st', hrun, fun u hu => ?_⟩
      rw [hu.unique hv, hst', Formula.eval_eq_of_agrees hagrees]
      exact he.eval_formula? hp hkeys hchosen (hchoices st hst _) hword hf
  · cases hcheck

end TileSelect
