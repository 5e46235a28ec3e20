import TileSelect.Proofs.Expansion.Filling
import TileSelect.Proofs.Pattern.Scope
import TileSelect.Proofs.Source.Paths
/-!
Compiled patterns refer to what they introduce.

There are two kinds of references. A reference back stands in the tree and goes to an identifier
that comes before it; the order is from left to right, an operation after its arguments. A
reference of the template starts with an identifier of the tree or with a name of fixed meaning;
of what follows in its path nothing is known before a match is at hand.

`Shape.scope?` reads the first off a shape, by passing the identifiers through it as the compiler
passes its scope. That the two agree is an equation, `scope?_of_shape`: nothing is approximated.
-/

set_option autoImplicit false

namespace TileSelect

/-! ## References back -/

namespace Shape

mutual

/-- The identifiers in scope after a shape, given those before; nothing if the shape refers to an
identifier that is not in scope. -/
def scope? (known : List String) : Shape → Option (List String)
  | .node ident _ _ args =>
    match scopeAll? known args with
    | some inner => some (inner ++ ident.toList)
    | none => none
  | .producer ident _ | .constant ident _ _ => some (known ++ ident.toList)
  | .inclusion ident _ => some (known ++ [ident])
  | .backreference ident => if ident ∈ known then some known else none

/-- The same for several shapes, from left to right. -/
def scopeAll? (known : List String) : List Shape → Option (List String)
  | [] => some known
  | s :: ss =>
    match scope? known s with
    | some known' => scopeAll? known' ss
    | none => none

end

/-- An operation brings what its arguments bring, and its own identifier behind. An argument cannot
refer back to the operation that it is an argument of. -/
theorem scope?_node_inv {ident : Option String} {ty : Option ValueType} {op : Operation}
    {args : List Shape} {known known' : List String}
    (h : scope? known (.node ident ty op args) = some known') :
    ∃ inner, scopeAll? known args = some inner ∧ known' = inner ++ ident.toList := by
  rw [scope?] at h
  split at h
  · rename_i inner hinner
    cases h
    exact ⟨inner, hinner, rfl⟩
  · cases h

/-- Shapes are gone through from left to right, and each may refer to what those before it have
brought. -/
theorem scopeAll?_cons_inv {s : Shape} {ss : List Shape} {known known' : List String}
    (h : scopeAll? known (s :: ss) = some known') :
    ∃ known₁, scope? known s = some known₁ ∧ scopeAll? known₁ ss = some known' := by
  rw [scopeAll?] at h
  split at h
  · rename_i known₁ hs
    exact ⟨known₁, hs, h⟩
  · cases h

/-- Several shapes put nothing into scope that none of them introduces. The statement for each of
them is a hypothesis, as in all inductions on shapes here. -/
theorem mem_of_mem_scopeAll? {ss : List Shape}
    (ih : ∀ s ∈ ss, ∀ known known', scope? known s = some known' →
      ∀ i ∈ known', i ∈ known ∨ i ∈ s.idents) :
    ∀ known known', scopeAll? known ss = some known' →
      ∀ i ∈ known', i ∈ known ∨ i ∈ identsList ss := by
  induction ss with
  | nil =>
    intro known known' h i hi
    cases h
    exact .inl hi
  | cons s ss ihss =>
    intro known known' h i hi
    obtain ⟨known₁, hs, hss⟩ := scopeAll?_cons_inv h
    rw [identsList_cons, List.mem_append]
    rcases ihss (fun a ha => ih a (List.mem_cons_of_mem s ha)) known₁ known' hss i hi with h₁ | h₁
    · exact (ih s List.mem_cons_self known known₁ hs i h₁).imp_right .inl
    · exact .inr (.inr h₁)

/-- A shape puts nothing into scope that it does not introduce. A reference back introduces nothing:
it only asks whether the identifier is there. -/
theorem mem_of_mem_scope? (s : Shape) : ∀ known known', scope? known s = some known' →
    ∀ i ∈ known', i ∈ known ∨ i ∈ s.idents := by
  induction s using Shape.induction with
  | node ident ty op args ih =>
    intro known known' h i hi
    obtain ⟨inner, hinner, rfl⟩ := scope?_node_inv h
    rw [idents_node, List.mem_append]
    rcases List.mem_append.1 hi with hi | hi
    · exact (mem_of_mem_scopeAll? ih known inner hinner i hi).imp_right .inr
    · exact .inr (.inl hi)
  | producer | constant | inclusion =>
    intro known known' h i hi
    rw [scope?, Option.some.injEq] at h
    subst h
    simpa [idents, subshapes, ident?] using hi
  | backreference ident =>
    intro known known' h i hi
    rw [scope?] at h
    split at h
    · cases h
      exact .inl hi
    · cases h

end Shape

theorem Part.mem_referencesOfOption {o : Option Part} {path : List String} :
    path ∈ referencesOfOption o ↔ ∃ p, o = some p ∧ path ∈ p.references := by
  cases o with
  | none => simp [referencesOfOption]
  | some p => simp [referencesOfOption]

/-- The references of an address are those of its components. -/
theorem Part.mem_references_memory {a : Address Part} {path : List String} :
    path ∈ (Part.memory a).references
      ↔ ∃ p, (a.base = some p ∨ a.index = some p ∨ a.offset = some p) ∧ path ∈ p.references := by
  obtain ⟨base, index, scale, offset⟩ := a
  rw [references, List.mem_append, List.mem_append, mem_referencesOfOption, mem_referencesOfOption,
    mem_referencesOfOption]
  simp only [or_and_right, exists_or, or_assoc]

/-- The references of several parts are those of each. -/
theorem Part.mem_referencesOfAll {ps : List Part} {path : List String} :
    path ∈ referencesOfAll ps ↔ ∃ p ∈ ps, path ∈ p.references := by
  induction ps with
  | nil => simp [referencesOfAll]
  | cons p ps ih =>
    rw [referencesOfAll, List.mem_append, ih]
    simp

namespace Definition

variable {groups : List String}

/-- An identifier is introduced behind those that are in scope. -/
theorem eq_of_introduce {ident : String} {span : Span} {scope scope' : Scope}
    (h : introduce ident span scope = .ok scope') : scope' = scope ++ [ident] := by
  rw [introduce] at h
  split at h
  · cases h
  · split at h <;> cases h
    rfl

theorem eq_of_introduceCapture {capture : Option String} {span : Span} {scope scope' : Scope}
    (h : introduceCapture capture span scope = .ok scope') :
    scope' = scope ++ capture.toList := by
  cases capture with
  | none =>
    cases h
    exact (List.append_nil scope).symm
  | some ident => exact eq_of_introduce h

mutual

/-- **The scope of the compiler is the scope of the shape.** The recursion is the compiler's, and so
the scopes agree after every step of it. -/
theorem scope?_of_shape : ∀ (e : Expr) (scope scope' : Scope) (s : Shape),
    shape groups e scope = .ok (s, scope') → s.scope? scope = some scope'
  | .number _ span, scope, scope', s, h => by
    rw [shape] at h
    cases h
  | .name capture name span, scope, scope', s, h => by
    rw [shape] at h
    unfold bareName at h
    split at h
    · obtain ⟨scope₁, hscope, h⟩ := bind_eq_ok.1 h
      cases h
      rw [Shape.scope?, eq_of_introduce hscope]
    · split at h
      · cases h
      · split at h
        · rename_i hmem
          cases h
          rw [Shape.scope?, if_pos (List.contains_iff_mem.1 hmem)]
        · cases h
  | .op capture ty name args span, scope, scope', s, h => by
    rw [shape, bind_eq_ok] at h
    obtain ⟨ty', -, h⟩ := h
    split at h
    · split at h
      · obtain ⟨scope₁, hscope, h⟩ := bind_eq_ok.1 h
        cases h
        rw [Shape.scope?, eq_of_introduceCapture hscope]
      · cases h
    · split at h
      · obtain ⟨value, -, h⟩ := bind_eq_ok.1 h
        obtain ⟨scope₁, hscope, h⟩ := bind_eq_ok.1 h
        cases h
        rw [Shape.scope?, eq_of_introduceCapture hscope]
      · obtain ⟨op, -, h⟩ := bind_eq_ok.1 h
        obtain ⟨⟨ss, scope₁⟩, hargs, h⟩ := bind_eq_ok.1 h
        obtain ⟨scope₂, hscope, h⟩ := bind_eq_ok.1 h
        cases h
        rw [Shape.scope?, scopeAll?_of_shapes args scope scope₁ ss hargs,
          eq_of_introduceCapture hscope]

/-- The scopes agree along several expressions, too, each of which starts with what the one before
leaves. -/
theorem scopeAll?_of_shapes : ∀ (es : List Expr) (scope scope' : Scope) (ss : List Shape),
    shapes groups es scope = .ok (ss, scope') → Shape.scopeAll? scope ss = some scope'
  | [], scope, scope', ss, h => by
    rw [shapes] at h
    cases h
    rfl
  | e :: es, scope, scope', ss, h => by
    rw [shapes, bind_eq_ok] at h
    obtain ⟨⟨s, scope₁⟩, hs, h⟩ := h
    obtain ⟨⟨ss', scope₂⟩, hss, h⟩ := bind_eq_ok.1 h
    cases h
    rw [Shape.scopeAll?, scope?_of_shape e scope scope₁ s hs]
    exact scopeAll?_of_shapes es scope₁ scope' ss' hss

end

/-! ## References of the template -/

/-- A path has a first element, and that is known. -/
def Starts (scope : Scope) (path : List String) : Prop :=
  ∃ head rest, path = head :: rest ∧ isKnown scope head = true

/-- Every reference of a part starts with a known name. -/
def Anchored (scope : Scope) (p : Part) : Prop := ∀ path ∈ p.references, Starts scope path

/-- A path does not become empty when the half at its end is taken off, since this is only done if
something is left. -/
theorem splitHalf_ne_nil {path : List String} (h : path ≠ []) : (splitHalf path).1 ≠ [] := by
  unfold splitHalf
  split
  · split
    · split
      · simp
      · exact h
    · exact h
  · exact h

/-- A reference that resolves starts with a known name: the result, a temporary or an identifier.
What comes behind is not looked at when compiling. -/
theorem anchored_reference {scope : Scope} {path : List String} {ty : Option Named} {span : Span}
    {p : Part} (hpath : path ≠ []) (h : reference scope path ty span = .ok p) :
    Anchored scope p := by
  rw [reference] at h
  dsimp only at h
  split at h
  · rename_i hknown
    obtain ⟨ty', -, h⟩ := bind_eq_ok.1 h
    cases h
    intro path' hpath'
    rw [List.mem_singleton.1 hpath']
    obtain ⟨head, rest, heq⟩ := List.exists_cons_of_ne_nil (splitHalf_ne_nil hpath)
    rw [heq] at hknown
    exact ⟨head, rest, heq, hknown⟩
  · cases h

/-- A term that is put into an address brings no references but its own. Wherever it is put, the
other components stay what they were. -/
theorem mem_references_placeTerm {span : Span} {address address' : Address Part} {part : Part}
    {factor : Option Int64} (h : placeTerm span address part factor = .ok address')
    {path : List String} (hpath : path ∈ (Part.memory address').references) :
    path ∈ (Part.memory address).references ∨ path ∈ part.references := by
  rw [Part.mem_references_memory] at hpath ⊢
  obtain ⟨p, hp, hpath⟩ := hpath
  -- A component of the new address is one of the old, or the term.
  have hcomponent : address.base = some p ∨ address.index = some p ∨ address.offset = some p
      ∨ p = part := by
    unfold placeTerm at h
    split at h
    · split at h
      · cases h
      · obtain ⟨s, -, h⟩ := bind_eq_ok.1 h
        cases h
        grind
    · split at h
      · split at h <;> cases h
        grind
      · split at h
        · cases h
          grind
        · split at h <;> cases h
          grind
  grind

mutual

/-- The references of an operand start with known names: numbers, labels and registers have none,
and those of an address come from its terms. -/
theorem anchored_operandPart {scope : Scope} : ∀ (o : Operand) (p : Part), o.Rooted →
    operandPart scope o = .ok p → Anchored scope p
  | .number v span, p, hrooted, h => by
    cases h
    simp [Anchored, Part.literal, Part.references]
  | .label name span, p, hrooted, h => by
    cases h
    simp [Anchored, Part.references]
  | .name name span, p, hrooted, h => by
    cases h
    rw [namePart]
    split <;> simp [Anchored, Part.references]
  | .reference path ty span, p, hrooted, h =>
    anchored_reference (hrooted path (by simp [Operand.paths])) h
  | .scaled index factor span, p, hrooted, h => by
    rw [operandPart, bind_eq_ok] at h
    obtain ⟨part, hpart, h⟩ := h
    obtain ⟨s, -, h⟩ := bind_eq_ok.1 h
    cases h
    have hindex : Anchored scope part :=
      anchored_operandPart index part (fun path hpath => hrooted path hpath) hpart
    intro path hpath
    obtain ⟨q, hq, hpath⟩ := Part.mem_references_memory.1 hpath
    rcases hq with hq | hq | hq <;> cases hq
    exact hindex path hpath
  | .memory terms span, p, hrooted, h => by
    rw [operandPart, bind_eq_ok] at h
    obtain ⟨address, haddress, h⟩ := h
    cases h
    refine anchored_termsAddress terms span _ _ (fun path hpath => hrooted path hpath) ?_ haddress
    simp [Anchored, Address.empty, Part.references, Part.referencesOfOption]

/-- An address stays anchored while terms are put into it, starting from the empty one, which has no
references. -/
theorem anchored_termsAddress {scope : Scope} : ∀ (terms : List (Operand × Option Int64))
    (span : Span) (address address' : Address Part),
    (∀ path ∈ Operand.pathsOfTerms terms, path ≠ []) → Anchored scope (.memory address) →
    termsAddress scope span terms address = .ok address' → Anchored scope (.memory address')
  | [], span, address, address', hrooted, haddress, h => by
    cases h
    exact haddress
  | (atom, factor) :: rest, span, address, address', hrooted, haddress, h => by
    rw [termsAddress] at h
    split at h
    · cases h
    · obtain ⟨part, hpart, h⟩ := bind_eq_ok.1 h
      obtain ⟨address₁, hplace, h⟩ := bind_eq_ok.1 h
      rw [Operand.pathsOfTerms] at hrooted
      have hatom : Anchored scope part := anchored_operandPart atom part
        (fun path hpath => hrooted path (List.mem_append_left _ hpath)) hpart
      refine anchored_termsAddress rest span address₁ address'
        (fun path hpath => hrooted path (List.mem_append_right _ hpath)) ?_ h
      -- A reference was in the address before, or it comes with the term.
      intro path hpath
      exact (mem_references_placeTerm hplace hpath).elim (haddress path) (hatom path)

end

/-- The references of an item are those of its operands, all of which start with known names. -/
theorem anchored_itemPart {scope : Scope} {item : Item} {p : Part}
    (hrooted : ∀ path ∈ item.paths, path ≠ []) (h : itemPart scope item = .ok p) :
    Anchored scope p := by
  unfold itemPart at h
  split at h
  · cases h
    simp [Anchored, Part.references]
  · exact anchored_operandPart _ p hrooted h
  · split at h
    · cases h
    · obtain ⟨condition, -, h⟩ := bind_eq_ok.1 h
      obtain ⟨parts, hparts, h⟩ := bind_eq_ok.1 h
      cases h
      intro path hpath
      rw [Part.references, Part.mem_referencesOfAll] at hpath
      obtain ⟨part, hpart, hpath⟩ := hpath
      obtain ⟨o, ho, hpart⟩ := mem_of_mapM hparts part hpart
      refine anchored_operandPart o part (fun path' hpath' => hrooted path' ?_) hpart path hpath
      exact List.mem_flatMap.2 ⟨o, ho, hpath'⟩

end Definition

/-! ## Compiled patterns -/

/-- A pattern refers only to what it introduces: its identifiers are distinct, references back go
to identifiers before them, and references of the template start with a known name. -/
structure Pattern.WellScoped (p : Pattern) : Prop where
  distinct : p.root.idents.Nodup
  closed : ∃ scope, p.root.scope? [] = some scope
  references : ∀ path ∈ Part.referencesOfAll p.template, ∃ head rest, path = head :: rest
    ∧ (head = "out" ∨ (TempName.parse? head).isSome = true ∨ head ∈ p.root.idents)

/-- A conversion that compiles gives a pattern that refers only to what it introduces, both in its
tree and in its template. -/
theorem Definition.wellScoped_of_conversion {groups : List String} {c : Conversion} {id : PatternId}
    {root : Shape} {template : List Part} (hrooted : c.Rooted)
    (h : conversion groups c = .ok (root, template)) : Pattern.WellScoped ⟨id, root, template⟩ := by
  have hdistinct := idents_nodup_of_conversion h
  rw [conversion, bind_eq_ok] at h
  obtain ⟨⟨s, scope⟩, hs, h⟩ := h
  obtain ⟨parts, hparts, h⟩ := bind_eq_ok.1 h
  cases h
  -- The scope in which the template was compiled is that of the tree.
  have hscope := scope?_of_shape c.expr [] scope root hs
  refine ⟨hdistinct, ⟨scope, hscope⟩, fun path hpath => ?_⟩
  obtain ⟨part, hpart, hpath⟩ := Part.mem_referencesOfAll.1 hpath
  obtain ⟨item, hitem, hpart⟩ := mem_of_mapM hparts part hpart
  obtain ⟨head, rest, rfl, hknown⟩ := anchored_itemPart (hrooted item hitem) hpart path hpath
  refine ⟨head, rest, rfl, ?_⟩
  simp only [isKnown, Bool.or_eq_true, beq_iff_eq, List.contains_iff_mem] at hknown
  rcases hknown with (hout | htemp) | hmem
  · exact .inl hout
  · exact .inr (.inl htemp)
  · have hintroduced := root.mem_of_mem_scope? [] scope hscope head hmem
    exact .inr (.inr (hintroduced.resolve_left List.not_mem_nil))

/-- Tables made of well-scoped patterns. -/
def Tables.WellScoped (t : Tables) : Prop := ∃ ps, t = .ofPatterns ps ∧ ∀ p ∈ ps, p.WellScoped

/-- **Compiled tables are made of well-scoped patterns.** -/
theorem Tables.wellScoped_of_ofSource {source : String} {t : Tables}
    (h : Tables.ofSource source = .ok t) : t.WellScoped := by
  obtain ⟨document, ps, hdocument, rfl, hps⟩ := exists_conversions_of_ofSource h
  refine ⟨ps, rfl, fun p hp => ?_⟩
  obtain ⟨g, hg, c, hc, hconv⟩ := hps p hp
  exact Definition.wellScoped_of_conversion (Document.rooted_of_parse hdocument g hg c hc) hconv

namespace Tables

variable {t : Tables} {p : Pattern}

theorem WellScoped.of_mem_patterns (h : t.WellScoped) (hp : p ∈ t.patterns) : p.WellScoped := by
  obtain ⟨ps, rfl, hps⟩ := h
  exact hps p (mem_patterns_ofPatterns.1 hp)

/-- An alternative of a group is a pattern of the tables. -/
theorem WellScoped.mem_patterns_of_mem_group (h : t.WellScoped) {g : String}
    (hp : p ∈ t.group g) : p ∈ t.patterns := by
  obtain ⟨ps, rfl, -⟩ := h
  exact mem_patterns_ofPatterns.2 (mem_group_ofPatterns.1 hp).1

/-- A candidate is a pattern that can stand alone. -/
theorem WellScoped.of_mem_candidates (h : t.WellScoped) {op : Operation}
    {stored : Option Operation} (hp : p ∈ t.candidates op stored) :
    p ∈ t.patterns ∧ p.isStandalone = true := by
  obtain ⟨ps, rfl, -⟩ := h
  obtain ⟨hmem, hstandalone, -⟩ := mem_candidates_ofPatterns hp
  exact ⟨mem_patterns_ofPatterns.2 hmem, hstandalone⟩

end Tables

end TileSelect
