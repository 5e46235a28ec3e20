import TileSelect.Proofs.Match.Entry
import TileSelect.Proofs.Tables
/-!
Compiled patterns introduce every identifier once.

The scope that is threaded through an expression holds what has been introduced so far, and an
identifier that is in scope is refused. What has to be shown is that the scope is really all that
the shape introduces. An operation introduces its own capture after its arguments but the list of
a shape's identifiers names it first, so the two agree up to order only; for having no duplicates
that is enough.
-/

set_option autoImplicit false

namespace TileSelect

namespace Definition

variable {groups : List String}

/-- The scope after a step: what was in scope and what the step introduced, all different. -/
def Extends (scope introduced scope' : Scope) : Prop :=
  scope'.Perm (scope ++ introduced) ∧ (scope.Nodup → scope'.Nodup)

/-- A step that introduces nothing leaves the scope as it was. -/
theorem Extends.refl (scope : Scope) : Extends scope [] scope :=
  ⟨by rw [List.append_nil], fun h => h⟩

/-- Steps add up, in whatever order their identifiers are listed. -/
theorem Extends.trans {scope scope₁ scope' : Scope} {l l' all : List String}
    (h : Extends scope l scope₁) (h' : Extends scope₁ l' scope') (hall : (l ++ l').Perm all) :
    Extends scope all scope' := by
  refine ⟨?_, fun hnd => h'.2 (h.2 hnd)⟩
  have hsteps : scope'.Perm (scope ++ l ++ l') := h'.1.trans (h.1.append_right l')
  rw [List.append_assoc] at hsteps
  exact hsteps.trans (hall.append_left scope)

/-- An identifier that is introduced was not in scope before, and so it is different from all
others. This is where duplicates are refused. -/
theorem extends_of_introduce {ident : String} {span : Span} {scope scope' : Scope}
    (h : introduce ident span scope = .ok scope') : Extends scope [ident] scope' := by
  rw [introduce] at h
  split at h
  · cases h
  · split at h
    · cases h
    · rename_i hnew
      cases h
      refine ⟨.refl _, fun hnd => ?_⟩
      rw [List.nodup_append]
      refine ⟨hnd, by simp, fun a ha c hc hac => hnew ?_⟩
      rw [List.mem_singleton] at hc
      rw [List.contains_iff_mem, ← hc, ← hac]
      exact ha

/-- A capture introduces its identifier, if there is one; without one the scope stays as it was. -/
theorem extends_of_introduceCapture {capture : Option String} {span : Span} {scope scope' : Scope}
    (h : introduceCapture capture span scope = .ok scope') :
    Extends scope capture.toList scope' := by
  cases capture with
  | none =>
    cases h
    exact .refl scope
  | some ident => exact extends_of_introduce h

/-- A bare name introduces an identifier if it names a group, and none if it is a reference back. In
the first case the identifier may be the name of the group itself. -/
theorem extends_of_bareName {capture : Option String} {name : String} {span : Span}
    {scope scope' : Scope} {s : Shape}
    (h : bareName groups capture name span scope = .ok (s, scope')) :
    Extends scope s.idents scope' := by
  unfold bareName at h
  split at h
  · obtain ⟨scope₁, hscope, h⟩ := bind_eq_ok.1 h
    cases h
    exact extends_of_introduce hscope
  · split at h
    · cases h
    · split at h
      · cases h
        exact .refl scope
      · cases h

mutual

/-- **A shape puts into scope what it introduces**, and that is different from all that was in
scope. The recursion is the compiler's; an operation introduces its own identifier last. -/
theorem extends_of_shape : ∀ (e : Expr) (scope scope' : Scope) (s : Shape),
    shape groups e scope = .ok (s, scope') → Extends scope s.idents scope'
  | .number _ span, scope, scope', s, h => by
    rw [shape] at h
    cases h
  | .name capture name span, scope, scope', s, h => by
    rw [shape] at h
    exact extends_of_bareName h
  | .op capture ty name args span, scope, scope', s, h => by
    rw [shape, bind_eq_ok] at h
    obtain ⟨ty', -, h⟩ := h
    split at h
    · split at h
      · obtain ⟨scope₁, hscope, h⟩ := bind_eq_ok.1 h
        cases h
        have hidents : (Shape.producer capture ty').idents = capture.toList := by
          cases capture <;> rfl
        rw [hidents]
        exact extends_of_introduceCapture hscope
      · cases h
    · split at h
      · obtain ⟨value, -, h⟩ := bind_eq_ok.1 h
        obtain ⟨scope₁, hscope, h⟩ := bind_eq_ok.1 h
        cases h
        have hidents : (Shape.constant capture ty' value).idents = capture.toList := by
          cases capture <;> rfl
        rw [hidents]
        exact extends_of_introduceCapture hscope
      · obtain ⟨op, -, h⟩ := bind_eq_ok.1 h
        obtain ⟨⟨ss, scope₁⟩, hargs, h⟩ := bind_eq_ok.1 h
        obtain ⟨scope₂, hscope, h⟩ := bind_eq_ok.1 h
        cases h
        rw [Shape.idents_node]
        exact (extends_of_shapes args scope scope₁ ss hargs).trans
          (extends_of_introduceCapture hscope) List.perm_append_comm

/-- Several expressions put into scope what they introduce together, from left to right. -/
theorem extends_of_shapes : ∀ (es : List Expr) (scope scope' : Scope) (ss : List Shape),
    shapes groups es scope = .ok (ss, scope') → Extends scope (Shape.identsList ss) scope'
  | [], scope, scope', ss, h => by
    rw [shapes] at h
    cases h
    exact .refl scope
  | e :: es, scope, scope', ss, h => by
    rw [shapes, bind_eq_ok] at h
    obtain ⟨⟨s, scope₁⟩, hs, h⟩ := h
    obtain ⟨⟨ss', scope₂⟩, hss, h⟩ := bind_eq_ok.1 h
    cases h
    rw [Shape.identsList_cons]
    exact (extends_of_shape e scope scope₁ s hs).trans
      (extends_of_shapes es scope₁ scope' ss' hss) (.refl _)

end

/-- The identifiers of a pattern that compiles are different: its tree starts where nothing is in
scope, and each identifier was new when it was introduced. -/
theorem idents_nodup_of_conversion {c : Conversion} {root : Shape} {template : List Part}
    (h : conversion groups c = .ok (root, template)) : root.idents.Nodup := by
  rw [conversion, bind_eq_ok] at h
  obtain ⟨⟨s, scope⟩, hs, h⟩ := h
  obtain ⟨parts, -, h⟩ := bind_eq_ok.1 h
  cases h
  obtain ⟨hperm, hnd⟩ := extends_of_shape c.expr [] scope root hs
  rw [List.nil_append] at hperm
  exact hperm.nodup (hnd List.nodup_nil)

/-- A numbered alternative is one of those that were numbered, and stands under the name of its
group. -/
theorem mem_of_mem_number {seen : List String} {alternatives : List (String × Conversion)}
    {alternative : PatternId × Conversion} (h : alternative ∈ number seen alternatives) :
    ∃ group, (group, alternative.2) ∈ alternatives := by
  induction alternatives generalizing seen with
  | nil => cases h
  | cons first rest ih =>
    obtain ⟨group, c⟩ := first
    rw [number] at h
    rcases List.mem_cons.1 h with rfl | h
    · exact ⟨group, List.mem_cons_self⟩
    · obtain ⟨group', hrest⟩ := ih h
      exact ⟨group', List.mem_cons_of_mem _ hrest⟩

end Definition

/-- A pattern of a document comes from one of its conversions, and the names of the groups are those
that were given to the compiler with it. -/
theorem Document.exists_conversion_of_mem {d : Document} {ps : List Pattern} {p : Pattern}
    (h : d.patterns = .ok ps) (hp : p ∈ ps) :
    ∃ g ∈ d.groups, ∃ c ∈ g.conversions,
      Definition.conversion (d.groups.map Group.name) c = .ok (p.root, p.template) := by
  obtain ⟨alternative, halternative, hpattern⟩ := mem_of_mapM h p hp
  obtain ⟨group, hmem⟩ := Definition.mem_of_mem_number halternative
  obtain ⟨g, hg, hmem⟩ := List.mem_flatMap.1 hmem
  obtain ⟨c, hc, heq⟩ := List.mem_map.1 hmem
  rw [Definition.pattern] at hpattern
  split at hpattern
  · rename_i root template hconv
    cases hpattern
    rw [← (Prod.mk.inj heq).2] at hconv
    exact ⟨g, hg, c, hc, hconv⟩
  · cases hpattern

/-! ## Compiled tables -/

/-- Compiled tables are made of the conversions of a document, the one that the source was read as.
Whatever the compiler makes sure of can be said of the tables through this. -/
theorem Tables.exists_conversions_of_ofSource {source : String} {t : Tables}
    (h : Tables.ofSource source = .ok t) :
    ∃ document ps, Document.parse source.toList = .ok document ∧ t = .ofPatterns ps
      ∧ ∀ p ∈ ps, ∃ g ∈ document.groups, ∃ c ∈ g.conversions,
          Definition.conversion (document.groups.map Group.name) c = .ok (p.root, p.template) := by
  rw [ofSource] at h
  split at h
  · cases h
  · rename_i document hdocument
    split at h
    · cases h
    · rename_i ps hps
      cases h
      exact ⟨document, ps, hdocument, rfl, fun p => Document.exists_conversion_of_mem hps⟩

/-- Tables made of patterns that introduce every identifier once. -/
def Tables.Distinct (t : Tables) : Prop :=
  ∃ ps, t = .ofPatterns ps ∧ ∀ p ∈ ps, p.root.idents.Nodup

/-- **Compiled tables are made of patterns with distinct identifiers.** -/
theorem Tables.distinct_of_ofSource {source : String} {t : Tables}
    (h : Tables.ofSource source = .ok t) : t.Distinct := by
  obtain ⟨document, ps, -, rfl, hps⟩ := exists_conversions_of_ofSource h
  refine ⟨ps, rfl, fun p hp => ?_⟩
  obtain ⟨g, -, c, -, hconv⟩ := hps p hp
  exact Definition.idents_nodup_of_conversion hconv

namespace Tables

variable {t : Tables} {p : Pattern}

/-- An alternative of a group has distinct identifiers. -/
theorem Distinct.of_mem_group (h : t.Distinct) {g : String} (hp : p ∈ t.group g) :
    p.root.idents.Nodup := by
  obtain ⟨ps, rfl, hnd⟩ := h
  exact hnd p (mem_group_ofPatterns.1 hp).1

/-- A candidate has distinct identifiers and the operation of the node at its top. -/
theorem Distinct.of_mem_candidates (h : t.Distinct) {op : Operation} {stored : Option Operation}
    (hp : p ∈ t.candidates op stored) : p.root.idents.Nodup ∧ p.root.rootOp? = some op := by
  obtain ⟨ps, rfl, hnd⟩ := h
  obtain ⟨hmem, -, hop⟩ := mem_candidates_ofPatterns hp
  exact ⟨hnd p hmem, hop⟩

end Tables

end TileSelect
