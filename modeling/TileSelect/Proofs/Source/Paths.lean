import TileSelect.Proofs.Faults
import TileSelect.Source.Parser
/-!
Every reference that is read has a path.

The grammar asks for an identifier after the `<` of a reference, so its path is never empty. The
parse tree does not say so, as a path is a plain list; this module carries the fact from the rule
for atoms up to whole documents.

A parser is described by what it yields. The rules for sequencing and for repetition are stated
once; after them, each rule of the grammar is followed to the place where it reads an operand.
-/

set_option autoImplicit false

namespace TileSelect

/-! ## Paths -/

namespace Operand

mutual

/-- The paths that an operand refers to, as they are written. -/
def paths : Operand → List (List String)
  | .reference path _ _ => [path]
  | .memory terms _ => pathsOfTerms terms
  | .scaled index _ _ => paths index
  | .number .. | .name .. | .label .. => []

/-- The paths that the terms of an address refer to. -/
def pathsOfTerms : List (Operand × Option Int64) → List (List String)
  | [] => []
  | (o, _) :: rest => paths o ++ pathsOfTerms rest

end

/-- The paths of terms are those of their operands, one term after the other. -/
theorem mem_pathsOfTerms {terms : List (Operand × Option Int64)} {path : List String} :
    path ∈ pathsOfTerms terms ↔ ∃ term ∈ terms, path ∈ term.1.paths := by
  induction terms with
  | nil => simp [pathsOfTerms]
  | cons term rest ih =>
    obtain ⟨o, factor⟩ := term
    rw [pathsOfTerms, List.mem_append, ih]
    simp

/-- No path is empty. -/
def Rooted (o : Operand) : Prop := ∀ path ∈ o.paths, path ≠ []

end Operand

/-- The paths that an item refers to. -/
def Item.paths : Item → List (List String)
  | .instruction _ _ operands _ => operands.flatMap Operand.paths
  | .label .. => []
  | .operand o => o.paths

/-- No path of the template is empty. -/
def Conversion.Rooted (c : Conversion) : Prop :=
  ∀ item ∈ c.template, ∀ path ∈ item.paths, path ≠ []

namespace Parser

variable {α β : Type} {P : α → Prop} {Q : β → Prop}

/-! ## What a parser yields -/

/-- Everything that a parser reads has a property. -/
def Yields (P : α → Prop) (p : Parser α) : Prop := ∀ c a c', p c = .ok (a, c') → P a

theorem Yields.bind {p : Parser α} {f : α → Parser β} (hp : Yields P p)
    (hf : ∀ a, P a → Yields Q (f a)) : Yields Q (p >>= f) := by
  intro c y c' h
  obtain ⟨⟨a, c₁⟩, ha, h⟩ := bind_eq_ok.1 h
  exact hf a (hp c a c₁ ha) c₁ y c' h

theorem yields_bind {p : Parser α} {f : α → Parser β} (hf : ∀ a, Yields Q (f a)) :
    Yields Q (p >>= f) :=
  Yields.bind (fun _ _ _ _ => trivial) fun a (_ : True) => hf a

theorem yields_pure {a : α} (h : P a) : Yields P (pure a) := by
  intro c y c' hy
  cases hy
  exact h

theorem yields_expected {what : Expectation} : Yields P (expected what) := by
  intro c y c' hy
  cases hy

/-- A repetition gives values each of which has the property, if the parser that is repeated gives
only such values. -/
theorem yields_repeatAtMost {test : Option Token → Bool} {p : Parser α} (hp : Yields P p)
    (n : Nat) : Yields (fun as => ∀ a ∈ as, P a) (repeatAtMost test p n) := by
  induction n with
  | zero => exact yields_pure (by simp)
  | succ n ih =>
    rw [repeatAtMost]
    refine yields_bind fun next => ?_
    split
    · refine hp.bind fun a ha => ih.bind fun as has => yields_pure ?_
      exact List.forall_mem_cons.2 ⟨ha, has⟩
    · exact yields_pure (by simp)

theorem yields_repeatWhile {test : Option Token → Bool} {p : Parser α} (hp : Yields P p) :
    Yields (fun as => ∀ a ∈ as, P a) (repeatWhile test p) :=
  fun c => yields_repeatAtMost hp _ c

theorem yields_afterEach {separator : Token} {p : Parser α} (hp : Yields P p) :
    Yields (fun as => ∀ a ∈ as, P a) (afterEach separator p) :=
  yields_repeatWhile (yields_bind fun _ => hp)

/-! ## Operands -/

theorem rooted_term {atom : Parser Operand} (h : Yields Operand.Rooted atom) :
    Yields (fun t => t.1.Rooted) (term atom) :=
  h.bind fun _ ha => yields_bind fun _ => yields_pure ha

theorem rooted_furtherTerm {atom : Parser Operand} (h : Yields Operand.Rooted atom) :
    Yields (fun t => t.1.Rooted) (furtherTerm atom) := by
  refine yields_bind fun plus => ?_
  split
  · exact rooted_term h
  · refine yields_bind fun _ => yields_pure ?_
    simp [Operand.Rooted, Operand.paths]

/-- One level of nesting. A reference is read with its first name, so its path is not empty; memory
has the paths of its terms, and the other atoms have none. -/
theorem rooted_atomWith {inner : Parser Operand} (h : Yields Operand.Rooted inner) :
    Yields Operand.Rooted (atomWith inner) := by
  refine yields_bind fun start => yields_bind fun next => ?_
  -- One case for each kind of operand. Whatever else is read besides the operand does not matter.
  cases next with
  | none => exact yields_expected
  | some token =>
    cases token with
    | less =>
      refine yields_bind fun _ => yields_bind fun head => yields_bind fun members => ?_
      refine yields_bind fun ty => yields_bind fun stop => yields_pure ?_
      simp [Operand.Rooted, Operand.paths]
    | leftBracket =>
      refine yields_bind fun _ => (rooted_term h).bind fun first hfirst => ?_
      refine (yields_repeatWhile (rooted_furtherTerm h)).bind fun further hfurther => ?_
      refine yields_bind fun stop => yields_pure fun path hpath => ?_
      rw [Operand.paths, Operand.mem_pathsOfTerms] at hpath
      obtain ⟨term, hterm, hpath⟩ := hpath
      rcases List.mem_cons.1 hterm with rfl | hterm
      · exact hfirst path hpath
      · exact hfurther term hterm path hpath
    | number | minus | identifier =>
      refine yields_bind fun _ => yields_pure ?_
      simp [Operand.Rooted, Operand.paths]
    | atSign =>
      refine yields_bind fun _ => yields_bind fun name => yields_pure ?_
      simp [Operand.Rooted, Operand.paths]
    | _ => exact yields_expected

theorem rooted_atomAt (depth : Nat) : Yields Operand.Rooted (atomAt depth) := by
  induction depth with
  | zero => exact yields_expected
  | succ depth ih => exact rooted_atomWith ih

/-- No operand has an empty path. -/
theorem rooted_operand : Yields Operand.Rooted operand := by
  have hatom : Yields Operand.Rooted atom := fun c => rooted_atomAt _ c
  refine hatom.bind fun a ha => yields_bind fun scale => ?_
  split
  · exact yields_pure ha
  · exact yields_pure ha

theorem rooted_operands : Yields (fun os => ∀ o ∈ os, Operand.Rooted o) operands := by
  refine yields_bind fun next => ?_
  split
  · exact yields_pure (by simp)
  · refine rooted_operand.bind fun first hfirst => ?_
    refine (yields_afterEach rooted_operand).bind fun further hfurther => yields_pure ?_
    exact List.forall_mem_cons.2 ⟨hfirst, hfurther⟩

/-! ## Documents -/

/-- No item of a template has an empty path: a label has no paths, and the other two kinds have
those of their operands. -/
theorem rooted_item : Yields (fun i => ∀ path ∈ Item.paths i, path ≠ []) item := by
  refine yields_bind fun start => yields_bind fun head => ?_
  split
  · refine yields_bind fun _ => yields_bind fun _ => yields_bind fun _ => yields_pure ?_
    simp [Item.paths]
  · refine yields_bind fun _ => yields_bind fun condition => ?_
    refine rooted_operands.bind fun os hos => yields_bind fun _ => yields_pure fun path hpath => ?_
    obtain ⟨o, ho, hpath⟩ := List.mem_flatMap.1 hpath
    exact hos o ho path hpath
  · exact rooted_operand.bind fun o ho => yields_bind fun _ => yields_pure ho

/-- No conversion has one in its template. -/
theorem rooted_conversion : Yields Conversion.Rooted conversion := by
  refine yields_bind fun e => yields_bind fun _ => yields_bind fun next => ?_
  split
  · exact (yields_repeatWhile rooted_item).bind fun items hitems =>
      yields_bind fun _ => yields_pure hitems
  · exact yields_expected

theorem rooted_group : Yields (fun g => ∀ c ∈ g.conversions, c.Rooted) group := by
  refine yields_bind fun name => yields_bind fun _ => ?_
  refine rooted_conversion.bind fun first hfirst => ?_
  refine (yields_afterEach rooted_conversion).bind fun further hfurther => ?_
  exact yields_bind fun _ => yields_pure (List.forall_mem_cons.2 ⟨hfirst, hfurther⟩)

/-- Whatever groups are read, also between errors, they have no empty paths. What comes after an
error is read like what comes after a group. -/
theorem rooted_groupsUpTo (finish : Span) (n : Nat) (tokens : List Located) :
    ∀ g ∈ (groupsUpTo finish n tokens).1, ∀ c ∈ g.conversions, c.Rooted := by
  induction n generalizing tokens with
  | zero => simp [groupsUpTo]
  | succ n ih =>
    cases tokens with
    | nil => simp [groupsUpTo]
    | cons token tokens =>
      -- A group is read and more may follow, or there is an error and reading goes on behind it.
      rw [groupsUpTo]
      · split
        · rename_i g c hgroup
          exact List.forall_mem_cons.2 ⟨rooted_group _ _ _ hgroup, ih c.rest⟩
        · exact ih _
      · simp

end Parser

/-- **Every reference of a document that can be read has a path.** A path is read as a name with
members behind it, so it has at least the name. -/
theorem Document.rooted_of_parse {source : List Char} {d : Document}
    (h : Document.parse source = .ok d) : ∀ g ∈ d.groups, ∀ c ∈ g.conversions, c.Rooted := by
  rw [parse] at h
  dsimp only at h
  split at h
  · cases h
    exact Parser.rooted_groupsUpTo _ _ _
  · cases h

end TileSelect
