import TileSelect.Proofs.Faults
import TileSelect.Proofs.Pattern.Scope
import TileSelect.Proofs.Source.Spans
/-!
Where the errors of a pattern file are.

An error of the text or of its form is at a lexeme, or behind the last one. An error of a pattern is
at a construct of the document or at the name of a type or a condition in one. Either way there is
text at the place, and this text starts and ends with a character that is not blank (`Solid`). That
excludes line endings at both ends, carriage returns included, and is all that a report needs to
know about where it points.

A construct may have blanks inside, so what is solid cannot be said of all its characters; it is
said of the two ends and passes from a first and a last token to everything between.
-/

set_option autoImplicit false

namespace TileSelect

open Lexeme Grammar

/-! ## Refused patterns -/

/-- The names that stand directly in a construct and have a place of their own. -/
def Construct.names : Construct → List Named
  | .expr (.op _ ty _ _ _) => ty.toList
  | .item (.instruction _ condition _ _) => condition.toList
  | .operand (.reference _ ty _) => ty.toList
  | _ => []

/-- The places of a document: those of its constructs and of the names in them. -/
def Document.Place (d : Document) (span : Span) : Prop :=
  ∃ k, d.Has k ∧ (k.span = span ∨ ∃ n ∈ k.names, n.span = span)

theorem Document.Has.place {d : Document} {k : Construct} (h : d.Has k) : d.Place k.span :=
  ⟨k, h, .inl rfl⟩

theorem Document.Has.place_name {d : Document} {k : Construct} (h : d.Has k) {n : Named}
    (hn : n ∈ k.names) : d.Place n.span :=
  ⟨k, h, .inr ⟨n, hn, rfl⟩⟩

namespace Definition

variable {α β : Type} {places : Span → Prop}

/-- What is refused is refused at one of some places. -/
def RefusedAt (places : Span → Prop) (x : Except Refusal α) : Prop :=
  ∀ refusal, x = .error refusal → places refusal.1

theorem refusedAt_ok (a : α) : RefusedAt places (.ok a) := by
  intro refusal h
  cases h

/-- What is refused at a place is refused at one of the places. -/
theorem refusedAt_error {span : Span} (fault : DefinitionFault) (h : places span) :
    RefusedAt places (.error (span, fault) : Except Refusal α) := by
  intro refusal hrefusal
  cases hrefusal
  exact h

/-- Two steps, either of which may refuse. Every check of the compiler is composed with this. -/
theorem RefusedAt.bind {x : Except Refusal α} {f : α → Except Refusal β}
    (hx : RefusedAt places x) (hf : ∀ a, RefusedAt places (f a)) :
    RefusedAt places (x >>= f) := by
  intro refusal h
  rcases bind_eq_error.1 h with h | ⟨a, -, h⟩
  · exact hx refusal h
  · exact hf a refusal h

/-- Several things of one kind, of which the first that is refused decides. -/
theorem refusedAt_mapM {f : α → Except Refusal β} {l : List α}
    (h : ∀ a ∈ l, RefusedAt places (f a)) : RefusedAt places (l.mapM f) := by
  intro refusal hrefusal
  obtain ⟨a, ha, hfault⟩ := exists_of_mapM_error hrefusal
  exact h a ha refusal hfault

/-- A name that has been introduced before is refused where it is introduced again, and so is one
that has a fixed meaning in templates. -/
theorem refusedAt_introduce {ident : String} {span : Span} {scope : Scope} (h : places span) :
    RefusedAt places (introduce ident span scope) := by
  unfold introduce
  split
  · exact refusedAt_error _ h
  split
  · exact refusedAt_error _ h
  · exact refusedAt_ok _

theorem refusedAt_introduceCapture {capture : Option String} {span : Span} {scope : Scope}
    (h : places span) : RefusedAt places (introduceCapture capture span scope) := by
  cases capture with
  | none => exact refusedAt_ok _
  | some ident => exact refusedAt_introduce h

/-- A type that does not exist is refused at its name, which is narrower than the expression that it
stands in. -/
theorem refusedAt_resolveType {ty : Option Named} (h : ∀ n ∈ ty.toList, places n.span) :
    RefusedAt places (resolveType ty) := by
  unfold resolveType
  split
  · exact refusedAt_ok _
  · split
    · exact refusedAt_ok _
    · exact refusedAt_error _ (h _ (by simp))

/-- A condition that does not exist is refused at its name, and not at the whole instruction. -/
theorem refusedAt_resolveCondition {condition : Option Named}
    (h : ∀ n ∈ condition.toList, places n.span) :
    RefusedAt places (resolveCondition condition) := by
  unfold resolveCondition
  split
  · exact refusedAt_ok _
  · split
    · exact refusedAt_ok _
    · exact refusedAt_error _ (h _ (by simp))

/-- An operation is refused where it stands, whether it is unknown, has no fixed number of operands
or has been given a different number. -/
theorem refusedAt_operation {name : String} {found : Nat} {span : Span} (h : places span) :
    RefusedAt places (operation name found span) := by
  unfold operation
  split
  · exact refusedAt_error _ h
  split
  · exact refusedAt_error _ h
  split
  · exact refusedAt_ok _
  · exact refusedAt_error _ h

/-- A bare name is refused where it stands: as a group that cannot be introduced, for a capture that
it cannot have, or as a name that nobody has introduced. -/
theorem refusedAt_bareName {groups : List String} {capture : Option String} {name : String}
    {span : Span} {scope : Scope} (h : places span) :
    RefusedAt places (bareName groups capture name span scope) := by
  unfold bareName
  split
  · exact (refusedAt_introduce h).bind fun _ => refusedAt_ok _
  split
  · exact refusedAt_error _ h
  split
  · exact refusedAt_ok _
  · exact refusedAt_error _ h

/-- A constant is refused where it stands. -/
theorem refusedAt_constantValue {args : List Expr} {span : Span} (h : places span) :
    RefusedAt places (constantValue args span) := by
  unfold constantValue
  split
  · exact refusedAt_ok _
  · exact refusedAt_ok _
  · exact refusedAt_error _ h

/-- A scale is refused at the operand it is part of. -/
theorem refusedAt_scale {s : Int64} {span : Span} (h : places span) :
    RefusedAt places (scale s span) := by
  unfold scale
  split
  · exact refusedAt_ok _
  · exact refusedAt_error _ h

/-- A term that has no place left in an address is refused at the whole operand. The same goes for a
factor that cannot be encoded. -/
theorem refusedAt_placeTerm {span : Span} {address : Address Part} {part : Part}
    {factor : Option Int64} (h : places span) :
    RefusedAt places (placeTerm span address part factor) := by
  -- With a factor it is an index; without one it is an offset, a base or an index, in this order.
  unfold placeTerm
  split
  · split
    · exact refusedAt_error _ h
    · exact (refusedAt_scale h).bind fun _ => refusedAt_ok _
  split
  · split
    · exact refusedAt_error _ h
    · exact refusedAt_ok _
  split
  · exact refusedAt_ok _
  split
  · exact refusedAt_ok _
  · exact refusedAt_error _ h

/-- A reference is refused where it stands, or at the name of its type. Only the first element of
its path is looked up. -/
theorem refusedAt_reference {scope : Scope} {path : List String} {ty : Option Named} {span : Span}
    (h : places span) (hty : ∀ n ∈ ty.toList, places n.span) :
    RefusedAt places (reference scope path ty span) := by
  unfold reference
  dsimp only
  split
  · exact (refusedAt_resolveType hty).bind fun _ => refusedAt_ok _
  · exact refusedAt_error _ h

variable {d : Document}

mutual

/-- **An expression is refused at one of its parts**, or at the name of a type in one. The recursion
is the compiler's; the arguments of an operation are constructs of the document as well. -/
theorem refusedAt_shape (groups : List String) : ∀ (e : Expr) (scope : Scope), d.Has (.expr e) →
    RefusedAt d.Place (shape groups e scope)
  | .number _ span, scope, h => by
    rw [shape]
    exact refusedAt_error _ h.place
  | .name capture name span, scope, h => by
    rw [shape]
    exact refusedAt_bareName h.place
  | .op capture ty name args span, scope, h => by
    have hspan : d.Place span := h.place
    have hargs : ∀ e ∈ args, d.Has (.expr e) := fun e he => h.child (List.mem_map_of_mem he)
    rw [shape]
    refine (refusedAt_resolveType fun n hn => h.place_name hn).bind fun ty => ?_
    split
    · split
      · exact (refusedAt_introduceCapture hspan).bind fun _ => refusedAt_ok _
      · exact refusedAt_error _ hspan
    split
    · refine (refusedAt_constantValue hspan).bind fun value => ?_
      exact (refusedAt_introduceCapture hspan).bind fun _ => refusedAt_ok _
    · refine (refusedAt_operation hspan).bind fun op => ?_
      refine (refusedAt_shapes groups args scope hargs).bind fun r => ?_
      exact (refusedAt_introduceCapture hspan).bind fun _ => refusedAt_ok _

/-- Several expressions are refused where one of them is, the first of them from the left. -/
theorem refusedAt_shapes (groups : List String) : ∀ (es : List Expr) (scope : Scope),
    (∀ e ∈ es, d.Has (.expr e)) → RefusedAt d.Place (shapes groups es scope)
  | [], scope, _ => by
    rw [shapes]
    exact refusedAt_ok _
  | e :: es, scope, h => by
    obtain ⟨hhead, htail⟩ := List.forall_mem_cons.1 h
    rw [shapes]
    refine (refusedAt_shape groups e scope hhead).bind fun r => ?_
    exact (refusedAt_shapes groups es r.2 htail).bind fun _ => refusedAt_ok _

end

mutual

/-- **An operand is refused at one of its parts**, or at the name of a type in one. The recursion is
the compiler's, through the terms of an address. -/
theorem refusedAt_operandPart (scope : Scope) : ∀ o : Operand, d.Has (.operand o) →
    RefusedAt d.Place (operandPart scope o)
  | .number .., _ => by
    rw [operandPart]
    exact refusedAt_ok _
  | .label .., _ => by
    rw [operandPart]
    exact refusedAt_ok _
  | .name .., _ => by
    rw [operandPart]
    exact refusedAt_ok _
  | .reference path ty span, h => by
    rw [operandPart]
    exact refusedAt_reference h.place fun n hn => h.place_name hn
  | .scaled index factor span, h => by
    have hindex : d.Has (.operand index) := h.child List.mem_cons_self
    rw [operandPart]
    refine (refusedAt_operandPart scope index hindex).bind fun part => ?_
    exact (refusedAt_scale h.place).bind fun _ => refusedAt_ok _
  | .memory terms span, h => by
    rw [operandPart]
    have hterms : ∀ t ∈ terms, d.Has (.operand t.1) :=
      fun t ht => h.child (List.mem_map_of_mem (f := fun t : Term => Construct.operand t.1) ht)
    exact (refusedAt_termsAddress scope span h.place terms .empty hterms).bind
      fun _ => refusedAt_ok _

/-- Terms are refused where one of them is; terms that do not fit together are reported at the whole
operand. -/
theorem refusedAt_termsAddress (scope : Scope) (span : Span) (hspan : d.Place span) :
    ∀ (terms : List Term) (address : Address Part), (∀ t ∈ terms, d.Has (.operand t.1)) →
    RefusedAt d.Place (termsAddress scope span terms address)
  | [], address, _ => by
    rw [termsAddress]
    exact refusedAt_ok _
  | (atom, factor) :: rest, address, h => by
    obtain ⟨hhead, htail⟩ := List.forall_mem_cons.1 h
    rw [termsAddress]
    split
    · exact refusedAt_error _ hspan
    · refine (refusedAt_operandPart scope atom hhead).bind fun part => ?_
      refine (refusedAt_placeTerm hspan).bind fun address => ?_
      exact refusedAt_termsAddress scope span hspan rest address htail

end

/-- An item of a template is refused where it stands, or inside: an instruction for its number of
operands, for its condition or for one of its operands. -/
theorem refusedAt_itemPart (scope : Scope) {item : Item} (h : d.Has (.item item)) :
    RefusedAt d.Place (itemPart scope item) := by
  cases item with
  | label => exact refusedAt_ok _
  | operand o => exact refusedAt_operandPart scope o (h.child List.mem_cons_self)
  | instruction mnemonic condition operands span =>
    -- An instruction is refused for its mnemonic, its condition or an operand.
    have hoperands : ∀ o ∈ operands, d.Has (.operand o) :=
      fun o ho => h.child (List.mem_map_of_mem ho)
    rw [itemPart]
    split
    · exact refusedAt_error _ h.place
    · refine (refusedAt_resolveCondition fun n hn => h.place_name hn).bind fun c => ?_
      refine (refusedAt_mapM fun o ho => ?_).bind fun _ => refusedAt_ok _
      exact refusedAt_operandPart scope o (hoperands o ho)

/-- A conversion is refused in its expression or in its template, whose items are compiled in order.
-/
theorem refusedAt_conversion (groups : List String) {c : Conversion} (h : d.Has (.conversion c)) :
    RefusedAt d.Place (conversion groups c) := by
  have hexpr : d.Has (.expr c.expr) := h.child List.mem_cons_self
  have hitems : ∀ item ∈ c.template, d.Has (.item item) :=
    fun item hitem => h.child (List.mem_cons_of_mem _ (List.mem_map_of_mem hitem))
  refine (refusedAt_shape groups c.expr [] hexpr).bind fun r => ?_
  refine (refusedAt_mapM fun item hitem => ?_).bind fun _ => refusedAt_ok _
  exact refusedAt_itemPart r.2 (hitems item hitem)

end Definition

/-- **A document is refused at one of its places.** The alternative that was refused is a conversion
of one of its groups. -/
theorem Document.place_of_patterns {d : Document} {e : DefinitionError}
    (h : d.patterns = .error e) : d.Place e.span := by
  obtain ⟨alternative, hmem, hpattern⟩ := exists_of_mapM_error h
  obtain ⟨group, hmem⟩ := Definition.mem_of_mem_number hmem
  obtain ⟨g, hg, hmem⟩ := List.mem_flatMap.1 hmem
  obtain ⟨c, hc, heq⟩ := List.mem_map.1 hmem
  have hconversion : d.Has (.conversion alternative.2) := by
    rw [← (Prod.mk.inj heq).2]
    exact .child (.group hg) (List.mem_map_of_mem hc)
  rw [Definition.pattern] at hpattern
  split at hpattern
  · cases hpattern
  · rename_i hrefused
    cases hpattern
    exact Definition.refusedAt_conversion _ hconversion _ hrefused

/-! ## Text at both ends -/

/-- A span that starts in front of a character that is not blank and ends behind one. -/
structure Span.Solid (span : Span) (source : List Char) : Prop where
  start : ∃ before c after, source = before ++ c :: after ∧ span.start = byteLength before ∧
    isBlank c = false
  stop : ∃ before c after, source = before ++ ([c] ++ after) ∧
    span.stop = byteLength (before ++ [c]) ∧ isBlank c = false
  nonempty : span.start < span.stop

/-- From a first solid span to a last one, all is solid: the ends are those of the two. -/
theorem Span.Solid.join {a b : Span} {source : List Char} (ha : a.Solid source)
    (hb : b.Solid source) (h : a.start < b.stop) : Span.Solid ⟨a.start, b.stop⟩ source :=
  ⟨ha.start, hb.stop, h⟩

/-- A text without blanks, which is not empty, lies in a solid span. Tokens and characters that
start nothing are such texts. -/
theorem Span.solid_of_cuts {span : Span} {source before text after : List Char}
    (h : span.Cuts source before text after) (hne : text ≠ [])
    (hsolid : ∀ c ∈ text, isBlank c = false) : span.Solid source := by
  have hpos := byteLength_pos hne
  have hstop := h.stop_eq
  rw [byteLength_append, ← h.start_eq] at hstop
  refine ⟨?_, ?_, by omega⟩
  · -- It starts with its first character and ends with its last.
    obtain ⟨c, tail, rfl⟩ := List.exists_cons_of_ne_nil hne
    exact ⟨before, c, tail ++ after, h.source_eq, h.start_eq, hsolid c (by simp)⟩
  · obtain ⟨front, c, rfl⟩ : ∃ front c, text = front ++ [c] :=
      ⟨_, _, (List.dropLast_concat_getLast hne).symm⟩
    refine ⟨before ++ front, c, after, ?_, ?_, hsolid c (by simp)⟩
    · rw [h.source_eq]
      simp
    · rw [h.stop_eq, List.append_assoc]

/-- The text of a solid span, with its ends: it is not empty, and neither its first nor its last
character is a blank. -/
theorem Span.Solid.cuts {span : Span} {source : List Char} (h : span.Solid source) :
    ∃ before text after, span.Cuts source before text after ∧ text ≠ [] ∧
      (∀ c ∈ text.head?, isBlank c = false) ∧ ∀ c ∈ text.getLast?, isBlank c = false := by
  obtain ⟨p, c, q, hstart, hp, hc⟩ := h.start
  obtain ⟨p', c', q', hstop, hp', hc'⟩ := h.stop
  have hlt := h.nonempty
  rw [hp, hp'] at hlt
  have heq := hstart.symm.trans hstop
  rw [← List.append_assoc] at heq
  rcases List.append_eq_append_iff.1 heq with ⟨text, hfront, hback⟩ | ⟨rest, hfront, -⟩
  · have hne : text ≠ [] := by
      rintro rfl
      rw [hfront, List.append_nil] at hlt
      exact Nat.lt_irrefl _ hlt
    refine ⟨p, text, q', ⟨?_, hp, ?_⟩, hne, ?_, ?_⟩
    · rw [hstart, hback]
    · rw [hp', hfront]
    · intro d hd
      obtain ⟨tail, rfl⟩ := List.head?_eq_some_iff.1 hd
      obtain ⟨rfl, -⟩ := List.cons.inj hback
      exact hc
    · intro d hd
      obtain ⟨front, rfl⟩ := List.getLast?_eq_some_iff.1 hd
      rw [← List.append_assoc] at hfront
      obtain ⟨-, hlast⟩ := List.append_inj' hfront rfl
      rw [← List.singleton_inj.1 hlast]
      exact hc'
  · -- Otherwise it would end before it starts.
    rw [hfront, byteLength_append] at hlt
    omega

/-- What is not skipped has no blanks in it. The forms of lexemes are gone through one by one: names
and numbers consist of letters and digits, and marks are written out. -/
theorem Lexeme.Form.not_blank {text rest : List Char} {kind : LexemeKind}
    (h : Form text rest kind) (hkind : kind ≠ .blank) : ∀ c ∈ text, isBlank c = false := by
  -- Letters and digits are no blanks.
  have hword {c : Char} (hc : isNameRest c = true) : isBlank c = false := by
    rw [isNameRest_iff, isNameStart_iff, isDecimal_iff] at hc
    rw [Bool.eq_false_iff, ne_eq, isBlank_iff]
    omega
  have hhex {c : Char} (hc : isHex c = true) : isBlank c = false := by
    rw [isHex_iff] at hc
    rw [Bool.eq_false_iff, ne_eq, isBlank_iff]
    omega
  intro c hc
  cases h with
  | blanks => exact absurd rfl hkind
  | comment => exact absurd rfl hkind
  | name hstart hinside =>
    rcases List.mem_cons.1 hc with rfl | hc
    · exact hword (isNameRest_iff.2 (.inl hstart))
    · exact hword (hinside c hc)
  | decimal _ hinside => exact hword (isNameRest_iff.2 (.inr (hinside c hc)))
  | hexadecimal _ hinside =>
    rcases List.mem_cons.1 hc with rfl | hc
    · rfl
    rcases List.mem_cons.1 hc with rfl | hc
    · rfl
    · exact hhex (hinside c hc)
  | arrow =>
    rcases List.mem_cons.1 hc with rfl | hc
    · rfl
    · rw [List.mem_singleton.1 hc]
      rfl
  | mark hknown =>
    rw [List.mem_singleton.1 hc]
    exact (class_of_markToken? hknown).1
  | stray hblank =>
    rw [List.mem_singleton.1 hc]
    exact hblank

/-- An item stands where its lexeme does. The induction is on the lexemes, and `before` is the text
of those that have been passed. -/
theorem exists_lexeme_of_mem_locate {before : List Char} {ls : List Lexeme} {i : LexedItem}
    (h : i ∈ locate (byteLength before) ls) :
    ∃ l ∈ ls, l.kind ≠ .blank ∧ ∃ front back,
      i.span.Cuts (before ++ ls.flatMap Lexeme.text) front l.text back := by
  induction ls generalizing before with
  | nil => cases h
  | cons l ls ih =>
    rw [locate] at h
    rcases List.mem_append.1 h with h | h
    · have hitem := Option.mem_toList.1 h
      refine ⟨l, List.mem_cons_self, ?_, before, ls.flatMap Lexeme.text, ?_⟩
      · intro hkind
        simp [item?, hkind] at hitem
      · have hspan : i.span = .behind before l.text := by
          rw [Span.behind, byteLength_append]
          unfold item? at hitem
          split at hitem <;> cases hitem <;> rfl
        rw [hspan, List.flatMap_cons]
        exact Span.cuts_behind ..
    · rw [← byteLength_append] at h
      obtain ⟨l', hl', hkind, front, back, hcuts⟩ := ih h
      refine ⟨l', List.mem_cons_of_mem l hl', hkind, front, back, ?_⟩
      rwa [List.append_assoc, ← List.flatMap_cons] at hcuts

/-- An item of a source is solid. -/
theorem solid_item {source : List Char} {i : LexedItem} (h : i ∈ locate 0 (scan source)) :
    i.span.Solid source := by
  obtain ⟨l, hl, hkind, front, back, hcuts⟩ := @exists_lexeme_of_mem_locate [] _ _ h
  obtain ⟨rest, hform⟩ := form_of_mem_scan hl
  rw [flatten_scan] at hcuts
  exact Span.solid_of_cuts hcuts hform.ne_nil (hform.not_blank hkind)

theorem solid_token {source : List Char} {t : Located} (h : t ∈ (tokenize source).1) :
    t.span.Solid source :=
  solid_item (mem_tokens_iff.1 h)

/-! ## Reported places -/

/-- A name behind a mark is one of the tokens, and has the place of that token. -/
theorem exists_token_of_identifier {mark : Token} {ts : List Located} {n : Named}
    (h : Opt (After mark Identifier) ts (some n)) : ∃ t ∈ ts, t.span = n.span := by
  cases h with
  | present hbody =>
    cases hbody with
    | mk s hname =>
      cases hname with
      | mk name s' => exact ⟨⟨.identifier name, s'⟩, by simp, rfl⟩

/-- The name of a type in front of an operation is one of the tokens. -/
theorem exists_token_of_head {after ts : List Located} {head : Option Named × String} {n : Named}
    (h : Head after ts head) (hty : head.1 = some n) : ∃ t ∈ ts, t.span = n.span := by
  cases h with
  | typed =>
    cases hty
    exact ⟨_, List.mem_cons_self, rfl⟩
  | untyped => cases hty

/-- A name in a construct is one of its tokens. Such names are the types of operations and
references and the conditions of instructions. -/
theorem Construct.exists_token_of_mem_names {k : Construct} {ts : List Located} (h : k.Written ts)
    {n : Named} (hn : n ∈ k.names) : ∃ t ∈ ts, t.span = n.span := by
  -- Names stand in operations, in instructions and in references.
  cases k with
  | group | conversion => cases hn
  | expr e =>
    cases e with
    | number | name => cases hn
    | op =>
      have hty := Option.mem_toList.1 hn
      cases h with
      | expr he =>
        cases he with
        | op _ _ _ hhead _ =>
          obtain ⟨t, ht, hspan⟩ := exists_token_of_head hhead hty
          exact ⟨t, by simp [ht], hspan⟩
  | item i =>
    cases i with
    | label | operand => cases hn
    | instruction =>
      cases Option.mem_toList.1 hn
      cases h with
      | instruction _ _ _ _ hcondition _ =>
        obtain ⟨t, ht, hspan⟩ := exists_token_of_identifier hcondition
        exact ⟨t, by simp [ht], hspan⟩
  | operand o =>
    cases o with
    | reference =>
      cases Option.mem_toList.1 hn
      cases h with
      | plain hatom =>
        cases hatom with
        | reference _ _ _ htyped =>
          obtain ⟨t, ht, hspan⟩ := exists_token_of_identifier htyped
          exact ⟨t, by simp [ht], hspan⟩
    | _ => cases hn

/-- The places of a document that was read are solid: a construct reaches from its first token to
its last, and a name is a token. -/
theorem Document.Place.solid {source : List Char} {d : Document} {span : Span}
    (h : d.Place span) (hd : d.Written (tokenize source).1) : span.Solid source := by
  obtain ⟨k, hk, hspan⟩ := h
  obtain ⟨before, ts, after, hsplit, hwritten⟩ := hk.written hd
  have hsolid {t : Located} (ht : t ∈ ts) : t.span.Solid source := by
    apply solid_token
    rw [hsplit]
    simp [ht]
  rcases hspan with rfl | ⟨n, hn, rfl⟩
  · have horder := inOrder_tokenize source
    rw [hsplit] at horder
    have hcovers := Construct.covers_of_written hwritten horder.right.left
    obtain ⟨first, hfirst, last, hlast, hends⟩ := hcovers.ends
    have hlt := (Document.exact_of_has hd hk).nonempty
    rw [hends] at hlt ⊢
    exact (hsolid hfirst).join (hsolid hlast) hlt
  · obtain ⟨t, ht, hspan⟩ := Construct.exists_token_of_mem_names hwritten hn
    rw [← hspan]
    exact hsolid ht

/-- **An error of the form is at text**, or at the end. What the lexer reports is cut out of the
text, and what the parser reports is a token. -/
theorem Document.solid_of_parse {source : List Char} {errors : List SyntaxError}
    (h : Document.parse source = .error errors) {e : SyntaxError} (he : e ∈ errors) :
    e.span.Solid source ∨ e.span = .point (byteLength source) := by
  rw [errors_of_parse h] at he
  rcases List.mem_append.1 (List.mem_mergeSort.1 he) with he | he
  · exact .inl (solid_item (mem_errors_iff.1 he))
  · refine (((Parser.loops_iff _ _ _).2 rfl).span_of_error he).imp_left ?_
    rintro ⟨t, ht, hspan⟩
    rw [hspan]
    exact solid_token ht

/-- **An error of a pattern is at text.** -/
theorem Document.solid_of_patterns {source : List Char} {d : Document} {e : DefinitionError}
    (hparse : Document.parse source = .ok d) (h : d.patterns = .error e) :
    e.span.Solid source :=
  (place_of_patterns h).solid (parse_eq_ok_iff.1 hparse).2

end TileSelect
