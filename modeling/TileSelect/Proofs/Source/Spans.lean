import TileSelect.Proofs.Source.Parsing
import TileSelect.Proofs.Source.Partition
import TileSelect.Proofs.Source.Recovery
/-!
Where the constructs of a document stand, and where its errors are reported.

The span of a construct is put together while it is read: from the place where reading started, the
token that closed it, the token read last, or the spans of its parts. Here the parts that have a
span are one type, `Construct`, and each consumes a run of the tokens. The tokens stand in order, so
that joining the spans of a first and a last token gives everything between them, and the span of a
construct is that of its run (`covers_of_written`).

What a construct holds is said once: the runs of its parts, in order, with other tokens around them
(`holds_children`). That parts lie inside the whole and stand one after the other follows from this
and from nothing else about the rule.

An error is reported where it was found. Every failure arises at the next token or at the end, and
this passes through sequencing, so it is enough to follow the rules (`Blames`).
-/

set_option autoImplicit false

namespace TileSelect

open Grammar

/-! ## Constructs -/

/-- The parts of a document that have a span. -/
inductive Construct where
  | group (g : Group)
  | conversion (c : Conversion)
  | expr (e : Expr)
  | item (i : Item)
  | operand (o : Operand)

/-- The span of an item; an item that is an operand has that of the operand. -/
def Item.span : Item → Span
  | .instruction _ _ _ span | .label _ span => span
  | .operand o => o.span

namespace Construct

/-- Where a construct stands. -/
def span : Construct → Span
  | .group g => g.span
  | .conversion c => c.span
  | .expr e => e.span
  | .item i => i.span
  | .operand o => o.span

/-- The constructs directly inside, in the order in which they are written. -/
def children : Construct → List Construct
  | .group g => g.conversions.map .conversion
  | .conversion c => .expr c.expr :: c.template.map .item
  | .expr (.op _ _ _ args _) => args.map .expr
  | .expr _ => []
  | .item (.instruction _ _ operands _) => operands.map .operand
  | .item (.label ..) => []
  | .item (.operand o) => [.operand o]
  | .operand (.memory terms _) => terms.map fun t => .operand t.1
  | .operand (.scaled index _ _) => [.operand index]
  | .operand _ => []

end Construct

/-- The constructs of a document, at any depth. -/
inductive Document.Has (d : Document) : Construct → Prop
  | group {g : Group} (h : g ∈ d.groups) : Has d (.group g)
  | child {k part : Construct} (h : Has d k) (hpart : part ∈ k.children) : Has d part

/-- A parser reads the tokens as `a` and none of them is left. -/
def Parser.Consumes {α : Type} (p : Parser α) (ts : List Located) (a : α) : Prop :=
  ∀ last finish, ∃ c, p ⟨ts, last, finish⟩ = .ok (a, c) ∧ c.rest = []

namespace Construct

/-- The tokens that a construct consumes. An item that is an operand consumes those between the
brackets. -/
def Consumes (ts : List Located) : Construct → Prop
  | .group g => Parser.Consumes Parser.group ts g
  | .conversion c => Parser.Consumes Parser.conversion ts c
  | .expr e => Parser.Consumes (Parser.argument Parser.expr) ts e
  | .item (.operand o) => Parser.Consumes Parser.operand ts o
  | .item i => Parser.Consumes Parser.item ts i
  | .operand o => Parser.Consumes Parser.operand ts o

/-- The same by the grammar. -/
def Written (ts : List Located) : Construct → Prop
  | .group g => g.Written ts
  | .conversion c => c.Written ts
  | .expr e => e.WrittenArgument ts
  | .item (.operand o) => o.Written ts
  | .item i => i.Written ts
  | .operand o => o.Written ts

end Construct

/-- A parser that reads all that the rule derives consumes it. -/
theorem Parser.Complete.consumes {α : Type} {r : List Located → α → Prop}
    {follow : List Located → Prop} {p : Parser α} (hp : Complete r follow p) (hend : follow [])
    {ts : List Located} {a : α} (h : r ts a) : Consumes p ts a := by
  intro last finish
  exact ⟨_, hp ⟨ts, last, finish⟩ ts a [] h (List.append_nil ts).symm hend, rfl⟩

/-- Every argument of the grammar is read. -/
theorem Parser.complete_arguments :
    Complete Expr.WrittenArgument Anything (argument Parser.expr) := by
  intro c ts e rest h hrest _
  have hinner : Complete (Within (ts.length + 1) Expr.Written) Anything Parser.expr :=
    fun c ts e rest h => complete_expr c ts e rest h.1
  exact complete_argument hinner c ts e rest ⟨h, Nat.lt_succ_self _⟩ hrest trivial

/-- What the grammar derives is read: each kind of construct has its own parser, and it is complete.
-/
theorem Construct.consumes_of_written {k : Construct} {ts : List Located} (h : k.Written ts) :
    k.Consumes ts := by
  have hend (t : Token) : Parser.NotNext t [] := by simp [Parser.NotNext, next]
  -- What may not follow a conversion or an operand does not follow here, as nothing does.
  cases k with
  | group => exact Parser.complete_group.consumes trivial h
  | conversion => exact Parser.complete_conversion.consumes (hend _) h
  | expr => exact Parser.complete_arguments.consumes trivial h
  | item i =>
    cases i with
    | instruction => exact Parser.complete_item.consumes trivial h
    | label => exact Parser.complete_item.consumes trivial h
    | operand => exact Parser.complete_operand.consumes (hend _) h
  | operand => exact Parser.complete_operand.consumes (hend _) h

/-! ## Tokens in order -/

/-- Tokens that are not empty and stand one after the other. -/
structure InOrder (ts : List Located) : Prop where
  apart : ts.Pairwise fun a b => a.span.stop ≤ b.span.start
  nonempty : ∀ t ∈ ts, t.span.start < t.span.stop

theorem InOrder.of_sublist {ts us : List Located} (h : InOrder us) (hts : ts.Sublist us) :
    InOrder ts :=
  ⟨h.apart.sublist hts, fun t ht => h.nonempty t (hts.subset ht)⟩

theorem InOrder.left {ts us : List Located} (h : InOrder (ts ++ us)) : InOrder ts :=
  h.of_sublist (List.sublist_append_left ts us)

theorem InOrder.right {ts us : List Located} (h : InOrder (ts ++ us)) : InOrder us :=
  h.of_sublist (List.sublist_append_right ts us)

/-- Tokens in order lie between the first and the last of them. None of them is empty, so their
starts are in order as well as their ends. -/
theorem InOrder.inside {ts : List Located} (h : InOrder ts) {first last t : Located}
    (hfirst : ts.head? = some first) (hlast : ts.getLast? = some last) (ht : t ∈ ts) :
    first.span.start ≤ t.span.start ∧ t.span.stop ≤ last.span.stop := by
  -- A token is the first or stands behind it, and is the last or stands in front of it.
  constructor
  · obtain ⟨tail, rfl⟩ := List.head?_eq_some_iff.1 hfirst
    rcases List.mem_cons.1 ht with rfl | ht
    · exact Nat.le_refl _
    · have hstop := (List.pairwise_cons.1 h.apart).1 t ht
      have hstart := h.nonempty first (by simp)
      omega
  · obtain ⟨init, rfl⟩ := List.getLast?_eq_some_iff.1 hlast
    rcases List.mem_append.1 ht with ht | ht
    · have hstart := (List.pairwise_append.1 h.apart).2.2 t ht last (by simp)
      have hstop := h.nonempty last (by simp)
      omega
    · exact Nat.le_of_eq (by rw [List.mem_singleton.1 ht])

/-- The span from the start of the first of some tokens to the end of the last. -/
def Span.Covers (span : Span) (ts : List Located) : Prop :=
  ∃ first last, ts.head? = some first ∧ ts.getLast? = some last ∧
    span = ⟨first.span.start, last.span.stop⟩

theorem Span.covers_singleton (t : Located) : t.span.Covers [t] := ⟨t, t, rfl, rfl, rfl⟩

theorem Span.Covers.inside {span : Span} {ts : List Located} (h : span.Covers ts)
    (hts : InOrder ts) {t : Located} (ht : t ∈ ts) :
    span.start ≤ t.span.start ∧ t.span.stop ≤ span.stop := by
  obtain ⟨first, last, hfirst, hlast, rfl⟩ := h
  exact hts.inside hfirst hlast ht

theorem Span.Covers.ends {span : Span} {ts : List Located} (h : span.Covers ts) :
    ∃ first ∈ ts, ∃ last ∈ ts, span = ⟨first.span.start, last.span.stop⟩ := by
  obtain ⟨first, last, hfirst, hlast, rfl⟩ := h
  exact ⟨first, List.mem_of_head? hfirst, last, List.mem_of_getLast? hlast, rfl⟩

/-- **Joining a first and a last span gives what is between them.** The lesser of the starts is that
of the first, and the greater of the ends is that of the last. -/
theorem Span.Covers.join {a b : Span} {ts us : List Located} (ha : a.Covers ts) (hb : b.Covers us)
    (between : List Located) (h : InOrder (ts ++ (between ++ us))) :
    (a.join b).Covers (ts ++ (between ++ us)) := by
  obtain ⟨first, last, hfirst, hlast, rfl⟩ := ha
  obtain ⟨first', last', hfirst', hlast', rfl⟩ := hb
  -- The first token of all is that of the first part, and the last is that of the last.
  have hhead : (ts ++ (between ++ us)).head? = some first := by
    rw [List.head?_append, hfirst, Option.some_or]
  have hend : (ts ++ (between ++ us)).getLast? = some last' := by
    rw [← List.append_assoc, List.getLast?_append, hlast', Option.some_or]
  have hstart := h.inside hhead hend
    (List.mem_append_right ts (List.mem_append_right between (List.mem_of_head? hfirst')))
  have hstop := h.inside hhead hend
    (List.mem_append_left (between ++ us) (List.mem_of_getLast? hlast))
  refine ⟨first, last', hhead, hend, ?_⟩
  rw [Span.join, Nat.min_eq_left hstart.1, Nat.max_eq_right hstop.2]

theorem Span.covers_brackets {t u : Located} (between : List Located)
    (h : InOrder (t :: (between ++ [u]))) :
    (t.span.join u.span).Covers (t :: (between ++ [u])) :=
  (covers_singleton t).join (covers_singleton u) between h

/-! ## Spans of constructs -/

theorem covers_integer {ts : List Located} {n : Int64 × Span} (h : Integer ts n)
    (hts : InOrder ts) : n.2.Covers ts := by
  cases h with
  | plain v s => exact Span.covers_singleton ⟨.number v, s⟩
  | negated v s t => exact Span.covers_brackets [] hts

/-- An argument stands from its first token to its last: from the sign to the digits, from one
parenthesis to the other, or from the capture to the name. -/
theorem covers_argument {ts : List Located} {e : Expr} (h : Expr.WrittenArgument ts e)
    (hts : InOrder ts) : e.span.Covers ts := by
  -- A name has one token; everything else is enclosed by its first and its last.
  cases h with
  | number hn => exact covers_integer hn hts
  | expr he =>
    cases he with
    | @op cs hs as _ _ _ s t =>
      have hsplit : cs ++ (hs ++ (as ++ [⟨.rightParen, t⟩]))
          = cs ++ hs ++ as ++ [⟨.rightParen, t⟩] := by simp
      rw [hsplit] at hts ⊢
      exact Span.covers_brackets _ hts
    | name bare s => exact Span.covers_singleton ⟨.identifier bare, s⟩
    | captured name bare s t u v =>
      exact Span.covers_brackets [⟨.identifier name, t⟩, ⟨.greater, u⟩] hts

/-- An atom stands from its first token to its last as well, brackets and marks included. A scaled
one is more than an atom. -/
theorem covers_atom {ts : List Located} {o : Operand} (h : Operand.WrittenAtom ts o)
    (hts : InOrder ts) : o.span.Covers ts := by
  cases h with
  | @reference ps ys _ _ s t =>
    rw [← List.append_assoc] at hts ⊢
    exact Span.covers_brackets _ hts
  | @memory fs rs _ _ s t =>
    rw [← List.append_assoc] at hts ⊢
    exact Span.covers_brackets _ hts
  | number hn => exact covers_integer hn hts
  | name bare s => exact Span.covers_singleton ⟨.identifier bare, s⟩
  | label bare s t => exact Span.covers_brackets [] hts

/-- An operand stands from its first token to its last. If it has a scale, it is the factor that
comes last. -/
theorem covers_operand {ts : List Located} {o : Operand} (h : Operand.Written ts o)
    (hts : InOrder ts) : o.span.Covers ts := by
  cases h with
  | plain hatom => exact covers_atom hatom hts
  | @scaled as _ atom _ hatom hfactor =>
    cases hfactor with
    | @mk s ns n hn =>
      have hnumber : InOrder ([⟨.star, s⟩] ++ ns) := hts.right
      have hscale := covers_integer hn hnumber.right
      exact (covers_atom hatom hts.left).join hscale [⟨.star, s⟩] hts

/-- An item stands from its first token to its last. The brackets belong to a label or an
instruction, and not to an operand. -/
theorem covers_item {ts : List Located} {i : Item} (h : Construct.Written ts (.item i))
    (hts : InOrder ts) : i.span.Covers ts := by
  -- An operand as an item is written between brackets, but these are not part of it.
  cases i with
  | operand o => exact covers_operand h hts
  | label name span =>
    cases h with
    | label _ s t u v =>
      exact Span.covers_brackets [⟨.atSign, t⟩, ⟨.identifier name, u⟩] hts
  | instruction =>
    cases h with
    | @instruction mnemonic cs os _ _ s t u =>
      rw [← List.append_assoc, ← List.cons_append] at hts ⊢
      exact Span.covers_brackets _ hts

/-- A conversion stands from the start of its expression to the end of its template. There is an
item in the template, so that is where it ends. -/
theorem covers_conversion {ts : List Located} {c : Conversion} (h : c.Written ts)
    (hts : InOrder ts) : c.span.Covers ts := by
  cases h with
  | @mk es is e item items s he his =>
    have hne : is ≠ [] := by
      cases his with
      | cons hitem _ => simp [(Parser.startsWith_item _ _ hitem).2]
    -- The template is not empty, so the token read last is its last token and not the arrow.
    obtain ⟨init, last, rfl⟩ : ∃ init last, is = init ++ [last] :=
      ⟨_, _, (List.dropLast_concat_getLast hne).symm⟩
    have hlast : Grammar.lastSpan s (init ++ [last]) = last.span := by
      rw [Grammar.lastSpan_append]
      rfl
    dsimp only
    rw [hlast]
    exact (covers_argument (.expr he) hts.left).join (Span.covers_singleton last)
      (⟨.arrow, s⟩ :: init) hts

/-- **A construct stands from its first token to its last.** One case for each kind of construct. -/
theorem Construct.covers_of_written {k : Construct} {ts : List Located} (h : k.Written ts)
    (hts : InOrder ts) : k.span.Covers ts := by
  cases k with
  | group g =>
    cases h with
    | mk name s t u => exact Span.covers_brackets (⟨.colon, t⟩ :: _) hts
  | conversion => exact covers_conversion h hts
  | expr => exact covers_argument h hts
  | item => exact covers_item h hts
  | operand => exact covers_operand h hts

/-! ## What constructs hold -/

/-- Tokens that hold constructs, in order, with other tokens around them. -/
inductive Holds : List Located → List Construct → Prop
  | nil (ts : List Located) : Holds ts []
  | cons (gap : List Located) {ts us : List Located} {k : Construct} {ks : List Construct}
      (head : k.Written ts) (tail : Holds us ks) : Holds (gap ++ (ts ++ us)) (k :: ks)

theorem holds_singleton {ts : List Located} {k : Construct} (h : k.Written ts) : Holds ts [k] := by
  have := Holds.cons [] h (.nil [])
  rwa [List.append_nil, List.nil_append] at this

/-- Further tokens in front do not matter. -/
theorem Holds.behind {ts : List Located} {ks : List Construct} (h : Holds ts ks)
    (gap : List Located) : Holds (gap ++ ts) ks := by
  cases h with
  | nil => exact .nil _
  | cons gap' head tail =>
    rw [← List.append_assoc]
    exact .cons _ head tail

/-- What is held by the one and by the other is held by both, in order. -/
theorem Holds.append {ts us : List Located} {ks ls : List Construct} (h : Holds ts ks)
    (h' : Holds us ls) : Holds (ts ++ us) (ks ++ ls) := by
  induction h with
  | nil => exact h'.behind _
  | cons gap head _ ih =>
    rw [List.append_assoc, List.append_assoc]
    exact .cons gap head ih

theorem Holds.before {ts : List Located} {ks : List Construct} (h : Holds ts ks)
    (gap : List Located) : Holds (ts ++ gap) ks := by
  have := h.append (.nil gap)
  rwa [List.append_nil] at this

/-- A repetition holds what is repeated, in order. -/
theorem holds_star {α : Type} {r : List Located → α → Prop} {ts : List Located} {as : List α}
    (h : Star r ts as) (f : α → Construct) (hr : ∀ ts a, r ts a → Holds ts [f a]) :
    Holds ts (as.map f) := by
  induction h with
  | nil => exact .nil _
  | cons hhead _ ih => exact (hr _ _ hhead).append ih

theorem holds_separated {α : Type} {mark : Token} {r : List Located → α → Prop}
    {ts : List Located} {as : List α} (h : Separated mark r ts as) (f : α → Construct)
    (hr : ∀ ts a, r ts a → Holds ts [f a]) : Holds ts (as.map f) := by
  cases h with
  | mk hhead htail =>
    refine (hr _ _ hhead).append (holds_star htail f ?_)
    rintro _ a ⟨s, hbody⟩
    exact (hr _ a hbody).behind [⟨mark, s⟩]

theorem holds_term {ts : List Located} {t : Term} (h : Term.Written ts t) :
    Holds ts [.operand t.1] := by
  cases h with
  | mk hatom _ => exact (holds_singleton (k := .operand _) (.plain hatom)).before _

theorem holds_furtherTerm {ts : List Located} {t : Term} (h : Term.WrittenFurther ts t) :
    Holds ts [.operand t.1] := by
  cases h with
  | plus s hterm => exact (holds_term hterm).behind [⟨.plus, s⟩]
  | minus v s t => exact holds_singleton (k := .operand _) (.plain (.number (.negated v s t)))

/-- An item holds itself: inside its brackets if it is an operand, and with them otherwise. -/
theorem holds_item {ts : List Located} {i : Item} (h : i.Written ts) :
    Holds ts [.item i] := by
  cases h with
  | label bare s t u v => exact holds_singleton (k := .item _) (Item.Written.label bare s t u v)
  | instruction s t u hform hcondition hoperands =>
    exact holds_singleton (k := .item _) (Item.Written.instruction s t u hform hcondition hoperands)
  | operand s t hoperand _ =>
    exact ((holds_singleton (k := .item (.operand _)) hoperand).before [⟨.rightBracket, t⟩]).behind
      [⟨.leftBracket, s⟩]

/-- **A construct holds its parts**, in order. The cases are the rules of the grammar; what stands
between the parts are marks, names and arrows. -/
theorem Construct.holds_children {k : Construct} {ts : List Located} (h : k.Written ts) :
    Holds ts k.children := by
  cases k with
  -- The conversions of a group, between the name and the `;`.
  | group g =>
    cases h with
    | mk name s t u hbody =>
      have hconversions := holds_separated hbody .conversion fun _ _ h => holds_singleton h
      exact (hconversions.before [⟨.semicolon, u⟩]).behind [⟨.identifier name, s⟩, ⟨.colon, t⟩]
  -- The expression and the items, on the two sides of the arrow.
  | conversion c =>
    cases h with
    | mk s he his =>
      have hitems := holds_star his .item fun _ _ => holds_item
      exact (holds_singleton (k := .expr _) (.expr he)).append (hitems.behind [⟨.arrow, s⟩])
  | expr e =>
    cases e with
    | op =>
      cases h with
      | expr he =>
        cases he with
        | @op cs hs as _ _ _ s t _ _ hargs =>
          have hargs := holds_star hargs .expr fun _ _ h => holds_singleton h
          exact (((hargs.before [⟨.rightParen, t⟩]).behind hs).behind cs).behind [⟨.leftParen, s⟩]
    | _ => exact .nil ts
  | item i =>
    cases i with
    | operand o => exact holds_singleton (k := .operand o) h
    | label => exact .nil ts
    | instruction =>
      cases h with
      | @instruction _ cs os _ operands s t u _ _ hoperands =>
        have hholds : Holds os ((operands.getD []).map .operand) := by
          cases hoperands with
          | absent => exact .nil _
          | present hbody => exact holds_separated hbody _ fun _ _ h => holds_singleton h
        exact ((hholds.before [⟨.rightBracket, u⟩]).behind cs).behind
          [⟨.leftBracket, s⟩, ⟨.identifier _, t⟩]
  | operand o =>
    cases o with
    -- The operands of the terms in memory, in order.
    | memory =>
      cases h with
      | plain hatom =>
        cases hatom with
        | memory s t hfirst hfurther =>
          have hterms := (holds_term hfirst).append
            ((holds_star hfurther _ fun _ _ => holds_furtherTerm).before [⟨.rightBracket, t⟩])
          exact hterms.behind [⟨.leftBracket, s⟩]
    | scaled =>
      cases h with
      | plain hatom => cases hatom
      | scaled hatom _ => exact (holds_singleton (k := .operand _) (.plain hatom)).before _
    | _ => exact .nil ts

/-- A construct that is held has tokens of its own, with others in front and behind that belong to
other parts or to none. -/
theorem Holds.of_mem {ts : List Located} {ks : List Construct} (h : Holds ts ks) {k : Construct}
    (hk : k ∈ ks) : ∃ before us after, ts = before ++ (us ++ after) ∧ k.Written us := by
  induction h with
  | nil => cases hk
  | @cons gap ts us _ ks head _ ih =>
    rcases List.mem_cons.1 hk with rfl | hk
    · exact ⟨gap, ts, us, rfl, head⟩
    · obtain ⟨before, vs, after, rfl, hwritten⟩ := ih hk
      exact ⟨gap ++ (ts ++ before), vs, after, by simp, hwritten⟩

/-- The span of a part lies where its tokens are. -/
theorem Holds.inside {ts : List Located} {ks : List Construct} (h : Holds ts ks)
    (hts : InOrder ts) {k : Construct} (hk : k ∈ ks) :
    ∃ first ∈ ts, ∃ last ∈ ts, k.span = ⟨first.span.start, last.span.stop⟩ := by
  obtain ⟨before, us, after, rfl, hwritten⟩ := h.of_mem hk
  obtain ⟨first, hfirst, last, hlast, hspan⟩ :=
    (Construct.covers_of_written hwritten hts.right.left).ends
  exact ⟨first, by simp [hfirst], last, by simp [hlast], hspan⟩

/-- Parts stand one after the other. Their tokens do not overlap and are in order, so neither do
their spans. -/
theorem Holds.apart {ts : List Located} {ks : List Construct} (h : Holds ts ks)
    (hts : InOrder ts) : (ks.map Construct.span).Pairwise fun a b => a.stop ≤ b.start := by
  induction h with
  | nil => exact .nil
  | @cons gap ts us k ks head tail ih =>
    -- The first part ends in `ts` and every other one starts in `us`, which is behind it.
    rw [List.map_cons, List.pairwise_cons]
    refine ⟨fun span hspan => ?_, ih hts.right.right⟩
    obtain ⟨part, hpart, rfl⟩ := List.mem_map.1 hspan
    obtain ⟨_, -, last, hlast, hk⟩ := (Construct.covers_of_written head hts.right.left).ends
    obtain ⟨first, hfirst, _, -, hspan⟩ := tail.inside hts.right.right hpart
    have hsplit := (List.pairwise_append.1 hts.right.apart).2.2
    rw [hk, hspan]
    exact hsplit last hlast first hfirst

/-- A construct of a document consumes a run of its tokens. The induction is on how it is reached: a
group is held by the document, a part by its construct. -/
theorem Document.Has.written {d : Document} {ts : List Located} (hd : d.Written ts)
    {k : Construct} (h : d.Has k) :
    ∃ before us after, ts = before ++ (us ++ after) ∧ k.Written us := by
  induction h with
  | group hg =>
    have hgroups := holds_star hd .group fun _ _ h => holds_singleton h
    exact hgroups.of_mem (List.mem_map_of_mem hg)
  | child _ hpart ih =>
    obtain ⟨before, us, after, rfl, hwritten⟩ := ih
    obtain ⟨before', vs, after', rfl, hpart⟩ := (Construct.holds_children hwritten).of_mem hpart
    exact ⟨before ++ before', vs, after' ++ after, by simp, hpart⟩

/-! ## Tokens of a source -/

/-- The tokens of a source are in order, being among the items into which it is partitioned. -/
theorem inOrder_tokenize (source : List Char) : InOrder (tokenize source).1 := by
  have h := (partitioned_scan source).ordered
  constructor
  · refine List.Pairwise.filterMap _ ?_ (List.pairwise_map.1 h.1)
    intro i i' hi t ht t' ht'
    cases i <;> cases ht
    cases i' <;> cases ht'
    exact hi
  · intro t ht
    exact (h.2 t.span (List.mem_map.2 ⟨_, mem_tokens_iff.1 ht, rfl⟩)).2

/-- A span from between characters to between characters. The one that starts first gives the start
and the one that ends last the end. -/
theorem Span.Cuts.join {a b : Span} {source p text q p' text' q' : List Char}
    (ha : a.Cuts source p text q) (hb : b.Cuts source p' text' q') (h : a.start ≤ b.stop) :
    ∃ before middle after, Span.Cuts ⟨a.start, b.stop⟩ source before middle after := by
  have hp : p <+: source := ⟨_, ha.source_eq.symm⟩
  have hp' : p' ++ text' <+: source := ⟨q', by rw [hb.source_eq, List.append_assoc]⟩
  have hprefix : p <+: p' ++ text' := by
    refine (List.prefix_or_prefix_of_prefix hp hp').elim id fun hback => ?_
    -- The longer of two fronts has more bytes, so they are the same.
    obtain ⟨rest, hrest⟩ := hback
    have hlength := congrArg byteLength hrest
    rw [byteLength_append, ← ha.start_eq, ← hb.stop_eq] at hlength
    have hnil : rest = [] := by
      by_contra hne
      have := byteLength_pos hne
      omega
    subst hnil
    rw [List.append_nil] at hrest
    exact hrest ▸ List.prefix_refl _
  obtain ⟨middle, hmiddle⟩ := hprefix
  refine ⟨p, middle, q', ?_, ha.start_eq, ?_⟩
  · rw [← List.append_assoc, hmiddle, List.append_assoc]
    exact hb.source_eq
  · rw [hmiddle]
    exact hb.stop_eq

/-! ## Where a parser fails -/

namespace Parser

variable {α β : Type}

/-- A parser keeps the end where it is, and its errors are at the next of the tokens that are left
or, where none is left, at the end. -/
structure Blames (p : Parser α) : Prop where
  finish : ∀ {c a c'}, p c = .ok (a, c') → c'.finish = c.finish
  span : ∀ {c failure}, p c = .error failure →
    failure.error.span = Cursor.span ⟨failure.rest, c.finish, c.finish⟩

/-- Two parsers in sequence: the first fails where it is, or the second fails further on. The end of
the source is the same to both. -/
theorem Blames.bind {p : Parser α} {f : α → Parser β} (hp : Blames p) (hf : ∀ a, Blames (f a)) :
    Blames (p >>= f) where
  finish := by
    intro c b c' h
    obtain ⟨a, c₁, ha, hb⟩ := bind_inv h
    rw [(hf a).finish hb, hp.finish ha]
  span := by
    intro c failure h
    rcases bind_eq_error.1 h with h | ⟨⟨a, c₁⟩, ha, h⟩
    · exact hp.span h
    · rw [(hf a).span h, hp.finish ha]

/-- What looks at the tokens or takes one does not fail, and so it has nothing to answer for. -/
theorem blames_of_ok {p : Parser α}
    (hp : ∀ c, ∃ a rest last, p c = .ok (a, ⟨rest, last, c.finish⟩)) : Blames p where
  finish := by
    intro c a c' h
    obtain ⟨_, _, _, hok⟩ := hp c
    cases hok.symm.trans h
    rfl
  span := by
    intro c failure h
    obtain ⟨_, _, _, hok⟩ := hp c
    cases hok.symm.trans h

theorem blames_pure (a : α) : Blames (pure a : Parser α) :=
  blames_of_ok fun c => ⟨a, c.rest, c.last, rfl⟩

theorem blames_peek : Blames peek := blames_of_ok fun c => ⟨_, c.rest, c.last, rfl⟩

theorem blames_here : Blames here := blames_of_ok fun c => ⟨_, c.rest, c.last, rfl⟩

theorem blames_lastSpan : Blames lastSpan := blames_of_ok fun c => ⟨_, c.rest, c.last, rfl⟩

theorem blames_itemHead : Blames itemHead := blames_of_ok fun c => ⟨_, c.rest, c.last, rfl⟩

theorem blames_advance : Blames advance := by
  refine blames_of_ok fun c => ?_
  obtain ⟨_ | ⟨t, rest⟩, last, finish⟩ := c
  · exact ⟨(), [], last, rfl⟩
  · exact ⟨(), rest, t.span, rfl⟩

/-- Every failure arises here, where something else was found than what was expected: at the next
token, or at the end of the source. -/
theorem blames_expected (what : Expectation) : Blames (expected what : Parser α) where
  finish := by
    intro c a c' h
    cases h
  span := by
    intro c failure h
    cases h
    rfl

theorem blames_eat (t : Token) : Blames (eat t) := by
  refine blames_peek.bind fun next => ?_
  split
  · exact blames_advance.bind fun _ => blames_pure _
  · exact blames_pure _

/-- A token that is missing is reported where it was expected. -/
theorem blames_expect (t : Token) (what : Expectation) : Blames (expect t what) := by
  refine blames_here.bind fun span => blames_peek.bind fun next => ?_
  split
  · exact blames_advance.bind fun _ => blames_pure _
  · exact blames_expected _

theorem blames_identifier (what : Expectation) : Blames (identifier what) := by
  refine blames_here.bind fun span => blames_peek.bind fun next => ?_
  split
  · exact blames_advance.bind fun _ => blames_pure _
  · exact blames_expected _

theorem blames_integer (what : Expectation) : Blames (integer what) := by
  refine blames_here.bind fun start => (blames_eat _).bind fun negative => ?_
  refine blames_peek.bind fun next => ?_
  split
  · exact blames_here.bind fun span => blames_advance.bind fun _ => blames_pure _
  · exact blames_expected _

/-- Something after a mark fails where it does. Without the mark there is no failure. -/
theorem blames_optional {p : Parser α} (mark : Token) (hp : Blames p) :
    Blames (do
      if ← eat mark then
        let a ← p
        return some a
      else return none) := by
  refine (blames_eat mark).bind fun found => ?_
  split
  · exact hp.bind fun _ => blames_pure _
  · exact blames_pure _

/-- A repetition fails where one of the repeated does. That the test ends it is no failure. -/
theorem blames_repeatWhile (test : Option Token → Bool) {p : Parser α} (hp : Blames p) :
    Blames (repeatWhile test p) := by
  have hatMost (n : Nat) : Blames (repeatAtMost test p n) := by
    induction n with
    | zero => exact blames_pure _
    | succ n ih =>
      refine blames_peek.bind fun next => ?_
      split
      · exact hp.bind fun a => ih.bind fun rest => blames_pure _
      · exact blames_pure _
  exact ⟨(hatMost _).finish, (hatMost _).span⟩

theorem blames_afterEach (mark : Token) {p : Parser α} (hp : Blames p) :
    Blames (afterEach mark p) :=
  blames_repeatWhile _ (blames_advance.bind fun _ => hp)

theorem blames_capture : Blames capture := by
  refine (blames_eat _).bind fun found => ?_
  split
  · exact (blames_identifier _).bind fun name => (blames_expect _ _).bind fun _ => blames_pure _
  · exact blames_pure _

/-- A head fails where a name is missing. -/
theorem blames_typedOperation : Blames typedOperation := by
  refine (blames_identifier _).bind fun first => blames_peek.bind fun next => ?_
  split
  · split
    · exact blames_advance.bind fun _ => blames_pure _
    · exact blames_pure _
  · exact blames_pure _

/-- An argument fails at the end of the source, or where its number or the expression that is nested
in it does. -/
theorem blames_argument {inner : Parser Expr} (hinner : Blames inner) :
    Blames (argument inner) := by
  refine blames_peek.bind fun next => ?_
  cases next with
  | none => exact blames_expected _
  | some token =>
    cases token with
    | number | minus => exact (blames_integer _).bind fun _ => blames_pure _
    | _ => exact hinner

/-- One level of an expression: it fails where one of its parts does, or at its first token if no
expression starts like that. -/
theorem blames_exprWith {inner : Parser Expr} (hinner : Blames inner) :
    Blames (exprWith inner) := by
  have hname (start : Span) : Blames (do
      let capture ← capture
      let name ← identifier .groupOrIdentifier
      return .name capture name.name (start.join name.span) : Parser Expr) :=
    blames_capture.bind fun _ => (blames_identifier _).bind fun _ => blames_pure _
  refine blames_here.bind fun start => blames_peek.bind fun next => ?_
  -- An operation in parentheses, a capture, or a name; anything else is no expression.
  split
  · refine blames_advance.bind fun _ => blames_capture.bind fun capture => ?_
    refine blames_typedOperation.bind fun head => ?_
    refine (blames_repeatWhile _ (blames_argument hinner)).bind fun args => ?_
    exact (blames_expect _ _).bind fun stop => blames_pure _
  · exact hname start
  · exact hname start
  · exact blames_expected _

/-- An expression fails at one of its tokens. -/
theorem blames_expr : Blames expr := by
  have hdepth (depth : Nat) : Blames (exprAt depth) := by
    induction depth with
    | zero => exact blames_expected _
    | succ depth ih => exact blames_exprWith ih
  exact ⟨(hdepth _).finish, (hdepth _).span⟩

theorem blames_scale : Blames scale := blames_optional .star (blames_integer .scale)

theorem blames_term {atom : Parser Operand} (hatom : Blames atom) : Blames (term atom) :=
  hatom.bind fun _ => blames_scale.bind fun _ => blames_pure _

theorem blames_furtherTerm {atom : Parser Operand} (hatom : Blames atom) :
    Blames (furtherTerm atom) := by
  refine (blames_eat _).bind fun plus => ?_
  split
  · exact blames_term hatom
  · exact (blames_integer _).bind fun _ => blames_pure _

/-- One level of an atom, of whichever kind: it fails where one of its parts does, or at its first
token. -/
theorem blames_atomWith {inner : Parser Operand} (hinner : Blames inner) :
    Blames (atomWith inner) := by
  refine blames_here.bind fun start => blames_peek.bind fun next => ?_
  cases next with
  | none => exact blames_expected _
  | some token =>
    cases token with
    | less =>
      refine blames_advance.bind fun _ => (blames_identifier _).bind fun head => ?_
      refine (blames_afterEach _ (blames_identifier _)).bind fun members => ?_
      refine (blames_optional .colon (blames_identifier .typeName)).bind fun ty => ?_
      exact (blames_expect _ _).bind fun stop => blames_pure _
    | leftBracket =>
      refine blames_advance.bind fun _ => (blames_term hinner).bind fun first => ?_
      refine (blames_repeatWhile _ (blames_furtherTerm hinner)).bind fun further => ?_
      exact (blames_expect _ _).bind fun stop => blames_pure _
    | number | minus => exact (blames_integer _).bind fun _ => blames_pure _
    | identifier => exact blames_advance.bind fun _ => blames_pure _
    | atSign =>
      exact blames_advance.bind fun _ => (blames_identifier _).bind fun _ => blames_pure _
    | _ => exact blames_expected _

/-- An operand fails where its atom or its scale does. There is nothing else in it. -/
theorem blames_operand : Blames operand := by
  have hdepth (depth : Nat) : Blames (atomAt depth) := by
    induction depth with
    | zero => exact blames_expected _
    | succ depth ih => exact blames_atomWith ih
  have hatom : Blames atom := ⟨(hdepth _).finish, (hdepth _).span⟩
  refine hatom.bind fun a => blames_scale.bind fun scale => ?_
  split <;> exact blames_pure _

/-- Operands fail where one of them does. -/
theorem blames_operands : Blames operands := by
  refine blames_peek.bind fun next => ?_
  split
  · exact blames_pure _
  · exact blames_operand.bind fun _ => (blames_afterEach _ blames_operand).bind fun _ =>
      blames_pure _

/-- An item fails where its parts do, or at one of its brackets. -/
theorem blames_item : Blames item := by
  refine (blames_expect _ _).bind fun start => blames_itemHead.bind fun head => ?_
  split
  · refine blames_advance.bind fun _ => (blames_identifier _).bind fun name => ?_
    exact (blames_expect _ _).bind fun stop => blames_pure _
  · refine blames_advance.bind fun _ => ?_
    refine (blames_optional .dot (blames_identifier .conditionCode)).bind fun condition => ?_
    exact blames_operands.bind fun _ => (blames_expect _ _).bind fun stop => blames_pure _
  · exact blames_operand.bind fun _ => (blames_expect _ _).bind fun _ => blames_pure _

theorem blames_conversion : Blames conversion := by
  refine blames_expr.bind fun e => (blames_expect _ _).bind fun _ => blames_peek.bind fun next => ?_
  split
  · exact (blames_repeatWhile _ blames_item).bind fun _ => blames_lastSpan.bind fun _ =>
      blames_pure _
  · exact blames_expected _

theorem blames_group : Blames group := by
  refine (blames_identifier _).bind fun name => (blames_expect _ _).bind fun _ => ?_
  refine blames_conversion.bind fun first => ?_
  refine (blames_afterEach _ blames_conversion).bind fun further => ?_
  exact (blames_expect _ _).bind fun stop => blames_pure _

/-- What is left after an error are the last of the tokens. -/
theorem afterSemicolon_suffix (ts : List Located) : afterSemicolon ts <:+ ts :=
  (List.tail_suffix _).trans (List.dropWhile_suffix _)

/-- **Errors are reported at tokens or at the end.** The induction is on the loop, whose turns go on
with some of the tokens, so a token that is left is one of the first. -/
theorem Loops.span_of_error {finish : Span} {ts : List Located} {r : List Group × List SyntaxError}
    (h : Loops finish ts r) {e : SyntaxError} (he : e ∈ r.2) :
    (∃ t ∈ ts, e.span = t.span) ∨ e.span = finish := by
  induction h with
  | done => cases he
  | @group ts g c r hne hgroup _ ih =>
    -- What a group leaves, and what is left behind a failed one, is a part of the tokens.
    obtain ⟨us, rest, -, hts, rfl⟩ := sound_group _ _ _ hgroup
    have hts : ts = us ++ rest := hts
    refine (ih he).imp_left fun ⟨t, ht, hspan⟩ => ⟨t, ?_, hspan⟩
    rw [hts]
    exact List.mem_append_right us ht
  | @error ts failure r hne hgroup _ ih =>
    have hsuffix := suffix_of_group hgroup
    rcases List.mem_cons.1 he with rfl | he
    · have hspan := blames_group.span hgroup
      cases hrest : failure.rest with
      | nil =>
        rw [hrest] at hspan
        exact .inr hspan
      | cons t rest =>
        rw [hrest] at hspan hsuffix
        exact .inl ⟨t, hsuffix.subset (by simp), hspan⟩
    · refine (ih he).imp_left fun ⟨t, ht, hspan⟩ => ⟨t, ?_, hspan⟩
      exact hsuffix.subset ((afterSemicolon_suffix _).subset ht)

end Parser

/-! ## Whole documents -/

/-- A construct stands where it was read. -/
structure Construct.Exact (source : List Char) (k : Construct) : Prop where
  /-- It consumed a run of the tokens, and reaches from the first of them to the last. -/
  consumed : ∃ before ts after, (tokenize source).1 = before ++ (ts ++ after) ∧ k.Consumes ts ∧
    k.span.Covers ts
  nonempty : k.span.start < k.span.stop
  /-- It starts and ends between characters of the source. -/
  cuts : ∃ before text after, k.span.Cuts source before text after
  parts_inside : ∀ part ∈ k.children,
    k.span.start ≤ part.span.start ∧ part.span.stop ≤ k.span.stop
  parts_apart : (k.children.map Construct.span).Pairwise fun a b => a.stop ≤ b.start

/-- A construct of a document stands where it was read. The document has been written as its tokens,
and the construct as some of them. -/
theorem Document.exact_of_has {source : List Char} {d : Document}
    (hd : d.Written (tokenize source).1) {k : Construct} (h : d.Has k) : k.Exact source := by
  have htokens := inOrder_tokenize source
  obtain ⟨before, ts, after, hsplit, hwritten⟩ := h.written hd
  have hts : InOrder ts := by
    rw [hsplit] at htokens
    exact htokens.right.left
  have hcovers := Construct.covers_of_written hwritten hts
  have hholds := Construct.holds_children hwritten
  -- The tokens of the construct are tokens of the source, so they cut it between characters.
  obtain ⟨first, hfirst, last, hlast, hspan⟩ := hcovers.ends
  have hlt : k.span.start < k.span.stop := by
    have hstart := hts.nonempty first hfirst
    have hstop := hcovers.inside hts hfirst
    omega
  have hmem {t : Located} (ht : t ∈ ts) : t ∈ (tokenize source).1 := by
    rw [hsplit]
    simp [ht]
  refine ⟨⟨before, ts, after, hsplit, k.consumes_of_written hwritten, hcovers⟩, hlt, ?_, ?_,
    hholds.apart hts⟩
  · obtain ⟨_, _, _, hcuts⟩ := cuts_item (mem_tokens_iff.1 (hmem hfirst))
    obtain ⟨_, _, _, hcuts'⟩ := cuts_item (mem_tokens_iff.1 (hmem hlast))
    rw [hspan] at hlt ⊢
    exact hcuts.join hcuts' (Nat.le_of_lt hlt)
  · intro part hpart
    obtain ⟨first', hfirst', last', hlast', hpartspan⟩ := hholds.inside hts hpart
    rw [hpartspan]
    exact ⟨(hcovers.inside hts hfirst').1, (hcovers.inside hts hlast').2⟩

/-- **Spans are exact.** Every construct of a document that can be read reaches from the first to
the last of the tokens that it consumed; so it is not empty, lies between characters of the source,
has its parts inside, and the parts stand one after the other, as the groups do. Of a text that
cannot be read, each error is one of cutting the text, or at a token, or at the end, and the errors
come in the order of where they start. -/
theorem Document.spans_exact :
    (∀ (source : List Char) (d : Document), Document.parse source = .ok d →
        (∀ k, d.Has k → k.Exact source) ∧
        (d.groups.map Group.span).Pairwise fun a b => a.stop ≤ b.start) ∧
      ∀ (source : List Char) (errors : List SyntaxError), Document.parse source = .error errors →
        (∀ e ∈ errors, e ∈ (tokenize source).2 ∨ (∃ t ∈ (tokenize source).1, e.span = t.span) ∨
          e.span = .point (byteLength source)) ∧
        errors.Pairwise fun a b => a.span.start ≤ b.span.start := by
  constructor
  · intro source d h
    obtain ⟨-, hd⟩ := Document.parse_eq_ok_iff.1 h
    refine ⟨fun k => exact_of_has hd, ?_⟩
    have hgroups := (holds_star hd .group fun _ _ h => holds_singleton h).apart
      (inOrder_tokenize source)
    rwa [List.map_map] at hgroups
  · -- Errors come from cutting the text or from reading groups, and are sorted by where they start.
    intro source errors h
    rw [errors_of_parse h]
    constructor
    · intro e he
      rcases List.mem_append.1 (List.mem_mergeSort.1 he) with he | he
      · exact .inl he
      · exact .inr (((Parser.loops_iff _ _ _).2 rfl).span_of_error he)
    · exact pairwise_mergeSort_start (fun e : SyntaxError => e.span.start) _

/-- A scaled operand between brackets; and a group that ends too early, in front of a character of
two bytes. -/
theorem Document.spans_exact_samples :
    let source := "a: b -> [1 * 2];".toList
    let broken := "a: ;é".toList
    (∃ d, Document.parse source = .ok d ∧
      ∃ k, d.Has k ∧ k.span = ⟨3, 15⟩ ∧ k.Exact source) ∧
      ∃ errors, Document.parse broken = .error errors ∧
        (∀ e ∈ errors, e ∈ (tokenize broken).2 ∨ (∃ t ∈ (tokenize broken).1, e.span = t.span) ∨
          e.span = .point (byteLength broken)) ∧
        errors.Pairwise fun a b => a.span.start ≤ b.span.start := by
  intro source broken
  constructor
  · have hspans : (Document.parse source).toOption.map (fun d =>
        d.groups.flatMap fun g => g.conversions.map Conversion.span) = some [⟨3, 15⟩] := by
      decide +kernel
    cases hd : Document.parse source with
    | error e =>
      rw [hd] at hspans
      cases hspans
    | ok d =>
      rw [hd] at hspans
      have hall : (d.groups.flatMap fun g => g.conversions.map Conversion.span) = [⟨3, 15⟩] :=
        Option.some.inj hspans
      have hmem : ⟨3, 15⟩ ∈ d.groups.flatMap fun g => g.conversions.map Conversion.span := by
        rw [hall]
        simp
      obtain ⟨g, hg, hspan⟩ := List.mem_flatMap.1 hmem
      obtain ⟨c, hc, hspan⟩ := List.mem_map.1 hspan
      have hhas : d.Has (.conversion c) := .child (.group hg) (List.mem_map_of_mem hc)
      exact ⟨d, rfl, _, hhas, hspan, (spans_exact.1 source d hd).1 _ hhas⟩
  · -- The group ends in front of the `;`, and the last character is not one of the language.
    have hfails : (Document.parse broken).isOk = false := by decide +kernel
    cases herrors : Document.parse broken with
    | ok d =>
      rw [herrors] at hfails
      cases hfails
    | error errors => exact ⟨errors, rfl, spans_exact.2 broken errors herrors⟩

end TileSelect
