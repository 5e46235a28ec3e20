import TileSelect.Proofs.Source.Locality
/-!
One bad group does not disturb the others.

Reading a document takes one group after the other; where a group fails, reading goes on behind
the next `;`. The loop is stated here without a bound, as a relation, and the bounded function
computes it: every turn leaves fewer tokens.

As a group does not look behind the `;` that ends it, and a failed one is abandoned at the `;`
that is next, the tokens fall into segments, each ending with its `;`, and every segment is read as
if it stood alone. A segment gives one group or one error.
-/

set_option autoImplicit false

namespace TileSelect

open Grammar

namespace Parser

variable {finish : Span}

/-! ## Behind the next semicolon -/

@[simp] theorem afterSemicolon_nil : afterSemicolon [] = [] := rfl

/-- A `;` is the place to go on behind; any other token is abandoned. -/
theorem afterSemicolon_cons (t : Located) (ts : List Located) :
    afterSemicolon (t :: ts) = if t.token = .semicolon then ts else afterSemicolon ts := by
  by_cases h : t.token = .semicolon
  · simp [afterSemicolon, h]
  · simp [afterSemicolon, h]

/-- What is abandoned ends inside the front, or the front is abandoned as a whole and what is behind
it is abandoned up to its own first `;`. -/
theorem afterSemicolon_append (v : List Located) :
    (∃ s w v', v = w ++ ⟨.semicolon, s⟩ :: v' ∧ ∀ x, afterSemicolon (v ++ x) = v' ++ x) ∨
      ∀ x, afterSemicolon (v ++ x) = afterSemicolon x := by
  induction v with
  | nil => exact .inr fun _ => rfl
  | cons t v ih =>
    -- The first token is the `;` that ends it, or it is skipped and the rest decides.
    by_cases ht : t.token = .semicolon
    · refine .inl ⟨t.span, [], v, ?_, fun x => ?_⟩
      · rw [← ht, List.nil_append]
      · rw [List.cons_append, afterSemicolon_cons, if_pos ht]
    · have hskip (x : List Located) : afterSemicolon (t :: v ++ x) = afterSemicolon (v ++ x) := by
        rw [List.cons_append, afterSemicolon_cons, if_neg ht]
      rcases ih with ⟨s, w, v', rfl, hx⟩ | hx
      · exact .inl ⟨s, t :: w, v', rfl, fun x => (hskip x).trans (hx x)⟩
      · exact .inr fun x => (hskip x).trans (hx x)

/-- After an error fewer tokens are left: at least one has been abandoned, the `;` or the whole
rest. This is why reading ends. -/
theorem length_afterSemicolon_lt {v ts : List Located} (h : v <:+ ts) (hne : ts ≠ []) :
    (afterSemicolon v).length < ts.length := by
  have hle := h.length_le
  have hpos := List.length_pos_iff.2 hne
  rcases afterSemicolon_append v with ⟨s, w, v', rfl, hx⟩ | hx
  · have hrest := hx []
    rw [List.append_nil, List.append_nil] at hrest
    rw [List.length_append, List.length_cons] at hle
    rw [hrest]
    omega
  · have hrest := hx []
    rw [List.append_nil] at hrest
    rw [hrest]
    exact hpos

/-! ## The loop -/

/-- Reading a document to its end, group by group. -/
inductive Loops (finish : Span) : List Located → List Group × List SyntaxError → Prop where
  | done : Loops finish [] ([], [])
  | group {ts : List Located} {g : Group} {c : Cursor} {r : List Group × List SyntaxError}
      (hne : ts ≠ []) (hgroup : group ⟨ts, finish, finish⟩ = .ok (g, c))
      (hrest : Loops finish c.rest r) : Loops finish ts (g :: r.1, r.2)
  | error {ts : List Located} {failure : Failure} {r : List Group × List SyntaxError}
      (hne : ts ≠ []) (hgroup : group ⟨ts, finish, finish⟩ = .error failure)
      (hrest : Loops finish (afterSemicolon failure.rest) r) :
      Loops finish ts (r.1, failure.error :: r.2)

/-- The loop has one outcome. The tokens that are left after each group or error are determined, as
reading a group is a function of the tokens. -/
theorem Loops.unique {ts : List Located} {r r' : List Group × List SyntaxError}
    (h : Loops finish ts r) (h' : Loops finish ts r') : r = r' := by
  induction h generalizing r' with
  | done =>
    -- Both loops take the same turn: the tokens are the same, and reading a group from them has one
    -- outcome.
    cases h' with
    | done => rfl
    | group hne => contradiction
    | error hne => contradiction
  | group hne hgroup _ ih =>
    cases h' with
    | done => contradiction
    | group _ hgroup' hrest' =>
      cases hgroup.symm.trans hgroup'
      rw [ih hrest']
    | error _ hgroup' => cases hgroup.symm.trans hgroup'
  | error hne hgroup _ ih =>
    cases h' with
    | done => contradiction
    | group _ hgroup' => cases hgroup.symm.trans hgroup'
    | error _ hgroup' hrest' =>
      cases hgroup.symm.trans hgroup'
      rw [ih hrest']

theorem Loops.eq_nil {r : List Group × List SyntaxError} (h : Loops finish [] r) :
    r = ([], []) :=
  h.unique .done

/-- A group takes tokens, the `;` at its end at least. -/
theorem length_lt_of_group {ts : List Located} {last : Span} {g : Group} {c : Cursor}
    (h : group ⟨ts, last, finish⟩ = .ok (g, c)) : c.rest.length < ts.length := by
  have hagree := groupsAgree_group .finish ts last finish
  rw [List.append_nil, h] at hagree
  rcases hagree.of_ok with ⟨w, v, s, _, hu, hrest, -⟩ | ⟨_, _, _, hx, -⟩
  · rw [hrest, hu, List.append_nil, List.length_append, List.length_cons]
    omega
  · cases hx

/-- A group that fails leaves a part of the tokens. -/
theorem suffix_of_group {ts : List Located} {last : Span} {failure : Failure}
    (h : group ⟨ts, last, finish⟩ = .error failure) : failure.rest <:+ ts := by
  have hagree := groupsAgree_group .finish ts last finish
  rw [List.append_nil, h] at hagree
  obtain ⟨v, hsuffix, hrest, -⟩ := hagree.of_error
  rw [hrest, List.append_nil]
  exact hsuffix

/-- As many turns as there are tokens are enough, since each of them leaves fewer tokens than it
found. -/
theorem loops_groupsUpTo (finish : Span) (n : Nat) (ts : List Located) (h : ts.length ≤ n) :
    Loops finish ts (groupsUpTo finish n ts) := by
  induction n generalizing ts with
  | zero =>
    obtain rfl := List.length_eq_zero_iff.1 (Nat.le_zero.1 h)
    exact .done
  | succ n ih =>
    cases ts with
    | nil => exact .done
    | cons t ts =>
      -- A turn that reads a group takes tokens, and so does one that abandons them.
      rw [groupsUpTo]
      · split
        · rename_i g c hgroup
          have hlt := length_lt_of_group hgroup
          exact .group (by simp) hgroup (ih c.rest (by omega))
        · rename_i failure hgroup
          have hlt := length_afterSemicolon_lt (suffix_of_group hgroup) (by simp)
          exact .error (by simp) hgroup (ih _ (by omega))
      · simp

/-- **Reading a document ends**, and gives what the loop gives. The loop is stated as a relation,
which says nothing about bounds. -/
theorem loops_iff (finish : Span) (ts : List Located) (r : List Group × List SyntaxError) :
    Loops finish ts r ↔ r = groups finish ts := by
  have hloops := loops_groupsUpTo finish ts.length ts (Nat.le_refl _)
  constructor
  · intro h
    exact h.unique hloops
  · rintro rfl
    exact hloops

/-! ## Two documents, one after the other -/

/-- What two documents hold together. -/
def together (p q : List Group × List SyntaxError) : List Group × List SyntaxError :=
  (p.1 ++ q.1, p.2 ++ q.2)

/-- The loop gets to the `;` and then goes on as if it started there. The induction is on the loop
on the first part, where each turn reads or fails as it does in the whole. -/
theorem Loops.append {a b : List Located} {s : Span} {r r' : List Group × List SyntaxError}
    (h : Loops finish (a ++ [⟨.semicolon, s⟩]) r) (h' : Loops finish b r') :
    Loops finish (a ++ ⟨.semicolon, s⟩ :: b) (together r r') := by
  generalize hts : a ++ [⟨.semicolon, s⟩] = ts at h
  induction h generalizing a with
  | done => simp at hts
  | @group ts g c r hne hgroup hrest ih =>
    subst hts
    have hagree := groupsAgree_group (.semicolon s b []) a finish finish
    rw [hgroup] at hagree
    rcases hagree.of_ok with ⟨w, v, s', last, -, hc, hrun⟩ | ⟨x', s', last, hx, hy, hrun⟩
    · exact .group (by simp) hrun (ih hc.symm)
    · cases hx
      rw [(List.cons.inj hy).2.symm] at hrest
      rw [hrest.eq_nil]
      exact .group (by simp) hrun h'
  | @error ts failure r hne hgroup hrest ih =>
    subst hts
    have hagree := groupsAgree_group (.semicolon s b []) a finish finish
    rw [hgroup] at hagree
    obtain ⟨v, -, hv, hrun⟩ := hagree.of_error
    rw [hv] at hrest ih
    -- The `;` that ends the failed group is one of the front, or the one behind it.
    have hloop : Loops finish (afterSemicolon (v ++ ⟨.semicolon, s⟩ :: b)) (together r r') := by
      rcases afterSemicolon_append v with ⟨s', w, v', -, hx⟩ | hx
      · rw [hx]
        exact ih (hx _).symm
      · rw [hx, afterSemicolon_cons, if_pos rfl] at hrest ⊢
        rw [hrest.eq_nil]
        exact h'
    exact .error (by simp) hrun hloop

/-- Groups behind a `;` are read as if they stood alone. -/
theorem groups_append (finish : Span) (a b : List Located) (s : Span) :
    groups finish (a ++ ⟨.semicolon, s⟩ :: b)
      = together (groups finish (a ++ [⟨.semicolon, s⟩])) (groups finish b) := by
  have hfirst := (loops_iff finish (a ++ [⟨.semicolon, s⟩]) _).2 rfl
  have hsecond := (loops_iff finish b _).2 rfl
  exact ((loops_iff finish _ _).1 (hfirst.append hsecond)).symm

/-! ## Segments -/

/-- The tokens, cut behind each `;`. -/
def segments : List Located → List (List Located)
  | [] => []
  | t :: ts =>
    if t.token = .semicolon then [t] :: segments ts
    else
      match segments ts with
      | [] => [[t]]
      | segment :: rest => (t :: segment) :: rest

/-- Tokens that hold no `;`. -/
def Unbroken (ts : List Located) : Prop := ∀ t ∈ ts, t.token ≠ .semicolon

/-- A segment holds a `;` at its end, or none. -/
inductive IsSegment : List Located → Prop where
  | closed {w : List Located} (h : Unbroken w) (s : Span) : IsSegment (w ++ [⟨.semicolon, s⟩])
  | unclosed {w : List Located} (h : Unbroken w) (hne : w ≠ []) : IsSegment w

/-- A segment ends with the first `;`, and what is behind it is divided in the same way. -/
theorem segments_closed {w : List Located} (h : Unbroken w) (s : Span) (b : List Located) :
    segments (w ++ ⟨.semicolon, s⟩ :: b) = (w ++ [⟨.semicolon, s⟩]) :: segments b := by
  induction w with
  | nil => simp [segments]
  | cons t w ih =>
    obtain ⟨ht, hw⟩ := List.forall_mem_cons.1 h
    rw [List.cons_append, segments, if_neg ht, ih hw]
    rfl

/-- The last segment may end without a `;`, if there is anything behind the last one at all. -/
theorem segments_unclosed {w : List Located} (h : Unbroken w) (hne : w ≠ []) :
    segments w = [w] := by
  induction w with
  | nil => contradiction
  | cons t w ih =>
    obtain ⟨ht, hw⟩ := List.forall_mem_cons.1 h
    rw [segments, if_neg ht]
    cases w with
    | nil => rfl
    | cons t' w => rw [ih hw (by simp)]

/-- Tokens hold no `;`, or there is a first one, with nothing of the kind in front of it. -/
theorem unbroken_or_exists (ts : List Located) :
    Unbroken ts ∨ ∃ w s b, Unbroken w ∧ ts = w ++ ⟨.semicolon, s⟩ :: b := by
  induction ts with
  | nil => exact .inl (by simp [Unbroken])
  | cons t ts ih =>
    by_cases ht : t.token = .semicolon
    · refine .inr ⟨[], t.span, ts, by simp [Unbroken], ?_⟩
      rw [← ht, List.nil_append]
    · rcases ih with h | ⟨w, s, b, h, rfl⟩
      · exact .inl (List.forall_mem_cons.2 ⟨ht, h⟩)
      · exact .inr ⟨t :: w, s, b, List.forall_mem_cons.2 ⟨ht, h⟩, rfl⟩

/-- A property of all tokens by their segments: it holds of none, of a last segment without a `;`,
and of a closed one in front of tokens that have it. -/
theorem segment_induction {P : List Located → Prop} (nil : P [])
    (unclosed : ∀ w, Unbroken w → w ≠ [] → P w)
    (closed : ∀ w s b, Unbroken w → P b → P (w ++ ⟨.semicolon, s⟩ :: b)) (ts : List Located) :
    P ts := by
  induction hn : ts.length using Nat.strongRecOn generalizing ts with
  | ind n ih =>
    -- What is behind the first `;` is shorter than the whole.
    rcases unbroken_or_exists ts with h | ⟨w, s, b, h, rfl⟩
    · by_cases hne : ts = []
      · rw [hne]
        exact nil
      · exact unclosed ts h hne
    · rw [List.length_append, List.length_cons] at hn
      exact closed w s b h (ih b.length (by omega) b rfl)

theorem flatten_segments (ts : List Located) : (segments ts).flatten = ts := by
  induction ts using segment_induction with
  | nil => rfl
  | unclosed w h hne => simp [segments_unclosed h hne]
  | closed w s b h ih => simp [segments_closed h, ih]

/-- A segment has a `;` at its end or nowhere. The induction follows the way tokens are divided. -/
theorem isSegment_of_mem {ts segment : List Located} (h : segment ∈ segments ts) :
    IsSegment segment := by
  induction ts using segment_induction with
  | nil => simp [segments] at h
  | unclosed w hw hne =>
    rw [segments_unclosed hw hne, List.mem_singleton] at h
    subst h
    exact .unclosed hw hne
  | closed w s b hw ih =>
    rw [segments_closed hw] at h
    rcases List.mem_cons.1 h with rfl | h
    · exact .closed hw s
    · exact ih h

theorem Unbroken.ne_append {w v v' : List Located} (h : Unbroken w) (s : Span) :
    w ≠ v ++ ⟨.semicolon, s⟩ :: v' := by
  rintro rfl
  exact h ⟨.semicolon, s⟩ (by simp) rfl

/-- **A segment is one group or one error.** A group that is read ends with a `;`, which is at the
end of the segment. An error abandons everything up to there. -/
theorem loops_of_isSegment {segment : List Located} (h : IsSegment segment) :
    (∃ g, Loops finish segment ([g], [])) ∨ ∃ e, Loops finish segment ([], [e]) := by
  obtain ⟨w, x, hw, hne, hends, hskip, rfl⟩ : ∃ w x, Unbroken w ∧ w ++ x ≠ [] ∧ Ends x x ∧
      afterSemicolon x = [] ∧ segment = w ++ x := by
    cases h with
    | @closed w hw s => exact ⟨w, _, hw, by simp, .semicolon s [] [], by simp [afterSemicolon], rfl⟩
    | unclosed hw hne => exact ⟨segment, [], hw, by simpa using hne, .finish, rfl, by simp⟩
  -- A run on the front says where it can end: never before the last token.
  have hagree := groupsAgree_group hends w finish finish
  cases hrun : group ⟨w ++ x, finish, finish⟩ with
  | ok result =>
    obtain ⟨g, c⟩ := result
    rw [hrun] at hagree
    rcases hagree.of_ok with ⟨w', v, s, -, hu, -⟩ | ⟨-, s, -, -, hx, -⟩
    · exact absurd hu (hw.ne_append s)
    · rw [hx, afterSemicolon_cons, if_pos rfl] at hskip
      have hrest : Loops finish c.rest ([], []) := by
        rw [hskip]
        exact .done
      exact .inl ⟨g, .group hne hrun hrest⟩
  | error failure =>
    rw [hrun] at hagree
    obtain ⟨v, hv, hfailure, -⟩ := hagree.of_error
    -- The front has no `;`, so it is abandoned as a whole, and its end with it.
    have hrest : Loops finish (afterSemicolon failure.rest) ([], []) := by
      rcases afterSemicolon_append v with ⟨s, w', v', hsplit, -⟩ | hx
      · obtain ⟨w'', rfl⟩ := hv
        rw [hsplit, ← List.append_assoc] at hw
        exact absurd rfl (hw.ne_append s)
      · rw [hfailure, hx, hskip]
        exact .done
    exact .inr ⟨failure.error, .error hne hrun hrest⟩

/-- The loop reads one segment after the other, and what it gives is what they give, put together in
order. -/
theorem groups_eq_segments (finish : Span) (ts : List Located) :
    groups finish ts = ((segments ts).map (groups finish)).foldr together ([], []) := by
  induction ts using segment_induction with
  | nil => rfl
  | unclosed w h hne =>
    rw [segments_unclosed h hne]
    simp [together]
  | closed w s b h ih =>
    rw [segments_closed h, List.map_cons, List.foldr_cons, ← ih]
    exact groups_append finish w b s

/-- The bounds on nesting are not reached, so raising them changes nothing. -/
theorem exprAt_eq_expr {c : Cursor} {n : Nat} (h : c.rest.length < n) : exprAt n c = expr c := by
  have hagree := alike_exprAt n (c.rest.length + 1) c.rest h (Nat.lt_succ_self _) [] [] c.last
    c.finish .finish
  rw [List.append_nil] at hagree
  exact hagree.eq_of_nil

theorem atomAt_eq_atom {c : Cursor} {n : Nat} (h : c.rest.length < n) : atomAt n c = atom c := by
  have hagree := alike_atomAt n (c.rest.length + 1) c.rest h (Nat.lt_succ_self _) [] [] c.last
    c.finish .finish
  rw [List.append_nil] at hagree
  exact hagree.eq_of_nil

/-- **One bad group does not disturb the others.** The groups and the errors of two documents, of
which the first ends with a `;`, are those of each. Reading ends on all tokens: the loop has a
result, which is the one computed, and no bound on nesting is reached on the way. The tokens fall
into segments, and each gives one group or one error. -/
theorem groups_are_local (finish : Span) :
    (∀ a b s, groups finish (a ++ ⟨.semicolon, s⟩ :: b)
        = together (groups finish (a ++ [⟨.semicolon, s⟩])) (groups finish b)) ∧
      (∀ ts r, Loops finish ts r ↔ r = groups finish ts) ∧
      (∀ (c : Cursor) n, c.rest.length < n → exprAt n c = expr c ∧ atomAt n c = atom c) ∧
      ∀ ts, (segments ts).flatten = ts ∧
        groups finish ts = ((segments ts).map (groups finish)).foldr together ([], []) ∧
        ∀ segment ∈ segments ts, IsSegment segment ∧
          ((∃ g, groups finish segment = ([g], [])) ∨ ∃ e, groups finish segment = ([], [e])) := by
  refine ⟨groups_append finish, loops_iff finish, ?_, ?_⟩
  · intro c n hn
    exact ⟨exprAt_eq_expr hn, atomAt_eq_atom hn⟩
  · intro ts
    refine ⟨flatten_segments ts, groups_eq_segments finish ts, ?_⟩
    intro segment hsegment
    have hform := isSegment_of_mem hsegment
    refine ⟨hform, ?_⟩
    rcases @loops_of_isSegment finish _ hform with ⟨g, hloops⟩ | ⟨e, hloops⟩
    · exact .inl ⟨g, ((loops_iff finish segment _).1 hloops).symm⟩
    · exact .inr ⟨e, ((loops_iff finish segment _).1 hloops).symm⟩

/-- Two groups that end too early: each is an error of its own, the second at the end of the
input. -/
theorem groups_are_local_two_names :
    let name : Located := ⟨.identifier "x", .point 0⟩
    let stop : Located := ⟨.semicolon, .point 1⟩
    groups (.point 2) [name, stop, name]
        = together (groups (.point 2) [name, stop]) (groups (.point 2) [name]) ∧
      exprAt 4 ⟨[name, stop, name], .point 2, .point 2⟩
        = expr ⟨[name, stop, name], .point 2, .point 2⟩ ∧
      [name, stop] ∈ segments [name, stop, name] ∧
      ((∃ g, groups (.point 2) [name, stop] = ([g], [])) ∨
        ∃ e, groups (.point 2) [name, stop] = ([], [e])) := by
  intro name stop
  obtain ⟨happend, -, hbounds, hsegments⟩ := groups_are_local (.point 2)
  have hmem : [name, stop] ∈ segments [name, stop, name] := by
    simp [segments, name, stop]
  -- Each part is the general statement at these tokens.
  refine ⟨happend [name] [name] (.point 1), ?_, hmem, ?_⟩
  · exact (hbounds ⟨[name, stop, name], .point 2, .point 2⟩ 4 (by decide)).1
  · exact ((hsegments [name, stop, name]).2.2 [name, stop] hmem).2

end Parser

end TileSelect
