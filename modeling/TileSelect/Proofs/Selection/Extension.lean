import TileSelect.Proofs.Match.Extension
import TileSelect.Proofs.Selection.Hygiene
import TileSelect.Proofs.Selection.Pipeline
/-!
Adding a group of patterns takes no tile away.

Patterns are put behind those of a document, in groups that the document does not have. The
candidates at a node are then those there were, with others among them, and where matching ends they
match as they did. So the tiles there were are there again, in order.

What they are written with does change. Temporaries are numbered by one count, and the tiles of a
candidate that stands between two others move the count on. The tiles of each match are therefore
written with other numbers, counted on from another start (`Session.recount`). As long as the count
does not wrap, one renaming does for all tiles, put together from the stretches of the count
(`Match.exists_renaming`); when it wraps, two temporaries may share a number in one run and not in
the other, and each match has a renaming of its own.

No verdict looks at the numbers, so a block that is covered stays covered. For that the settings do
not matter.
-/

set_option autoImplicit false

namespace TileSelect

/-! ## Candidates and matches -/

namespace Tables

variable {ps qs : List Pattern} {b : Block} {id : NodeId}

/-- The candidates that were there come in the same order, since each of the two indexes keeps the
order of the patterns. -/
theorem candidates_sublist_append (ps qs : List Pattern) (op : Operation)
    (stored : Option Operation) :
    ((ofPatterns ps).candidates op stored).Sublist
      ((ofPatterns (ps ++ qs)).candidates op stored) := by
  rw [candidates_ofPatterns, candidates_ofPatterns]
  exact ((List.sublist_append_left ps qs).filter _).append
    ((List.sublist_append_left ps qs).filter _)

/-- At a node, the candidates that were there are patterns that were there, and they are still
found, in the same order. The operation and the stored operation do not depend on the patterns. -/
theorem candidatesAt_append (qs : List Pattern) {candidates : List Pattern}
    (h : (ofPatterns ps).candidatesAt b id = .ok candidates) :
    (∀ p ∈ candidates, p ∈ ps)
      ∧ ∃ candidates', (ofPatterns (ps ++ qs)).candidatesAt b id = .ok candidates'
        ∧ candidates.Sublist candidates' := by
  rw [candidatesAt, bind_eq_ok] at h
  obtain ⟨n, hn, h⟩ := h
  obtain ⟨stored, hstored, h⟩ := bind_eq_ok.1 h
  rw [pure_eq_ok] at h
  subst h
  -- The operation and the stored operation depend on the block alone, so both tables are asked for
  -- the same.
  refine ⟨fun p hp => (mem_candidates_ofPatterns hp).1, _, ?_,
    candidates_sublist_append ps qs n.op stored⟩
  rw [candidatesAt, hn, ok_bind, hstored]
  rfl

/-- Matching that ends with more patterns ended before: a candidate that was there matches as it
did, so that it has an outcome now because it will have one then. -/
theorem Terminates.of_append (h : Pattern.Extends ps qs)
    (hterm : (ofPatterns (ps ++ qs)).Terminates b id) : (ofPatterns ps).Terminates b id := by
  intro candidates hcandidates p hp
  obtain ⟨hmem, candidates', hcandidates', hsub⟩ := candidatesAt_append qs hcandidates
  obtain ⟨o, ho⟩ := hterm candidates' hcandidates' p (hsub.subset hp)
  exact ⟨o, matchAt_of_append h (hmem p hp) ho⟩

end Tables

/-! ## Counting on -/

namespace Session

/-- The number that a temporary gets when the count goes on from `n'`, by the one that it gets when
it goes on from `n`; counts wrap at 32 bits. -/
def recount (n n' k : Nat) : Nat :=
  if k < UInt32.size then (k + (UInt32.size - tempNumber n) + n') % UInt32.size else k

/-- Counting on from another number keeps different numbers different, also where the count wraps.
-/
theorem recount_injective (n n' : Nat) : Function.Injective (recount n n') := by
  intro k k' h
  simp only [recount, UInt32.size] at h
  split at h <;> split at h <;> omega

/-- The temporary that comes `k` steps later gets the number that comes `k` steps later. -/
theorem recount_tempNumber (n n' k : Nat) :
    recount n n' (tempNumber (n + k)) = tempNumber (n' + k) := by
  have hlt : tempNumber (n + k) < UInt32.size := Nat.mod_lt _ (by decide)
  rw [recount, if_pos hlt]
  simp only [tempNumber, UInt32.size]
  omega

/-- As long as neither count wraps, the numbers are shifted. -/
theorem recount_of_lt {n n' k : Nat} (hle : n ≤ n')
    (hfew : k + (n' - n) < UInt32.size) : recount n n' k = k + (n' - n) := by
  have hlt : k < UInt32.size := by omega
  rw [recount, if_pos hlt]
  simp only [tempNumber, UInt32.size] at hfew ⊢
  omega

/-- One renaming below a count and another from there on. -/
def joinAt (mid : Nat) (ρ σ : Nat → Nat) (n : Nat) : Nat := if n < mid then ρ n else σ n

/-- Below the count at which they are joined, the first renaming applies. -/
theorem joinAt_of_lt {mid n : Nat} {ρ σ : Nat → Nat} (h : n < mid) : joinAt mid ρ σ n = ρ n :=
  if_pos h

theorem joinAt_of_le {mid n : Nat} {ρ σ : Nat → Nat} (h : mid ≤ n) : joinAt mid ρ σ n = σ n :=
  if_neg (Nat.not_lt.2 h)

/-- Two renamings that keep the order keep it when joined, if the second starts where the first has
ended or above. -/
theorem strictMono_joinAt {mid : Nat} {ρ σ : Nat → Nat} (hρ : StrictMono ρ) (hσ : StrictMono σ)
    (hmid : ρ mid ≤ σ mid) : StrictMono (joinAt mid ρ σ) := by
  intro n n' hn
  by_cases h : n < mid
  · rw [joinAt_of_lt h]
    by_cases h' : n' < mid
    · rw [joinAt_of_lt h']
      exact hρ hn
    · rw [joinAt_of_le (Nat.not_lt.1 h')]
      -- The one number is renamed by the first renaming and the other by the second.
      calc ρ n < ρ mid := hρ h
        _ ≤ σ mid := hmid
        _ ≤ σ n' := hσ.monotone (Nat.not_lt.1 h')
  · rw [joinAt_of_le (Nat.not_lt.1 h), joinAt_of_le (by omega)]
    exact hσ hn

end Session

/-- A run beside the same run from another count. -/
def SideBySide.shifted (s s' : Session) : SideBySide where
  left := Session.recount s.allocated s'.allocated
  right := id
  start := s.allocated
  start' := s'.allocated
  seen k := Session.recount_tempNumber s.allocated s'.allocated k

/-- A tile is another one, written with other temporaries. -/
def Tile.RenamesTo (t u : Tile) : Prop := ∃ ρ, Function.Injective ρ ∧ u = t.renameTemps ρ

/-- Only the numbers that occur in a tile matter to its renaming. -/
theorem Tile.renameTemps_congr {ρ σ : Nat → Nat} {t : Tile} (h : ∀ n, t.Carries n → ρ n = σ n) :
    t.renameTemps ρ = t.renameTemps σ := by
  have hparts : t.parts.map (Part.renameTemps ρ) = t.parts.map (Part.renameTemps σ) :=
    List.map_congr_left fun p hp => Part.renameTemps_congr p fun n hn => h n ⟨p, hp, hn⟩
  rw [renameTemps, renameTemps, hparts]

@[simp] theorem Tile.renameTemps_id (t : Tile) : t.renameTemps id = t := by
  have hparts : t.parts.map (Part.renameTemps id) = t.parts := by
    rw [funext Part.renameTemps_id, List.map_id']
  rw [renameTemps, hparts]

/-- The verdict does not look at the numbers of temporaries. -/
theorem Tile.RenamesTo.accepts {t u : Tile} (h : t.RenamesTo u) (b : Block) :
    b.accepts t = b.accepts u := by
  obtain ⟨ρ, -, rfl⟩ := h
  exact (b.accepts_renameTemps t).symm

/-- The pattern spells out no number of a temporary. -/
abbrev Pattern.Unspelled (p : Pattern) : Prop := p.SpellsIn fun _ => False

/-- Compiled patterns name their temporaries. None of them spells out a number, so the numbers that
two runs issue never meet one that stands in a template. -/
theorem Pattern.unspelled_of_patternsOf? {source : String} {ps : List Pattern} {p : Pattern}
    (h : patternsOf? source.toList = some ps) (hp : p ∈ ps) : p.Unspelled := by
  obtain ⟨d, hparse, hpatterns⟩ := patternsOf?_eq_some.1 h
  have htables : Tables.ofSource source = .ok (.ofPatterns ps) := by
    rw [Tables.ofSource, hparse]
    dsimp only
    rw [hpatterns]
  intro q hq n hn
  have hanswers : (Tables.ofPatterns ps).Answers p :=
    .inl ⟨p.id.group, Tables.mem_group_ofPatterns.2 ⟨hp, rfl⟩⟩
  exact Tables.not_spells_of_ofSource htables n ⟨p, hanswers, q, hq, hn⟩

/-- A pattern that spells out no numbers reads the same in two runs. -/
theorem Pattern.Unspelled.spellsAlike {c : SideBySide} {p : Pattern} (h : p.Unspelled) :
    c.SpellsAlike p :=
  List.map_congr_left fun q hq => Part.renameTemps_congr q fun n hn => (h q hq n hn).elim

namespace Match

/-- What holds of all patterns with a property holds of those that a match is made with. -/
theorem MadeWith.imp {P Q : Pattern → Prop} {m : Match} (hPQ : ∀ p, P p → Q p)
    (h : m.MadeWith P) : m.MadeWith Q := by
  induction h with
  | intro pattern _ ih => exact .intro (hPQ _ pattern) ih

variable {b : Block} {ms ms' : List Match}

/-- The tiles that matches become, one match after the other. -/
def tiles (b : Block) (ms : List Match) (s : Session) : List Tile :=
  (instantiationsOfAll b ms s).1.map Instantiation.toTile

/-- The session behind them. -/
def after (b : Block) (ms : List Match) (s : Session) : Session := (instantiationsOfAll b ms s).2

/-- The tiles of several matches are those of the first, and then those of the others from the
session that the first leaves behind. -/
theorem tiles_cons (m : Match) (ms : List Match) (s : Session) :
    tiles b (m :: ms) s = tiles b [m] s ++ tiles b ms (after b [m] s) := by
  simp only [tiles, after, instantiationsOfAll, List.map_append, List.append_nil]

/-- The session behind several matches is reached through the one behind the first. -/
theorem after_cons (m : Match) (ms : List Match) (s : Session) :
    after b (m :: ms) s = after b ms (after b [m] s) := by
  simp only [after, instantiationsOfAll]

theorem allocated_le_after (ms : List Match) (s : Session) :
    s.allocated ≤ (after b ms s).allocated :=
  (chained_combinationsOfAll b ms s).le

/-- The tiles of compiled matches carry temporaries that were allocated for them, and no others:
between the count in front and the count behind. -/
theorem issues_of_mem_tiles (hms : ∀ m ∈ ms, m.MadeWith Pattern.Unspelled) {s : Session}
    {tile : Tile} (htile : tile ∈ tiles b ms s) {n : Nat} (hn : tile.Carries n) :
    Session.Issues s.allocated (after b ms s).allocated n := by
  obtain ⟨i, hi, rfl⟩ := List.mem_map.1 htile
  have hissued := (becomes_of_instantiationsOfAll ms s i hi).issues
    (chained_combinationsOfAll b ms s) (sound_combinationsOfAll ms s hms)
    (Instantiation.carries_iff.2 (.inl hn))
  exact hissued.resolve_left id

/-- **From another count, the same tiles come with other numbers,** and as many are allocated. The
numbers issued from one count correspond to those issued from the other one by one, and no other
numbers are in the tiles. -/
theorem tiles_shifted (hms : ∀ m ∈ ms, m.MadeWith Pattern.Unspelled) (s s' : Session) :
    tiles b ms s'
        = (tiles b ms s).map (Tile.renameTemps (Session.recount s.allocated s'.allocated))
      ∧ ∃ k, (after b ms s).allocated = s.allocated + k
        ∧ (after b ms s').allocated = s'.allocated + k := by
  obtain ⟨hsame, hcount⟩ := @alike_instantiationsOfAll (.shifted s s') b ms s s'
    (fun m hm => (hms m hm).imp fun _ => Pattern.Unspelled.spellsAlike) SideBySide.abreast_start
  refine ⟨?_, hcount⟩
  have htiles := congrArg (List.map Instantiation.toTile) hsame
  simp only [List.map_map, Function.comp_def, Instantiation.toTile_renameTemps] at htiles
  simpa only [SideBySide.shifted, Tile.renameTemps_id, tiles, List.map_map, Function.comp_def]
    using htiles.symm

/-! ## More matches -/

/-- Among the tiles of more matches are those there were, each with other temporaries. The induction
is on which matches were there; whatever the session, each match gets its tiles. -/
theorem sublistForall₂_tiles (h : ms.Sublist ms')
    (hms : ∀ m ∈ ms, m.MadeWith Pattern.Unspelled) (s s' : Session) :
    (tiles b ms s).SublistForall₂ Tile.RenamesTo (tiles b ms' s') := by
  induction h generalizing s s' with
  | slnil => exact .nil
  | @cons ms ms' m _ ih =>
    obtain ⟨l, hl, hsub⟩ := List.sublistForall₂_iff.1 (ih hms s (after b [m] s'))
    rw [tiles_cons m ms' s']
    exact List.sublistForall₂_iff.2 ⟨l, hl, hsub.trans (List.sublist_append_right _ _)⟩
  | @cons_cons ms ms' m _ ih =>
    obtain ⟨hm, hrest⟩ := List.forall_mem_cons.1 hms
    obtain ⟨l, hl, hsub⟩ := List.sublistForall₂_iff.1
      (ih hrest (after b [m] s) (after b [m] s'))
    -- The match was there: its tiles are counted on from another start.
    have hfirst : List.Forall₂ Tile.RenamesTo (tiles b [m] s) (tiles b [m] s') := by
      rw [(tiles_shifted (List.forall_mem_singleton.2 hm) s s').1]
      exact List.forall₂_map_right_iff.2 (List.forall₂_same.2 fun tile _ =>
        ⟨_, Session.recount_injective _ _, rfl⟩)
    rw [tiles_cons m ms s, tiles_cons m ms' s']
    exact List.sublistForall₂_iff.2
      ⟨tiles b [m] s' ++ l, List.rel_append hfirst hl, hsub.append_left _⟩

/-- **As long as the count does not wrap, one renaming does for all tiles.** The renaming is put
together along the matches: those there were shift their stretch of the count, and the others make
the next shift larger. Anything that agrees with it from the start on does as well, which is how the
stretches are joined. -/
theorem exists_renaming (h : ms.Sublist ms') (hms : ∀ m ∈ ms, m.MadeWith Pattern.Unspelled)
    {s s' : Session} (hle : s.allocated ≤ s'.allocated)
    (hfew : (after b ms' s').allocated ≤ UInt32.size) :
    ∃ ρ, StrictMono ρ ∧ s'.allocated ≤ ρ s.allocated ∧
      ∀ σ : Nat → Nat, (∀ n, s.allocated ≤ n → σ n = ρ n) →
        ((tiles b ms s).map (Tile.renameTemps σ)).Sublist (tiles b ms' s') := by
  have hshift : ∀ d, StrictMono fun n => n + d := fun d n n' hn => Nat.add_lt_add_right hn d
  induction h generalizing s s' with
  | slnil =>
    refine ⟨fun n => n + (s'.allocated - s.allocated), hshift _, ?_, fun σ _ => List.nil_sublist _⟩
    dsimp only
    omega
  | @cons ms ms' m _ ih =>
    have hmore := allocated_le_after (b := b) [m] s'
    rw [after_cons m ms' s'] at hfew
    obtain ⟨ρ, hmono, hstart, htiles⟩ := ih hms (hle.trans hmore) hfew
    refine ⟨ρ, hmono, hmore.trans hstart, fun σ hσ => ?_⟩
    rw [tiles_cons m ms' s']
    exact (htiles σ hσ).trans (List.sublist_append_right _ _)
  | @cons_cons ms ms' m _ ih =>
    obtain ⟨hm, hrest⟩ := List.forall_mem_cons.1 hms
    obtain ⟨hfirst, k, hk, hk'⟩ :=
      tiles_shifted (b := b) (List.forall_mem_singleton.2 hm) s s'
    rw [after_cons m ms' s'] at hfew
    have hend := allocated_le_after (b := b) ms' (after b [m] s')
    have hlater : (after b [m] s).allocated ≤ (after b [m] s').allocated := by omega
    obtain ⟨ρ, hmono, hstart, htiles⟩ := ih hrest hlater hfew
    -- The stretch of this match is shifted, and the renaming of the rest starts behind it.
    have hmid : (after b [m] s).allocated + (s'.allocated - s.allocated)
        ≤ ρ (after b [m] s).allocated := by omega
    refine ⟨Session.joinAt (after b [m] s).allocated (· + (s'.allocated - s.allocated)) ρ,
      Session.strictMono_joinAt (hshift _) hmono hmid, ?_, fun σ hσ => ?_⟩
    · by_cases hany : s.allocated < (after b [m] s).allocated
      · rw [Session.joinAt_of_lt hany]
        omega
      · have hnone : s.allocated = (after b [m] s).allocated := by omega
        rw [Session.joinAt_of_le (by omega), hnone]
        omega
    · -- The tiles of the first match carry numbers of its stretch only, where the renaming is a
      -- shift.
      have hhead : (tiles b [m] s).map (Tile.renameTemps σ) = tiles b [m] s' := by
        rw [hfirst]
        refine List.map_congr_left fun tile htile => Tile.renameTemps_congr fun n hn => ?_
        obtain ⟨j, hj, hj', rfl⟩ :=
          issues_of_mem_tiles (List.forall_mem_singleton.2 hm) htile hn
        have hnumber : Session.tempNumber j = j := Nat.mod_eq_of_lt (by omega)
        rw [hnumber, hσ j hj, Session.joinAt_of_lt hj', Session.recount_of_lt hle (by omega)]
      rw [tiles_cons m ms s, tiles_cons m ms' s', List.map_append, hhead]
      refine (htiles σ fun n hn => ?_).append_left _
      rw [hσ n (by omega), Session.joinAt_of_le hn]

end Match

/-! ## Nodes -/

namespace Tables

variable {ps qs : List Pattern} {b : Block} {id : NodeId}

/-- **The tiles of a node, with and without the added patterns:** the same fixed lowerings, and then
those of the matches there were or of more. All this is said of one list of tiles, before any of
them is refused. -/
theorem everyTile_append (h : Pattern.Extends ps qs) (hunspelled : ∀ p ∈ ps, p.Unspelled)
    (hb : b.OperandsInRange) (hid : id < b.size)
    (hterm : (ofPatterns (ps ++ qs)).Terminates b id) :
    ∃ fixed ms ms', (∀ tile ∈ fixed, ∀ n, ¬ Tile.Carries tile n) ∧ ms.Sublist ms'
      ∧ (∀ m ∈ ms, m.MadeWith Pattern.Unspelled)
      ∧ ∀ s, (ofPatterns ps).everyTile b id s
          = .ok (fixed ++ Match.tiles b ms s, Match.after b ms s)
        ∧ (ofPatterns (ps ++ qs)).everyTile b id s
          = .ok (fixed ++ Match.tiles b ms' s, Match.after b ms' s) := by
  obtain ⟨n, fixed, stored, ms, hn, hfixed, hstored, hms, hevery⟩ :=
    everyTile_eq hb hid (hterm.of_append h)
  obtain ⟨n', fixed', stored', ms', hn', hfixed', hstored', hms', hevery'⟩ :=
    everyTile_eq hb hid hterm
  rw [hn, Option.some.injEq] at hn'
  subst hn'
  rw [hstored, Except.ok.injEq] at hstored'
  subst hstored'
  rw [hfixed, Except.ok.injEq] at hfixed'
  subst hfixed'
  have hmem : ∀ p ∈ (ofPatterns ps).candidates n.op stored, p ∈ ps :=
    fun p hp => (mem_candidates_ofPatterns hp).1
  -- Matching the candidates that were there gives the matches there were.
  obtain ⟨ms₁, hms₁, hsub⟩ := exists_filterMapM_sublist
    (candidates_sublist_append ps qs n.op stored)
    (fun p hp o => matchAt_of_append h (hmem p hp)) hms'
  rw [hms, Except.ok.injEq] at hms₁
  subst hms₁
  -- Fixed lowerings have no temporaries, and all matches are made with compiled patterns.
  refine ⟨fixed.getD [], ms, ms', fun tile htile k hk => ?_, hsub, fun m hm => ?_,
    fun s => ⟨hevery s, hevery' s⟩⟩
  · cases fixed with
    | none => cases htile
    | some lowered =>
      obtain ⟨p, hp, hk⟩ := hk
      exact (Block.areLowered_of_lower hfixed tile htile p hp).tempsIn k hk
  · obtain ⟨p, hp, hmatch⟩ := (mem_of_filterMapM hms m).1 hm
    refine Pattern.madeWith_of_matchWith (madeWith_alternatives (fun g q hq => ?_) _)
      (hunspelled p (hmem p hp)) hmatch
    exact hunspelled q (mem_group_ofPatterns.1 hq).1

end Tables

namespace Selector

variable {ps qs : List Pattern} {b : Block} {id : NodeId}

/-- Without a limit and with duplicates, a node has all its tiles that may be emitted. -/
def unlimited : Settings := ⟨none, false⟩

/-- **A node keeps its tiles when patterns are added**, with other temporaries. The verdict on a
tile is the same whatever its temporaries, so the tiles that may be emitted are again among those
that may. -/
theorem selectNode_append (h : Pattern.Extends ps qs) (hunspelled : ∀ p ∈ ps, p.Unspelled)
    (hb : b.OperandsInRange) (hid : id < b.size)
    (hterm : (Tables.ofPatterns (ps ++ qs)).Terminates b id) (s : Session) :
    ∃ tiles s₁ tiles' s₁',
      selectNode ⟨.ofPatterns ps, unlimited⟩ b id s = .ok (tiles, s₁)
      ∧ selectNode ⟨.ofPatterns (ps ++ qs), unlimited⟩ b id s = .ok (tiles', s₁')
      ∧ tiles.SublistForall₂ Tile.RenamesTo tiles'
      ∧ (s₁'.allocated ≤ UInt32.size → ∃ ρ : Nat → Nat, Function.Injective ρ
          ∧ (tiles.map (Tile.renameTemps ρ)).Sublist tiles') := by
  obtain ⟨fixed, ms, ms', hfixed, hsub, hms, hevery⟩ :=
    Tables.everyTile_append h hunspelled hb hid hterm
  -- Fixed lowerings carry no temporaries, and no renaming changes them.
  have hunchanged (ρ : Nat → Nat) : ∀ tile ∈ fixed, tile.renameTemps ρ = tile := fun tile htile =>
    (Tile.renameTemps_congr fun n hn => absurd hn (hfixed tile htile n)).trans
      (Tile.renameTemps_id tile)
  obtain ⟨before, s₂, s₁, hbefore, hselect, -⟩ :=
    selectNode_inStep (s := s) hb hid (hterm.of_append h) unlimited
  obtain ⟨behind, s₂', s₁', hbehind, hselect', hcount⟩ :=
    selectNode_inStep (s := s) hb hid hterm unlimited
  rw [(hevery s).1] at hbefore
  cases hbefore
  rw [(hevery s).2] at hbehind
  cases hbehind
  refine ⟨_, s₁, _, s₁', hselect, hselect', ?_, fun hfew => ?_⟩
  · obtain ⟨l, hl, hrest⟩ :=
      List.sublistForall₂_iff.1 (Match.sublistForall₂_tiles (b := b) hsub hms s s)
    have hself : List.Forall₂ Tile.RenamesTo fixed fixed :=
      List.forall₂_same.2 fun tile htile =>
        ⟨fun n => n, fun _ _ heq => heq, (hunchanged _ tile htile).symm⟩
    refine List.sublistForall₂_iff.2 ⟨(fixed ++ l).filter b.accepts, ?_,
      (hrest.append_left fixed).filter _⟩
    refine List.rel_filter (fun t u htu => ?_) (List.rel_append hself hl)
    exact Bool.eq_iff_iff.1 (htu.accepts b)
  · rw [hcount rfl] at hfew
    obtain ⟨ρ, hmono, -, htiles⟩ := Match.exists_renaming hsub hms (Nat.le_refl _) hfew
    refine ⟨ρ, hmono.injective, ?_⟩
    have hrename : (fixed ++ Match.tiles b ms s).map (Tile.renameTemps ρ)
        = fixed ++ (Match.tiles b ms s).map (Tile.renameTemps ρ) := by
      rw [List.map_append, List.map_congr_left (hunchanged ρ), List.map_id']
    have haccepts : b.accepts ∘ Tile.renameTemps ρ = b.accepts :=
      funext fun tile => b.accepts_renameTemps tile
    -- Renaming and asking for the verdict can be exchanged.
    have hfilter : ((fixed ++ Match.tiles b ms s).filter b.accepts).map (Tile.renameTemps ρ)
        = (fixed ++ (Match.tiles b ms s).map (Tile.renameTemps ρ)).filter b.accepts := by
      rw [← hrename, List.filter_map, haccepts]
    have hsublist := (htiles ρ fun _ _ => rfl).append_left fixed
    exact hfilter ▸ hsublist.filter b.accepts

/-! ## Blocks -/

/-- A node gets a tile if it is covered, whatever the settings. -/
theorem isEmpty_of_selectNode {t : Tables} {settings : Settings} {s s' : Session}
    {tiles : List Tile} (hb : b.OperandsInRange) (hid : id < b.size) (hterm : t.Terminates b id)
    (h : selectNode ⟨t, settings⟩ b id s = .ok (tiles, s')) : tiles.isEmpty = !t.covers b id := by
  obtain ⟨every, s₁, s₂, hevery, hselect⟩ := selectNode_eq_keep hb hid hterm settings
  rw [hselect] at h
  cases h
  rw [isEmpty_keep, Tables.any_accepts_everyTile hb hid hterm hevery]

/-- A node that has a tile still has one. Coverage can be read off the tiles without a limit, and
with more patterns there are more of these. -/
theorem covers_append (h : Pattern.Extends ps qs) (hunspelled : ∀ p ∈ ps, p.Unspelled)
    (hb : b.OperandsInRange) (hid : id < b.size)
    (hterm : (Tables.ofPatterns (ps ++ qs)).Terminates b id)
    (hcovers : (Tables.ofPatterns ps).covers b id = true) :
    (Tables.ofPatterns (ps ++ qs)).covers b id = true := by
  obtain ⟨tiles, s₁, tiles', s₁', hselect, hselect', hsub, -⟩ :=
    selectNode_append h hunspelled hb hid hterm .start
  -- A node is covered exactly if its list of tiles without a limit is not empty, for both tables.
  have hempty := isEmpty_of_selectNode hb hid (hterm.of_append h) hselect
  have hempty' := isEmpty_of_selectNode hb hid hterm hselect'
  rw [hcovers] at hempty
  cases hsub with
  | nil => cases hempty
  | cons | cons_right =>
    rw [List.isEmpty_cons] at hempty'
    simpa using hempty'.symm

/-- A block has tiles for all its nodes exactly if every node is covered. Coverage does not depend
on the settings, nor on what was selected for the nodes before, so neither does this. -/
theorem selectBlock_isOk_iff {t : Tables} {settings : Settings} (hb : b.OperandsInRange)
    (hterm : ∀ id, id < b.size → t.Terminates b id) :
    (∃ lists s, selectBlock ⟨t, settings⟩ b = .ok (.ok lists, s))
      ↔ ∀ id, id < b.size → t.covers b id = true := by
  have hids : ∀ id ∈ b.ids, id < b.size ∧ t.Terminates b id := fun id hid =>
    ⟨List.mem_range.1 hid, hterm id (List.mem_range.1 hid)⟩
  obtain ⟨outcome, s, hselect, houtcome⟩ := selectNodes_eq hb settings b.ids hids .start
  rw [selectBlock, hselect]
  -- Selection stops at the first node that is not covered, and succeeds if there is none.
  cases hfind : b.ids.find? fun id => !t.covers b id with
  | none =>
    rw [hfind] at houtcome
    obtain ⟨lists, rfl, -⟩ := houtcome
    refine iff_of_true ⟨lists, s, rfl⟩ fun id hid => ?_
    have hcovered := List.find?_eq_none.1 hfind id (List.mem_range.2 hid)
    simpa using hcovered
  | some id =>
    rw [hfind] at houtcome
    obtain ⟨n, -, rfl⟩ := houtcome
    refine iff_of_false (fun ⟨lists, s', h⟩ => by cases h) fun hall => ?_
    have hnot := List.find?_some hfind
    rw [hall id (List.mem_range.1 (List.mem_of_find?_eq_some hfind))] at hnot
    cases hnot

/-- **Adding a group of patterns takes no tile away.** Take all patterns of a document, in any
order, and put patterns of other groups behind them. At a node where matching ends, the tiles there
were are among the new ones, in order, each with its temporaries renamed; and as long as no number
of a temporary comes back, it is one renaming for all of them. A block that is covered stays
covered, whatever the settings. -/
theorem selectNode_extended {source : String} {compiled ps qs : List Pattern}
    (hsource : patternsOf? source.toList = some compiled) (hps : ps.Perm compiled)
    (hqs : ∀ q ∈ qs, q.id.group ∉ ps.map fun p => p.id.group) {b : Block}
    (hb : b.OperandsInRange) :
    (∀ id s, id < b.size → (Tables.ofPatterns (ps ++ qs)).Terminates b id →
      ∃ tiles s₁ tiles' s₁',
        selectNode ⟨.ofPatterns ps, unlimited⟩ b id s = .ok (tiles, s₁)
        ∧ selectNode ⟨.ofPatterns (ps ++ qs), unlimited⟩ b id s = .ok (tiles', s₁')
        ∧ tiles.SublistForall₂ Tile.RenamesTo tiles'
        ∧ (s₁'.allocated ≤ UInt32.size → ∃ ρ : Nat → Nat, Function.Injective ρ
            ∧ (tiles.map (Tile.renameTemps ρ)).Sublist tiles'))
    ∧ ((∀ id, id < b.size → (Tables.ofPatterns (ps ++ qs)).Terminates b id) →
      ∀ settings settings' : Settings,
        (∃ lists s, selectBlock ⟨.ofPatterns ps, settings⟩ b = .ok (.ok lists, s)) →
        ∃ lists s, selectBlock ⟨.ofPatterns (ps ++ qs), settings'⟩ b = .ok (.ok lists, s)) := by
  have hextends : Pattern.Extends ps qs :=
    ⟨(Pattern.includedPresent_of_patternsOf? hsource).perm hps, hqs⟩
  have hunspelled : ∀ p ∈ ps, p.Unspelled := fun p hp =>
    Pattern.unspelled_of_patternsOf? hsource (hps.mem_iff.1 hp)
  constructor
  · intro id s hid hterm
    exact selectNode_append hextends hunspelled hb hid hterm s
  · intro hterm settings settings' hcovered
    have hbefore := (selectBlock_isOk_iff hb fun id hid => (hterm id hid).of_append hextends).1
      hcovered
    exact (selectBlock_isOk_iff hb hterm).2 fun id hid =>
      covers_append hextends hunspelled hb hid (hterm id hid) (hbefore id hid)

/-- Stores of a sum, which is worked out in a temporary, and sums. -/
def keeping : String :=
  "keep: (STORE (<p> LOCAL) (ADD (<x> LOCAL) (<y> LOCAL))) ->
     [MOV <tmp>, <x>] [ADD <tmp>, <y>] [MOV [<p>], <tmp>];
   sum: (ADD (<x> LOCAL) (<y> LOCAL)) -> [MOV <out>, <x>] [ADD <out>, <y>];"

/-- Stores of anything, by way of a temporary. -/
def spare : List Pattern :=
  [⟨⟨"spare", 0⟩, .node none none .store [.producer (some "p") none, .producer (some "v") none],
    [.plain "MOV" [.reference ["tmp"] none none, .reference ["v"] none none],
     .plain "MOV" [.memory (.ofBase (.reference ["p"] none none)),
       .reference ["tmp"] none none]]⟩]

/-- A run for the store of a sum: the numbers that each tile is written with, and the count. -/
def storeRun (ps : List Pattern) : Option (List (List Nat) × Nat) :=
  match selectNode ⟨.ofPatterns ps, unlimited⟩ Tables.storing 2 .start with
  | .ok (tiles, s) => some (tiles.map fun t => t.parts.flatMap Part.temps, s.allocated)
  | .error _ => none

/-- Whether matching ends at every node of that block. -/
def storeEnds (ps : List Pattern) : Bool :=
  Tables.storing.ids.all fun id =>
    ((Tables.ofPatterns ps).candidatesAt Tables.storing id).toOption.any fun candidates =>
      candidates.all fun p => ((Tables.ofPatterns ps).matchAt Tables.storing id p).isOk

theorem terminates_of_storeEnds {ps : List Pattern} (h : storeEnds ps = true) {id : NodeId}
    (hid : id < Tables.storing.size) : (Tables.ofPatterns ps).Terminates Tables.storing id := by
  intro candidates hcandidates p hp
  have hends := List.all_eq_true.1 h id (List.mem_range.2 hid)
  rw [hcandidates] at hends
  have hmatch := List.all_eq_true.1 hends p hp
  cases hanswer : (Tables.ofPatterns ps).matchAt Tables.storing id p with
  | ok o => exact ⟨o, rfl⟩
  | error e =>
    rw [hanswer] at hmatch
    cases hmatch

/-- What the sample shows about the patterns of the document. -/
def showsKeeping (ps : List Pattern) : Bool :=
  ps.map (fun p => p.id.group) == ["keep", "sum"] && storeEnds (ps ++ spare)
    && storeRun ps == some ([[0, 0, 0]], 1)
    && storeRun (ps ++ spare) == some ([[0, 0], [1, 1, 1]], 2)
    && (selectBlock ⟨.ofPatterns ps, .default⟩ Tables.storing).toOption.any fun r => r.1.isOk

theorem patternsOf?_of_check {s : String} {text : List Char} {check : List Pattern → Bool}
    (h : s = String.ofList text) (hcheck : (patternsOf? text).any check = true) :
    ∃ ps, patternsOf? s.toList = some ps ∧ check ps = true := by
  rw [h, String.toList_ofList]
  exact (Option.any_eq_true ..).1 hcheck

set_option maxRecDepth 10000 in
/-- The spare store comes before the one of a sum, and takes the first number. -/
theorem exists_keeping : ∃ ps, patternsOf? keeping.toList = some ps ∧ showsKeeping ps = true :=
  @patternsOf?_of_check keeping _ _ rfl (by decide +kernel)

/-- The store of a sum is written with the temporary 1 instead of 0: the added patterns come first
and take one for a tile of theirs. Up to this number the tile is the same. -/
theorem selectNode_extended_keeping :
    ∃ compiled, patternsOf? keeping.toList = some compiled
      ∧ (∀ q ∈ spare, q.id.group ∉ compiled.map fun p => p.id.group)
      ∧ Tables.storing.OperandsInRange
      ∧ (∀ id, id < Tables.storing.size →
          (Tables.ofPatterns (compiled ++ spare)).Terminates Tables.storing id)
      ∧ (∃ tiles s₁ tiles' s₁' ρ,
          selectNode ⟨.ofPatterns compiled, unlimited⟩ Tables.storing 2 .start = .ok (tiles, s₁)
          ∧ selectNode ⟨.ofPatterns (compiled ++ spare), unlimited⟩ Tables.storing 2 .start
              = .ok (tiles', s₁')
          ∧ s₁'.allocated ≤ UInt32.size ∧ tiles.SublistForall₂ Tile.RenamesTo tiles'
          ∧ Function.Injective ρ ∧ (tiles.map (Tile.renameTemps ρ)).Sublist tiles'
          ∧ ¬ tiles.Sublist tiles')
      ∧ ∃ lists s, selectBlock ⟨.ofPatterns (compiled ++ spare), .default⟩ Tables.storing
          = .ok (.ok lists, s) := by
  obtain ⟨ps, hps, hshows⟩ := exists_keeping
  simp only [showsKeeping, Bool.and_eq_true, beq_iff_eq] at hshows
  obtain ⟨⟨⟨⟨hgroups, hends⟩, hbefore⟩, hbehind⟩, hcovered⟩ := hshows
  have hother : ∀ q ∈ spare, q.id.group ∉ ps.map fun p => p.id.group := by
    rw [hgroups]
    decide
  have hrange : Tables.storing.OperandsInRange := (Block.Ordered.inRange (by decide)).operands
  have hterm : ∀ id, id < Tables.storing.size →
      (Tables.ofPatterns (ps ++ spare)).Terminates Tables.storing id :=
    fun id hid => terminates_of_storeEnds hends hid
  obtain ⟨hnodes, hblocks⟩ := selectNode_extended hps (List.Perm.refl ps) hother hrange
  refine ⟨ps, hps, hother, hrange, hterm, ?_, hblocks hterm .default .default ?_⟩
  · obtain ⟨tiles, s₁, tiles', s₁', hselect, hselect', hsub, hrename⟩ :=
      hnodes 2 .start (by decide) (hterm 2 (by decide))
    simp only [storeRun, hselect, Option.some.injEq, Prod.mk.injEq] at hbefore
    simp only [storeRun, hselect', Option.some.injEq, Prod.mk.injEq] at hbehind
    have hfew : s₁'.allocated ≤ UInt32.size := by
      rw [hbehind.2]
      decide
    obtain ⟨ρ, hinjective, htiles⟩ := hrename hfew
    refine ⟨tiles, s₁, tiles', s₁', ρ, hselect, hselect', hfew, hsub, hinjective, htiles,
      fun hsame => ?_⟩
    -- Were the tiles the same without renaming, their temporaries would be as well; those are 0 and
    -- 1.
    have hnumbers := hsame.map fun t : Tile => t.parts.flatMap Part.temps
    rw [hbefore.1, hbehind.1] at hnumbers
    revert hnumbers
    decide
  · cases hrun : selectBlock ⟨.ofPatterns ps, .default⟩ Tables.storing with
    | error e =>
      rw [hrun] at hcovered
      cases hcovered
    | ok result =>
      obtain ⟨outcome, s⟩ := result
      rw [hrun] at hcovered
      cases outcome with
      | error e => cases hcovered
      | ok lists => exact ⟨lists, s, rfl⟩

end Selector

end TileSelect
