import TileSelect.Proofs.Expansion.Numbering
import TileSelect.Proofs.Selection.Candidates
import TileSelect.Proofs.Selection.Outcomes
/-!
Selection as a plain pipeline.

Selection stops as soon as it has enough tiles, at three places: before a candidate is matched,
before an instantiation is offered, and when a tile is offered. What it keeps is the same as if
everything had been worked out first and then sorted through: all tiles, less those that may not
be emitted, less duplicates, cut at the limit. This module says so, with the list of all tiles and
the sorting as definitions of their own.

The two runs are compared step by step. As long as there is room for a tile they have allocated the
same temporaries, although their logs differ; from the moment there is none, the counts may
differ, but then nothing that comes can be kept. That is the invariant, `Settings.InStep`.

For a whole block the counts at a node do depend on the settings, so the tiles of later nodes
differ in the numbers of their temporaries. Whether a node has a tile does not, as no verdict looks
at those numbers. So a block fails or not, and at which node, whatever the settings are.
-/

set_option autoImplicit false

namespace TileSelect

/-! ## The pipeline -/

/-- Whether the validator accepts a tile. -/
def Block.accepts (b : Block) (t : Tile) : Bool :=
  match b.validate t with
  | .ok none => true
  | _ => false

namespace Tables

/-- The candidates at a node. -/
def candidatesAt (t : Tables) (b : Block) (id : NodeId) : Except Fault (List Pattern) := do
  let n ← b.node id
  let stored ← Selector.storedOp b n
  return t.candidates n.op stored

/-- Every tile that is made for a node: the fixed lowerings and then, match by match, all
instantiations. -/
def everyTile (t : Tables) (b : Block) (id : NodeId) (s : Session) :
    Except Fault (List Tile × Session) := do
  let fixed ← b.lower id
  let candidates ← t.candidatesAt b id
  let ms ← candidates.filterMapM (t.matchAt b id)
  let (is, s) := Match.instantiationsOfAll b ms s
  return (fixed.getD [] ++ is.map Instantiation.toTile, s)

/-- Matching ends at a node, with every candidate. -/
def Terminates (t : Tables) (b : Block) (id : NodeId) : Prop :=
  ∀ candidates, t.candidatesAt b id = .ok candidates →
    ∀ p ∈ candidates, ∃ o, t.matchAt b id p = .ok o

/-- Whether some tile of a node may be emitted. -/
def covers (t : Tables) (b : Block) (id : NodeId) : Bool :=
  match t.everyTile b id .start with
  | .ok (tiles, _) => tiles.any b.accepts
  | .error _ => false

end Tables

/-- Whether two tiles do the same does not depend on their order. -/
theorem Tile.sameLowering_comm (t u : Tile) : t.sameLowering u = u.sameLowering t := by
  have hparts : (t.parts == u.parts) = (u.parts == t.parts) := BEq.comm
  have hcovered : (t.covered == u.covered) = (u.covered == t.covered) := BEq.comm
  have hinputs : (t.inputs == u.inputs) = (u.inputs == t.inputs) := BEq.comm
  rw [sameLowering, sameLowering, hparts, hcovered, hinputs]

namespace Settings

/-- The tiles less those that do the same as one before them, if duplicates are dropped. -/
def distinct (settings : Settings) (tiles : List Tile) : List Tile :=
  if settings.dedup then tiles.eraseDupsBy Tile.sameLowering else tiles

/-- What is kept of tiles that may be emitted: the distinct ones, up to the limit. -/
def keep (settings : Settings) (tiles : List Tile) : List Tile :=
  match settings.maxTiles with
  | some limit => (settings.distinct tiles).take (max limit 1)
  | none => settings.distinct tiles

/-! ## Keeping one after the other -/

variable {settings : Settings} {b : Block} {kept : List Tile} {tile : Tile} {tiles : List Tile}

/-- Adds a tile to those kept, the latest first, unless it is a duplicate. -/
def addDistinct (settings : Settings) (kept : List Tile) (tile : Tile) : List Tile :=
  if settings.dedup && kept.any (·.sameLowering tile) then kept else tile :: kept

/-- Adds a tile to those kept, if there is room and it may be emitted. -/
def keepOne (settings : Settings) (b : Block) (kept : List Tile) (tile : Tile) : List Tile :=
  if settings.isFull kept.length then kept
  else if b.accepts tile then settings.addDistinct kept tile else kept

theorem keepOne_of_full (h : settings.isFull kept.length = true) :
    settings.keepOne b kept tile = kept :=
  if_pos h

/-- When there is no room, nothing more is kept, however many tiles follow. -/
theorem foldl_keepOne_of_full (h : settings.isFull kept.length = true) :
    tiles.foldl (settings.keepOne b) kept = kept := by
  induction tiles with
  | nil => rfl
  | cons tile tiles ih => rw [List.foldl_cons, keepOne_of_full h, ih]

/-- Tiles that were kept stay, at the end: what is added later goes in front of them. -/
theorem exists_foldl_addDistinct (tiles kept : List Tile) :
    ∃ more, tiles.foldl settings.addDistinct kept = more ++ kept := by
  induction tiles generalizing kept with
  | nil => exact ⟨[], rfl⟩
  | cons tile tiles ih =>
    rw [List.foldl_cons, addDistinct]
    split
    · exact ih kept
    · obtain ⟨more, hmore⟩ := ih (tile :: kept)
      exact ⟨more ++ [tile], by rw [hmore, List.append_assoc, List.singleton_append]⟩

/-- Tiles that are added one by one, each unless it is a duplicate, are the distinct ones. The
induction is on the tiles from the last to the first. -/
theorem reverse_foldl_addDistinct (tiles : List Tile) :
    (tiles.foldl settings.addDistinct []).reverse = settings.distinct tiles := by
  rw [distinct]
  split
  · rename_i hdedup
    -- Dropping duplicates is a walk that holds what it has kept, as `addDistinct` does.
    have hwalk : ∀ kept, List.eraseDupsBy.loop Tile.sameLowering tiles kept
        = (tiles.foldl settings.addDistinct kept).reverse := by
      induction tiles with
      | nil => exact fun kept => rfl
      | cons tile tiles ih =>
        intro kept
        have hany : kept.any (tile.sameLowering ·) = kept.any (·.sameLowering tile) := by
          simp only [Tile.sameLowering_comm tile]
        rw [List.eraseDupsBy.loop, List.foldl_cons, addDistinct, hdedup, Bool.true_and, hany]
        cases kept.any (·.sameLowering tile) with
        | true => exact ih kept
        | false => exact ih (tile :: kept)
    exact (hwalk []).symm
  · rename_i hdedup
    have hwalk : ∀ kept, tiles.foldl settings.addDistinct kept = tiles.reverse ++ kept := by
      induction tiles with
      | nil => exact fun kept => rfl
      | cons tile tiles ih =>
        intro kept
        have hadd : settings.addDistinct kept tile = tile :: kept := by
          simp [addDistinct, hdedup]
        rw [List.foldl_cons, hadd, ih, List.reverse_cons, List.append_assoc, List.singleton_append]
    rw [hwalk, List.append_nil, List.reverse_reverse]

/-- Keeping with a limit cuts what would be kept without one: until the limit is reached the two
agree, and then the one stands still while the other only adds at the end. -/
theorem reverse_foldl_keepOne {limit : Nat} (hlimit : settings.maxTiles = some limit)
    (hkept : kept.length ≤ max limit 1) :
    (tiles.foldl (settings.keepOne b) kept).reverse
      = ((tiles.filter b.accepts).foldl settings.addDistinct kept).reverse.take (max limit 1) := by
  have hfull : ∀ count, settings.isFull count = decide (max limit 1 ≤ count) := by
    intro count
    rw [isFull, hlimit]
  induction tiles generalizing kept with
  | nil =>
    have hlen : kept.reverse.length ≤ max limit 1 := by
      rw [List.length_reverse]
      exact hkept
    exact (List.take_of_length_le hlen).symm
  | cons tile tiles ih =>
    by_cases hroom : max limit 1 ≤ kept.length
    · -- There is no room: what is kept is the beginning of what would be kept.
      have hisFull : settings.isFull kept.length = true := by
        rw [hfull]
        exact decide_eq_true hroom
      obtain ⟨more, hmore⟩ :=
        @exists_foldl_addDistinct settings ((tile :: tiles).filter b.accepts) kept
      have hlen : kept.reverse.length = max limit 1 := by
        rw [List.length_reverse]
        omega
      rw [foldl_keepOne_of_full hisFull, hmore, List.reverse_append, ← hlen, List.take_left]
    · have hnotFull : ¬ settings.isFull kept.length = true := by
        rw [hfull]
        simpa using hroom
      rw [List.foldl_cons, keepOne, if_neg hnotFull, List.filter_cons]
      by_cases haccepts : b.accepts tile = true
      · rw [if_pos haccepts, if_pos haccepts, List.foldl_cons]
        refine ih ?_
        rw [addDistinct]
        split
        · exact hkept
        · rw [List.length_cons]
          omega
      · rw [if_neg haccepts, if_neg haccepts]
        exact ih hkept

/-- **Keeping one after the other is the pipeline.** With a limit, tiles are no longer looked at
once there are enough; the pipeline looks at all of them and cuts afterwards. -/
theorem reverse_foldl_eq_keep (tiles : List Tile) :
    (tiles.foldl (settings.keepOne b) []).reverse = settings.keep (tiles.filter b.accepts) := by
  rw [keep]
  -- With a limit, the fold stops at it as the cut does. Without one there is always room.
  cases hlimit : settings.maxTiles with
  | some limit =>
    rw [reverse_foldl_keepOne hlimit (Nat.zero_le _), reverse_foldl_addDistinct]
  | none =>
    have hone : settings.keepOne b
        = fun kept tile => if b.accepts tile then settings.addDistinct kept tile else kept := by
      funext kept tile
      have hnotFull : ¬ settings.isFull kept.length = true := by simp [isFull, hlimit]
      rw [keepOne, if_neg hnotFull]
    rw [hone, ← List.foldl_filter, reverse_foldl_addDistinct]

/-- No limit takes away the last tile: a limit of zero counts as one, and of several duplicates the
first stays. So a node is covered under all settings or under none. -/
theorem keep_eq_nil : settings.keep tiles = [] ↔ tiles = [] := by
  have hdistinct : settings.distinct tiles = [] ↔ tiles = [] := by
    rw [distinct]
    split
    · cases tiles with
      | nil => exact ⟨fun _ => rfl, fun _ => rfl⟩
      | cons tile tiles => simp [List.eraseDupsBy_cons]
    · exact Iff.rfl
  rw [keep]
  split
  · rename_i limit _
    -- A cut at one or more leaves something of a list that is not empty.
    have hpos : max limit 1 ≠ 0 := by omega
    rw [List.take_eq_nil_iff, or_iff_right hpos, hdistinct]
  · exact hdistinct

/-- Two runs that keep the same tiles are in step: there is no room for more, or they have
allocated the same temporaries. -/
def InStep (settings : Settings) (kept : List Tile) (s s₀ : Session) : Prop :=
  settings.isFull kept.length = true ∨ s.allocated = s₀.allocated

end Settings

/-! ## Runs in step -/

namespace Selector

variable {sel : Selector} {b : Block} {id : NodeId} {kept : List Tile} {s s₀ : Session}

/-- Offering a tile keeps it or not, and allocates nothing. The verdict is asked for only if there
is room, and on a tile inside the block there is one. -/
theorem offer_eq {tile : Tile} (htile : tile.Inside b) : ∃ s',
    sel.offer b tile (kept, s) = .ok (sel.settings.keepOne b kept tile, s')
      ∧ s'.allocated = s.allocated := by
  obtain ⟨verdict, hverdict⟩ := Block.validate_total htile
  rw [offer, Settings.keepOne]
  -- Both sides ask for the verdict in the same case, and it is the same verdict.
  by_cases hfull : sel.settings.isFull kept.length = true
  · rw [if_pos hfull, if_pos hfull]
    exact ⟨_, rfl, rfl⟩
  · rw [if_neg hfull, if_neg hfull, hverdict, ok_bind, Block.accepts, hverdict]
    cases verdict with
    | some why => exact ⟨_, rfl, rfl⟩
    | none =>
      dsimp only
      rw [if_pos rfl, Settings.addDistinct]
      split <;> exact ⟨_, rfl, rfl⟩

/-- Offering several tiles keeps some of them, and allocates nothing. The induction is on the tiles,
whose order counts: what is kept first can fill the limit. -/
theorem foldlM_offer_eq {tiles : List Tile} (htiles : ∀ t ∈ tiles, t.Inside b) :
    ∃ s', tiles.foldlM (fun progress tile => sel.offer b tile progress) (kept, s)
        = .ok (tiles.foldl (sel.settings.keepOne b) kept, s')
      ∧ s'.allocated = s.allocated := by
  induction tiles generalizing kept s with
  | nil => exact ⟨s, rfl, rfl⟩
  | cons tile tiles ih =>
    obtain ⟨s₁, hoffer, hcount⟩ := @offer_eq sel b kept s tile (htiles tile List.mem_cons_self)
    obtain ⟨s₂, hrest, hcount'⟩ := @ih (sel.settings.keepOne b kept tile) s₁
      fun t ht => htiles t (List.mem_cons_of_mem tile ht)
    refine ⟨s₂, ?_, hcount'.trans hcount⟩
    rw [List.foldlM_cons, hoffer, ok_bind, hrest, List.foldl_cons]

/-- Without room, a walk keeps nothing, wherever it stops. Combinations that cannot be filled in are
passed over; the first one that can ends the walk. -/
theorem walk_of_full {m : Match} (hfull : sel.settings.isFull kept.length = true)
    (combos : List (List (String × Instantiation))) : ∃ s',
      (Flow.each (m.visitOne b (sel.offerNext b)) combos (.ok kept, s)).state = (.ok kept, s') := by
  induction combos generalizing s with
  | nil => exact ⟨s, rfl⟩
  | cons chosen rest ih =>
    -- A combination that is filled in is offered, for which there is no room, and the walk stops.
    rw [Flow.each, Match.visitOne]
    generalize m.instantiate b chosen s = outcome
    obtain ⟨result, s₁⟩ := outcome
    cases result with
    | error fault => exact ih
    | ok i =>
      dsimp only
      rw [offerNext, if_pos hfull]
      exact ⟨s₁, rfl⟩

/-- **A walk through combinations stays in step with filling in all of them.** As long as there is
room, both fill in the same combinations and issue the same numbers. Once there is none, the walk
may stop, and whatever the other goes on to make is not kept. -/
theorem walk_eq {m : Match} (combos : List (List (String × Instantiation)))
    (hinside : ∀ i ∈ (m.fillEach b combos s₀).1, i.toTile.Inside b)
    (hsame : sel.settings.InStep kept s s₀) :
    ∃ s', (Flow.each (m.visitOne b (sel.offerNext b)) combos (.ok kept, s)).state
        = (.ok (((m.fillEach b combos s₀).1.map Instantiation.toTile).foldl
            (sel.settings.keepOne b) kept), s')
      ∧ sel.settings.InStep (((m.fillEach b combos s₀).1.map Instantiation.toTile).foldl
          (sel.settings.keepOne b) kept) s' (m.fillEach b combos s₀).2 := by
  induction combos generalizing kept s s₀ with
  | nil => exact ⟨s, rfl, hsame⟩
  | cons chosen rest ih =>
    by_cases hfull : sel.settings.isFull kept.length = true
    · rw [Settings.foldl_keepOne_of_full hfull]
      obtain ⟨s', hwalk⟩ := @walk_of_full sel b kept s m hfull (chosen :: rest)
      exact ⟨s', hwalk, .inl hfull⟩
    · -- There is room, so both runs have allocated the same and fill in the same.
      have hcount : s.allocated = s₀.allocated := hsame.resolve_left hfull
      obtain ⟨hfirst, hafter⟩ := Match.blind_instantiate (b := b) m chosen s s₀ hcount
      rw [Flow.each, Match.visitOne]
      rw [Match.fillEach] at hinside ⊢
      generalize m.instantiate b chosen s = outcome at hfirst hafter
      generalize m.instantiate b chosen s₀ = outcome₀ at hfirst hafter hinside
      obtain ⟨result, s₁⟩ := outcome
      obtain ⟨result₀, s₂⟩ := outcome₀
      obtain rfl : result = result₀ := hfirst
      cases result with
      | error fault => exact ih hinside (.inr hafter)
      | ok i =>
        dsimp only at hinside ⊢
        obtain ⟨s₃, hoffer, hcount₃⟩ :=
          @offer_eq sel b kept s₁ i.toTile (hinside i List.mem_cons_self)
        rw [offerNext, if_neg hfull, hoffer, List.map_cons, List.foldl_cons]
        exact ih (fun j hj => hinside j (List.mem_cons_of_mem i hj)) (.inr (hcount₃.trans hafter))

/-- Offering a match keeps what offering all of its instantiations would. The combinations of its
included groups are the same whatever has been kept. -/
theorem offerMatch_eq {m : Match} (hm : m.Inside b) (hcount : s.allocated = s₀.allocated) :
    ∃ s', sel.offerMatch b m (kept, s)
        = .ok (((Match.instantiations b m s₀).1.map Instantiation.toTile).foldl
            (sel.settings.keepOne b) kept, s')
      ∧ sel.settings.InStep (((Match.instantiations b m s₀).1.map Instantiation.toTile).foldl
          (sel.settings.keepOne b) kept) s' (Match.instantiations b m s₀).2 := by
  -- Instantiations of the match lie inside the block, so that there is a verdict on each.
  have hinside : ∀ i ∈ (Match.instantiations b m s₀).1, i.toTile.Inside b := fun i hi =>
    hm i (Match.instantiates_of_mem m s₀ i hi)
  obtain ⟨hoptions, hready⟩ := Match.blind_optionsOf (b := b) m.submatches s s₀ hcount
  rw [Match.instantiations_eq] at hinside ⊢
  obtain ⟨s', hwalk, hstep⟩ := @walk_eq sel b kept (Match.optionsOf b m.submatches s).2 _ m _
    hinside (.inr hready)
  refine ⟨s', ?_, hstep⟩
  rw [offerMatch]
  dsimp only
  rw [hoptions, Match.visit_eq_each, hwalk]

/-- **Going through the candidates keeps what working all of them out would.** The induction is on
the candidates; what carries it is that the two counts agree as long as there is room. -/
theorem offerCandidates_eq {ps : List Pattern} {ms : List Match}
    (hms : ps.filterMapM (sel.tables.matchAt b id) = .ok ms)
    (hsame : sel.settings.InStep kept s s₀) :
    ∃ s', sel.offerCandidates b id ps (kept, s)
        = .ok (((Match.instantiationsOfAll b ms s₀).1.map Instantiation.toTile).foldl
            (sel.settings.keepOne b) kept, s')
      ∧ sel.settings.InStep (((Match.instantiationsOfAll b ms s₀).1.map
          Instantiation.toTile).foldl (sel.settings.keepOne b) kept) s'
          (Match.instantiationsOfAll b ms s₀).2 := by
  -- The induction is on the candidates, of which those without a match are passed over on both
  -- sides.
  induction ps generalizing ms kept s s₀ with
  | nil =>
    cases hms
    exact ⟨s, rfl, hsame⟩
  | cons p ps ih =>
    rw [offerCandidates]
    by_cases hfull : sel.settings.isFull kept.length = true
    · rw [if_pos hfull, Settings.foldl_keepOne_of_full hfull]
      exact ⟨s, rfl, .inl hfull⟩
    · rw [List.filterMapM_cons, bind_eq_ok] at hms
      obtain ⟨found, hfound, hms⟩ := hms
      rw [if_neg hfull, hfound, ok_bind]
      cases found with
      | none => exact ih hms hsame
      | some m =>
        obtain ⟨rest, hrest, hms⟩ := bind_eq_ok.1 hms
        rw [pure_eq_ok] at hms
        subst hms
        obtain ⟨s₁, hmatch, hstep⟩ := @offerMatch_eq sel b kept s s₀ m
          (Tables.inside_of_matchAt hfound) (hsame.resolve_left hfull)
        obtain ⟨s₂, hothers, hafter⟩ := ih hrest hstep
        refine ⟨s₂, ?_, ?_⟩
        · dsimp only
          rw [hmatch, ok_bind, hothers, Match.instantiationsOfAll, List.map_append,
            List.foldl_append]
        · rw [Match.instantiationsOfAll, List.map_append, List.foldl_append]
          exact hafter

end Selector

/-! ## Nodes -/

namespace Tables

variable {t : Tables} {b : Block} {id : NodeId}

/-- What a node's tiles are made of, where matching ends: the fixed lowerings, and all
instantiations of the matches of its candidates, from whatever count they start. -/
theorem everyTile_eq (hb : b.OperandsInRange) (hid : id < b.size) (hterm : t.Terminates b id) :
    ∃ n fixed stored ms, b.node? id = some n ∧ b.lower id = .ok fixed
      ∧ Selector.storedOp b n = .ok stored
      ∧ (t.candidates n.op stored).filterMapM (t.matchAt b id) = .ok ms
      ∧ ∀ s, t.everyTile b id s
          = .ok (fixed.getD [] ++ (Match.instantiationsOfAll b ms s).1.map Instantiation.toTile,
              (Match.instantiationsOfAll b ms s).2) := by
  -- The node, its lowering and its stored operation can be looked up without a fault.
  obtain ⟨n, hn⟩ := Block.node?_isSome_iff.2 hid
  obtain ⟨fixed, hfixed⟩ := Block.lower_total hb hid
  obtain ⟨stored, hstored⟩ := exists_storedOp hb hn
  have hcandidates : t.candidatesAt b id = .ok (t.candidates n.op stored) := by
    rw [candidatesAt, Block.node_eq_ok.2 hn, ok_bind, hstored, ok_bind]
    rfl
  obtain ⟨ms, hms⟩ := filterMapM_total (hterm _ hcandidates)
  refine ⟨n, fixed, stored, ms, hn, hfixed, hstored, hms, fun s => ?_⟩
  rw [everyTile, hfixed, ok_bind, hcandidates, ok_bind, hms, ok_bind]
  rfl

end Tables

namespace Selector

variable {t : Tables} {b : Block} {id : NodeId} {s : Session}

/-- Selecting tiles for a node is the pipeline, and without a limit it allocates as much. With a
limit it may stop early, so that the count stays behind. -/
theorem selectNode_inStep (hb : b.OperandsInRange) (hid : id < b.size)
    (hterm : t.Terminates b id) (settings : Settings) :
    ∃ tiles s₁ s', t.everyTile b id s = .ok (tiles, s₁)
      ∧ selectNode ⟨t, settings⟩ b id s = .ok (settings.keep (tiles.filter b.accepts), s')
      ∧ (settings.maxTiles = none → s'.allocated = s₁.allocated) := by
  obtain ⟨n, fixed, stored, ms, hn, hfixed, hstored, hms, hevery⟩ :=
    Tables.everyTile_eq hb hid hterm
  have hinside : ∀ tile ∈ fixed.getD [], tile.Inside b := by
    cases fixed with
    | none => exact fun tile htile => absurd htile List.not_mem_nil
    | some tiles =>
      obtain ⟨n', hn', htiles⟩ := Block.fixed_of_lower hfixed
      intro tile htile
      obtain ⟨reads, hreads⟩ := htiles tile htile
      exact hreads.inside hb hn'
  -- First the fixed lowering is offered, then the candidates, and the second starts with what the
  -- first has kept.
  obtain ⟨s₁, hfold, hcount⟩ := @foldlM_offer_eq ⟨t, settings⟩ b [] s _ hinside
  obtain ⟨s₂, hcandidates, hstep⟩ := @offerCandidates_eq ⟨t, settings⟩ b id
    ((fixed.getD []).foldl (settings.keepOne b) []) s₁ s _ ms hms (.inr hcount)
  refine ⟨_, _, s₂, hevery s, ?_, fun hlimit => hstep.resolve_left ?_⟩
  · rw [selectNode, Block.node_eq_ok.2 hn, ok_bind, hfixed, ok_bind, hfold, ok_bind, hstored,
      ok_bind, hcandidates, ok_bind, ← Settings.reverse_foldl_eq_keep, List.foldl_append]
    rfl
  · simp [Settings.isFull, hlimit]

/-- **Selecting tiles for a node is the pipeline.** -/
theorem selectNode_eq_keep (hb : b.OperandsInRange) (hid : id < b.size)
    (hterm : t.Terminates b id) (settings : Settings) :
    ∃ tiles s₁ s', t.everyTile b id s = .ok (tiles, s₁)
      ∧ selectNode ⟨t, settings⟩ b id s = .ok (settings.keep (tiles.filter b.accepts), s') := by
  obtain ⟨tiles, s₁, s', hevery, hselect, -⟩ := selectNode_inStep hb hid hterm settings
  exact ⟨tiles, s₁, s', hevery, hselect⟩

end Selector

/-! ## Numbers of temporaries and verdicts -/

/-- The tile with its temporaries renamed. -/
def Tile.renameTemps (ρ : Nat → Nat) (t : Tile) : Tile :=
  { t with parts := t.parts.map (Part.renameTemps ρ) }

/-- Renaming temporaries and making a tile can be exchanged. -/
theorem Instantiation.toTile_renameTemps {ρ : Nat → Nat} (i : Instantiation) :
    (i.renameTemps ρ).toTile = i.toTile.renameTemps ρ := by
  cases i
  rfl

/-- No verdict looks at the number of a temporary. The validator asks for the nodes of a tile, and
whether its parts can stand alone. -/
theorem Block.accepts_renameTemps {ρ : Nat → Nat} (b : Block) (t : Tile) :
    b.accepts (t.renameTemps ρ) = b.accepts t := by
  have hfind : ((t.renameTemps ρ).parts.find? fun p => !p.isStandalone)
      = (t.parts.find? fun p => !p.isStandalone).map (Part.renameTemps ρ) := by
    rw [Tile.renameTemps, List.find?_map]
    simp only [Function.comp_def, Part.isStandalone_renameTemps]
  rw [accepts, accepts, validate, validate, hfind]
  cases t.parts.find? fun p => !p.isStandalone <;> rfl

theorem Block.accepts_anonymous (b : Block) (i : Instantiation) :
    b.accepts i.anonymous.toTile = b.accepts i.toTile := by
  rw [Instantiation.anonymous_eq_renameTemps, Instantiation.toTile_renameTemps,
    accepts_renameTemps]

namespace Tables

variable {t : Tables} {b : Block} {id : NodeId} {s : Session}

/-- **Whether a node has a tile does not depend on what was allocated before.** From another count
the instantiations are the same, up to the numbers of their temporaries. -/
theorem any_accepts_everyTile (hb : b.OperandsInRange) (hid : id < b.size)
    (hterm : t.Terminates b id) {tiles : List Tile} {s₁ : Session}
    (h : t.everyTile b id s = .ok (tiles, s₁)) : tiles.any b.accepts = t.covers b id := by
  obtain ⟨n, fixed, stored, ms, -, -, -, -, hevery⟩ := everyTile_eq hb hid hterm
  -- The validator looks at nothing that distinguishes two instantiations which differ in
  -- temporaries only.
  have hview : ∀ is : List Instantiation, (is.map Instantiation.toTile).any b.accepts
      = (is.map Instantiation.anonymous).any fun i => b.accepts i.toTile := by
    intro is
    rw [List.any_map, List.any_map]
    simp only [Function.comp_def, Block.accepts_anonymous]
  rw [hevery s] at h
  cases h
  rw [covers, hevery .start]
  dsimp only
  rw [List.any_append, List.any_append, hview, hview,
    Match.instantiationsOfAll_alike ms s .start]

end Tables

/-! ## Blocks -/

namespace Selector

variable {t : Tables} {b : Block}

/-- A node gets no tile exactly if none may be emitted. -/
theorem isEmpty_keep {settings : Settings} {tiles : List Tile} :
    (settings.keep (tiles.filter b.accepts)).isEmpty = !tiles.any b.accepts := by
  rw [Bool.eq_iff_iff, List.isEmpty_iff, Settings.keep_eq_nil, List.filter_eq_nil_iff,
    Bool.not_eq_true', List.any_eq_false]

/-- **Going through nodes ends at the first that has no tile,** whatever the settings. The count is
handed on from node to node, and it does not matter to which of them have tiles. -/
theorem selectNodes_eq (hb : b.OperandsInRange) (settings : Settings) (ids : List NodeId)
    (hids : ∀ id ∈ ids, id < b.size ∧ t.Terminates b id) (s : Session) :
    ∃ outcome s', selectNodes ⟨t, settings⟩ b ids s = .ok (outcome, s')
      ∧ match ids.find? fun id => !t.covers b id with
        | some id => ∃ n, b.node? id = some n ∧ outcome = .error ⟨id, n.op, b.place⟩
        | none => ∃ lists, outcome = .ok lists ∧ lists.length = ids.length
            ∧ ∀ tiles ∈ lists, tiles ≠ [] := by
  induction ids generalizing s with
  | nil => exact ⟨_, s, rfl, [], rfl, rfl, by simp⟩
  | cons id ids ih =>
    obtain ⟨hid, hterm⟩ := hids id List.mem_cons_self
    obtain ⟨tiles, s₁, s₂, hevery, hselect⟩ :=
      @selectNode_eq_keep t b id s hb hid hterm settings
    -- What decides is whether any tile may be emitted.
    have hempty : (settings.keep (tiles.filter b.accepts)).isEmpty = !t.covers b id := by
      rw [isEmpty_keep, Tables.any_accepts_everyTile hb hid hterm hevery]
    rw [selectNodes, hselect, ok_bind]
    dsimp only
    rw [hempty]
    cases hcovers : t.covers b id with
    | false =>
      obtain ⟨n, hn⟩ := Block.node?_isSome_iff.2 hid
      rw [List.find?_cons_of_pos (by rw [hcovers]; rfl), Block.node_eq_ok.2 hn]
      exact ⟨_, s₂, rfl, n, hn, rfl⟩
    | true =>
      obtain ⟨outcome, s₃, hrest, hfound⟩ :=
        ih (fun x hx => hids x (List.mem_cons_of_mem id hx)) s₂
      rw [List.find?_cons_of_neg (by simp [hcovers]), hrest]
      refine ⟨outcome.map (settings.keep (tiles.filter b.accepts) :: ·), s₃, rfl, ?_⟩
      cases hfirst : ids.find? fun id => !t.covers b id with
      | some x =>
        rw [hfirst] at hfound
        obtain ⟨n, hn, rfl⟩ := hfound
        exact ⟨n, hn, rfl⟩
      | none =>
        rw [hfirst] at hfound
        obtain ⟨lists, rfl, hlength, hlists⟩ := hfound
        refine ⟨_, rfl, by rw [List.length_cons, List.length_cons, hlength], fun ts hts => ?_⟩
        rcases List.mem_cons.1 hts with rfl | hts
        · intro hnil
          rw [hnil, hcovers] at hempty
          cases hempty
        · exact hlists ts hts

/-- The first node of a block that is not covered is the lowest. -/
theorem find?_ids {test : NodeId → Bool} {id : NodeId} (hid : id < b.size) (htest : test id = true)
    (hbelow : ∀ j, j < id → test j = false) : b.ids.find? test = some id := by
  rw [Block.ids, List.find?_range_eq_some]
  refine ⟨htest, List.mem_range.2 hid, fun j hj => ?_⟩
  rw [hbelow j hj]
  rfl

/-- **Selection is the plain pipeline, whatever the settings.** The tiles of a node are all its
tiles, less those that may not be emitted, sorted through as the settings say. A block fails at
the lowest node without a tile that may be emitted, and otherwise has tiles for every node. -/
theorem selection_eq_pipeline (t : Tables) (b : Block) (hb : b.OperandsInRange) :
    (∀ id s, id < b.size → t.Terminates b id →
      ∃ tiles s₁, t.everyTile b id s = .ok (tiles, s₁) ∧ tiles.any b.accepts = t.covers b id
        ∧ ∀ settings : Settings, ∃ s', selectNode ⟨t, settings⟩ b id s
            = .ok (settings.keep (tiles.filter b.accepts), s'))
    ∧ ((∀ id, id < b.size → t.Terminates b id) →
      ∀ settings : Settings, ∃ outcome s', selectBlock ⟨t, settings⟩ b = .ok (outcome, s')
        ∧ (∀ id, id < b.size → t.covers b id = false → (∀ j, j < id → t.covers b j = true) →
            ∃ n, b.node? id = some n ∧ outcome = .error ⟨id, n.op, b.place⟩)
        ∧ ((∀ id, id < b.size → t.covers b id = true) →
            ∃ lists, outcome = .ok lists ∧ lists.length = b.size
              ∧ ∀ tiles ∈ lists, tiles ≠ [])) := by
  constructor
  · intro id s hid hterm
    obtain ⟨n, fixed, stored, ms, -, -, -, -, hevery⟩ := Tables.everyTile_eq hb hid hterm
    refine ⟨_, _, hevery s, Tables.any_accepts_everyTile hb hid hterm (hevery s), ?_⟩
    intro settings
    obtain ⟨tiles, s₁, s', htiles, hselect⟩ := selectNode_eq_keep hb hid hterm settings
    rw [hevery s] at htiles
    cases htiles
    exact ⟨s', hselect⟩
  · intro hterm settings
    -- The nodes of a block are those below its size.
    have hids : ∀ id ∈ b.ids, id < b.size ∧ t.Terminates b id := by
      intro id hid
      have hlt : id < b.size := List.mem_range.1 hid
      exact ⟨hlt, hterm id hlt⟩
    obtain ⟨outcome, s', hselect, houtcome⟩ := selectNodes_eq hb settings b.ids hids .start
    refine ⟨outcome, s', hselect, ?_, ?_⟩
    · intro id hid hcovers hbelow
      rw [find?_ids hid (by rw [hcovers]; rfl) fun j hj => by rw [hbelow j hj]; rfl] at houtcome
      exact houtcome
    · intro hcovers
      have hnone : b.ids.find? (fun id => !t.covers b id) = none := by
        refine List.find?_eq_none.2 fun id hid => ?_
        rw [hcovers id (List.mem_range.1 hid)]
        simp
      rw [hnone, Block.ids, List.length_range] at houtcome
      exact houtcome

/-- The sum of two sources, where a source is written as its value, in two patterns, or as a
temporary. -/
def pairs : List Pattern :=
  [⟨⟨"source", 0⟩, .producer (some "v") none, [.reference ["v"] none none]⟩,
   ⟨⟨"source", 1⟩, .producer (some "w") none, [.reference ["w"] none none]⟩,
   ⟨⟨"source", 2⟩, .producer none none, [.reference ["tmp"] none none]⟩,
   ⟨⟨"sum", 0⟩, .node none none .add [.inclusion "x" "source", .inclusion "y" "source"],
     [.plain "ADD" [.reference ["x"] none none, .reference ["y"] none none]]⟩]

/-- The sum of two arguments. -/
def paired : Block := Build.finish ⟨"sums", "f", "entry"⟩ do
  let x ← Build.arg 0 .i32
  let y ← Build.arg 1 .i32
  Build.op .add .i32 [x, y]

/-- Of nine tiles for the sum, four are distinct, and a limit of three cuts them. Every node has a
tile, so the block is covered under this limit as well. -/
theorem selection_eq_pipeline_paired :
    paired.OperandsInRange
      ∧ (∀ id, id < paired.size → (Tables.ofPatterns pairs).Terminates paired id)
      ∧ (∃ tiles s₁ s', (Tables.ofPatterns pairs).everyTile paired 2 .start = .ok (tiles, s₁)
          ∧ tiles.length = 9
          ∧ selectNode ⟨.ofPatterns pairs, ⟨some 3, true⟩⟩ paired 2 .start
              = .ok (Settings.keep ⟨some 3, true⟩ (tiles.filter paired.accepts), s')
          ∧ (Settings.keep ⟨none, true⟩ (tiles.filter paired.accepts)).length = 4
          ∧ (Settings.keep ⟨some 3, true⟩ (tiles.filter paired.accepts)).length = 3)
      ∧ ∃ lists s', selectBlock ⟨.ofPatterns pairs, ⟨some 3, true⟩⟩ paired = .ok (.ok lists, s')
          ∧ lists.length = 3 ∧ ∀ tiles ∈ lists, tiles ≠ [] := by
  have hrange : paired.OperandsInRange := (Block.Ordered.inRange (by decide)).operands
  -- Only the sum has a candidate.
  have hterm : ∀ id, id < paired.size → (Tables.ofPatterns pairs).Terminates paired id := by
    intro id hid
    match id, hid with
    | 0, _ | 1, _ =>
      intro candidates hcandidates p hp
      cases hcandidates
      cases hp
    | 2, _ =>
      intro candidates hcandidates p hp
      cases hcandidates
      rw [List.mem_singleton.1 hp]
      exact ⟨_, rfl⟩
  obtain ⟨hnodes, hblocks⟩ := selection_eq_pipeline (.ofPatterns pairs) paired hrange
  refine ⟨hrange, hterm, ?_, ?_⟩
  · obtain ⟨tiles, s₁, hevery, -, hkeep⟩ := hnodes 2 .start (by decide) (hterm 2 (by decide))
    obtain ⟨s', hselect⟩ := hkeep ⟨some 3, true⟩
    have hcounts : ((Tables.ofPatterns pairs).everyTile paired 2 .start).toOption.map
        (fun r => [r.1.length, (Settings.keep ⟨none, true⟩ (r.1.filter paired.accepts)).length,
          (Settings.keep ⟨some 3, true⟩ (r.1.filter paired.accepts)).length]) = some [9, 4, 3] := by
      decide +kernel
    rw [hevery] at hcounts
    simp only [Except.toOption, Option.map_some, Option.some.injEq, List.cons.injEq] at hcounts
    exact ⟨tiles, s₁, s', hevery, hcounts.1, hselect, hcounts.2.1, hcounts.2.2.1⟩
  · obtain ⟨outcome, s', hselect, -, hcovered⟩ := hblocks hterm ⟨some 3, true⟩
    obtain ⟨lists, rfl, hlength, hlists⟩ := hcovered (by decide +kernel)
    exact ⟨lists, s', hselect, hlength, hlists⟩

end Selector

end TileSelect
