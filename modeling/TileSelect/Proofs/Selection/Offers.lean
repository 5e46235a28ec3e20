import TileSelect.Proofs.Expansion.Choices
import TileSelect.Proofs.Lowering
import TileSelect.Proofs.Tables
import TileSelect.Selection.Selector
/-!
Where the tiles of a node come from.

Selection interleaves many things: limits, duplicates, the log, the temporaries. None of them
adds a tile. Every tile that is kept was offered, by the fixed lowering of the node or by an
instantiation of a match of a candidate, and was accepted by the validator when it was offered.
This module says so once; what holds of all tiles is afterwards proved for offered and accepted
tiles, without a word about selection.
-/

set_option autoImplicit false

namespace TileSelect

namespace Selector

variable {sel : Selector} {b : Block} {id : NodeId} {n : Node} {s s' : Session}
  {kept kept' : List Tile} {tile : Tile}

/-- A tile that is offered for a node. -/
inductive Offered (sel : Selector) (b : Block) (id : NodeId) : Tile → Prop
  | fixed {n : Node} {reads : List NodeId} {t : Tile} (found : b.node? id = some n)
      (lowered : Lowering.Fixed b id n reads t) : Offered sel b id t
  | pattern {n : Node} {stored : Option Operation} {p : Pattern} {m : Match} {i : Instantiation}
      (found : b.node? id = some n) (candidate : p ∈ sel.tables.candidates n.op stored)
      (matched : sel.tables.matchAt b id p = .ok (some m)) (instantiated : m.Instantiates b i) :
      Offered sel b id i.toTile

/-- Every tile was offered for the node and accepted. -/
def Accepted (sel : Selector) (b : Block) (id : NodeId) (kept : List Tile) : Prop :=
  ∀ t ∈ kept, sel.Offered b id t ∧ b.validate t = .ok none

section Keeps

variable {P : Tile → Prop} (hkept : ∀ t ∈ kept, P t)
include hkept

/-- A tile that is offered is kept only if the validator accepts it, and what has been kept stays.
So what holds of the kept tiles goes on to hold if it holds of an accepted one. -/
theorem offer_keeps (htile : b.validate tile = .ok none → P tile)
    (h : sel.offer b tile (kept, s) = .ok (kept', s')) : ∀ t ∈ kept', P t := by
  -- There is no room, or the tile is refused, or it is a duplicate: nothing is added. Otherwise it
  -- goes in front of the others.
  rw [offer] at h
  split at h
  · cases h
    exact hkept
  · obtain ⟨verdict, hverdict, h⟩ := bind_eq_ok.1 h
    cases verdict with
    | some why =>
      cases h
      exact hkept
    | none =>
      dsimp only at h
      split at h
      · cases h
        exact hkept
      · cases h
        intro t ht
        rcases List.mem_cons.1 ht with rfl | ht
        · exact htile hverdict
        · exact hkept t ht

/-- A match adds instantiations of it, and nothing else. The walk along its combinations may stop
early, when there is no more room; the tiles kept up to there have the property. -/
theorem offerMatch_keeps {m : Match} (htiles : ∀ i, m.Instantiates b i →
      b.validate i.toTile = .ok none → P i.toTile)
    (h : sel.offerMatch b m (kept, s) = .ok (kept', s')) : ∀ t ∈ kept', P t := by
  -- The walk carries the tiles kept or a fault; of a fault nothing is claimed.
  have hwalk := @Match.visit_keeps b m (Except Fault (List Tile)) (sel.offerNext b)
    (fun found => ∀ ts, found = .ok ts → ∀ t ∈ ts, P t)
    (Match.optionsOf b m.submatches s).1
    (fun chosen => Match.chooses_of_picks (Match.offers_optionsOf m.submatches s))
    (fun i hi found s₁ hfound => ?_) (.ok kept, (Match.optionsOf b m.submatches s).2)
    (fun ts hts => by cases hts; exact hkept)
  · rw [offerMatch] at h
    dsimp only at h
    split at h
    · rename_i kept₁ s₁ heq
      cases h
      rw [heq] at hwalk
      exact hwalk _ rfl
    · cases h
  · cases found with
    | error fault => exact hfound
    | ok ts =>
      rw [offerNext]
      split
      · exact hfound
      · split
        · rename_i heq
          intro ts' hts'
          cases hts'
          exact offer_keeps (hfound ts rfl) (htiles i hi) heq
        · intro ts' hts'
          cases hts'

/-- Candidates add instantiations of their matches, and nothing else. The induction is on the
candidates, each of which is matched only while there is room. -/
theorem offerCandidates_keeps {ps : List Pattern}
    (htiles : ∀ p ∈ ps, ∀ m i, sel.tables.matchAt b id p = .ok (some m) → m.Instantiates b i →
      b.validate i.toTile = .ok none → P i.toTile)
    (h : sel.offerCandidates b id ps (kept, s) = .ok (kept', s')) : ∀ t ∈ kept', P t := by
  induction ps generalizing kept s with
  | nil =>
    cases h
    exact hkept
  | cons p ps ih =>
    have hrest : ∀ q ∈ ps, ∀ m i, sel.tables.matchAt b id q = .ok (some m) → m.Instantiates b i →
        b.validate i.toTile = .ok none → P i.toTile := fun q hq =>
      htiles q (List.mem_cons_of_mem p hq)
    rw [offerCandidates] at h
    -- The walk ends when there are enough tiles.
    split at h
    · cases h
      exact hkept
    · obtain ⟨found, hfound, h⟩ := bind_eq_ok.1 h
      cases found with
      | none => exact ih hkept hrest h
      | some m =>
        obtain ⟨⟨kept₁, s₁⟩, hmatch, h⟩ := bind_eq_ok.1 h
        refine ih (offerMatch_keeps hkept (fun i hi => ?_) hmatch) hrest h
        exact htiles p List.mem_cons_self m i hfound hi

end Keeps

/-- What holds of the tiles of the fixed lowering and of every instantiation of a match of a
candidate, as far as they are accepted, holds of every tile of a node. -/
theorem selectNode_keeps {P : Tile → Prop} {tiles : List Tile}
    (hfixed : ∀ ts, b.lower id = .ok (some ts) → ∀ t ∈ ts, b.validate t = .ok none → P t)
    (hpattern : ∀ n stored, b.node? id = some n → ∀ p ∈ sel.tables.candidates n.op stored,
      ∀ m i, sel.tables.matchAt b id p = .ok (some m) → m.Instantiates b i →
      b.validate i.toTile = .ok none → P i.toTile)
    (h : sel.selectNode b id s = .ok (tiles, s')) : ∀ t ∈ tiles, P t := by
  rw [selectNode, bind_eq_ok] at h
  obtain ⟨n, hn, h⟩ := h
  rw [Block.node_eq_ok] at hn
  obtain ⟨fixed, hlower, h⟩ := bind_eq_ok.1 h
  obtain ⟨⟨kept₁, s₁⟩, hfold, h⟩ := bind_eq_ok.1 h
  obtain ⟨stored, -, h⟩ := bind_eq_ok.1 h
  obtain ⟨⟨kept₂, s₂⟩, hcandidates, h⟩ := bind_eq_ok.1 h
  cases h
  have hlowered : ∀ t ∈ fixed.getD [], b.validate t = .ok none → P t := by
    cases fixed with
    | none => exact fun t ht => absurd ht List.not_mem_nil
    | some ts => exact hfixed ts hlower
  -- First the fixed lowerings are offered, and then the candidates.
  have hfirst : ∀ t ∈ kept₁, P t :=
    foldlM_keeps (fun progress : Progress => ∀ t ∈ progress.1, P t)
      (fun p p' t ht hp hstep => offer_keeps hp (hlowered t ht) hstep)
      (fun t ht => absurd ht List.not_mem_nil) hfold
  have hall : ∀ t ∈ kept₂, P t :=
    offerCandidates_keeps hfirst (hpattern n stored hn) hcandidates
  exact fun t ht => hall t (List.mem_reverse.1 ht)

/-- **Every tile of a node was offered for it and accepted.** -/
theorem accepted_selectNode {tiles : List Tile} (h : sel.selectNode b id s = .ok (tiles, s')) :
    sel.Accepted b id tiles := by
  refine selectNode_keeps (fun ts hlower t ht hverdict => ?_)
    (fun n stored hn p hp m i hm hi hverdict => ⟨.pattern hn hp hm hi, hverdict⟩) h
  obtain ⟨n, hn, hts⟩ := Block.fixed_of_lower hlower
  obtain ⟨reads, hreads⟩ := hts t ht
  exact ⟨.fixed hn hreads, hverdict⟩

/-- Without a fixed lowering, every tile of a node is an instantiation of a match of a candidate.
The candidate is one for the operation of the node and for what it stores. -/
theorem exists_candidate_of_selectNode {tiles : List Tile} (hn : b.node? id = some n)
    (hlower : b.lower id = .ok none) (h : sel.selectNode b id s = .ok (tiles, s')) :
    ∀ t ∈ tiles, ∃ stored, ∃ p ∈ sel.tables.candidates n.op stored, ∃ m i,
      sel.tables.matchAt b id p = .ok (some m) ∧ m.Instantiates b i ∧ t = i.toTile := by
  refine selectNode_keeps (fun ts hts => ?_) (fun n' stored hn' p hp m i hm hi _ => ?_) h
  · rw [hlower] at hts
    cases hts
  · rw [hn, Option.some.injEq] at hn'
    subst hn'
    exact ⟨stored, p, hp, m, i, hm, hi, rfl⟩

/-! ## Running selection -/

/-- Whether some tile of a node passes a test. -/
def hasTile (sel : Selector) (b : Block) (id : NodeId) (test : Tile → Bool) : Bool :=
  match sel.selectNode b id .start with
  | .ok (tiles, _) => tiles.any test
  | .error _ => false

/-- Where some tile passes a test, selection has an outcome with such a tile. The test is run on all
tiles of the node from the start of a session. -/
theorem exists_tile_of_hasTile {test : Tile → Bool} (h : sel.hasTile b id test = true) :
    ∃ tiles s', sel.selectNode b id .start = .ok (tiles, s')
      ∧ ∃ tile ∈ tiles, test tile = true := by
  rw [hasTile] at h
  split at h
  · rename_i tiles s' hrun
    exact ⟨tiles, s', hrun, List.any_eq_true.1 h⟩
  · cases h

/-- Compiling a text and running selection with its tables shows a tile. The text is given by its
characters, for which the compiler can be evaluated. -/
theorem exists_tile_of_check {text : String} {chars : List Char} {settings : Settings}
    {test : Tile → Bool} (h : text = String.ofList chars)
    (hcheck : (patternsOf? chars).any
      (fun ps => hasTile ⟨.ofPatterns ps, settings⟩ b id test) = true) :
    ∃ sel : Selector, Tables.ofSource text = .ok sel.tables ∧ ∃ tiles s',
      sel.selectNode b id .start = .ok (tiles, s') ∧ ∃ tile ∈ tiles, test tile = true := by
  obtain ⟨ps, hps, htile⟩ := Tables.ofSource_of_check h hcheck
  exact ⟨⟨.ofPatterns ps, settings⟩, hps, exists_tile_of_hasTile htile⟩

end Selector

end TileSelect
