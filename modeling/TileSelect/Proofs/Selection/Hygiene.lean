import TileSelect.Block.Build
import TileSelect.Proofs.Expansion.Hygiene
import TileSelect.Proofs.Selection.Operands
import TileSelect.Proofs.Tables
/-!
Temporaries of a block.

The nodes of a block take turns, and in its turn a node tries the combinations of its candidates,
those inside included groups first. This module writes down all that a run tries, in order
(`Selector.turns`), and follows the count of temporaries along it: each combination starts where the
one before it ended, whether that one was kept, dropped or rejected.

So temporaries are hygienic (`Selector.temporaries_hygienic`). Within a template a name stands for
one temporary and different names for different ones; a combination shares no temporary with what
it chose, nor choices for different groups with each other, nor tiles of different nodes. Templates
name their temporaries and leave the numbers to the count. Tables that were put together by hand
may hold a template which spells a number out, and that number is the one exception: nobody has
seen to it that it is not taken (`Selector.not_fresh_spelled`). Compiled tables spell none.
-/

set_option autoImplicit false

namespace TileSelect

open Combination (Becomes Chained)
open Session (Issues)

/-! ## Numbers in tables -/

namespace Tables

variable {t : Tables} {p : Pattern} {n : Nat}

/-- The pattern is among the alternatives of a group or the candidates for a node. -/
def Answers (t : Tables) (p : Pattern) : Prop :=
  (∃ g, p ∈ t.group g) ∨ ∃ op stored, p ∈ t.candidates op stored

/-- Some template of the tables spells out a temporary of this number. -/
def Spells (t : Tables) (n : Nat) : Prop := ∃ p, t.Answers p ∧ ∃ q ∈ p.template, n ∈ q.temps

/-- What a pattern of the tables spells out, the tables spell out. -/
theorem Answers.spellsIn (h : t.Answers p) : p.SpellsIn t.Spells :=
  fun q hq _ hn => ⟨p, h, q, hq, hn⟩

end Tables

/-- **Compiled templates name their temporaries** and spell no numbers out. A number would be a part
that the compiler does not write. -/
theorem Tables.not_spells_of_ofSource {source : String} {t : Tables} (h : ofSource source = .ok t)
    (n : Nat) : ¬ t.Spells n := by
  rintro ⟨p, hp, q, hq, hn⟩
  have hscoped := wellScoped_of_ofSource h
  -- Alternatives and candidates are patterns of the tables.
  have hmem : p ∈ t.patterns := by
    rcases hp with ⟨g, hp⟩ | ⟨op, stored, hp⟩
    · exact hscoped.mem_patterns_of_mem_group hp
    · exact (hscoped.of_mem_candidates hp).1
  obtain ⟨a, ha, hid⟩ := List.mem_filterMap.1 hn
  have hwritten := (compiled_of_ofSource h hmem).written q hq a
    (Part.mem_pieces_of_mem_operands q a ha)
  cases a with
  | temp => exact hwritten
  | instruction | label | memory | reference | register | value | imm | symbol => cases hid

/-! ## Patterns in matches -/

section Matches

variable {P : Pattern → Prop} {b : Block} {inc : Inclusion}

/-- All alternatives inside a record are of patterns with a property. -/
def Match.MadeBelow (P : Pattern → Prop) (r : Match) : Prop :=
  ∀ ident ms, (ident, ms) ∈ r.submatches → ∀ m ∈ ms, m.MadeWith P

/-- One step keeps the property of all alternatives inside a record, if inclusions find only such.
The step that takes in alternatives is the only one that adds any. -/
theorem Match.MadeBelow.step {idents : List String} {r r' : Match}
    (hinc : ∀ g id ms, inc g id = .ok ms → ∀ m ∈ ms, m.MadeWith P) (h : r.MadeBelow P)
    (hstep : Shape.Step b inc idents r r') : r'.MadeBelow P := by
  cases hstep with
  | cover | read | bind => exact h
  | addAlternatives hi hid hms hne =>
    intro ident ms' hentry
    rcases Keyed.eq_or_mem_of_mem_insert hentry with heq | hold
    · cases heq
      exact hinc _ _ _ hms
    · exact h ident ms' hold

/-- A match is made with its own pattern and with those of the alternatives inside it. The record
starts without alternatives and grows step by step. -/
theorem Pattern.madeWith_of_matchWith {p : Pattern} {id : NodeId} {m : Match}
    (hinc : ∀ g id ms, inc g id = .ok ms → ∀ m ∈ ms, m.MadeWith P) (hp : P p)
    (h : p.matchWith b inc id = .ok (some m)) : m.MadeWith P := by
  refine ⟨by rwa [(matchWith_head h).1], ?_⟩
  have hsteps := Shape.attempt_steps p.root id _ _ (matchWith_eq_some h)
  have hstart : (Match.start p id).MadeBelow P := fun ident ms hms => by cases hms
  clear h
  induction hsteps with
  | refl => exact hstart
  | tail _ hstep ih => exact Match.MadeBelow.step hinc ih hstep

/-- Alternatives are of patterns of their groups, in every layer. The induction is on the layers,
and the patterns of a group are patterns of the tables. -/
theorem Tables.madeWith_alternatives {t : Tables} (ht : ∀ g, ∀ p ∈ t.group g, P p) (n : Nat) :
    ∀ g id ms, t.alternatives b n g id = .ok ms → ∀ m ∈ ms, m.MadeWith P := by
  induction n with
  | zero =>
    intro g id ms h
    cases h
  | succ n ih =>
    intro g id ms h m hm
    obtain ⟨p, hp, hmatch⟩ := (mem_of_filterMapM h m).1 hm
    exact Pattern.madeWith_of_matchWith ih (ht g p hp) hmatch

/-- A match of a pattern of the tables is made with patterns of the tables. -/
theorem Tables.Answers.madeWith {t : Tables} {p : Pattern} {id : NodeId} {m : Match}
    (hp : t.Answers p) (h : t.matchAt b id p = .ok (some m)) : m.MadeWith (·.SpellsIn t.Spells) :=
  Pattern.madeWith_of_matchWith
    (madeWith_alternatives (fun g _ hq => Answers.spellsIn (.inl ⟨g, hq⟩)) _) hp.spellsIn h

end Matches

/-! ## Tiles -/

/-- A temporary of this number occurs in the tile. -/
def Tile.Carries (t : Tile) (n : Nat) : Prop := ∃ p ∈ t.parts, n ∈ p.temps

/-- No temporary occurs in a fixed lowering, whose operands are values, numbers, symbols, registers
and labels. -/
theorem Lowering.IsLowered.tempsIn {p : Part} (h : IsLowered p) : p.TempsIn fun _ => False := by
  obtain ⟨mnemonic, condition, os, rfl, hos⟩ := h
  rw [Part.tempsIn_iff_only, Part.only_instruction]
  intro o ho
  rw [← Part.tempsIn_iff_only]
  refine Part.tempsIn_of_temps_eq_nil ?_
  cases hos o ho <;> rfl

/-! ## What a run tries -/

/-- The turn of a node: its tiles and the combinations that are tried for them. -/
structure Turn where
  node : NodeId
  tiles : List Tile
  combinations : List Combination

/-- A temporary of this number occurs in one of the tiles. -/
def Turn.Carries (turn : Turn) (n : Nat) : Prop := ∃ tile ∈ turn.tiles, tile.Carries n

/-- The tile is a fixed lowering of the node, or one of the combinations became it. -/
def Turn.Makes (b : Block) (turn : Turn) (tile : Tile) : Prop :=
  (∃ fixed, b.lower turn.node = .ok (some fixed) ∧ tile ∈ fixed)
    ∨ ∃ i, Becomes b turn.combinations i ∧ tile = i.toTile

namespace Selector

variable {sel : Selector} {b : Block}

/-- The combinations that are tried for a match: those of its included groups, and its own until
there are enough tiles. -/
def matchCombinations (sel : Selector) (b : Block) (m : Match) : Progress → List Combination
  | (kept, s) =>
    Match.combinationsOfOptions b m.submatches s
      ++ m.tried b (sel.offerNext b) (Flow.product (Match.optionsOf b m.submatches s).1)
          (.ok kept, (Match.optionsOf b m.submatches s).2)

/-- The combinations that are tried for candidates. -/
def candidateCombinations (sel : Selector) (b : Block) (id : NodeId) :
    List Pattern → Progress → List Combination
  | [], _ => []
  | p :: ps, (kept, s) =>
    if sel.settings.isFull kept.length then []
    else
      match sel.tables.matchAt b id p with
      | .ok (some m) =>
        sel.matchCombinations b m (kept, s)
          ++ match sel.offerMatch b m (kept, s) with
            | .ok progress => sel.candidateCombinations b id ps progress
            | .error _ => []
      | .ok none => sel.candidateCombinations b id ps (kept, s)
      | .error _ => []

/-- The combinations that are tried for a node, after its fixed lowerings. -/
def nodeCombinations (sel : Selector) (b : Block) (id : NodeId) (s : Session) :
    Except Fault (List Combination) := do
  let n ← b.node id
  let fixed ← b.lower id
  let progress ← (fixed.getD []).foldlM (fun progress tile => sel.offer b tile progress) ([], s)
  let stored ← storedOp b n
  return sel.candidateCombinations b id (sel.tables.candidates n.op stored) progress

/-- The turns of nodes, up to the first that has no tile. -/
def turnsOf (sel : Selector) (b : Block) : List NodeId → Session → List Turn
  | [], _ => []
  | id :: ids, s =>
    match sel.selectNode b id s, sel.nodeCombinations b id s with
    | .ok (tiles, s'), .ok cs =>
      ⟨id, tiles, cs⟩ :: if tiles.isEmpty then [] else sel.turnsOf b ids s'
    | _, _ => []

/-- The turns of the nodes of a block. -/
def turns (sel : Selector) (b : Block) : List Turn := sel.turnsOf b b.ids .start

/-- The combinations that are tried for a block, in order. -/
def combinations (sel : Selector) (b : Block) : List Combination :=
  (sel.turns b).flatMap Turn.combinations

/-! ## From one progress to the next -/

/-- Combinations account for what happens between two points of a run: they allocate what is
allocated, and new tiles are what they became. -/
structure Accounts (b : Block) (before : Progress) (cs : List Combination) (after : Progress) :
    Prop where
  chained : Chained b before.2.allocated cs after.2.allocated
  origin : ∀ tile ∈ after.1, tile ∈ before.1 ∨ ∃ i, Becomes b cs i ∧ tile = i.toTile

variable {before mid after : Progress} {cs cs' : List Combination}

/-- Where nothing happens, no combination accounts for it. -/
theorem Accounts.refl (progress : Progress) : Accounts b progress [] progress :=
  ⟨rfl, fun _ => .inl⟩

/-- Combinations for two stretches of a run account for both together: they are taken one after the
other, and a tile that was kept came with a combination of one of the stretches. -/
theorem Accounts.trans (h : Accounts b before cs mid) (h' : Accounts b mid cs' after) :
    Accounts b before (cs ++ cs') after := by
  refine ⟨h.chained.append h'.chained, fun tile htile => ?_⟩
  rcases h'.origin tile htile with htile | ⟨i, hi, rfl⟩
  · rcases h.origin tile htile with htile | ⟨i, hi, rfl⟩
    · exact .inl htile
    · exact .inr ⟨i, hi.append_left, rfl⟩
  · exact .inr ⟨i, hi.append_right, rfl⟩

variable {kept kept' : List Tile} {s s' : Session}

/-- Offering a tile allocates nothing, whether it is kept or not. Numbers are issued when a template
is filled in, which is before the tile is offered. -/
theorem allocated_offer {tile : Tile} (h : sel.offer b tile (kept, s) = .ok (kept', s')) :
    s'.allocated = s.allocated := by
  -- There is no room, or the tile is refused, or it is kept or not: the count is the same in all
  -- cases.
  rw [offer] at h
  split at h
  · cases h
    rfl
  · obtain ⟨verdict, -, h⟩ := bind_eq_ok.1 h
    cases verdict with
    | some why =>
      cases h
      rfl
    | none =>
      dsimp only at h
      split at h <;> cases h <;> rfl

/-- Offering an instantiation allocates nothing, so the count that a walk along combinations goes by
is the one that filling in left. -/
theorem counts_offerNext (sel : Selector) (b : Block) : Match.Counts (sel.offerNext b) := by
  intro i found s
  cases found with
  | error fault => rfl
  | ok kept =>
    rw [offerNext]
    split
    · rfl
    · split
      · exact allocated_offer ‹_›
      · rfl

/-- The combinations that are tried for a match account for what happens while it is offered: the
numbers that are issued are theirs, and so are the tiles that are added. -/
theorem accounts_offerMatch {m : Match} (h : sel.offerMatch b m (kept, s) = .ok (kept', s')) :
    Accounts b (kept, s) (sel.matchCombinations b m (kept, s)) (kept', s') := by
  rw [offerMatch] at h
  dsimp only at h
  rw [Match.visit_eq_each] at h
  -- The walk carries the tiles kept or a fault; of a fault nothing is claimed.
  have horigin := @Match.each_keeps_of_tried b m _ (sel.offerNext b)
    (Flow.product (Match.optionsOf b m.submatches s).1)
    (fun found => ∀ ts, found = .ok ts → ∀ tile ∈ ts, tile ∈ kept
      ∨ ∃ i, Becomes b (sel.matchCombinations b m (kept, s)) i ∧ tile = i.toTile)
    (.ok kept, (Match.optionsOf b m.submatches s).2)
    (fun c hc i s₁ hrun found hfound => ?_) (fun ts hts => by cases hts; exact fun _ => .inl)
  · have hchained := (Match.chained_combinationsOfOptions b m.submatches s).append
      (@Match.chained_tried b m _ (sel.offerNext b)
        (Flow.product (Match.optionsOf b m.submatches s).1) (counts_offerNext sel b)
        (.ok kept, (Match.optionsOf b m.submatches s).2))
    split at h
    · rename_i heq
      cases h
      rw [heq] at hchained horigin
      exact ⟨hchained, horigin _ rfl⟩
    · cases h
  · cases found with
    | error fault => exact hfound
    | ok ts =>
      rw [offerNext]
      split
      · exact hfound
      · split
        · rename_i hoffer
          intro ts' hts'
          cases hts'
          refine offer_keeps (hfound ts rfl) (fun _ => .inr ⟨i, ?_, rfl⟩) hoffer
          exact ⟨c, List.mem_append_right _ hc, s₁, hrun⟩
        · intro ts' hts'
          cases hts'

/-- The combinations that are tried for candidates account for what happens while these are matched
and offered, one after the other, until there are enough tiles. -/
theorem accounts_offerCandidates {id : NodeId} {ps : List Pattern}
    (h : sel.offerCandidates b id ps (kept, s) = .ok (kept', s')) :
    Accounts b (kept, s) (sel.candidateCombinations b id ps (kept, s)) (kept', s') := by
  induction ps generalizing kept s with
  | nil =>
    cases h
    exact .refl _
  | cons p ps ih =>
    rw [offerCandidates] at h
    rw [candidateCombinations]
    -- There are enough tiles, or the next candidate is matched.
    split at h
    · cases h
      rw [if_pos ‹_›]
      exact .refl _
    · rw [if_neg ‹_›]
      obtain ⟨found, hfound, h⟩ := bind_eq_ok.1 h
      rw [hfound]
      cases found with
      | none => exact ih h
      | some m =>
        obtain ⟨⟨kept₁, s₁⟩, hoffer, h⟩ := bind_eq_ok.1 h
        dsimp only
        rw [hoffer]
        exact (accounts_offerMatch hoffer).trans (ih h)

/-! ## Soundness -/

/-- The combinations for a match of patterns of the tables are sound: what they emit was issued for
them or is spelled out. -/
theorem sound_matchCombinations {S : Nat → Prop} {m : Match} (hm : m.MadeWith (·.SpellsIn S))
    (kept : List Tile) (s : Session) :
    ∀ c ∈ sel.matchCombinations b m (kept, s), c.Sound S s.allocated := by
  obtain ⟨hpattern, hsubs⟩ := hm
  intro c hc
  rcases List.mem_append.1 hc with hc | hc
  · exact Match.sound_combinationsOfOptions m.submatches s hsubs c hc
  · have hoptions := @Match.stretchedOptions_optionsOf b S m.submatches s hsubs
    exact Match.sound_of_mem_tried (counts_offerNext sel b) hpattern hoptions hc

/-- The same of the combinations for candidates. The count that each starts from is at least the one
that the candidate was reached with. -/
theorem sound_candidateCombinations {id : NodeId} {ps : List Pattern}
    (hps : ∀ p ∈ ps, sel.tables.Answers p) (kept : List Tile) (s : Session) :
    ∀ c ∈ sel.candidateCombinations b id ps (kept, s), c.Sound sel.tables.Spells s.allocated := by
  -- The induction is on the candidates. What one of them issues raises the count, which suits the
  -- rest.
  induction ps generalizing kept s with
  | nil => exact fun c hc => by cases hc
  | cons p ps ih =>
    obtain ⟨hp, hrest⟩ := List.forall_mem_cons.1 hps
    intro c hc
    rw [candidateCombinations] at hc
    split at hc
    · cases hc
    · split at hc
      · rename_i m hm
        rcases List.mem_append.1 hc with hc | hc
        · exact sound_matchCombinations (hp.madeWith hm) kept s c hc
        · split at hc
          · rename_i progress hoffer
            obtain ⟨kept₁, s₁⟩ := progress
            exact (ih hrest kept₁ s₁ c hc).mono (accounts_offerMatch hoffer).chained.le
          · cases hc
      · exact ih hrest kept s c hc
      · cases hc

/-! ## Turns -/

/-- Fixed lowerings are offered without anything being allocated. -/
theorem foldlM_offer_keeps {tiles : List Tile}
    (h : tiles.foldlM (fun progress tile => sel.offer b tile progress) ([], s) = .ok (kept, s')) :
    s'.allocated = s.allocated ∧ ∀ tile ∈ kept, tile ∈ tiles := by
  refine foldlM_keeps (fun progress : Progress => progress.2.allocated = s.allocated
    ∧ ∀ tile ∈ progress.1, tile ∈ tiles) ?_ ⟨rfl, fun _ ht => absurd ht List.not_mem_nil⟩ h
  rintro ⟨kept₁, s₁⟩ ⟨kept₂, s₂⟩ tile htile ⟨hcount, hkept⟩ hoffer
  exact ⟨(allocated_offer hoffer).trans hcount, offer_keeps hkept (fun _ => htile) hoffer⟩

/-- A node takes its turn while the count goes from `lo` to `hi`. -/
structure Taken (S : Nat → Prop) (b : Block) (lo : Nat) (turn : Turn) (hi : Nat) : Prop where
  chained : Chained b lo turn.combinations hi
  sound : ∀ c ∈ turn.combinations, c.Sound S lo
  made : ∀ tile ∈ turn.tiles, turn.Makes b tile

/-- The tiles of a node carry only numbers that were issued in its turn, or numbers that stand in
templates and were issued by nobody. -/
theorem Taken.issues {S : Nat → Prop} {lo hi n : Nat} {turn : Turn} (h : Taken S b lo turn hi)
    (hn : turn.Carries n) : S n ∨ Issues lo hi n := by
  obtain ⟨tile, htile, hn⟩ := hn
  rcases h.made tile htile with ⟨fixed, hlower, hmem⟩ | ⟨i, hi, rfl⟩
  · -- A fixed lowering has no temporaries.
    obtain ⟨p, hp, hn⟩ := hn
    exact ((Block.areLowered_of_lower hlower tile hmem p hp).tempsIn n hn).elim
  · exact hi.issues h.chained h.sound (Instantiation.carries_iff.2 (.inl hn))

/-- A node that is given tiles has taken its turn: the tiles of its fixed lowering carry no numbers,
and those of patterns come with the combinations that were tried. -/
theorem taken_of_selectNode {id : NodeId} {tiles : List Tile}
    (h : sel.selectNode b id s = .ok (tiles, s')) :
    ∃ cs, sel.nodeCombinations b id s = .ok cs
      ∧ Taken sel.tables.Spells b s.allocated ⟨id, tiles, cs⟩ s'.allocated := by
  rw [selectNode, bind_eq_ok] at h
  obtain ⟨n, hn, h⟩ := h
  obtain ⟨fixed, hlower, h⟩ := bind_eq_ok.1 h
  obtain ⟨⟨kept₁, s₁⟩, hfold, h⟩ := bind_eq_ok.1 h
  obtain ⟨stored, hstored, h⟩ := bind_eq_ok.1 h
  obtain ⟨⟨kept₂, s₂⟩, hcandidates, h⟩ := bind_eq_ok.1 h
  cases h
  obtain ⟨hcount, hkept⟩ := foldlM_offer_keeps hfold
  have haccounts := accounts_offerCandidates hcandidates
  have hsound := @sound_candidateCombinations sel b id _
    (fun p hp => .inr ⟨n.op, stored, hp⟩) kept₁ s₁
  -- A tile is a fixed lowering, or it came from a combination.
  refine ⟨sel.candidateCombinations b id (sel.tables.candidates n.op stored) (kept₁, s₁), ?_,
    hcount ▸ haccounts.chained, hcount ▸ hsound, fun tile htile => ?_⟩
  · rw [nodeCombinations, hn, ok_bind, hlower, ok_bind, hfold, ok_bind, hstored, ok_bind]
    rfl
  · refine (haccounts.origin tile (List.mem_reverse.1 htile)).imp_left fun hfixed => ?_
    have hmem := hkept tile hfixed
    cases fixed with
    | none => cases hmem
    | some ts => exact ⟨ts, hlower, hmem⟩

/-- Turns that are taken one after the other while the count goes from `lo` to `hi`. -/
structure Ordered (S : Nat → Prop) (b : Block) (lo : Nat) (turns : List Turn) (hi : Nat) :
    Prop where
  chained : Chained b lo (turns.flatMap Turn.combinations) hi
  sound : ∀ turn ∈ turns, ∀ c ∈ turn.combinations, c.Sound S lo
  made : ∀ turn ∈ turns, ∀ tile ∈ turn.tiles, turn.Makes b tile
  stretched : Stretched S Turn.Carries lo turns hi

theorem Ordered.nil (S : Nat → Prop) (b : Block) (lo : Nat) : Ordered S b lo [] lo :=
  ⟨rfl, fun _ ht => absurd ht List.not_mem_nil, fun _ ht => absurd ht List.not_mem_nil,
    Nat.le_refl lo⟩

/-- A turn is put in front of others that start where it ends. -/
theorem Ordered.cons {S : Nat → Prop} {lo mid hi : Nat} {turn : Turn} {turns : List Turn}
    (hturn : Taken S b lo turn mid) (h : Ordered S b mid turns hi) :
    Ordered S b lo (turn :: turns) hi := by
  have hle := hturn.chained.le
  refine ⟨hturn.chained.append h.chained, List.forall_mem_cons.2 ⟨hturn.sound, ?_⟩,
    List.forall_mem_cons.2 ⟨hturn.made, h.made⟩, ⟨mid, hle, fun n => hturn.issues, h.stretched⟩⟩
  exact fun turn' hmem c hc => (h.sound turn' hmem c hc).mono hle

/-- **The turns of nodes are taken one after the other**, each from the count that the one before
left, and they are those of all nodes if each has a tile. Selection ends at the first node that has
none. -/
theorem ordered_turnsOf {ids : List NodeId} {outcome : Except CoverageError (List (List Tile))}
    (h : sel.selectNodes b ids s = .ok (outcome, s')) :
    Ordered sel.tables.Spells b s.allocated (sel.turnsOf b ids s) s'.allocated
      ∧ ∀ tiles, outcome = .ok tiles → (sel.turnsOf b ids s).map Turn.node = ids
          ∧ (sel.turnsOf b ids s).map Turn.tiles = tiles := by
  induction ids generalizing s outcome with
  | nil =>
    cases h
    refine ⟨.nil _ b _, fun tiles htiles => ?_⟩
    cases htiles
    exact ⟨rfl, rfl⟩
  | cons id ids ih =>
    rw [selectNodes, bind_eq_ok] at h
    obtain ⟨⟨tiles, s₁⟩, hselect, h⟩ := h
    obtain ⟨cs, hcs, hturn⟩ := taken_of_selectNode hselect
    rw [turnsOf, hselect, hcs]
    dsimp only at h ⊢
    split at h
    · -- The node has no tile, and its turn is the last.
      obtain ⟨n, -, h⟩ := bind_eq_ok.1 h
      cases h
      rw [if_pos ‹_›]
      exact ⟨.cons hturn (.nil _ b _), fun tiles htiles => by cases htiles⟩
    · obtain ⟨⟨rest, s₂⟩, hrest, h⟩ := bind_eq_ok.1 h
      cases h
      rw [if_neg ‹_›]
      obtain ⟨hordered, hall⟩ := ih hrest
      refine ⟨.cons hturn hordered, fun tiles' htiles' => ?_⟩
      cases rest with
      | error e => cases htiles'
      | ok more =>
        cases htiles'
        obtain ⟨hnodes, hmore⟩ := hall more rfl
        rw [List.map_cons, List.map_cons, hnodes, hmore]
        exact ⟨rfl, rfl⟩

/-- **Temporaries are hygienic.** Take a run over a block in which the count does not wrap. All that
is allocated is allocated by the combinations of its turns, one after the other, and all tiles but
the fixed lowerings are what they became. Within a combination that makes sense, names of
temporaries in the template have the same number exactly if they are the same name. What a
combination is issued differs from what its choices carry, choices for different groups carry
different numbers, and so do tiles of different nodes: these three hold up to numbers that a
template spells out, of which there are none in compiled tables. -/
theorem temporaries_hygienic {outcome : Except CoverageError (List (List Tile))}
    (hrun : sel.selectBlock b = .ok (outcome, s)) (hfew : s.allocated ≤ 2 ^ 32) :
    Chained b 0 (sel.combinations b) s.allocated
      ∧ (∀ c ∈ sel.combinations b, c.Hygienic sel.tables.Spells b)
      ∧ (∀ turn ∈ sel.turns b, ∀ tile ∈ turn.tiles, turn.Makes b tile)
      ∧ (∀ turn ∈ sel.turns b, ∀ turn' ∈ sel.turns b, turn.node ≠ turn'.node →
          ∀ tile ∈ turn.tiles, ∀ tile' ∈ turn'.tiles, ∀ n, tile.Carries n → tile'.Carries n →
          sel.tables.Spells n)
      ∧ (∀ tiles, outcome = .ok tiles →
          (sel.turns b).map Turn.node = b.ids ∧ (sel.turns b).map Turn.tiles = tiles)
      ∧ ∀ source, Tables.ofSource source = .ok sel.tables → ∀ n, ¬ sel.tables.Spells n := by
  obtain ⟨hordered, hall⟩ := ordered_turnsOf hrun
  -- Nothing is issued behind the end of the run, and up to there the counter has not wrapped
  -- around.
  refine ⟨hordered.chained, fun c hc => ?_, hordered.made, fun turn hturn turn' hturn' hne tile
    htile tile' htile' n hn hn' => ?_, hall, fun _ => Tables.not_spells_of_ofSource⟩
  · obtain ⟨turn, hturn, hmem⟩ := List.mem_flatMap.1 hc
    have hend := (hordered.chained.of_mem hc).2
    exact (hordered.sound turn hturn c hmem).hygienic (hend.trans hfew)
  · have hdiffer : turn ≠ turn' := fun heq => hne (congrArg Turn.node heq)
    exact hordered.stretched.apart_of_ne hfew hturn hturn' hdiffer ⟨tile, htile, hn⟩
      ⟨tile', htile', hn'⟩

/-! ### Runs with temporaries -/

/-- Whether a run covers the block with so many temporaries, tries such a combination and emits
these parts. -/
def shows (sel : Selector) (b : Block) (count : Nat) (wanted : Combination → Bool)
    (parts : List Part) : Bool :=
  match sel.selectBlock b with
  | .ok (.ok tiles, s) =>
    s.allocated == count && (sel.combinations b).any wanted
      && tiles.flatten.any fun tile => decide (tile.parts = parts)
  | _ => false

/-- What the check shows, taken apart: selection has an outcome with so many numbers issued, a
combination of the kind that is wanted, and a tile with the given parts. -/
theorem exists_run_of_shows {count : Nat} {wanted : Combination → Bool} {parts : List Part}
    (h : sel.shows b count wanted parts = true) :
    ∃ tiles s, sel.selectBlock b = .ok (.ok tiles, s) ∧ s.allocated = count
      ∧ (∃ c ∈ sel.combinations b, wanted c = true)
      ∧ ∃ tile ∈ tiles.flatten, tile.parts = parts := by
  -- Without an outcome the check fails.
  unfold shows at h
  split at h
  · rename_i tiles s hrun
    rw [Bool.and_eq_true, Bool.and_eq_true, beq_iff_eq] at h
    obtain ⟨⟨hcount, hwanted⟩, htile⟩ := h
    obtain ⟨tile, hmem, hparts⟩ := List.any_eq_true.1 htile
    exact ⟨tiles, s, hrun, hcount, List.any_eq_true.1 hwanted, tile, hmem, of_decide_eq_true hparts⟩
  · cases h

/-- Negations whose results are spilled, and their sum. -/
def spills : String :=
  "spill: (NEG (<a> LOCAL)) -> [<tmp>];
   negate: (NEG (<a> LOCAL)) -> [MOV <out>, <a>] [NEG <out>];
   both: (ADD <f> spill <g> spill) -> [MOV <tmp_f>, <f>] [MOV <tmp_g>, <g>] [ADD <tmp_f>, <tmp_g>];"

/-- The sum of two negated arguments. -/
def spilled : Block := Build.finish ⟨"spills", "f", "entry"⟩ do
  let x ← Build.arg 0 .i32
  let y ← Build.arg 1 .i32
  let f ← Build.op .neg .i32 [x]
  let g ← Build.op .neg .i32 [y]
  Build.op .add .i32 [f, g]

/-- What is emitted for the sum. -/
def spilledParts : List Part :=
  [.plain "MOV" [.temp 2 .i32 none, .temp 0 .i32 none],
   .plain "MOV" [.temp 3 .i32 none, .temp 1 .i32 none],
   .plain "ADD" [.temp 2 .i32 none, .temp 3 .i32 none]]

set_option maxRecDepth 10000 in
/-- Selecting for the sum shows a combination of the group under its two names. -/
theorem exists_shows_spilled : ∃ ps, Tables.ofSource spills = .ok (.ofPatterns ps)
    ∧ (Selector.mk (.ofPatterns ps) .default).shows spilled 4
        (fun c => c.chosen.map Prod.fst == ["f", "g"]) spilledParts = true :=
  @Tables.ofSource_of_check spills _ _ rfl (by decide +kernel)

/-- The group is included twice, and each time it has a temporary of its own. Four temporaries have
been allocated in the end: one for each inclusion, and two for the sum itself. -/
theorem temporaries_hygienic_spilled :
    ∃ sel : Selector, Tables.ofSource spills = .ok sel.tables ∧ ∃ tiles s,
      sel.selectBlock spilled = .ok (.ok tiles, s) ∧ s.allocated = 4
        ∧ (∃ tile ∈ tiles.flatten, tile.parts = spilledParts)
        ∧ (∃ c ∈ sel.combinations spilled, c.chosen.map Prod.fst = ["f", "g"]
            ∧ c.Hygienic sel.tables.Spells spilled)
        ∧ (sel.turns spilled).map Turn.tiles = tiles ∧ ∀ n, ¬ sel.tables.Spells n := by
  obtain ⟨ps, hps, hshows⟩ := exists_shows_spilled
  obtain ⟨tiles, s, hrun, hcount, ⟨c, hc, hchosen⟩, htile⟩ := exists_run_of_shows hshows
  have hfew : s.allocated ≤ 2 ^ 32 := hcount ▸ by decide
  obtain ⟨-, hhygienic, -, -, htiles, hcompiled⟩ := temporaries_hygienic hrun hfew
  exact ⟨_, hps, tiles, s, hrun, hcount, htile, ⟨c, hc, beq_iff_eq.1 hchosen, hhygienic c hc⟩,
    (htiles tiles rfl).2, hcompiled spills hps⟩

/-- Patterns that were put together by hand: the template of a negation spells out the first
temporary. -/
def spelling : List Pattern :=
  [⟨⟨"negation", 0⟩, .node none none .neg [.producer (some "a") none], [.temp 0 .i32 none]⟩,
   ⟨⟨"negate", 0⟩, .node none none .neg [.producer (some "a") none],
    [.plain "NEG" [.reference ["a"] none none]]⟩,
   ⟨⟨"complement", 0⟩, .node none none .not [.inclusion "f" "negation"],
    [.plain "MOV" [.reference ["tmp"] none none, .reference ["f"] none none]]⟩]

/-- The complement of a negated argument. -/
def spelled : Block := Build.finish ⟨"spelling", "f", "entry"⟩ do
  let x ← Build.arg 0 .i32
  let f ← Build.op .neg .i32 [x]
  Build.op .not .i32 [f]

/-- Whether a combination is issued a number which one of its choices emits. -/
def clashes (b : Block) (n : Nat) (c : Combination) : Bool :=
  decide (c.before.allocated ≤ n ∧ n < (c.run b).2.allocated ∧ n < 2 ^ 32)
    && c.chosen.any fun choice => choice.2.parts.any fun p => p.temps.contains n

/-- A clash, taken apart: the number was issued when the combination was filled in, and one of the
choices that were made before emits it as well. -/
theorem issues_of_clashes {n : Nat} {c : Combination} (h : clashes b n c = true) :
    Issues c.before.allocated (c.run b).2.allocated n
      ∧ ∃ choice ∈ c.chosen, ∃ p ∈ choice.2.parts, n ∈ p.temps := by
  rw [clashes, Bool.and_eq_true, decide_eq_true_eq] at h
  obtain ⟨⟨hlo, hhi, hfew⟩, hchosen⟩ := h
  obtain ⟨choice, hchoice, hparts⟩ := List.any_eq_true.1 hchosen
  obtain ⟨p, hp, hn⟩ := List.any_eq_true.1 hparts
  exact ⟨⟨n, hlo, hhi, (Session.tempNumber_of_lt hfew).symm⟩, choice, hchoice, p, hp,
    List.contains_iff_mem.1 hn⟩

/-- **A number that is spelled out is issued once more.** The temporary of the complement and the
result of the negation are the same, and the move does nothing. -/
theorem not_fresh_spelled :
    ∃ tiles s,
      (Selector.mk (.ofPatterns spelling) .default).selectBlock spelled = .ok (.ok tiles, s)
      ∧ s.allocated = 1
      ∧ (∃ c ∈ (Selector.mk (.ofPatterns spelling) .default).combinations spelled,
          Issues c.before.allocated (c.run spelled).2.allocated 0
            ∧ ∃ choice ∈ c.chosen, ∃ p ∈ choice.2.parts, 0 ∈ p.temps)
      ∧ ∃ tile ∈ tiles.flatten,
          tile.parts = [.plain "MOV" [.temp 0 .i32 none, .temp 0 .i32 none]] := by
  -- The template of the included pattern spells the number 0, which is also the first to be issued.
  obtain ⟨tiles, s, hrun, hcount, ⟨c, hc, hclashes⟩, htile⟩ :=
    @exists_run_of_shows ⟨.ofPatterns spelling, .default⟩ spelled 1 (clashes spelled 0)
      [.plain "MOV" [.temp 0 .i32 none, .temp 0 .i32 none]] (by decide +kernel)
  exact ⟨tiles, s, hrun, hcount, ⟨c, hc, issues_of_clashes hclashes⟩, htile⟩

end Selector

end TileSelect
