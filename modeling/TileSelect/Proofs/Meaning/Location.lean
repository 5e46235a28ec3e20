import Mathlib.Data.BitVec
import Mathlib.Tactic.Ring
import TileSelect.Proofs.Expansion.Occurrences
import TileSelect.Proofs.Expansion.Lasting
/-!
Filling in keeps the location of a memory operand.

The components of an address change their roles while it is filled in. A constant that was meant as
a base or an index becomes a displacement, an index that is scaled already is taken over with its
scale, a whole address takes the place of a base alone, and displacements are added up. None of
this may change where the operand points. A location is a word of 64 bits, base plus scaled index
plus offset, for any words that values, temporaries, registers and symbols may stand for; a
component that has itself become a memory operand counts as its own location.

Every step of a draft adds the location of the component it takes, times the scale for an index.
Numbers are added and scaled by the machine's own wrapping arithmetic, which is the arithmetic of
words.
-/

set_option autoImplicit false

namespace TileSelect

/-! ## Locations -/

namespace Part

mutual

/-- Where a part points, given the words that its atoms stand for. -/
def location (word : Part → BitVec 64) : Part → BitVec 64
  | .memory ⟨base, index, scale, offset⟩ =>
    locationOf word base + locationOf word index * BitVec.ofNat 64 scale + locationOf word offset
  | .imm v _ => v.toBitVec
  | p => word p

/-- What a component adds, which is nothing if it is absent. -/
def locationOf (word : Part → BitVec 64) : Option Part → BitVec 64
  | none => 0
  | some p => location word p

end

end Part

/-- Base plus scaled index plus offset. -/
def Address.location (word : Part → BitVec 64) (a : Address Part) : BitVec 64 :=
  Part.locationOf word a.base + Part.locationOf word a.index * BitVec.ofNat 64 a.scale
    + Part.locationOf word a.offset

namespace Part

variable (word : Part → BitVec 64)

theorem location_memory (a : Address Part) : (Part.memory a).location word = a.location word := by
  obtain ⟨base, index, scale, offset⟩ := a
  rw [location, Address.location]

/-- A displacement points as far as its number says, whatever its type. -/
theorem location_imm (v : Int64) (ty : Option ValueType) :
    (Part.imm v ty).location word = v.toBitVec := by
  rw [location]

theorem location_literal (v : Int64) : (Part.literal v).location word = v.toBitVec :=
  location_imm word v none

theorem locationOf_none : locationOf word none = 0 := by
  rw [locationOf]

theorem locationOf_some (p : Part) : locationOf word (some p) = p.location word := by
  rw [locationOf]

end Part

/-! ## Drafts -/

namespace Draft

variable {d d' : Draft} {p q : Part} (word : Part → BitVec 64)

/-- Where a draft points so far. -/
def location (d : Draft) : BitVec 64 :=
  Part.locationOf word d.base + Part.locationOf word d.index * BitVec.ofNat 64 d.scale
    + (d.displacements.map (Part.location word)).sum

/-- Nothing has been put into an empty draft, so it points to zero. -/
theorem location_start : Draft.start.location word = 0 := by
  simp [location, start, Part.locationOf_none]

/-- A displacement that is put on the list adds what it is worth. -/
theorem location_displace (d : Draft) (p : Part) :
    (d.displace p).location word = d.location word + p.location word := by
  simp only [location, displace, List.map_append, List.map_singleton, List.sum_append,
    List.sum_singleton, add_assoc]

/-- Adding a base adds its location: a constant is put among the displacements, and anything else
becomes the base, of which there has been none. -/
theorem location_addBase (hbase : d.base = none) (h : d.addBase p = .ok d') :
    d'.location word = d.location word + p.location word ∧ d'.index = d.index := by
  rw [addBase] at h
  split at h
  · cases h
    exact ⟨location_displace word d p, rfl⟩
  · split at h
    · cases h
      refine ⟨?_, rfl⟩
      simp only [location, hbase, Part.locationOf_none, Part.locationOf_some]
      ring
    · cases h

/-- Adding an index adds its location as often as the scale says. An index that is scaled already is
taken over only where the scale is one, and a number is scaled at once. -/
theorem location_addIndex {scale : Nat} (hindex : d.index = none)
    (h : d.addIndex scale p = .ok d') :
    d'.location word = d.location word + p.location word * BitVec.ofNat 64 scale := by
  -- Wrapping products of numbers are products of words.
  unfold addIndex at h
  split at h
  · rename_i inner
    split at h
    · rename_i hscaled
      split at h
      · rename_i hone
        cases h
        -- The address is an index alone, so its location is the scaled index that is taken over.
        simp only [Address.isScaledIndex, Bool.and_eq_true, Option.isNone_iff_eq_none] at hscaled
        simp only [location, hindex, hone, Part.location_memory, Address.location, hscaled.1.2,
          hscaled.2, Part.locationOf_none, BitVec.mul_one]
        ring
      · cases h
    · cases h
  · rename_i v ty
    cases h
    rw [location_displace, Part.location_imm, Part.location_imm, Int64.toBitVec_mul,
      Int64.toBitVec_ofNat']
  · split at h
    · rename_i hconst
      rw [Bool.and_eq_true, beq_iff_eq] at hconst
      cases h
      rw [location_displace, hconst.2, BitVec.mul_one]
    · split at h
      · cases h
        simp only [location, hindex, Part.locationOf_none, Part.locationOf_some]
        ring
      · cases h

/-- Adding an offset adds its location. -/
theorem location_addOffset (h : d.addOffset p = .ok d') :
    d'.location word = d.location word + p.location word := by
  rw [addOffset] at h
  split at h
  · cases h
    exact location_displace word d p
  · cases h

/-- Adding up displacements adds up their locations, since sums of numbers wrap as sums of words do.
The induction is on the displacements, for every sum they may be added to. -/
theorem location_foldlM_addDisplacement {rest : List Part} {first : Part}
    (h : rest.foldlM addDisplacement first = .ok q) :
    q.location word = first.location word + (rest.map (Part.location word)).sum := by
  induction rest generalizing first with
  | nil =>
    cases h
    simp
  | cons next rest ih =>
    rw [List.foldlM_cons, bind_eq_ok] at h
    obtain ⟨sum, hsum, h⟩ := h
    unfold addDisplacement at hsum
    split at hsum
    · cases hsum
      rw [ih h, Part.location_literal, Part.location_imm, Int64.toBitVec_add, List.map_cons,
        List.sum_cons, Part.location_imm, add_assoc]
    · cases hsum

/-- The offset of a finished address points as far as all displacements of the draft together.
Without displacements there is no offset, and both are zero. -/
theorem location_offset {o : Option Part} (h : d.offset = .ok o) :
    Part.locationOf word o = (d.displacements.map (Part.location word)).sum := by
  unfold offset at h
  split at h
  · rename_i hnil
    cases h
    rw [hnil, Part.locationOf_none]
    rfl
  · rename_i first rest hcons
    rw [map_eq_pure_bind, bind_eq_ok] at h
    obtain ⟨sum, hsum, h⟩ := h
    cases h
    rw [hcons, Part.locationOf_some, location_foldlM_addDisplacement word hsum, List.map_cons,
      List.sum_cons]

/-- A draft becomes an address at the location of the draft; only its displacements are put together
to one offset. -/
theorem location_finish (h : d.finish = .ok q) :
    ∃ c, q = .memory c ∧ ∀ word, c.location word = d.location word := by
  rw [finish, bind_eq_ok] at h
  obtain ⟨o, ho, h⟩ := h
  split at h
  · cases h
  · cases h
    refine ⟨_, rfl, fun word => ?_⟩
    rw [Address.location, location, location_offset word ho]

/-- A base that stands alone is adopted where it points: an address as it is, a constant as an
offset, and anything else as a base. -/
theorem location_ofLoneBase (h : ofLoneBase p = .ok q) :
    ∃ c, q = .memory c ∧ ∀ word, c.location word = p.location word := by
  unfold ofLoneBase at h
  split at h
  · rename_i inner
    cases h
    exact ⟨inner, rfl, fun word => (Part.location_memory word inner).symm⟩
  · split at h
    · cases h
      refine ⟨_, rfl, fun word => ?_⟩
      simp [Address.location, Address.ofOffset, Part.locationOf_none, Part.locationOf_some]
    · split at h
      · cases h
        refine ⟨_, rfl, fun word => ?_⟩
        simp [Address.location, Address.ofBase, Part.locationOf_none, Part.locationOf_some]
      · cases h

/-- Adding a component that is there adds its location, as often as it is taken; one that is absent
adds nothing. The three components are instances of this. -/
theorem location_addOption {add : Draft → Part → Except SubstFault Draft} {o : Option Part}
    {weight : BitVec 64}
    (hadd : ∀ p, add d p = .ok d' → d'.location word = d.location word + p.location word * weight)
    (h : addOption add d o = .ok d') :
    d'.location word = d.location word + Part.locationOf word o * weight := by
  cases o with
  | none =>
    cases h
    rw [Part.locationOf_none]
    ring
  | some p =>
    rw [Part.locationOf_some]
    exact hadd p h

/-- **Components are put together to an address at their sum**, the index scaled. A lone base is
adopted; otherwise the steps of the draft add up, and no index has been there when the index is
added. -/
theorem Assembles.location {base index offset : Option Part} {scale : Nat}
    (h : Assembles base index scale offset q) :
    ∃ c, q = .memory c
      ∧ ∀ word, c.location word = (⟨base, index, scale, offset⟩ : Address Part).location word := by
  cases h with
  | lone adopted =>
    obtain ⟨c, rfl, hc⟩ := location_ofLoneBase adopted
    refine ⟨c, rfl, fun word => ?_⟩
    rw [hc, Address.location, Part.locationOf_none, Part.locationOf_some]
    ring
  | @joined _ _ _ _ d₁ d₂ d₃ _ addedBase addedIndex addedOffset finished =>
    obtain ⟨c, rfl, hc⟩ := location_finish finished
    refine ⟨c, rfl, fun word => ?_⟩
    -- An index may come with the base only where that was adopted alone.
    have hindex : d₁.index = none := by
      cases base with
      | none =>
        cases addedBase
        rfl
      | some p => exact (location_addBase word rfl addedBase).2
    have h₁ : d₁.location word = 0 + Part.locationOf word base * 1 := by
      rw [← location_start word]
      exact location_addOption word
        (fun p hp => by rw [mul_one]; exact (location_addBase word rfl hp).1) addedBase
    have h₂ := location_addOption word (fun p => location_addIndex word hindex) addedIndex
    have h₃ : d₃.location word = d₂.location word + Part.locationOf word offset * 1 :=
      location_addOption word
        (fun p hp => by rw [mul_one]; exact location_addOffset word hp) addedOffset
    rw [hc, h₃, h₂, h₁, Address.location]
    ring

end Draft

/-! ## Memory operands of templates -/

/-- What the memory operands of a compiled template become can be encoded. Operands are filled in
for names of three kinds, values, constants and inclusions, and only inclusions may bring memory
operands, which have been built from compiled templates themselves. -/
theorem Filling.everywhere_fill_encodable (f : Filling) {a : Address Part} {t t' : Temporaries}
    {q : Part} {source : String} {tables : Tables} (htables : Tables.ofSource source = .ok tables)
    (hfinds : tables.Finds f.block f.record)
    (hchooses : Match.Chooses f.block f.record.submatches f.chosen) (hkeeps : f.Keeps t)
    (hwritten : ∃ p ∈ f.record.pattern.template, .memory a ∈ p.pieces)
    (h : (fill f (.memory a)).run.run t = (.ok q, t')) : q.Everywhere Part.EncodableMemory := by
  have hsimple : ∀ {r : Part}, r.isComposite = false → r.Everywhere Part.EncodableMemory :=
    Part.encodableMemory_of_not_isComposite
  -- Values and constants are no addresses; what an inclusion brings has been built in its turn.
  have hnames : f.Refers (·.Everywhere Part.EncodableMemory) := by
    refine refers_of_choices (fun r hr => hsimple (not_isComposite_of_valueOf hr))
      (fun name k r _ hr => hsimple (not_isComposite_of_captured hr)) ?_
    rintro ⟨name, sub⟩ hsub
    obtain ⟨ms, m', hms, hm', hinst⟩ := hchooses.of_mem hsub
    have hfound := hfinds.of_mem_submatches (Tables.wellScoped_of_ofSource htables) hms hm'
    exact hfound.builtOf_encodableMemory htables hinst
  have hsources : f.Sources (·.Everywhere Part.EncodableMemory) t.allocated t'.allocated :=
    ⟨Part.lasting_encodableMemory, hnames, fun _ _ _ _ => hsimple rfl⟩
  -- The template was accepted, so its components are what an address may have.
  have hready : (Part.memory a).Everywhere (Part.Ready (·.Everywhere Part.EncodableMemory)) := by
    obtain ⟨p, hp, ha⟩ := hwritten
    intro r hr
    refine (((hfinds.compiled htables).written p hp).of_mem_pieces ha r hr).ready ?_ ?_ ?_
    · rintro name rfl
      exact hsimple rfl
    · rintro register rfl
      exact hsimple rfl
    · exact fun hconst => hsimple (Part.not_isComposite_of_isConstant hconst)
  have hhold : t.Hold (·.Everywhere Part.EncodableMemory) t.allocated := by
    refine ⟨Nat.le_refl _, fun key p hp => ?_⟩
    obtain ⟨name, k, -, rfl⟩ := hkeeps key p hp
    exact hsimple rfl
  exact (lasts_fill hsources (.memory a) t t' q hready hhold (Nat.le_refl _) h).2

/-- **Filling in a memory operand keeps its location**: what becomes of it points where the
template points with the filled-in components in their places. If the template was compiled, and
the choices were made with compiled tables, the target can encode the result, and no memory operand
is nested inside. -/
theorem Filling.fill_memory_location {f : Filling} {a : Address Part} {t t' : Temporaries}
    {q : Part} (h : (fill f (.memory a)).run.run t = (.ok q, t')) :
    ∃ base index offset t₁ t₂ c, (fillOption f a.base).run.run t = (.ok base, t₁)
      ∧ (fillOption f a.index).run.run t₁ = (.ok index, t₂)
      ∧ (fillOption f a.offset).run.run t₂ = (.ok offset, t')
      ∧ q = .memory c
      ∧ (∀ word, Part.locationOf word c.base
            + Part.locationOf word c.index * BitVec.ofNat 64 c.scale + Part.locationOf word c.offset
          = Part.locationOf word base
            + Part.locationOf word index * BitVec.ofNat 64 a.scale + Part.locationOf word offset)
      ∧ ∀ source tables, Tables.ofSource source = .ok tables → tables.Finds f.block f.record →
          Match.Chooses f.block f.record.submatches f.chosen → f.Keeps t →
          (∃ p ∈ f.record.pattern.template, .memory a ∈ p.pieces) →
          c.Encodable ∧ ∀ inner, .memory inner ∈ q.pieces → inner = c := by
  obtain ⟨base, index, offset, t₁, t₂, hbase, hindex, hoffset, hassembles⟩ := fill_memory h
  obtain ⟨c, rfl, hc⟩ := hassembles.location
  refine ⟨base, index, offset, t₁, t₂, c, hbase, hindex, hoffset, rfl, hc, ?_⟩
  intro source tables htables hfinds hchooses hkeeps hwritten
  have hmemory : (Part.memory c).Everywhere Part.EncodableMemory :=
    f.everywhere_fill_encodable htables hfinds hchooses hkeeps hwritten h
  have hencodable := hmemory.self c rfl
  refine ⟨hencodable, fun inner hinner => ?_⟩
  exact Part.memory.inj (hencodable.eq_of_isComposite hinner rfl)

/-! ## A table of numbers -/

namespace Filling

/-- A load from a table at a fixed place, the index scaled by a group of its own. -/
def tableLoads : String :=
  "scaled: (MUL (<i> LOCAL) (CONSTANT 4)) -> [<i> * 4];
   load: (LOAD (ADD scaled (<table> CONSTANT))) -> [MOV <out>, [<table> + <scaled> + 8]];"

/-- The word in a table at 16 that an argument selects. -/
def tableLoad : Block := Build.finish ⟨"tables", "f", "entry"⟩ do
  let i ← Build.arg 0 .i32
  let four ← Build.int 4 .i32
  let scaled ← Build.op .mul .i32 [i, four]
  let table ← Build.int 16 .i32
  let place ← Build.op .add .i32 [scaled, table]
  Build.load .i32 place none

/-- What the memory operand of the load becomes: the number is a displacement now and added up
with the other, and the index has the scale of the group. -/
def tableLoadOperand : Part :=
  .memory ⟨none, some (.value 0 .i32 none), 4, some (.literal 24)⟩

/-- Whether a pattern matches at a node, with one group included, and the memory operand of its one
instruction is filled in like this for the first choice. -/
def fillsIn (b : Block) (id : NodeId) (q : Part) (t : Tables) (p : Pattern) : Bool :=
  match t.matchAt b id p with
  | .ok (some m) =>
    match (Match.optionsOf b m.submatches .start).1, m.pattern.template with
    | [(name, i :: _)], [.instruction _ _ [_, .memory a]] =>
      match ((fill ⟨b, m, [(name, i)]⟩ (.memory a)).run.run ⟨0, []⟩).1 with
      | .ok q' => decide (q' = q)
      | .error _ => false
    | _, _ => false
  | _ => false

/-- The check, passed, gives everything that is asked about a memory operand that has been filled
in: the match, the choice for its one group and the run. -/
theorem exists_of_fillsIn {b : Block} {id : NodeId} {q : Part} {t : Tables} {p : Pattern}
    (hp : p ∈ t.patterns) (h : fillsIn b id q t p = true) :
    ∃ f : Filling, f.block = b ∧ t.Finds f.block f.record
      ∧ Match.Chooses f.block f.record.submatches f.chosen
      ∧ ∃ a t', (∃ p ∈ f.record.pattern.template, .memory a ∈ p.pieces)
          ∧ (fill f (.memory a)).run.run ⟨0, []⟩ = (.ok q, t') := by
  unfold fillsIn at h
  split at h
  · rename_i m hm
    split at h
    · rename_i name i rest mnemonic condition o a hoptions htemplate
      have hchooses : Match.Chooses b m.submatches [(name, i)] := by
        refine Match.chooses_of_picks (Match.offers_optionsOf m.submatches .start) ?_
        rw [hoptions]
        exact .cons ⟨rfl, List.mem_cons_self⟩ .nil
      refine ⟨⟨b, m, [(name, i)]⟩, rfl, ⟨_, id, p, hp, hm⟩, hchooses, a, ?_⟩
      -- The run is not looked into: its outcome is all that matters.
      generalize (fill ⟨b, m, [(name, i)]⟩ (.memory a)).run.run ⟨0, []⟩ = outcome at h ⊢
      obtain ⟨result, after⟩ := outcome
      cases result with
      | error fault => cases h
      | ok q' =>
        rw [decide_eq_true_eq] at h
        refine ⟨after, ⟨_, by rw [htemplate]; exact List.mem_cons_self, ?_⟩, by rw [h]⟩
        exact Part.mem_pieces_instruction.2 (.inr ⟨.memory a, by simp, Part.mem_pieces_self _⟩)
    · cases h
  · cases h

set_option maxRecDepth 10000 in
/-- The pattern with the table passes the check at the load. -/
theorem exists_fillsIn_tableLoad : ∃ ps, Tables.ofSource tableLoads = .ok (.ofPatterns ps)
    ∧ (Tables.ofPatterns ps).patterns.any
        (fillsIn tableLoad 5 tableLoadOperand (.ofPatterns ps)) = true :=
  @Tables.ofSource_of_check tableLoads _ _ rfl (by decide +kernel)

/-- The operand of the load points to four times the argument behind 24, and can be encoded. The 24
are the place of the table and the displacement of the template, added up. -/
theorem fill_memory_location_tableLoad :
    ∃ t f a t', Tables.ofSource tableLoads = .ok t ∧ t.Finds f.block f.record
      ∧ Match.Chooses f.block f.record.submatches f.chosen ∧ f.Keeps ⟨0, []⟩
      ∧ (∃ p ∈ f.record.pattern.template, .memory a ∈ p.pieces)
      ∧ (fill f (.memory a)).run.run ⟨0, []⟩ = (.ok tableLoadOperand, t')
      ∧ (∃ base index offset t₁ t₂, (fillOption f a.base).run.run ⟨0, []⟩ = (.ok base, t₁)
          ∧ (fillOption f a.index).run.run t₁ = (.ok index, t₂)
          ∧ (fillOption f a.offset).run.run t₂ = (.ok offset, t')
          ∧ ∀ word, tableLoadOperand.location word
              = (⟨base, index, a.scale, offset⟩ : Address Part).location word)
      ∧ ∀ c, tableLoadOperand = .memory c → c.Encodable := by
  obtain ⟨ps, hps, hany⟩ := exists_fillsIn_tableLoad
  obtain ⟨p, hp, hfills⟩ := List.any_eq_true.1 hany
  obtain ⟨f, -, hfinds, hchooses, a, t', hwritten, hrun⟩ := exists_of_fillsIn hp hfills
  have hkeeps : f.Keeps ⟨0, []⟩ := fun _ _ h => absurd h List.not_mem_nil
  obtain ⟨base, index, offset, t₁, t₂, c, hbase, hindex, hoffset, hq, hlocation, hcompiled⟩ :=
    fill_memory_location hrun
  obtain ⟨hencodable, -⟩ := hcompiled tableLoads _ hps hfinds hchooses hkeeps hwritten
  refine ⟨_, f, a, t', hps, hfinds, hchooses, hkeeps, hwritten, hrun,
    ⟨base, index, offset, t₁, t₂, hbase, hindex, hoffset, ?_⟩, ?_⟩
  · intro word
    rw [hq, Part.location_memory]
    exact hlocation word
  · intro c' hc'
    rw [hq] at hc'
    cases hc'
    exact hencodable

end Filling

end TileSelect
