import TileSelect.Proofs.Asm.Pieces
import TileSelect.Proofs.Pattern.References
import TileSelect.Proofs.Pattern.WellFormed
/-!
What compiled templates are made of.

The compiler builds templates from what is written in the source, so no value and no temporary
stands in them before they are filled in. It refuses more than two operands and scales that the
target cannot encode. The grammar of operands has no instructions, so an instruction of a template
is one of its items and never an operand.
-/

set_option autoImplicit false

namespace TileSelect

/-- Whether the part is an instruction. -/
def Part.isInstruction : Part → Bool
  | .instruction .. => true
  | _ => false

/-- What may be a piece of a template. -/
def Part.Written : Part → Prop
  | .instruction _ _ operands => operands.length ≤ 2 ∧ ∀ o ∈ operands, o.isInstruction = false
  | .memory address => address.scale ∈ Address.scales
  | .value .. | .temp .. => False
  | .label _ | .reference .. | .register _ | .imm .. | .symbol _ => True

namespace Definition

variable {scope : Scope}

/-- The part of an operand: not an instruction, and made of what may stand in a template. -/
structure OperandPart (p : Part) : Prop where
  isInstruction : p.isInstruction = false
  everywhere : p.Everywhere Part.Written

/-- A part that contains no others is an operand if it may be written. -/
theorem operandPart_of_not_isComposite {p : Part} (hsimple : p.isComposite = false)
    (hwritten : p.Written) : OperandPart p := by
  refine ⟨?_, (Part.everywhere_iff_of_not_isComposite hsimple).2 hwritten⟩
  cases p with
  | instruction | memory => cases hsimple
  | label | reference | register | value | temp | imm | symbol => rfl

/-- An address is an operand if its scale can be encoded and its components may be written. The
scale is the only thing in it that is not a component. -/
theorem operandPart_memory {a : Address Part} :
    OperandPart (.memory a) ↔ a.scale ∈ Address.scales
      ∧ ∀ p, a.base = some p ∨ a.index = some p ∨ a.offset = some p →
          p.Everywhere Part.Written := by
  have hiff : OperandPart (.memory a) ↔ (Part.memory a).Everywhere Part.Written :=
    ⟨fun h => h.everywhere, fun h => ⟨rfl, h⟩⟩
  rw [hiff, Part.everywhere_memory]
  simp only [or_imp, forall_and]
  exact Iff.rfl

/-- A scale that is accepted can be encoded, being one of the four that there are. -/
theorem mem_scales {s : Int64} {span : Span} {n : Nat} (h : scale s span = .ok n) :
    n ∈ Address.scales := by
  rw [scale] at h
  split at h
  · rename_i hs
    cases h
    rcases hs with rfl | rfl | rfl | rfl <;> decide
  · cases h

/-- What a term does to an address: its components are those it had and the term, and it keeps a
scale that can be encoded. -/
theorem placeTerm_eq_ok {span : Span} {address address' : Address Part} {part : Part}
    {factor : Option Int64} (h : placeTerm span address part factor = .ok address') :
    (address.scale ∈ Address.scales → address'.scale ∈ Address.scales)
      ∧ ∀ p, address'.base = some p ∨ address'.index = some p ∨ address'.offset = some p →
          address.base = some p ∨ address.index = some p ∨ address.offset = some p ∨ p = part := by
  -- A scaled index; an offset; a base; or else an index with the scale one.
  unfold placeTerm at h
  split at h
  · split at h
    · cases h
    · obtain ⟨s, hs, h⟩ := bind_eq_ok.1 h
      cases h
      exact ⟨fun _ => mem_scales hs, by grind⟩
  · split at h
    · split at h <;> cases h
      exact ⟨fun hscale => hscale, by grind⟩
    · split at h
      · cases h
        exact ⟨fun hscale => hscale, by grind⟩
      · split at h <;> cases h
        exact ⟨fun _ => List.mem_cons_self, by grind⟩

mutual

/-- **An operand compiles to a part of what may stand in a template.** The recursion is the
compiler's; an address is followed through its terms. -/
theorem operandPart_of_operandPart : ∀ (o : Operand) (p : Part), operandPart scope o = .ok p →
    OperandPart p
  | .number v span, p, h => by
    cases h
    exact operandPart_of_not_isComposite rfl trivial
  | .label name span, p, h => by
    cases h
    exact operandPart_of_not_isComposite rfl trivial
  | .name name span, p, h => by
    cases h
    rw [namePart]
    split <;> exact operandPart_of_not_isComposite rfl trivial
  | .reference path ty span, p, h => by
    rw [operandPart, reference] at h
    dsimp only at h
    split at h
    · obtain ⟨ty', -, h⟩ := bind_eq_ok.1 h
      cases h
      exact operandPart_of_not_isComposite rfl trivial
    · cases h
  | .scaled index factor span, p, h => by
    rw [operandPart, bind_eq_ok] at h
    obtain ⟨part, hpart, h⟩ := h
    obtain ⟨s, hs, h⟩ := bind_eq_ok.1 h
    cases h
    have hindex := operandPart_of_operandPart index part hpart
    refine operandPart_memory.2 ⟨mem_scales hs, fun q hq => ?_⟩
    rcases hq with hq | hq | hq <;> cases hq
    exact hindex.everywhere
  | .memory terms span, p, h => by
    rw [operandPart, bind_eq_ok] at h
    obtain ⟨address, haddress, h⟩ := h
    cases h
    refine operandPart_of_termsAddress terms span .empty address ?_ haddress
    exact operandPart_memory.2 ⟨by decide, by simp [Address.empty]⟩

/-- Terms that are put into an address leave it an address that may be written. The recursion is on
the terms. -/
theorem operandPart_of_termsAddress : ∀ (terms : List (Operand × Option Int64)) (span : Span)
    (address address' : Address Part), OperandPart (.memory address) →
    termsAddress scope span terms address = .ok address' → OperandPart (.memory address')
  | [], span, address, address', haddress, h => by
    cases h
    exact haddress
  | (atom, factor) :: rest, span, address, address', haddress, h => by
    rw [termsAddress] at h
    split at h
    · cases h
    · obtain ⟨part, hpart, h⟩ := bind_eq_ok.1 h
      obtain ⟨address₁, hplace, h⟩ := bind_eq_ok.1 h
      have hatom := operandPart_of_operandPart atom part hpart
      obtain ⟨hscale, hold⟩ := operandPart_memory.1 haddress
      obtain ⟨hkeeps, hcomponents⟩ := placeTerm_eq_ok hplace
      refine operandPart_of_termsAddress rest span address₁ address' ?_ h
      refine operandPart_memory.2 ⟨hkeeps hscale, fun q hq => ?_⟩
      -- A component was there before, or it is the term.
      rcases hcomponents q hq with hq | hq | hq | rfl
      · exact hold q (.inl hq)
      · exact hold q (.inr (.inl hq))
      · exact hold q (.inr (.inr hq))
      · exact hatom.everywhere

end

/-- A walk along a list gives as many results as there are elements. -/
theorem length_of_mapM {ε α β : Type} {f : α → Except ε β} {l : List α} {r : List β}
    (h : l.mapM f = .ok r) : r.length = l.length := by
  have hmap : r.map (fun _ => ()) = l.map fun _ => () := map_of_mapM (fun _ _ _ _ => rfl) h
  simpa using congrArg List.length hmap

/-- An item is a label, an operand, or an instruction of at most two operands, none of which is an
instruction in turn. -/
theorem everywhere_itemPart {item : Item} {p : Part} (h : itemPart scope item = .ok p) :
    p.Everywhere Part.Written := by
  unfold itemPart at h
  split at h
  · cases h
    exact (Part.everywhere_iff_of_not_isComposite rfl).2 trivial
  · exact (operandPart_of_operandPart _ p h).everywhere
  · split at h
    · cases h
    · rename_i hfew
      obtain ⟨condition, -, h⟩ := bind_eq_ok.1 h
      obtain ⟨parts, hparts, h⟩ := bind_eq_ok.1 h
      cases h
      have hoperand : ∀ o ∈ parts, OperandPart o := by
        intro o ho
        obtain ⟨operand, -, hoperand⟩ := mem_of_mapM hparts o ho
        exact operandPart_of_operandPart operand o hoperand
      have hlength : parts.length ≤ 2 := by
        rw [length_of_mapM hparts]
        omega
      exact Part.everywhere_instruction.2
        ⟨⟨hlength, fun o ho => (hoperand o ho).isInstruction⟩,
          fun o ho => (hoperand o ho).everywhere⟩

/-- No identifier of a compiled pattern has a name of fixed meaning, since introducing one would
have been refused. -/
theorem unreserved_of_conversion {groups : List String} {c : Conversion} {root : Shape}
    {template : List Part} (h : conversion groups c = .ok (root, template)) :
    ∀ i ∈ root.idents, isReserved i = false := by
  rw [conversion, bind_eq_ok] at h
  obtain ⟨⟨s, scope⟩, hs, h⟩ := h
  obtain ⟨parts, -, h⟩ := bind_eq_ok.1 h
  cases h
  obtain ⟨-, hfresh, hscope⟩ := (shape_eq_ok c.expr [] scope).1 ⟨root, hs⟩
  obtain ⟨hperm, -⟩ := extends_of_shape c.expr [] scope root hs
  rw [List.nil_append] at hscope hperm
  intro i hi
  have hmem : i ∈ c.expr.introduced groups := hscope ▸ hperm.mem_iff.2 hi
  rw [← Bool.not_eq_true, isReserved_iff]
  exact (hfresh.2 i hmem).1

end Definition

/-! ## Compiled patterns -/

/-- A pattern as the compiler makes them. -/
structure Pattern.Compiled (p : Pattern) : Prop extends p.WellScoped where
  unreserved : ∀ i ∈ p.root.idents, isReserved i = false
  written : ∀ q ∈ p.template, q.Everywhere Part.Written

/-- **Compiled tables are made of compiled patterns**, each of which comes from a conversion of the
document. -/
theorem Tables.compiled_of_ofSource {source : String} {t : Tables} {p : Pattern}
    (h : Tables.ofSource source = .ok t) (hp : p ∈ t.patterns) : p.Compiled := by
  have hscoped := (wellScoped_of_ofSource h).of_mem_patterns hp
  obtain ⟨document, ps, -, rfl, hps⟩ := exists_conversions_of_ofSource h
  obtain ⟨g, -, c, -, hconv⟩ := hps p (mem_patterns_ofPatterns.1 hp)
  refine ⟨hscoped, Definition.unreserved_of_conversion hconv, fun q hq => ?_⟩
  rw [Definition.conversion, bind_eq_ok] at hconv
  obtain ⟨⟨s, scope⟩, -, hconv⟩ := hconv
  obtain ⟨parts, hparts, hconv⟩ := bind_eq_ok.1 hconv
  rw [pure_eq_ok, Prod.mk.injEq] at hconv
  obtain ⟨item, -, hitem⟩ := mem_of_mapM hparts q (hconv.2 ▸ hq)
  exact Definition.everywhere_itemPart hitem

end TileSelect
