import Mathlib.Algebra.BigOperators.Group.List.Basic
import Mathlib.Data.BitVec
import Mathlib.Tactic.Ring
import TileSelect.Proofs.Meaning.Machine
/-!
Expressions over named words, and when two of them are the same.

A template does not compute words but an expression over what its names will stand for: the
instructions are carried out on formulas (`Formula.arithmetic`), and what comes out, evaluated, is
what the machine computes. Whether that is what the pattern stands for is a question about two
formulas. It is decided by multiplying both out: sums and products of words are polynomials, memory
and the bitwise operations are left as they are, and two formulas agree if nothing remains of their
difference.
-/

set_option autoImplicit false

namespace TileSelect

/-! ## Formulas -/

/-- An expression over words that have paths for names. -/
inductive Formula where
  | name (path : List String)
  | number (word : Word)
  | memory (address : Formula)
  | unary (f : Unary) (t : Formula)
  | binary (f : Binary) (s t : Formula)
deriving DecidableEq

namespace Formula

variable {w : World} {env : List String → Word}

/-- The word that a formula stands for. -/
def eval (w : World) (env : List String → Word) : Formula → Word
  | .name path => env path
  | .number x => x
  | .memory t => w.memory (t.eval w env)
  | .unary f t => f.apply (t.eval w env)
  | .binary f s t => f.apply (s.eval w env) (t.eval w env)

/-- A function of two formulas, of which nothing is kept that does not matter. -/
def combine : Binary → Formula → Formula → Formula
  | .second, _, t => t
  | f, s, t => .binary f s t

/-- Putting two formulas together loses nothing: what is left out is the first of two words of which
only the second counts. -/
@[simp] theorem eval_combine (f : Binary) (s t : Formula) :
    (combine f s t).eval w env = f.apply (s.eval w env) (t.eval w env) := by
  cases f <;> rfl

/-- Formulas as words. -/
def arithmetic : Arithmetic Formula := ⟨.memory, .unary, combine⟩

/-- Reading an operand as a formula and then asking for its word is reading the word of the operand.
-/
theorem eval_read (d : Datum Formula) :
    (arithmetic.read d).eval w env = w.arithmetic.read (d.map (eval w env)) := by
  cases d <;> rfl

/-- **An instruction does with formulas what it does with the words they stand for.** Instructions
can therefore be followed symbolically, once for all states in which a template may run. -/
theorem result?_eval {mnemonic : String} {old t : Formula} {data : List (Datum Formula)}
    (h : arithmetic.result? mnemonic old data = some t) :
    w.arithmetic.result? mnemonic (old.eval w env) (data.map (Datum.map (eval w env)))
      = some (t.eval w env) := by
  match data with
  | [] =>
    obtain ⟨f, hf, rfl⟩ := Option.map_eq_some_iff.1 h
    exact Option.map_eq_some_iff.2 ⟨f, hf, rfl⟩
  | [d] =>
    rw [Arithmetic.result?] at h
    rw [List.map_singleton, Arithmetic.result?]
    split at h
    · -- The address of a number is not defined, on either side.
      rename_i hlea
      rw [if_pos hlea]
      cases d with
      | number x => cases h
      | memory x =>
        cases h
        rfl
    · rename_i hlea
      rw [if_neg hlea]
      obtain ⟨f, hf, rfl⟩ := Option.map_eq_some_iff.1 h
      refine Option.map_eq_some_iff.2 ⟨f, hf, ?_⟩
      rw [← eval_read]
      exact (eval_combine f _ _).symm
  | _ :: _ :: _ => cases h

/-- The formula as it reads from outside, where its names are members of the one given. -/
def within (ident : String) : Formula → Formula
  | .name path => .name (ident :: path)
  | .number x => .number x
  | .memory t => .memory (t.within ident)
  | .unary f t => .unary f (t.within ident)
  | .binary f s t => .binary f (s.within ident) (t.within ident)

/-- A name of a group that is included reads from outside as a path that starts with the group, and
stands for the same word. -/
theorem eval_within (ident : String) (t : Formula) :
    (t.within ident).eval w env = t.eval w fun path => env (ident :: path) := by
  induction t with
  | name | number => rfl
  | memory t ih => simp only [within, eval, ih]
  | unary f t ih => simp only [within, eval, ih]
  | binary f s t ihs iht => simp only [within, eval, ihs, iht]

end Formula

/-! ## Polynomials -/

/-- A sum of products of formulas, each with a factor in front. -/
abbrev Poly := List (List Formula × Word)

namespace Poly

variable {value : Formula → Word}

/-- The word that a polynomial stands for, given what its formulas stand for. -/
def eval (value : Formula → Word) : Poly → Word
  | [] => 0
  | (m, c) :: p => c * (m.map value).prod + eval value p

/-- Adds a product; a factor that comes to nothing takes the product away. -/
def addProduct (m : List Formula) (c : Word) : Poly → Poly
  | [] => if c = 0 then [] else [(m, c)]
  | (m', c') :: p =>
    if m.isPerm m' then (if c + c' = 0 then p else (m', c + c') :: p)
    else (m', c') :: addProduct m c p

def const (c : Word) : Poly := addProduct [] c []

def atom (t : Formula) : Poly := [([t], 1)]

def add : Poly → Poly → Poly
  | [], q => q
  | (m, c) :: p, q => addProduct m c (add p q)

/-- Multiplies with one product. -/
def scale (m : List Formula) (c : Word) : Poly → Poly
  | [] => []
  | (m', c') :: p => addProduct (m ++ m') (c * c') (scale m c p)

def mul : Poly → Poly → Poly
  | [], _ => []
  | (m, c) :: p, q => add (scale m c q) (mul p q)

/-- Adding a product to a polynomial adds its word. The product is looked for among those that are
there, which is what the induction follows. -/
theorem eval_addProduct (m : List Formula) (c : Word) (p : Poly) :
    eval value (addProduct m c p) = c * (m.map value).prod + eval value p := by
  induction p with
  | nil =>
    rw [addProduct]
    split
    · rename_i hc
      simp [eval, hc]
    · rfl
  | cons entry p ih =>
    obtain ⟨m', c'⟩ := entry
    rw [addProduct]
    split
    · -- The same product up to order: the factors are added, and may cancel.
      rename_i hperm
      have hprod : (m.map value).prod = (m'.map value).prod :=
        ((List.isPerm_iff.1 hperm).map value).prod_eq
      have hsum : eval value ((m', c + c') :: p)
          = c * (m.map value).prod + eval value ((m', c') :: p) := by
        simp only [eval, hprod]
        ring
      rw [← hsum]
      split
      · rename_i hc
        simp [eval, hc]
      · rfl
    · simp only [eval, ih]
      ring

@[simp] theorem eval_const (c : Word) : eval value (const c) = c := by
  simp [const, eval_addProduct, eval]

/-- A formula that is not taken apart stands for its own word. -/
@[simp] theorem eval_atom (t : Formula) : eval value (atom t) = value t := by
  simp [atom, eval]

/-- A sum of polynomials stands for the sum of the words, as each product is added in its turn. -/
@[simp] theorem eval_add (p q : Poly) : eval value (add p q) = eval value p + eval value q := by
  induction p with
  | nil => simp [add, eval]
  | cons entry p ih => rw [add, eval_addProduct, ih, eval, add_assoc]

/-- Every product gets the same factors in front and behind, which come out of the sum. -/
@[simp] theorem eval_scale (m : List Formula) (c : Word) (p : Poly) :
    eval value (scale m c p) = c * (m.map value).prod * eval value p := by
  induction p with
  | nil => simp [scale, eval]
  | cons entry p ih =>
    rw [scale, eval_addProduct, ih, List.map_append, List.prod_append, eval]
    ring

/-- A product of polynomials stands for the product of the words. -/
@[simp] theorem eval_mul (p q : Poly) : eval value (mul p q) = eval value p * eval value q := by
  induction p with
  | nil => simp [mul, eval]
  | cons entry p ih =>
    rw [mul, eval_add, eval_scale, ih, eval]
    ring

/-- The bitwise complement, which is arithmetic too. -/
def complement (p : Poly) : Poly := add (scale [] (-1) p) (const (-1))

/-- The complement of a word is its negative less one, and so it is a polynomial like any other. -/
@[simp] theorem eval_complement (p : Poly) : eval value (complement p) = ~~~ eval value p := by
  simp only [complement, eval_add, eval_scale, eval_const, List.map_nil, List.prod_nil]
  have hnot : ~~~ eval value p = -eval value p - 1 := BitVec.not_eq_neg_add _
  rw [hnot]
  ring

end Poly

/-! ## Deciding agreement -/

namespace Formula

variable {w : World} {env : List String → Word}

/-- The number that a formula is, if it is one. -/
def literal? : Formula → Option Word
  | .number x => some x
  | _ => none

theorem eq_of_literal? {t : Formula} {x : Word} (h : t.literal? = some x) : t = .number x := by
  cases t <;> cases h
  rfl

/-- The formula, multiplied out. -/
def poly : Formula → Poly
  | .name path => .atom (.name path)
  | .number x => .const x
  | .memory t => .atom (.memory t)
  | .unary f t =>
    match f with
    | .increment => .add t.poly (.const 1)
    | .decrement => .add t.poly (.const (-1))
    | .negate => .scale [] (-1) t.poly
    | .complement => .complement t.poly
  | .binary f s t =>
    match f with
    | .second => t.poly
    | .add => .add s.poly t.poly
    | .sub => .add s.poly (.scale [] (-1) t.poly)
    | .mul => .mul s.poly t.poly
    | .shl =>
      match t.literal? with
      | some x => .scale [] (.twoPow 32 (x.toNat % 32)) s.poly
      | none => .atom (.binary .shl s t)
    | .xor => if t = .number (-1) then .complement s.poly else .atom (.binary .xor s t)
    | .and => .atom (.binary .and s t)
    | .or => .atom (.binary .or s t)

/-- Multiplying out a formula does not change its word, whatever its names stand for. The recursion
is that of the formula; what it does not know is kept whole. -/
theorem eval_poly (t : Formula) : Poly.eval (eval w env) t.poly = t.eval w env := by
  induction t with
  | name | memory => exact Poly.eval_atom _
  | number x => exact Poly.eval_const x
  | unary f t ih =>
    cases f <;> simp only [poly, eval, Unary.apply, Poly.eval_add, Poly.eval_const, Poly.eval_scale,
      Poly.eval_complement, ih, List.map_nil, List.prod_nil] <;> ring
  | binary f s t ihs iht =>
    cases f with
    | second => exact iht
    | add => simp only [poly, eval, Binary.apply, Poly.eval_add, ihs, iht]
    | sub =>
      simp only [poly, eval, Binary.apply, Poly.eval_add, Poly.eval_scale, ihs, iht, List.map_nil,
        List.prod_nil]
      ring
    | mul => simp only [poly, eval, Binary.apply, Poly.eval_mul, ihs, iht]
    | and | or => exact Poly.eval_atom _
    | xor =>
      simp only [poly]
      split
      · -- Exclusive or with all ones is the complement.
        rename_i ht
        have hones : (-1 : Word) = BitVec.allOnes 32 := by decide
        rw [Poly.eval_complement, ihs, ht]
        simp only [eval, Binary.apply, hones, BitVec.xor_allOnes]
      · exact Poly.eval_atom _
    | shl =>
      simp only [poly]
      split
      · -- A shift by a known count is a product with a power of two.
        rename_i x hx
        rw [eq_of_literal? hx, Poly.eval_scale, ihs]
        simp only [eval, Binary.apply, BitVec.shiftLeft_eq_mul_twoPow, List.map_nil, List.prod_nil]
        ring
      · exact Poly.eval_atom _

/-- Whether nothing remains of the difference of two formulas. -/
def agrees (s t : Formula) : Bool := (Poly.add s.poly (.scale [] (-1) t.poly)).isEmpty

/-- **Formulas that agree stand for the same word**, whatever their names stand for: the word of
their difference is the word of a polynomial without products, and that is zero. -/
theorem eval_eq_of_agrees {s t : Formula} (h : s.agrees t = true) :
    s.eval w env = t.eval w env := by
  have hzero : Poly.eval (eval w env) (Poly.add s.poly (.scale [] (-1) t.poly)) = 0 := by
    rw [List.isEmpty_iff.1 h]
    rfl
  rw [Poly.eval_add, Poly.eval_scale, eval_poly, eval_poly] at hzero
  rw [← sub_eq_zero, ← hzero]
  simp only [List.map_nil, List.prod_nil]
  ring

end Formula

end TileSelect
