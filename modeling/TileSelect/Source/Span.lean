/-!
Byte ranges of a source text.

Text is a list of characters and positions count the bytes of its encoding, so the length that
matters here is `byteLength`. It is additive over concatenation; that is the whole reason why
positions assigned from left to right agree with positions found by cutting the text.
-/

set_option autoImplicit false

namespace TileSelect

/-- A range of bytes, from `start` up to and not including `stop`. -/
structure Span where
  start : Nat
  stop : Nat
deriving DecidableEq

namespace Span

/-- The smallest span that covers both. -/
def join (a b : Span) : Span := ⟨min a.start b.start, max a.stop b.stop⟩

/-- The empty span at a position. -/
def point (n : Nat) : Span := ⟨n, n⟩

end Span

/-- The number of bytes that encode a text. -/
def byteLength : List Char → Nat
  | [] => 0
  | c :: cs => c.utf8Size + byteLength cs

@[simp] theorem byteLength_nil : byteLength [] = 0 := rfl

@[simp] theorem byteLength_cons (c : Char) (cs : List Char) :
    byteLength (c :: cs) = c.utf8Size + byteLength cs := rfl

@[simp] theorem byteLength_append (s t : List Char) :
    byteLength (s ++ t) = byteLength s + byteLength t := by
  induction s with
  | nil => simp
  | cons c s ih => simp [ih, Nat.add_assoc]

end TileSelect
