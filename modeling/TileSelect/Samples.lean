import TileSelect.Block.Build
/-!
Sample blocks, to look at what a pattern file makes of them.

They make up one small function: a comparison that decides a branch, an update of memory with a
select, and a call on 64-bit values.
-/

set_option autoImplicit false

namespace TileSelect

namespace Samples

/-- A block of the sample function. -/
def block {α : Type} (name : String) (steps : Build α) : Block :=
  steps.finish ⟨"sample", "demo", name⟩

/-- If one argument is less than the other go to `less`, else go to `more`. -/
def entry : Block := block "entry" do
  let _ ← Build.terminator .entry [] [] none none
  let a ← Build.arg 0 .i32
  let b ← Build.arg 1 .i32
  let less ← Build.op .slt .i1 [a, b]
  Build.terminator .branch [less] ["less", "more"] none none

/-- Add four times an argument to a word in memory, and return the lesser argument. -/
def less : Block := block "less" do
  let a ← Build.arg 0 .i32
  let b ← Build.arg 1 .i32
  let p ← Build.arg 2 .pointer
  let four ← Build.int 4 .i32
  let scaled ← Build.op .mul .i32 [a, four]
  let old ← Build.load .i32 p none
  let sum ← Build.op .add .i32 [old, scaled]
  let _ ← Build.store p sum (some old)
  let isLess ← Build.op .slt .i1 [a, b]
  let least ← Build.op .select .i32 [isLess, a, b]
  Build.terminator .ret [least] [] none none

/-- Return the logarithm of the sum of two 64-bit arguments. -/
def more : Block := block "more" do
  let x ← Build.arg 3 .i64
  let y ← Build.arg 5 .i64
  let sum ← Build.op .add .i64 [x, y]
  let log ← Build.producer .call .i64 [sum] (some (.symbol "log")) none
  Build.terminator .ret [log] [] none none

/-- The blocks of the sample function. -/
def blocks : List Block := [entry, less, more]

end Samples

end TileSelect
