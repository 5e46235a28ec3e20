import TileSelect.Tables
/-!
The pattern file that comes with the library: 32-bit x86.

Arguments, constants, stack slots, selects, calls and control flow have fixed lowerings and need
no patterns (`TileSelect.Lowering`).
-/

set_option autoImplicit false

namespace TileSelect

/-- The text of the bundled pattern file. -/
def x86Source : String := "// Bundled instruction-selection patterns for 32-bit x86.
//
// Leaves (ARG, CONSTANT, SLOT), SELECT, calls and control flow are lowered
// by intrinsics and have no patterns here. 64-bit values live in register
// pairs and are addressed through `.lo` / `.hi`.

// ── Operand fragments ───────────────────────────────────────────────
// Templates of these groups are single operands, so they are only ever
// reached through inclusion.

src:
    (<r> LOCAL) -> [<r>]
  | (<c> CONSTANT) -> [<c>]
  ;

addr:
    (<p> LOCAL) -> [[<p>]]
  | (ADD (<b> LOCAL) (<d> CONSTANT)) -> [[<b> + <d>]]
  | (ADD (<b> LOCAL) (SHL (<i> LOCAL) (CONSTANT 2))) -> [[<b> + <i>*4]]
  | (ADD (<b> LOCAL) (<i> LOCAL)) -> [[<b> + <i>]]
  ;

index4:
    (SHL (<i> LOCAL) (CONSTANT 2)) -> [<i>*4]
  | (MUL (<i> LOCAL) (CONSTANT 4)) -> [<i>*4]
  ;

// ── Integer arithmetic ──────────────────────────────────────────────

add:
    (I32 ADD (<a> LOCAL) <b> src) -> [MOV <out>, <a>] [ADD <out>, <b>]
  | (I32 ADD (<a> LOCAL) (CONSTANT 1)) -> [MOV <out>, <a>] [INC <out>]
  | (I32 ADD (<a> LOCAL) (<m> LOAD <p> addr)) -> [MOV <out>, <a>] [ADD <out>, <p>]
  | (I32 ADD (<b> LOCAL) (<d> CONSTANT)) -> [LEA <out>, [<b> + <d>]]
  | (I32 ADD (<b> LOCAL) <i> index4) -> [LEA <out>, [<b> + <i>]]
  | (I64 ADD (<a> LOCAL) <b> src)
      -> [MOV <out.lo>, <a.lo>] [MOV <out.hi>, <a.hi>]
         [ADD <out.lo>, <b.lo>] [ADC <out.hi>, <b.hi>]
  ;

sub:
    (I32 SUB (<a> LOCAL) <b> src) -> [MOV <out>, <a>] [SUB <out>, <b>]
  | (I32 SUB (<a> LOCAL) (CONSTANT 1)) -> [MOV <out>, <a>] [DEC <out>]
  | (I32 SUB (CONSTANT 0) (<a> LOCAL)) -> [MOV <out>, <a>] [NEG <out>]
  | (I64 SUB (<a> LOCAL) <b> src)
      -> [MOV <out.lo>, <a.lo>] [MOV <out.hi>, <a.hi>]
         [SUB <out.lo>, <b.lo>] [SBB <out.hi>, <b.hi>]
  ;

mul:
    (I32 MUL (<a> LOCAL) <b> src) -> [MOV <out>, <a>] [IMUL <out>, <b>]
  | (I32 MUL (<a> LOCAL) (CONSTANT 2)) -> [MOV <out>, <a>] [ADD <out>, <out>]
  | (I32 MUL (<a> LOCAL) <i> index4) -> [MOV <out>, <a>] [IMUL <out>, <i.i>] [SHL <out>, 2]
  ;

div:
    (I32 SDIV (<a> LOCAL) (<b> LOCAL)) -> [MOV eax, <a>] [CDQ] [IDIV <b>] [MOV <out>, eax]
  | (I32 SREM (<a> LOCAL) (<b> LOCAL)) -> [MOV eax, <a>] [CDQ] [IDIV <b>] [MOV <out>, edx]
  | (I32 UDIV (<a> LOCAL) (<b> LOCAL)) -> [MOV eax, <a>] [XOR edx, edx] [DIV <b>] [MOV <out>, eax]
  | (I32 UREM (<a> LOCAL) (<b> LOCAL)) -> [MOV eax, <a>] [XOR edx, edx] [DIV <b>] [MOV <out>, edx]
  | (I32 UDIV (<a> LOCAL) (CONSTANT 2)) -> [MOV <out>, <a>] [SHR <out>, 1]
  ;

logic:
    (AND (<a> LOCAL) <b> src) -> [MOV <out>, <a>] [AND <out>, <b>]
  | (OR (<a> LOCAL) <b> src) -> [MOV <out>, <a>] [OR <out>, <b>]
  | (XOR (<a> LOCAL) <b> src) -> [MOV <out>, <a>] [XOR <out>, <b>]
  | (XOR (<a> LOCAL) (CONSTANT -1)) -> [MOV <out>, <a>] [NOT <out>]
  | (I64 AND (<a> LOCAL) (<b> LOCAL))
      -> [MOV <out.lo>, <a.lo>] [MOV <out.hi>, <a.hi>]
         [AND <out.lo>, <b.lo>] [AND <out.hi>, <b.hi>]
  ;

shift:
    (I32 SHL (<a> LOCAL) (<c> CONSTANT)) -> [MOV <out>, <a>] [SHL <out>, <c>]
  | (I32 SHR (<a> LOCAL) (<c> CONSTANT)) -> [MOV <out>, <a>] [SHR <out>, <c>]
  | (I32 SAR (<a> LOCAL) (<c> CONSTANT)) -> [MOV <out>, <a>] [SAR <out>, <c>]
  | (I32 SHL (<a> LOCAL) (<n> LOCAL)) -> [MOV ecx, <n>] [MOV <out>, <a>] [SHL <out>, cl]
  | (I32 SHR (<a> LOCAL) (<n> LOCAL)) -> [MOV ecx, <n>] [MOV <out>, <a>] [SHR <out>, cl]
  | (I32 SAR (<a> LOCAL) (<n> LOCAL)) -> [MOV ecx, <n>] [MOV <out>, <a>] [SAR <out>, cl]
  ;

unary:
    (NEG (<a> LOCAL)) -> [MOV <out>, <a>] [NEG <out>]
  | (NOT (<a> LOCAL)) -> [MOV <out>, <a>] [NOT <out>]
  | (I64 NEG (<a> LOCAL))
      -> [MOV <out.lo>, <a.lo>] [MOV <out.hi>, <a.hi>]
         [NEG <out.lo>] [ADC <out.hi>, 0] [NEG <out.hi>]
  ;

// ── Conversions ─────────────────────────────────────────────────────

convert:
    (I32 ZEXT (<a> I1 LOCAL)) -> [MOVZX <out>, <a>]
  | (I32 ZEXT (<a> I8 LOCAL)) -> [MOVZX <out>, <a>]
  | (I32 ZEXT (<a> I16 LOCAL)) -> [MOVZX <out>, <a>]
  | (I16 ZEXT (<a> I8 LOCAL)) -> [MOVZX <out>, <a>]
  | (I64 ZEXT (<a> I32 LOCAL)) -> [MOV <out.lo>, <a>] [MOV <out.hi>, 0]
  | (I32 SEXT (<a> I8 LOCAL)) -> [MOVSX <out>, <a>]
  | (I32 SEXT (<a> I16 LOCAL)) -> [MOVSX <out>, <a>]
  | (I16 SEXT (<a> I8 LOCAL)) -> [MOVSX <out>, <a>]
  | (I64 SEXT (<a> I32 LOCAL))
      -> [MOV eax, <a>] [CDQ] [MOV <out.lo>, eax] [MOV <out.hi>, edx]
  | (I32 TRUNC (<a> I64 LOCAL)) -> [MOV <out>, <a.lo>]
  | (I16 TRUNC (<a> I32 LOCAL)) -> [MOV <out>, <a.lo>]
  | (I8 TRUNC (<a> I16 LOCAL)) -> [MOV <out>, <a.lo>]
  | (I8 TRUNC (<a> I32 LOCAL)) -> [MOV <out>, <a:I8>]
  | (I1 TRUNC (<a> LOCAL)) -> [MOV <out>, <a:I1>] [AND <out>, 1]
  ;

// ── Comparisons ─────────────────────────────────────────────────────

compare:
    (EQ (<a> LOCAL) <b> src) -> [CMP <a>, <b>] [SET.eq <out>]
  | (NE (<a> LOCAL) <b> src) -> [CMP <a>, <b>] [SET.ne <out>]
  | (SLT (<a> LOCAL) <b> src) -> [CMP <a>, <b>] [SET.lt <out>]
  | (SLE (<a> LOCAL) <b> src) -> [CMP <a>, <b>] [SET.le <out>]
  | (SGT (<a> LOCAL) <b> src) -> [CMP <a>, <b>] [SET.gt <out>]
  | (SGE (<a> LOCAL) <b> src) -> [CMP <a>, <b>] [SET.ge <out>]
  | (ULT (<a> LOCAL) <b> src) -> [CMP <a>, <b>] [SET.b <out>]
  | (ULE (<a> LOCAL) <b> src) -> [CMP <a>, <b>] [SET.be <out>]
  | (UGT (<a> LOCAL) <b> src) -> [CMP <a>, <b>] [SET.a <out>]
  | (UGE (<a> LOCAL) <b> src) -> [CMP <a>, <b>] [SET.ae <out>]
  | (EQ (<a> LOCAL) (CONSTANT 0)) -> [TEST <a>, <a>] [SET.eq <out>]
  | (NE (<a> LOCAL) (CONSTANT 0)) -> [TEST <a>, <a>] [SET.ne <out>]
  ;

// ── Memory ──────────────────────────────────────────────────────────

load:
    (I32 LOAD <m> addr) -> [MOV <out>, <m>]
  | (I16 LOAD <m> addr) -> [MOV <out>, <m>]
  | (I8 LOAD <m> addr) -> [MOV <out>, <m>]
  | (I1 LOAD <m> addr) -> [MOV <out>, <m>]
  | (I64 LOAD (<p> LOCAL)) -> [MOV <out.lo>, [<p>]] [MOV <out.hi>, [<p> + 4]]
  ;

store:
    (STORE <m> addr (<v> I32 LOCAL)) -> [MOV <m>, <v>]
  | (STORE <m> addr (<v> I16 LOCAL)) -> [MOV <m>, <v>]
  | (STORE <m> addr (<v> I8 LOCAL)) -> [MOV <m>, <v>]
  | (STORE <m> addr (<v> I1 LOCAL)) -> [MOV <m>, <v>]
  | (STORE <m> addr (<c> CONSTANT)) -> [MOV <m>, <c>]
  | (STORE (<p> LOCAL) (<v> I64 LOCAL)) -> [MOV [<p>], <v.lo>] [MOV [<p> + 4], <v.hi>]
  ;

// Read-modify-write forms, found through the store-value index.
store_rmw:
    (STORE (<p> LOCAL) (I32 ADD (LOAD p) <b> src)) -> [ADD [<p>], <b>]
  | (STORE (<p> LOCAL) (I32 SUB (LOAD p) <b> src)) -> [SUB [<p>], <b>]
  | (STORE (<p> LOCAL) (AND (LOAD p) <b> src)) -> [AND [<p>], <b>]
  | (STORE (<p> LOCAL) (OR (LOAD p) <b> src)) -> [OR [<p>], <b>]
  | (STORE (<p> LOCAL) (XOR (LOAD p) <b> src)) -> [XOR [<p>], <b>]
  | (STORE (<p> LOCAL) (I32 ADD (<a> LOCAL) <b> src))
      -> [MOV <tmp>, <a>] [ADD <tmp>, <b>] [MOV [<p>], <tmp>]
  ;
"

/-- The tables of the bundled pattern file. -/
def x86Tables : Except CompileError Tables := Tables.ofSource x86Source

end TileSelect
