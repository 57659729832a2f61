import ShaderRecompiler.Glsl.Lines
import ShaderRecompiler.IR.Routine

/-! Functions that a program brings along for instructions without a GLSL
operator. Each is named after its instruction. -/
namespace ShaderRecompiler.Glsl

inductive Helper where
  | multiplyHighS32
  | multiplyHighU32
  | shuffle
  | shuffleDown
  | shuffleUp
  | shuffleXor
  | swizzleAdd
deriving DecidableEq, Repr

namespace Helper

def all : List Helper :=
  [multiplyHighS32, multiplyHighU32, shuffle, shuffleDown, shuffleUp, shuffleXor, swizzleAdd]

def bit (h : Helper) : Nat := 1 <<< h.ctorIdx

def ofInstruction? : Instruction → Option Helper
  | .multiplyHighS32 => some multiplyHighS32
  | .multiplyHighU32 => some multiplyHighU32
  | .shuffle => some shuffle
  | .shuffleDown => some shuffleDown
  | .shuffleUp => some shuffleUp
  | .shuffleXor => some shuffleXor
  | .swizzleAdd => some swizzleAdd
  | _ => none

structure Subgroup where
  invocation : String
  broadcast : String

def subgroup (shaderBallot : Bool) : Subgroup :=
  if shaderBallot then ⟨"gl_SubGroupInvocationARB", "readInvocationARB"⟩
  else ⟨"gl_SubgroupInvocationID", "subgroupBroadcast"⟩

/-- The width of a segment and the end of the lanes that may be read. -/
def segment (s : Subgroup) : Lines :=
  ["uint clamp = mask & 0x1fu;",
    "uint segMask = (mask >> 8) & 0x1fu;",
    s!"uint minThreadId = {s.invocation} & segMask;",
    "uint maxThreadId = minThreadId | (clamp & ~segMask);"]

/-- Reads the lane, or keeps the own value where the lane is out of range. -/
def exchange (s : Subgroup) (lane valid : String) : Lines :=
  [s!"uint srcThreadId = {lane};",
    s!"bool valid = {valid};",
    s!"float v = {s.broadcast}(x, srcThreadId);",
    "return valid ? v : x;"]

def bounded (s : Subgroup) (lane : String) : Lines :=
  segment s ++ exchange s lane "srcThreadId <= maxThreadId"

def signature : Helper → String
  | multiplyHighS32 => "int Helper_MultiplyHighS32(int x, int y)"
  | multiplyHighU32 => "uint Helper_MultiplyHighU32(uint x, uint y)"
  | shuffle => "float Helper_Shuffle(float x, uint index, uint mask)"
  | shuffleDown => "float Helper_ShuffleDown(float x, uint index, uint mask)"
  | shuffleUp => "float Helper_ShuffleUp(float x, uint index, uint mask)"
  | shuffleXor => "float Helper_ShuffleXor(float x, uint index, uint mask)"
  | swizzleAdd => "float Helper_SwizzleAdd(float x, float y, int mask)"

def body (s : Subgroup) : Helper → Lines
  | multiplyHighS32 => ["int msb;", "int lsb;", "imulExtended(x, y, msb, lsb);", "return msb;"]
  | multiplyHighU32 => ["uint msb;", "uint lsb;", "umulExtended(x, y, msb, lsb);", "return msb;"]
  | shuffle => bounded s "(index & ~segMask) | minThreadId"
  | shuffleDown => bounded s s!"{s.invocation} + index"
  | shuffleUp =>
    ["uint segMask = (mask >> 8) & 0x1fu;", s!"uint minThreadId = {s.invocation} & segMask;"] ++
      exchange s s!"{s.invocation} - index" "int(srcThreadId) >= int(minThreadId)"
  | shuffleXor => bounded s s!"{s.invocation} ^ index"
  | swizzleAdd =>
    ["vec4 xLut = vec4(1.0, -1.0, 1.0, 0.0);",
      "vec4 yLut = vec4(1.0, 1.0, -1.0, 1.0);",
      s!"int lutIdx = (mask >> (int({s.invocation} & 3u) * 2)) & 3;",
      "return x * xLut[lutIdx] + y * yLut[lutIdx];"]

def lines (shaderBallot : Bool) (h : Helper) : Lines :=
  [h.signature] ++ Lines.block (h.body (subgroup shaderBallot)) ""

def ofRoutine (r : Routine) : List Helper :=
  let called := r.allOps.filterMap fun (_, id) => ofInstruction? (r.op id).inst
  all.filter called.contains

end Helper
end ShaderRecompiler.Glsl
