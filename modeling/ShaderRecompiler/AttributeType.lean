import ShaderRecompiler.IR.Instruction

/-! How a vertex attribute is stored and what its reader sees. -/
namespace ShaderRecompiler

inductive BaseType where
  | float
  | sint
  | uint
  /-- Integers that the fetch turns into floats. -/
  | sscaled
  | uscaled
deriving DecidableEq, Repr, Inhabited

def BaseType.numType : BaseType → NumType
  | sint => .s32
  | uint => .u32
  | float | sscaled | uscaled => .f32

inductive Packing where
  | none
  /-- Several components share one word and the fetch selects one of them. -/
  | packed
  /-- Ten bits for each of three components and two for the fourth, all signed. -/
  | signed10And2
deriving DecidableEq, Repr, Inhabited

structure AttributeType where
  base : BaseType := .float
  packing : Packing := .none
deriving DecidableEq, Repr, Inhabited

end ShaderRecompiler
