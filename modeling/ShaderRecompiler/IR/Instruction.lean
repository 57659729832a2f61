/-! What an operation computes. Words are untyped; each arithmetic instruction
names the interpretation of the words it works on. -/
namespace ShaderRecompiler

inductive NumType where
  | s32
  | u32
  | f32
deriving DecidableEq, Repr, Inhabited

/-- The letter GLSL puts before a vector, sampler or image of this type. -/
def NumType.letter : NumType → String
  | s32 => "i"
  | u32 => "u"
  | f32 => ""

inductive Comparison where
  | equal
  | notEqual
  | less
  | lessOrEqual
  | greater
  | greaterOrEqual
deriving DecidableEq, Repr, Inhabited

def Comparison.symbol : Comparison → String
  | equal => "=="
  | notEqual => "!="
  | less => "<"
  | lessOrEqual => "<="
  | greater => ">"
  | greaterOrEqual => ">="

inductive Sampler where
  | oneD
  | twoD
  | twoDArray
  | threeD
  | cube
  | buffer
deriving DecidableEq, Repr, Inhabited

namespace Sampler

def coordinates : Sampler → Nat
  | oneD | buffer => 1
  | twoD => 2
  | twoDArray | threeD | cube => 3

def suffix : Sampler → String
  | oneD => "1D"
  | twoD => "2D"
  | twoDArray => "2DArray"
  | threeD => "3D"
  | cube => "Cube"
  | buffer => "Buffer"

def textureKeyword (s : Sampler) (result : NumType) : String := result.letter ++ "sampler" ++ s.suffix

def imageKeyword (s : Sampler) (format : NumType) : String := format.letter ++ "image" ++ s.suffix

end Sampler

structure TextureOp where
  binding : Nat
  sampler : Sampler
  /-- The coordinates are texel numbers. -/
  intCoords : Bool
  /-- A level of detail follows the coordinates. -/
  lod : Bool
  component : Nat
  result : NumType
deriving DecidableEq, Repr, Inhabited

/-- A load yields one component, a store writes all four. -/
structure ImageOp where
  binding : Nat
  sampler : Sampler
  component : Nat
  format : NumType
deriving DecidableEq, Repr, Inhabited

inductive Instruction where
  | copy
  | add (type : NumType)
  | subtract (type : NumType)
  | multiply (type : NumType)
  | divide (type : NumType)
  | negate (type : NumType)
  | absolute (type : NumType)
  | minimum (type : NumType)
  | maximum (type : NumType)
  | fusedMultiplyAdd
  | bitwiseAnd
  | bitwiseOr
  | bitwiseExclusiveOr
  | bitwiseNot
  | bitCount
  | shiftLeft
  | shiftRightS32
  | shiftRightU32
  | compare (comparison : Comparison) (type : NumType)
  | logicalAnd
  | logicalOr
  | logicalExclusiveOr
  | logicalNot
  | conditionalSelect (type : NumType)
  | convertFP32ToS32
  | convertFP32ToU32
  | convertS32ToFP32
  | convertU32ToFP32
  | multiplyHighS32
  | multiplyHighU32
  | shuffle
  | shuffleDown
  | shuffleUp
  | shuffleXor
  | swizzleAdd
  | load
  | store
  | textureSample (texture : TextureOp)
  | imageLoad (image : ImageOp)
  | imageStore (image : ImageOp)
  | barrier
  | branch
  | branchIfTrue
  | branchIfFalse
  | markLabel
  | ret
  | discard
  | emitVertex
  | endPrimitive
deriving DecidableEq, Repr, Inhabited

namespace Instruction

def isTerminator : Instruction → Bool
  | branch | branchIfTrue | branchIfFalse | ret => true
  | _ => false

def isConditionalBranch : Instruction → Bool
  | branchIfTrue | branchIfFalse => true
  | _ => false

/-- Control never falls through it. -/
def isJump : Instruction → Bool
  | branch | ret => true
  | _ => false

def name : Instruction → String
  | copy => "Copy"
  | add _ => "Add"
  | subtract _ => "Subtract"
  | multiply _ => "Multiply"
  | divide _ => "Divide"
  | negate _ => "Negate"
  | absolute _ => "Absolute"
  | minimum _ => "Minimum"
  | maximum _ => "Maximum"
  | fusedMultiplyAdd => "FusedMultiplyAdd"
  | bitwiseAnd => "BitwiseAnd"
  | bitwiseOr => "BitwiseOr"
  | bitwiseExclusiveOr => "BitwiseExclusiveOr"
  | bitwiseNot => "BitwiseNot"
  | bitCount => "BitCount"
  | shiftLeft => "ShiftLeft"
  | shiftRightS32 => "ShiftRightS32"
  | shiftRightU32 => "ShiftRightU32"
  | compare .. => "Compare"
  | logicalAnd => "LogicalAnd"
  | logicalOr => "LogicalOr"
  | logicalExclusiveOr => "LogicalExclusiveOr"
  | logicalNot => "LogicalNot"
  | conditionalSelect _ => "ConditionalSelect"
  | convertFP32ToS32 => "ConvertFP32ToS32"
  | convertFP32ToU32 => "ConvertFP32ToU32"
  | convertS32ToFP32 => "ConvertS32ToFP32"
  | convertU32ToFP32 => "ConvertU32ToFP32"
  | multiplyHighS32 => "MultiplyHighS32"
  | multiplyHighU32 => "MultiplyHighU32"
  | shuffle => "Shuffle"
  | shuffleDown => "ShuffleDown"
  | shuffleUp => "ShuffleUp"
  | shuffleXor => "ShuffleXor"
  | swizzleAdd => "SwizzleAdd"
  | load => "Load"
  | store => "Store"
  | textureSample _ => "TextureSample"
  | imageLoad _ => "ImageLoad"
  | imageStore _ => "ImageStore"
  | barrier => "Barrier"
  | branch => "Branch"
  | branchIfTrue => "BranchIfTrue"
  | branchIfFalse => "BranchIfFalse"
  | markLabel => "MarkLabel"
  | ret => "Return"
  | discard => "Discard"
  | emitVertex => "EmitVertex"
  | endPrimitive => "EndPrimitive"

end Instruction
end ShaderRecompiler
