import ShaderRecompiler.Glsl.Literal
import ShaderRecompiler.IR.Instruction

/-! The GLSL type of a value. Guest values are words; a change of type between
the 32-bit types keeps the bits. -/
namespace ShaderRecompiler.Glsl

inductive ValueType where
  | bool
  | s32
  | u32
  | f32
deriving DecidableEq, Repr, Inhabited

namespace ValueType

def ofNum : NumType → ValueType
  | .s32 => s32
  | .u32 => u32
  | .f32 => f32

def scalar : ValueType → String
  | bool => "bool"
  | s32 => "int"
  | u32 => "uint"
  | f32 => "float"

def letter : ValueType → String
  | bool => "b"
  | s32 => "i"
  | u32 => "u"
  | f32 => ""

def vector (type : ValueType) (components : Nat) : String := s!"{type.letter}vec{components}"

end ValueType

def constant (bits : UInt32) : ValueType → String
  | .bool => if bits = 0 then "false" else "true"
  | .s32 => Literal.int bits
  | .u32 => Literal.uint bits
  | .f32 => Literal.float bits

def cast (text : String) : ValueType → ValueType → String
  | .u32, .s32 => s!"int({text})"
  | .s32, .u32 => s!"uint({text})"
  | .u32, .f32 => s!"uintBitsToFloat({text})"
  | .s32, .f32 => s!"intBitsToFloat({text})"
  | .f32, .u32 => s!"floatBitsToUint({text})"
  | .f32, .s32 => s!"floatBitsToInt({text})"
  | .bool, .u32 => s!"({text} ? 0xffffffffu : 0u)"
  | .bool, .s32 => s!"({text} ? -1 : 0)"
  | .bool, .f32 => s!"({text} ? 1.0 : 0.0)"
  | .u32, .bool => s!"({text} != 0u)"
  | .s32, .bool => s!"({text} != 0)"
  | .f32, .bool => s!"({text} != 0.0)"
  | .bool, .bool | .s32, .s32 | .u32, .u32 | .f32, .f32 => text

def swizzles : List String := ["x", "y", "z", "w"]

/-- Some closing parenthesis before the last character ends the nesting. -/
def closesEarly (depth : Nat) : List Char → Bool
  | [] => false
  | '(' :: rest => closesEarly (depth + 1) rest
  | ')' :: rest => (depth ≤ 1 && !rest.isEmpty) || closesEarly (depth - 1) rest
  | _ :: rest => closesEarly depth rest

/-- One pair of parentheses encloses the whole text. -/
def isParenthesized (text : List Char) : Bool :=
  text.head? == some '(' && text.getLast? == some ')' && !closesEarly 0 text

def isWord (text : List Char) : Bool := text.all fun c => c.isAlphanum || c == '_'

/-- The negation of a boolean expression, in parentheses unless it is one term. -/
def negation (text : String) : String :=
  if isWord text.toList || isParenthesized text.toList then s!"!{text}" else s!"!({text})"

def arguments (parts : List String) : String := "(" ++ String.intercalate ", " parts ++ ")"

/-- A vector of the parts; a single part stands for itself. -/
def vectorOf (type : ValueType) (parts : List String) : String :=
  match parts with
  | [part] => part
  | _ => type.vector parts.length ++ arguments parts

end ShaderRecompiler.Glsl
