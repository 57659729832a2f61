import ShaderRecompiler.AttributeType
import ShaderRecompiler.Declaration
import ShaderRecompiler.Guest.Instruction
import ShaderRecompiler.Host
import ShaderRecompiler.IR.Storage
import ShaderRecompiler.Stage

/-! Names of settings and kinds, for hosts that read or write them as text. -/
namespace ShaderRecompiler

/-- A type of which every value has a name. -/
class Named (α : Type) where
  all : List (String × α)

namespace Named

variable {α : Type} [Named α]

def ofName? (name : String) : Option α := all.lookup name

/-- Every value is listed, so the fallback is never taken. -/
def name [BEq α] (value : α) : String := ((all.find? (·.2 == value)).map (·.1)).getD ""

end Named

instance : Named Stage where
  all := [("Compute", .compute), ("Vertex", .vertex), ("TessellationControl", .tessControl),
    ("TessellationEvaluation", .tessEvaluation), ("Geometry", .geometry), ("Fragment", .fragment)]

instance : Named Api where
  all := [("OpenGl", .openGl), ("Vulkan", .vulkan)]

instance : Named InputTopology where
  all := [("Points", .points), ("Lines", .lines), ("LinesAdjacency", .linesAdjacency),
    ("Triangles", .triangles), ("TrianglesAdjacency", .trianglesAdjacency)]

instance : Named OutputTopology where
  all := [("PointList", .pointList), ("LineStrip", .lineStrip), ("TriangleStrip", .triangleStrip)]

instance : Named PatchKind where
  all := [("Isolines", .isolines), ("Triangles", .triangles), ("Quads", .quads)]

instance : Named PatchSpacing where
  all := [("EqualSpacing", .equal), ("FractionalEvenSpacing", .fractionalEven),
    ("FractionalOddSpacing", .fractionalOdd)]

instance : Named Interpolation where
  all := [("Perspective", .perspective), ("Constant", .constant), ("ScreenLinear", .screenLinear)]

instance : Named BaseType where
  all := [("Float", .float), ("Sint", .sint), ("Uint", .uint), ("Sscaled", .sscaled),
    ("Uscaled", .uscaled)]

instance : Named Packing where
  all := [("None", .none), ("Packed", .packed), ("Rgb10A2Signed", .signed10And2)]

instance : Named NumType where
  all := [("S32", .s32), ("U32", .u32), ("F32", .f32)]

instance : Named Comparison where
  all := [("Equal", .equal), ("NotEqual", .notEqual), ("Less", .less),
    ("LessOrEqual", .lessOrEqual), ("Greater", .greater), ("GreaterOrEqual", .greaterOrEqual)]

instance : Named Sampler where
  all := [("Texture1D", .oneD), ("Texture2D", .twoD), ("Texture2DArray", .twoDArray),
    ("Texture3D", .threeD), ("TextureCube", .cube), ("TextureBuffer", .buffer)]

instance : Named BufferLayout where
  all := [("Std140", .std140), ("Std430", .std430)]

instance : Named Storage where
  all := [Storage.none, .input, .output, .inputPerPatch, .outputPerPatch, .constantBuffer,
    .storageBuffer, .localMemory, .sharedMemory].map fun s => (s.name, s)

instance : Named IoVariable where
  all := IoVariable.all.map fun v => (v.name, v)

instance : Named Guest.SystemRegister where
  all := [("LaneId", .laneId), ("InvocationId", .invocationId), ("TidX", .tidX), ("TidY", .tidY),
    ("TidZ", .tidZ), ("CtaIdX", .ctaIdX), ("CtaIdY", .ctaIdY), ("CtaIdZ", .ctaIdZ),
    ("EqMask", .eqMask), ("LtMask", .ltMask), ("LeMask", .leMask), ("GtMask", .gtMask),
    ("GeMask", .geMask)]

instance : Named Guest.LogicOp where
  all := [("And", .and), ("Or", .or), ("Xor", .xor)]

instance : Named Guest.ShuffleMode where
  all := [("Index", .index), ("Up", .up), ("Down", .down), ("Butterfly", .butterfly)]

namespace Instruction

/-- Instructions that say all by their name. -/
def plain : List Instruction :=
  [copy, fusedMultiplyAdd, bitwiseAnd, bitwiseOr, bitwiseExclusiveOr, bitwiseNot, bitCount,
    shiftLeft, shiftRightS32, shiftRightU32, logicalAnd, logicalOr, logicalExclusiveOr, logicalNot,
    convertFP32ToS32, convertFP32ToU32, convertS32ToFP32, convertU32ToFP32, multiplyHighS32,
    multiplyHighU32, shuffle, shuffleDown, shuffleUp, shuffleXor, swizzleAdd, load, store, barrier,
    branch, branchIfTrue, branchIfFalse, markLabel, ret, discard, emitVertex, endPrimitive]

def typed (type : NumType) : List Instruction :=
  [add type, subtract type, multiply type, divide type, negate type, absolute type, minimum type,
    maximum type, conditionalSelect type]

end Instruction
end ShaderRecompiler
