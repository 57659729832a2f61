import ShaderRecompiler.AttributeType
import ShaderRecompiler.Feedback
import ShaderRecompiler.IR.Storage
import ShaderRecompiler.Mask
import ShaderRecompiler.Topology

/-! The configuration of one stage. A vertex or geometry stage that runs as a
compute dispatch keeps the stage its program was written for, which decides
how the program sees its interface. -/
namespace ShaderRecompiler

structure LocalSize where
  x : Nat := 1
  y : Nat := 1
  z : Nat := 1
deriving DecidableEq, Repr, Inhabited

structure Config where
  stage : Stage
  /-- The stage the program was written for. -/
  guestStage : Stage := stage
  /-- Runs as a compute dispatch in place of its own stage. -/
  emulated : Bool := false
  localSize : LocalSize := {}
  geometryPassthrough : Bool := false
  /-- Geometry invocations per primitive, or vertices of an output patch. -/
  invocations : Nat := 1
  inputTopology : InputTopology := .points
  outputTopology : OutputTopology := .pointList
  maxOutputVertices : Nat := 1
  patchKind : PatchKind := .triangles
  patchSpacing : PatchSpacing := .equal
  patchClockwise : Bool := false
  forcesEarlyTests : Bool := false
  originUpperLeft : Bool := false
  dualSourceBlend : Bool := false
  /-- Four bits per render target, one for each component. -/
  colorMask : UInt32 := 0xf
  writesDepth : Bool := false
  lastBeforeRaster : Bool := stage.isPreRaster
  attributeTypes : Vector AttributeType 16 := Vector.replicate 16 default
  colorTypes : Vector BaseType 8 := Vector.replicate 8 default
  interpolations : Vector Interpolation 16 := Vector.replicate 16 default
  feedback : List FeedbackBuffer := []
deriving DecidableEq, Repr

namespace Config

/-- The same program run by a compute dispatch. -/
def asCompute (c : Config) (localSize : LocalSize) : Config :=
  { c with stage := .compute, emulated := true, localSize }

def attributeType (c : Config) (location : Nat) : AttributeType :=
  c.attributeTypes[location]?.getD default

def isPacked (c : Config) (location : Nat) : Bool := (c.attributeType location).packing != .none

def isPackedSigned (c : Config) (location : Nat) : Bool :=
  (c.attributeType location).packing == .signed10And2

def isSint (c : Config) (location : Nat) : Bool := (c.attributeType location).base == .sint

/-- The texel type of the buffer that an emulated vertex stage fetches from. -/
def fetchType (c : Config) (location : Nat) : NumType :=
  if c.isPackedSigned location then .u32 else (c.attributeType location).base.numType

def colorType (c : Config) (target : Nat) : NumType :=
  (c.colorTypes[target]?.getD default).numType

def userType (c : Config) (location : Nat) (isOutput : Bool) : NumType :=
  if isOutput then if c.guestStage = .fragment then c.colorType location else .f32
  else if c.guestStage = .vertex then (c.attributeType location).base.numType
  else .f32

def interpolation (c : Config) (location : Nat) : Interpolation :=
  c.interpolations[location]?.getD default

/-- Accesses carry the number of a vertex. -/
def hasVertexIndex (c : Config) (storage : Storage) (v : IoVariable) : Bool :=
  v.isPerVertex &&
    match storage with
    | .input => c.guestStage.hasArrayedInputs
    | .output => c.guestStage.hasArrayedOutputs
    | _ => false

def writesColor (c : Config) (target component : Nat) : Bool :=
  Mask.test c.colorMask (target * 4 + component)

def capturesOutputs (c : Config) : Bool := !c.feedback.isEmpty

/-- Index buffer entries of one geometry invocation: its vertices, and a restart
after each primitive. -/
def indexStride (c : Config) : Nat :=
  c.maxOutputVertices + c.maxOutputVertices / c.outputTopology.verticesPerPrimitive

end Config
end ShaderRecompiler
