import ShaderRecompiler.AttributeUsage
import ShaderRecompiler.Config
import ShaderRecompiler.Glsl.Error
import ShaderRecompiler.Glsl.ValueType
import ShaderRecompiler.Resources

/-! What besides the program itself shapes its text, and the operands of an
access to the stage interface. -/
namespace ShaderRecompiler.Glsl

structure Context where
  config : Config
  resources : Resources
  usage : AttributeUsage
  features : Features
  capabilities : Capabilities
  api : Api
  debug : Bool

namespace Context

/-- The host itself captures outputs of this stage. -/
def nativeFeedback (x : Context) : Bool :=
  x.config.stage.isPreRaster && x.config.lastBeforeRaster && x.config.capturesOutputs &&
    x.capabilities.transformFeedback

/-- The host itself forwards the inputs of a geometry stage. -/
def geometryPassthrough (x : Context) : Bool :=
  x.config.geometryPassthrough && x.capabilities.geometryShaderPassthrough

/-- Generic attributes are one array, because some access computes its location. -/
def indexes (x : Context) (storage : Storage) : Bool :=
  if storage.isOutput then x.features.outputIndexing else x.features.inputIndexing

/-- How many components of a captured output stand in one declaration, if the
location is captured at all. -/
def capturedRun? (x : Context) (location : Nat) : Option Nat :=
  let feedback := x.config.feedback
  if x.nativeFeedback && (List.range 4).any fun c => (Capture.ofUser? feedback location c).isSome then
    some (Capture.run feedback location 0)
  else none

end Context

/-- An access to the stage interface, its operands by their role. -/
structure Access where
  io : IoVariable
  location : Option Operand
  vertex : Option Operand
  component : Option Operand
deriving DecidableEq, Repr

namespace Access

/-- The operand at `index` if the access has that role, and the next index. -/
def take (op : Operation) (index : Nat) (present : Bool) : Except Error (Option Operand × Nat) :=
  if present then
    match op.source? index with
    | some operand => .ok (some operand, index + 1)
    | none => .error (.missingOperand op.inst index)
  else .ok (none, index)

def ofOperation (c : Config) (op : Operation) : Except Error Access :=
  match op.ioVariable? with
  | none => .error (.unknownIoVariable op.inst)
  | some io => do
    let (location, next) ← take op 1 io.hasLocation
    let (vertex, next) ← take op next (c.hasVertexIndex op.storage io)
    let (component, _) ← take op next io.hasComponent
    return { io, location, vertex, component }

def location? (a : Access) : Option Nat := a.location.bind Operand.asNat?

def type (x : Context) (storage : Storage) (a : Access) : ValueType :=
  match a.io with
  | .userDefined =>
    if storage.isPerPatch || x.indexes storage then .f32
    else a.location?.elim .f32 fun location => .ofNum (x.config.userType location storage.isOutput)
  | .fragmentOutputColor => a.location?.elim .f32 fun location => .ofNum (x.config.colorType location)
  | .frontFacing => .bool
  | .baseInstance | .baseVertex | .drawIndex | .instanceId | .instanceIndex | .invocationId
  | .layer | .primitiveId | .vertexId | .vertexIndex | .viewportIndex => .s32
  | .globalInvocationId | .localInvocationId | .workgroupId | .subgroupEqMask | .subgroupGeMask
  | .subgroupGtMask | .subgroupLeMask | .subgroupLtMask | .subgroupLaneId => .u32
  | .clipDistance | .fragmentCoord | .fragmentOutputDepth | .pointCoord | .pointSize | .position
  | .tessellationCoord | .tessellationLevelInner | .tessellationLevelOuter => .f32

end Access
end ShaderRecompiler.Glsl
