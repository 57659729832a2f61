import ShaderRecompiler.IR.Operand

/-! The built-in and generic variables of a stage interface. An access names its
variable by the first source, as the variable's number. -/
namespace ShaderRecompiler

inductive IoVariable where
  | baseInstance
  | baseVertex
  | clipDistance
  | drawIndex
  | fragmentCoord
  | fragmentOutputColor
  | fragmentOutputDepth
  | frontFacing
  | globalInvocationId
  | instanceId
  | instanceIndex
  | invocationId
  | layer
  | localInvocationId
  | pointCoord
  | pointSize
  | position
  | primitiveId
  | subgroupEqMask
  | subgroupGeMask
  | subgroupGtMask
  | subgroupLaneId
  | subgroupLeMask
  | subgroupLtMask
  | tessellationCoord
  | tessellationLevelInner
  | tessellationLevelOuter
  | userDefined
  | vertexId
  | vertexIndex
  | viewportIndex
  | workgroupId
deriving DecidableEq, Repr, Inhabited

namespace IoVariable

def all : List IoVariable :=
  [baseInstance, baseVertex, clipDistance, drawIndex, fragmentCoord, fragmentOutputColor,
    fragmentOutputDepth, frontFacing, globalInvocationId, instanceId, instanceIndex, invocationId,
    layer, localInvocationId, pointCoord, pointSize, position, primitiveId, subgroupEqMask,
    subgroupGeMask, subgroupGtMask, subgroupLaneId, subgroupLeMask, subgroupLtMask,
    tessellationCoord, tessellationLevelInner, tessellationLevelOuter, userDefined, vertexId,
    vertexIndex, viewportIndex, workgroupId]

def number (v : IoVariable) : Nat := v.ctorIdx

def ofNumber? (n : Nat) : Option IoVariable := all[n]?

theorem ofNumber?_number (v : IoVariable) : ofNumber? v.number = some v := by
  cases v <;> rfl

def operand (v : IoVariable) : Operand := .word v.number

/-- Accesses name one of several locations. -/
def hasLocation : IoVariable → Bool
  | userDefined | fragmentOutputColor => true
  | _ => false

/-- Accesses name a vector component or array element. -/
def hasComponent : IoVariable → Bool
  | clipDistance | fragmentCoord | fragmentOutputColor | globalInvocationId | localInvocationId
  | pointCoord | position | subgroupEqMask | subgroupGeMask | subgroupGtMask | subgroupLeMask
  | subgroupLtMask | tessellationCoord | tessellationLevelInner | tessellationLevelOuter
  | userDefined | workgroupId => true
  | _ => false

/-- Exists once per vertex, hence is an array where a stage sees several. -/
def isPerVertex : IoVariable → Bool
  | clipDistance | pointSize | position | userDefined => true
  | _ => false

/-- Takes several words of a vertex record without a location. -/
def isRecordArray : IoVariable → Bool
  | position | clipDistance => true
  | _ => false

/-- Built-ins that are arrays rather than vectors. -/
def isArray : IoVariable → Bool
  | clipDistance | tessellationLevelInner | tessellationLevelOuter => true
  | _ => false

/-- Provided by a compute dispatch as well as by the stage itself. -/
def isDispatchInput : IoVariable → Bool
  | globalInvocationId | subgroupEqMask | subgroupGeMask | subgroupGtMask | subgroupLaneId
  | subgroupLeMask | subgroupLtMask => true
  | _ => false

def name : IoVariable → String
  | baseInstance => "BaseInstance"
  | baseVertex => "BaseVertex"
  | clipDistance => "ClipDistance"
  | drawIndex => "DrawIndex"
  | fragmentCoord => "FragmentCoord"
  | fragmentOutputColor => "FragmentOutputColor"
  | fragmentOutputDepth => "FragmentOutputDepth"
  | frontFacing => "FrontFacing"
  | globalInvocationId => "GlobalInvocationId"
  | instanceId => "InstanceId"
  | instanceIndex => "InstanceIndex"
  | invocationId => "InvocationId"
  | layer => "Layer"
  | localInvocationId => "LocalInvocationId"
  | pointCoord => "PointCoord"
  | pointSize => "PointSize"
  | position => "Position"
  | primitiveId => "PrimitiveId"
  | subgroupEqMask => "SubgroupEqMask"
  | subgroupGeMask => "SubgroupGeMask"
  | subgroupGtMask => "SubgroupGtMask"
  | subgroupLaneId => "SubgroupLaneId"
  | subgroupLeMask => "SubgroupLeMask"
  | subgroupLtMask => "SubgroupLtMask"
  | tessellationCoord => "TessellationCoord"
  | tessellationLevelInner => "TessellationLevelInner"
  | tessellationLevelOuter => "TessellationLevelOuter"
  | userDefined => "UserDefined"
  | vertexId => "VertexId"
  | vertexIndex => "VertexIndex"
  | viewportIndex => "ViewportIndex"
  | workgroupId => "WorkgroupId"

end IoVariable
end ShaderRecompiler
