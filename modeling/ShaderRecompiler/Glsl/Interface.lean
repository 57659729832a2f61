import ShaderRecompiler.Glsl.Value

/-! Accesses to the stage interface as GLSL expressions, each good on either
side of an assignment. -/
namespace ShaderRecompiler.Glsl

namespace Context

def subgroupMask (x : Context) (relation : String) : String :=
  if x.capabilities.shaderBallot then s!"unpackUint2x32(gl_SubGroup{relation}MaskARB)"
  else s!"gl_Subgroup{relation}Mask"

/-- The built-in behind a variable; generic ones have none. -/
def builtin (x : Context) (storage : Storage) (io : IoVariable) : String :=
  let pick (vulkan openGl : String) : String := if x.api = .vulkan then vulkan else openGl
  match io with
  | .baseInstance => pick "gl_BaseInstance" "gl_BaseInstanceARB"
  | .baseVertex => pick "gl_BaseVertex" "gl_BaseVertexARB"
  | .drawIndex => pick "gl_DrawID" "gl_DrawIDARB"
  | .instanceId => pick "(gl_InstanceIndex - gl_BaseInstance)" "gl_InstanceID"
  | .instanceIndex => pick "gl_InstanceIndex" "(gl_InstanceID + gl_BaseInstanceARB)"
  | .vertexId | .vertexIndex => pick "gl_VertexIndex" "gl_VertexID"
  | .clipDistance => "gl_ClipDistance"
  | .fragmentCoord => "gl_FragCoord"
  | .fragmentOutputDepth => "gl_FragDepth"
  | .frontFacing => "gl_FrontFacing"
  | .globalInvocationId => "gl_GlobalInvocationID"
  | .invocationId => "gl_InvocationID"
  | .layer => "gl_Layer"
  | .localInvocationId => "gl_LocalInvocationID"
  | .pointCoord => "gl_PointCoord"
  | .pointSize => "gl_PointSize"
  | .position => "gl_Position"
  | .primitiveId =>
    if storage = .input ∧ x.config.stage = .geometry then "gl_PrimitiveIDIn" else "gl_PrimitiveID"
  | .subgroupEqMask => x.subgroupMask "Eq"
  | .subgroupGeMask => x.subgroupMask "Ge"
  | .subgroupGtMask => x.subgroupMask "Gt"
  | .subgroupLeMask => x.subgroupMask "Le"
  | .subgroupLtMask => x.subgroupMask "Lt"
  | .subgroupLaneId =>
    if x.capabilities.shaderBallot then "gl_SubGroupInvocationARB" else "gl_SubgroupInvocationID"
  | .tessellationCoord => "gl_TessCoord"
  | .tessellationLevelInner => "gl_TessLevelInner"
  | .tessellationLevelOuter => "gl_TessLevelOuter"
  | .viewportIndex => "gl_ViewportIndex"
  | .workgroupId => "gl_WorkGroupID"
  | .userDefined | .fragmentOutputColor => ""

end Context

namespace Scope

def index (s : Scope) : Option Operand → Except Error String
  | none => .ok ""
  | some o => (s.operandAs .u32 o).map fun text => s!"[{text}]"

/-- A component is named where it is known and indexed where it is not. -/
def componentSuffix (s : Scope) (component : Option Operand) : Except Error String :=
  match (component.bind Operand.asNat?).bind (swizzles[·]?) with
  | some name => .ok s!".{name}"
  | none => s.index component

/-- A captured output has its leading run of components in one declaration and
the others apart. -/
def capturedOutput (location run : Nat) (component : Option Operand) : Except Error String := do
  let index ← match component with
    | none => pure 0
    | some o =>
      match o.asNat? with
      | some index => pure index
      | none => throw (.unsupportedIo (.dynamicCapturedComponent location))
  match swizzles[index]? with
  | none => throw (.unsupportedIo (.capturedComponent index location))
  | some name =>
    return if 1 < run ∧ index < run then s!"out_attr{location}.{name}" else s!"out_attr{location}_{name}"

def userAttribute (s : Scope) (storage : Storage) (a : Access) : Except Error String := do
  let name := if storage.isOutput then "out_attr" else "in_attr"
  let vertex ← s.index a.vertex
  let component ← s.componentSuffix a.component
  match a.location?.filter fun _ => !s.context.indexes storage with
  | none =>
    let location ← s.index a.location
    return s!"{name}{vertex}{location}{component}"
  | some location =>
    match if storage.isOutput then s.context.capturedRun? location else none with
    | some run => capturedOutput location run a.component
    | none => return s!"{name}{location}{vertex}{component}"

def builtinAccess (s : Scope) (storage : Storage) (a : Access) : Except Error String := do
  let vertex ← s.index a.vertex
  let name := s.context.builtin storage a.io
  let array := if storage.isOutput then "gl_out" else "gl_in"
  let place := if a.vertex.isSome && a.io.isPerVertex then s!"{array}{vertex}.{name}" else name
  let suffix ← if a.io.isArray then s.index a.component else s.componentSuffix a.component
  return place ++ suffix

def access (s : Scope) (storage : Storage) (a : Access) : Except Error String :=
  match a.io with
  | .userDefined =>
    if storage.isPerPatch then
      match a.location? with
      | none => .error (.unsupportedIo .dynamicPatchLocation)
      | some location => (s.componentSuffix a.component).map fun suffix => s!"patch_attr{location}{suffix}"
    else s.userAttribute storage a
  | .fragmentOutputColor =>
    match a.location? with
    | none => .error (.unsupportedIo .dynamicColor)
    | some location => (s.componentSuffix a.component).map fun suffix => s!"out_attr{location}{suffix}"
  | _ => s.builtinAccess storage a

end Scope
end ShaderRecompiler.Glsl
