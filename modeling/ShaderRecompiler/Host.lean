import ShaderRecompiler.Topology

/-! The host a program is compiled for: its API, what its driver supports, and
the facts about the draw that the compiler may ask for. -/
namespace ShaderRecompiler

/-- Vulkan sources carry descriptor sets; OpenGL sources use ARB built-ins for
the draw parameters. -/
inductive Api where
  | openGl
  | vulkan
deriving DecidableEq, Repr, Inhabited

structure Capabilities where
  /-- Without it the KHR subgroup extensions are used. -/
  shaderBallot : Bool := true
  fragmentShaderInterlock : Bool := false
  fragmentShaderOrdering : Bool := false
  geometryShader : Bool := true
  geometryShaderPassthrough : Bool := false
  transformFeedback : Bool := true
  viewportMask : Bool := false
deriving DecidableEq, Repr, Inhabited

structure Host where
  capabilities : Capabilities := {}
  /-- The guest reads its draw parameters from constant buffer 0. -/
  drawParametersInBuffer : Bool := false
  /-- Topology of the draw a synthesized geometry stage will consume. -/
  topology : InputTopology := .points
  /-- Bytes of shared memory of the dispatch. -/
  sharedMemorySize : Nat := 0xc000
  transformFeedbackEnabled : Bool := false
deriving DecidableEq, Repr, Inhabited

/-- Captured outputs have to be written by the program itself. -/
def Host.emulatesTransformFeedback (host : Host) : Bool :=
  !host.capabilities.transformFeedback && host.transformFeedbackEnabled

end ShaderRecompiler
