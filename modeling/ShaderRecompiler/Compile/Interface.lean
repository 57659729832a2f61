import ShaderRecompiler.Compile.Context

/-! The resources that a stage declares before its program is lowered: those
that emulation and captured outputs address by their reserved bindings. -/
namespace ShaderRecompiler

namespace Buffer

/-- Where each captured buffer starts, and how many vertices a draw has. -/
def feedbackInfo (binding : Nat) : Buffer where
  layout := .std430
  set := DescriptorSet.storage
  binding := binding
  name := "tfe_info"
  fields := [⟨.scalar .u32, "base_offset", some 4⟩, ⟨.scalar .u32, "vertex_count", none⟩]

def vertexCounts : Field := ⟨.vec4 .u32, "vertex_counts", none⟩

def drawInfo (binding : Nat) (fields : List Field) : Buffer where
  layout := .std140
  set := DescriptorSet.uniform
  binding := binding
  name := "vb_info"
  fields := fields

def vertexInfo (binding : Nat) : Buffer :=
  drawInfo binding
    [vertexCounts, ⟨.vec4 .u32, "geometry_counts", none⟩,
      ⟨.vec4 .u32, "vertex_strides", some maxVertexBuffers⟩,
      ⟨.scalar .u32, "vertex_divisors", some maxVertexBuffers⟩]

end Buffer

namespace Resources

def addFeedback (r : Resources) : Resources :=
  let withInfo := r.reservations.feedbackInfo?.elim r fun info =>
    r.addStorageBuffer (.feedbackInfo info)
  (List.range maxFeedbackBuffers).foldl
    (fun r index =>
      (r.reservations.feedbackBuffer? index).elim r fun binding =>
        r.addStorageBuffer (.words binding s!"tfe_data{index}"))
    withInfo

/-- The index buffer and one texture per input attribute. -/
def addVertexFetch (r : Resources) (c : Config) (inputs : UInt32) : Resources :=
  (Mask.below inputs Attribute.userLocations).foldl
    (fun r location =>
      r.addTexture
        (.ofBuffer (r.reservations.vertexBuffer location) s!"vb_data{location}" (c.fetchType location)))
    (r.addTexture (.ofBuffer r.reservations.indexBuffer "ib_data" .u32))

def addGeometryBuffers (r : Resources) : Resources :=
  let b := r.reservations
  ((r.addTexture (.ofBuffer b.topologyRemap "trb_data" .u32)).addStorageBuffer
    (.unbounded b.geometryVertexOutput "geometry_vb_output" .f32)).addStorageBuffer
      (.words b.geometryIndexOutput "geometry_ib_output")

def addEmulation (r : Resources) (stage : Stage) (c : Config) (inputs : UInt32) : Resources :=
  let b := r.reservations
  let r := (r.addConstantBuffer (.vertexInfo b.vertexInfo)).addStorageBuffer
    (.unbounded b.vertexOutput "vertex_output" .f32)
  let r :=
    match stage with
    | .vertex => r.addVertexFetch c inputs
    | .geometry => r.addGeometryBuffers
    | _ => r
  r.beginEmulation stage c.inputTopology

end Resources

namespace StageContext

/-- Resources belong to the guest stage, emulated or not. -/
def resources (s : StageContext) (emulated : Bool) : Resources :=
  let c := s.configFor emulated
  let r : Resources :=
    { stage := c.guestStage, api := s.options.api, reservations := s.reservationsFor emulated }
  let r := if s.host.emulatesTransformFeedback then r.addFeedback else r
  if emulated then r.addEmulation s.config.stage c s.usage.attributes.inputs else r

def beginLocalMemory (s : StageContext) (r : Resources) : Resources :=
  r.beginLocalMemory s.program.localMemorySize s.usage.features.localMemory

/-- Only compute stages have shared memory. -/
def beginSharedMemory (s : StageContext) (r : Resources) : Resources :=
  if s.config.stage = .compute then
    r.beginSharedMemory s.host.sharedMemorySize s.usage.features.sharedMemory
  else r

end StageContext
end ShaderRecompiler
