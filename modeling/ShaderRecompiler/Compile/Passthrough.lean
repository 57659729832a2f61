import ShaderRecompiler.Compile.Interface

/-! Programs that stand where the guest has none: a vertex shader that replays
the records of an emulated stage, and a geometry shader that forwards what its
vertex stage writes. -/
namespace ShaderRecompiler

namespace Replay

def infoBinding : Nat := 1

def dataBinding : Nat := 0

def config : Config := { stage := .vertex }

def resources (api : Api) (instanced : Bool) : Resources :=
  let r : Resources := { stage := .vertex, api }
  let r := if instanced then r.addConstantBuffer (.drawInfo infoBinding [Buffer.vertexCounts]) else r
  r.addStorageBuffer (.unbounded dataBinding "vb_input" .f32)

def vertexVariable : Api → IoVariable
  | .openGl => .vertexId
  | .vulkan => .vertexIndex

def instanceVariable : Api → IoVariable
  | .openGl => .instanceId
  | .vulkan => .instanceIndex

/-- The record of this invocation. An emulated vertex stage wrote one per
instance and vertex; the base instance of the draw is zero. -/
def recordIndex (api : Api) (instanced : Bool) : Emit Operand := do
  let vertex ← Emit.loadInput (vertexVariable api)
  if instanced then
    let vertexCount ← Emit.load .constantBuffer [.word infoBinding, .word 0, .word 0]
    let instanceId ← Emit.loadInput (instanceVariable api)
    let instanceBase ← Emit.imul instanceId vertexCount
    Emit.iadd instanceBase vertex
  else return vertex

def word (base : Operand) (slot : Slot) (offset : Nat) : Emit Unit := do
  let place ← if offset = 0 then pure base else Emit.iadd base (.word offset)
  let value ← Emit.load .storageBuffer [.word dataBinding, .word 0, place]
  Emit.store .output
    (config.accessSources .output slot.io (.word slot.location) (.word 0) (.word slot.component) ++ [value])

def program (api : Api) (instanced : Bool) (record : List Slot) : Emit Unit := do
  let vertex ← recordIndex api instanced
  let base ← Emit.imul vertex (.word record.length)
  record.zipIdx.forM fun (slot, offset) => word base slot offset
  Emit.ret

def attributes (record : List Slot) : AttributeUsage :=
  record.foldl
    (fun u slot => if slot.io = .userDefined then u.writeOutput slot.location else u) {}

end Replay

namespace Forward

def outputTopology : InputTopology → OutputTopology
  | .points => .pointList
  | .lines | .linesAdjacency => .lineStrip
  | .triangles | .trianglesAdjacency => .triangleStrip

/-- One primitive without its adjacent vertices. -/
def vertexCount : InputTopology → Nat
  | .points => 1
  | .lines | .linesAdjacency => 2
  | .triangles | .trianglesAdjacency => 3

def config (topology : InputTopology) : Config :=
  { stage := .geometry
    inputTopology := topology
    outputTopology := outputTopology topology
    maxOutputVertices := vertexCount topology }

def components (outputs : UInt32) : List (Nat × Nat) :=
  (Mask.below outputs Attribute.userLocations).flatMap fun location =>
    (List.range 4).map fun component => (location, component)

def isLayer (layer : Option Nat) (location component : Nat) : Bool :=
  layer == some (Attribute.userBase + location * 16 + component * 4)

def component (c : Config) (layer : Option Nat) (vertex location component : Nat) : Emit Unit := do
  let value ← Emit.load .input
    (c.accessSources .input .userDefined (.word location) (.word vertex) (.word component))
  if isLayer layer location component then
    Emit.store .output [IoVariable.operand .layer, value]
  else
    Emit.store .output [IoVariable.operand .userDefined, .word location, .word component, value]

def position (vertex component : Nat) : Emit Unit := do
  let value ← Emit.load .input [IoVariable.operand .position, .word vertex, .word component]
  Emit.store .output [IoVariable.operand .position, .word component, value]

def program (c : Config) (outputs : UInt32) (layer : Option Nat) : Emit Unit := do
  (List.range c.maxOutputVertices).forM fun vertex => do
    (components outputs).forM fun (location, n) => component c layer vertex location n
    (List.range 4).forM (position vertex)
    Emit.emitVertex
  Emit.endPrimitive
  Emit.ret

def attributes (outputs : UInt32) (layer : Option Nat) : AttributeUsage :=
  (components outputs).foldl
    (fun u (location, component) =>
      let u := u.readInput location component
      if isLayer layer location component then u else u.writeOutput location)
    {}

end Forward

namespace StageContext

def markSynthesized (s : StageContext) : StageContext :=
  if s.progress = .fresh then { s with progress := .synthesized } else s

/-- Only a success counts as a use. -/
def synthesized (s : StageContext) (result : Except CompileError Shader) : Report × StageContext :=
  ({ result }, if result.isOk then s.markSynthesized else s)

def replay (s : StageContext) (instanced : Bool) : Except CompileError Shader :=
  let record := s.reservations.outputRecord
  let c : Compilation :=
    { config := Replay.config
      attributes := Replay.attributes record
      host := s.host
      options := s.options
      resources := Replay.resources s.options.api instanced }
  c.synthesize (Replay.program s.options.api instanced record) {}

/-- A vertex shader that replays what the emulated stage wrote. The records of a
geometry stage stand in output order. -/
def vertexPassthrough (s : StageContext) : Report × StageContext :=
  s.synthesized (s.replay (s.config.stage == .vertex))

/-- A vertex shader for the vertices that the emulated geometry stage emitted,
drawn with the indices it wrote. -/
def geometryReplay (s : StageContext) : Report × StageContext :=
  if s.config.stage = .geometry then s.synthesized (s.replay false)
  else ({ result := .error (.notGeometry s.config.stage) }, s)

def geometryPassthrough (s : StageContext) : Report × StageContext :=
  let outputs := s.usage.attributes.outputs
  let c : Compilation :=
    { config := Forward.config s.host.topology
      attributes := Forward.attributes outputs s.layerOutput
      host := s.host
      options := s.options
      resources := { stage := .geometry, api := s.options.api } }
  s.synthesized (c.synthesize (Forward.program c.config outputs s.layerOutput) { layer := true })

end StageContext
end ShaderRecompiler
