import ShaderRecompiler.Binary32
import ShaderRecompiler.Lowering.Access
import ShaderRecompiler.Resources
import ShaderRecompiler.VertexInfo

/-! What a stage does before its program: outputs get their initial values, and
an emulated stage finds out which vertex or primitive it works on. -/
namespace ShaderRecompiler

structure Lowering where
  config : Config
  /-- With the resources of the program declared. -/
  resources : Resources
  emulatesFeedback : Bool
  outputs : UInt32
  /-- The attribute that a passthrough stage forwards as the layer. -/
  layerInput : Option Nat
  /-- The label of each block address, the last block of an address first. -/
  labels : List (Nat × Operand)
  writesEpilogue : Bool

namespace Lowering

def reservations (l : Lowering) : Reservations := l.resources.reservations

def vertexInfo (l : Lowering) (field component : Nat) : Emit Operand :=
  Emit.load .constantBuffer [.word l.reservations.vertexInfo, .word field, .word component]

def initializeOutput (l : Lowering) (v : IoVariable) (location : Nat) : Emit Unit :=
  [0, 0, 0, 1].zipIdx.forM fun (value, component) =>
    Emit.store .output
      (l.config.accessSources .output v (.word location) (.word 0) (.word component) ++
        [.constant (Binary32.ofNat value)])

/-- The last stages before rasterization start from defined outputs. -/
def initializeOutputs (l : Lowering) : Emit Unit := do
  let c := l.config
  if c.guestStage.isPreRaster && c.guestStage != .tessControl && !c.geometryPassthrough then
    l.initializeOutput .position 0
    (Mask.below l.outputs Attribute.userLocations).forM (l.initializeOutput .userDefined)

def returnUnlessBelow (value limit : Operand) : Emit Unit := do
  let outside ← Emit.compare .greaterOrEqual .u32 value limit
  let inside ← Emit.freshLabel
  Emit.branchIfFalse inside outside
  Emit.ret
  Emit.markLabel inside

def bufferFetch (binding : Nat) (element : Operand) : Emit Operand :=
  Emit.value
    (.textureSample
      { binding, sampler := .buffer, intCoords := true, lod := false, component := 0, result := .u32 })
    [element]

/-- Keeps the index of the vertex, which an indexed draw looks up, and that of
the instance. -/
def vertexPrologue (l : Lowering) (vertexRate instanceRate : Nat) : Emit Unit := do
  let vertex ← Emit.globalInvocationId 0
  let vertexCount ← l.vertexInfo VertexInfo.counts 0
  returnUnlessBelow vertex vertexCount
  let instanceId ← Emit.globalInvocationId 1
  let instanceCount ← l.vertexInfo VertexInfo.counts 1
  returnUnlessBelow instanceId instanceCount
  let indexedWord ← l.vertexInfo VertexInfo.geometry 3
  let isIndexed ← Emit.compare .notEqual .u32 indexedWord (.word 0)
  let firstIndex ← l.vertexInfo VertexInfo.geometry 2
  let place ← Emit.iadd firstIndex vertex
  let fetched ← bufferFetch l.reservations.indexBuffer place
  let index ← Emit.select .u32 isIndexed fetched vertex
  Emit.store .localMemory [.word vertexRate, index]
  Emit.store .localMemory [.word instanceRate, instanceId]

/-- Keeps the vertices of the primitive and resets the output counters. -/
def geometryPrologue (l : Lowering) (topologyRemap vertexCounter indexCounter : Nat) : Emit Unit := do
  let primitive ← Emit.globalInvocationId 0
  let primitiveCount ← l.vertexInfo VertexInfo.geometry 0
  returnUnlessBelow primitive primitiveCount
  let instanceId ← Emit.globalInvocationId 1
  let instanceCount ← l.vertexInfo VertexInfo.counts 1
  returnUnlessBelow instanceId instanceCount
  let vertices := l.config.inputTopology.vertices
  let first ← Emit.imul primitive (.word vertices)
  (List.range vertices).forM fun index => do
    let place ← Emit.iadd first (.word index)
    let vertex ← bufferFetch l.reservations.topologyRemap place
    Emit.store .localMemory [.word topologyRemap, .word index, vertex]
  Emit.store .localMemory [.word vertexCounter, .word 0]
  Emit.store .localMemory [.word indexCounter, .word 0]

def emulationPrologue (l : Lowering) : Emit Unit :=
  match l.config.guestStage, l.resources.emulation with
  | .vertex, some (.vertex _ vertexRate instanceRate) => l.vertexPrologue vertexRate instanceRate
  | .geometry, some (.geometry _ topologyRemap vertexCounter indexCounter) =>
    l.geometryPrologue topologyRemap vertexCounter indexCounter
  | _, _ => return

/-- A passthrough geometry stage takes the layer from a generic input. -/
def forwardLayer (l : Lowering) (address : Nat) : Emit Unit := do
  let location := (address - Attribute.userBase) / 16
  let component := address / 4 % 4
  let layer ← Emit.load .input
    (l.config.accessSources .input .userDefined (.word location) (.word 0) (.word component))
  Emit.store .output [IoVariable.operand .layer, layer]

def prologue (l : Lowering) : Emit Unit := do
  if l.config.emulated then l.emulationPrologue
  if l.config.guestStage = .geometry ∧ l.config.geometryPassthrough then
    match l.layerInput with
    | some address => l.forwardLayer address
    | none => return

end Lowering
end ShaderRecompiler
