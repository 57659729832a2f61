import ShaderRecompiler.Binary32
import ShaderRecompiler.Pass.OutputRecord
import ShaderRecompiler.VertexInfo

/-! A vertex stage run as a compute dispatch. Attributes are fetched from buffer
textures by the vertex or instance index that the dispatch keeps in local
memory, and outputs go to the vertex record. -/
namespace ShaderRecompiler

structure VertexEmulation where
  context : PassContext
  /-- Local memories of the two indices. -/
  vertexRate : Nat
  instanceRate : Nat

namespace VertexEmulation

def info (e : VertexEmulation) (indices : List Nat) : Emit Operand :=
  Emit.load .constantBuffer
    (.word e.context.resources.reservations.vertexInfo :: indices.map Operand.word)

def baseVertex (e : VertexEmulation) : Emit Operand := e.info [VertexInfo.counts, 2]

def baseInstance (e : VertexEmulation) : Emit Operand := e.info [VertexInfo.counts, 3]

def elementIndex (e : VertexEmulation) (location component : Nat) : Emit Operand := do
  let vertexRate ← Emit.load .localMemory [.word e.vertexRate]
  let instanceRate ← Emit.load .localMemory [.word e.instanceRate]
  let perInstance ← e.info [VertexInfo.divisors, location]
  let vertex ← Emit.select .u32 perInstance instanceRate vertexRate
  let stride ← e.info [VertexInfo.strides, location, 0]
  let base ← Emit.imul vertex stride
  if component = 0 then return base else Emit.iadd base (.word component)

def fetch (e : VertexEmulation) (location component : Nat) (element : Operand) : Emit Operand :=
  Emit.value
    (.textureSample
      { binding := e.context.resources.reservations.vertexBuffer location
        sampler := .buffer
        intCoords := true
        lod := false
        component := component % 256
        result := e.context.config.fetchType location })
    [element]

/-- Extends the low bits by their sign; a normalized value is then scaled to at
most one in magnitude. -/
def signExtend (value : Operand) (bits : Nat) (normalized : Bool) : Emit Operand := do
  let shift := Operand.word (32 - bits)
  let shifted ← Emit.value .shiftLeft [value, shift]
  let extended ← Emit.value .shiftRightS32 [shifted, shift]
  if normalized then
    let float ← Emit.value .convertS32ToFP32 [extended]
    Emit.value (.multiply .f32) [float, .constant (Binary32.halving (bits - 1))]
  else return extended

/-- The texture format takes a packed element apart. -/
def packedAttribute (e : VertexEmulation) (location component : Nat) : Emit Operand := do
  let element ← e.elementIndex location 0
  let value ← e.fetch location component element
  if e.context.config.isPackedSigned location then
    signExtend value (if component = 3 then 2 else 10) (!e.context.config.isSint location)
  else return value

/-- Components that the format lacks read as zero, the fourth as one. -/
def plainAttribute (e : VertexEmulation) (location component : Nat) : Emit Operand := do
  let element ← e.elementIndex location component
  let value ← e.fetch location 0 element
  if component = 0 then return value
  else
    let fallback := Operand.constant (Binary32.ofNat (if component = 3 then 1 else 0))
    let present ← e.info [VertexInfo.strides, location, component]
    Emit.select .f32 present value fallback

def userInput (e : VertexEmulation) (location component : Nat) : Emit Operand :=
  if e.context.config.isPacked location then e.packedAttribute location component
  else e.plainAttribute location component

def builtin? (e : VertexEmulation) : IoVariable → Option (Emit Operand)
  | .baseVertex => some e.baseVertex
  | .baseInstance => some e.baseInstance
  | .instanceId => some (Emit.globalInvocationId 1)
  | .instanceIndex => some do
    let base ← e.baseInstance
    let instanceId ← Emit.globalInvocationId 1
    Emit.iadd base instanceId
  | .vertexId | .vertexIndex => some do
    let base ← e.baseVertex
    let vertex ← Emit.load .localMemory [.word e.vertexRate]
    Emit.iadd base vertex
  | _ => none

def replaceInput (dest : Operand) (value : Emit Operand) : Emit Verdict := do
  let v ← value
  Emit.copy dest v
  return .drop

def expandInput (e : VertexEmulation) : Expansion := fun op =>
  match op.dest, op.ioVariable? with
  | none, _ => return .keep op
  | some _, none => return .unresolvedInput op op.ioName
  | some dest, some .userDefined =>
    match op.place? 1, op.place? 2 with
    | some location, some component => replaceInput dest (e.userInput location component)
    | _, _ => return .unresolvedInput op "UserDefined[dynamic]"
  | some dest, some v =>
    match e.builtin? v with
    | some value => replaceInput dest value
    | none => return if v.isDispatchInput then .keep op else .unresolvedInput op v.name

def expansion (x : PassContext) : Expansion := fun op =>
  match x.resources.emulation with
  | some (.vertex _ vertexRate instanceRate) =>
    let e : VertexEmulation := ⟨x, vertexRate, instanceRate⟩
    if op.isLoad .input then e.expandInput op
    else if op.isLoad .output || op.isStore .output then expandOutput x op
    else return .keep op
  | _ => return .keep op

end VertexEmulation
end ShaderRecompiler
