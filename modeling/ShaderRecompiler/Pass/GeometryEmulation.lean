import ShaderRecompiler.Pass.OutputRecord
import ShaderRecompiler.VertexInfo

/-! A geometry stage run as a compute dispatch. An invocation handles one input
primitive of one instance: it reads the records that the vertex stage left, and
appends its vertices and indices to ranges of the output buffers that belong to
its primitive alone. -/
namespace ShaderRecompiler

structure GeometryEmulation where
  context : PassContext
  vertexData : Nat
  topologyRemap : Nat
  /-- Local memories that count the vertices and indices written. -/
  vertexCounter : Nat
  indexCounter : Nat

namespace GeometryEmulation

def reservations (e : GeometryEmulation) : Reservations := e.context.resources.reservations

def vertexCount (e : GeometryEmulation) : Emit Operand :=
  Emit.load .constantBuffer [.word e.reservations.vertexInfo, .word VertexInfo.counts, .word 0]

def primitiveId (e : GeometryEmulation) : Emit Operand := do
  let vertexCount ← e.vertexCount
  let primitive ← Emit.globalInvocationId 0
  let instanceId ← Emit.globalInvocationId 1
  let base ← Emit.imul instanceId vertexCount
  Emit.iadd base primitive

def increment (counter : Nat) : Emit Operand := do
  let old ← Emit.load .localMemory [.word counter]
  let new ← Emit.iadd old (.word 1)
  Emit.store .localMemory [.word counter, new]
  return old

/-- The next entry of the primitive's range in a buffer with `stride` entries
for each primitive. -/
def nextEntry (e : GeometryEmulation) (counter stride : Nat) : Emit Operand := do
  let count ← increment counter
  let primitive ← e.primitiveId
  let base ← Emit.imul primitive (.word stride)
  Emit.iadd base count

def nextVertex (e : GeometryEmulation) : Emit Operand :=
  e.nextEntry e.vertexCounter e.context.config.maxOutputVertices

def nextIndex (e : GeometryEmulation) : Emit Operand :=
  e.nextEntry e.indexCounter e.context.config.indexStride

def storeIndex (e : GeometryEmulation) (index value : Operand) : Emit Unit :=
  Emit.store .storageBuffer [.word e.reservations.geometryIndexOutput, .word 0, index, value]

def copyWord (e : GeometryEmulation) (base : Operand) (offset : Nat) : Emit Unit := do
  let place ← if offset = 0 then pure base else Emit.iadd base (.word offset)
  let value ← Emit.load .localMemory [.word e.vertexData, .word offset]
  Emit.store .storageBuffer [.word e.reservations.geometryVertexOutput, .word 0, place, value]

def emitVertex (e : GeometryEmulation) : Emit Unit := do
  let vertex ← e.nextVertex
  let index ← e.nextIndex
  e.storeIndex index vertex
  let base ← Emit.imul vertex (.word e.reservations.outputSize)
  (List.range e.reservations.outputSize).forM (e.copyWord base)

/-- A primitive ends with the restart index, which has all bits set. -/
def endPrimitive (e : GeometryEmulation) : Emit Unit := do
  let index ← e.nextIndex
  e.storeIndex index (.constant 0xffffffff)

def loadRecord (e : GeometryEmulation) (dest vertex : Operand) (offset : Nat) : Emit Unit := do
  let vertexCount ← e.vertexCount
  let remapped ← Emit.load .localMemory [.word e.topologyRemap, vertex]
  let instanceId ← Emit.globalInvocationId 1
  let base ← Emit.imul instanceId vertexCount
  let record ← Emit.iadd base remapped
  let start ← Emit.imul record (.word e.reservations.inputSize)
  let place ← if offset = 0 then pure start else Emit.iadd start (.word offset)
  Emit.loadInto dest .storageBuffer [.word e.reservations.vertexOutput, .word 0, place]

def vertexSource? (op : Operation) : Option Operand :=
  op.source? (if op.ioVariable? = some .userDefined then 2 else 1)

def expandInput (e : GeometryEmulation) : Expansion := fun op =>
  match op.dest with
  | none => return .keep op
  | some dest =>
    match op.recordOffset? e.reservations .input with
    | some offset =>
      match vertexSource? op with
      | none => return .unresolvedInput op op.ioName
      | some vertex => do
        e.loadRecord dest vertex offset
        return .drop
    | none =>
      match op.ioVariable? with
      | some .primitiveId => do
        let primitive ← e.primitiveId
        Emit.copy dest primitive
        return .drop
      | some v => return if v.isDispatchInput then .keep op else .unresolvedInput op op.ioName
      | none => return .unresolvedInput op op.ioName

def expansion (x : PassContext) : Expansion := fun op =>
  match x.resources.emulation with
  | some (.geometry vertexData topologyRemap vertexCounter indexCounter) =>
    let e : GeometryEmulation := ⟨x, vertexData, topologyRemap, vertexCounter, indexCounter⟩
    match op.inst with
    | .emitVertex => do
      e.emitVertex
      return .drop
    | .endPrimitive => do
      e.endPrimitive
      return .drop
    | _ =>
      if op.isLoad .input then e.expandInput op
      else if op.isLoad .output || op.isStore .output then expandOutput x op
      else return .keep op
  | _ => return .keep op

end GeometryEmulation
end ShaderRecompiler
