import ShaderRecompiler.Lowering.Prologue

/-! What a stage does where its program ends: an emulated stage hands over what
it computed, captured outputs are written, and a fragment's color registers go
to its outputs. -/
namespace ShaderRecompiler.Lowering

def vertexEpilogue (l : Lowering) (vertexData : Nat) : Emit Unit := do
  let stride := l.reservations.outputSize
  let vertexCount ← l.vertexInfo VertexInfo.counts 0
  let vertex ← Emit.globalInvocationId 0
  let instanceId ← Emit.globalInvocationId 1
  let instanceBase ← Emit.imul instanceId vertexCount
  let index ← Emit.iadd instanceBase vertex
  let base ← Emit.imul index (.word stride)
  (List.range stride).forM fun offset => do
    let value ← Emit.load .localMemory [.word vertexData, .word offset]
    let place ← Emit.iadd base (.word offset)
    Emit.store .storageBuffer [.word l.reservations.vertexOutput, .word 0, place, value]

/-- Fills the rest of the primitive's index range with restarts. -/
def geometryEpilogue (l : Lowering) (indexCounter : Nat) : Emit Unit := do
  let stride := l.config.indexStride
  let head ← Emit.freshLabel
  let finish ← Emit.freshLabel
  Emit.markLabel head
  let count ← Emit.load .localMemory [.word indexCounter]
  let done ← Emit.compare .greaterOrEqual .u32 count (.word stride)
  Emit.branchIfTrue finish done
  let primitive ← Emit.loadInput .primitiveId
  let base ← Emit.imul primitive (.word stride)
  let index ← Emit.iadd base count
  Emit.store .storageBuffer
    [.word l.reservations.geometryIndexOutput, .word 0, index, .constant 0xffffffff]
  let next ← Emit.iadd count (.word 1)
  Emit.store .localMemory [.word indexCounter, next]
  Emit.branch head
  Emit.markLabel finish

def emulationEpilogue (l : Lowering) : Emit Unit :=
  match l.config.guestStage, l.resources.emulation with
  | .vertex, some memory => l.vertexEpilogue memory.vertexData
  | .geometry, some (.geometry _ _ _ indexCounter) => l.geometryEpilogue indexCounter
  | _, _ => return

def captureWord (l : Lowering) (binding : Nat) (base : Operand) (slot word : Nat) : Emit Unit :=
  match if word = FeedbackBuffer.hole then none
    else Attribute.resolve (word * 4) l.config.guestStage true false with
  | none => return
  | some target => do
    let value ← Emit.load .output (l.config.targetSources .output (.word 0) target)
    let place ← Emit.iadd base (.word slot)
    Emit.store .storageBuffer [.word binding, .word 0, place, value]

def captureBuffer (l : Lowering) (info binding index : Nat) (vertexCount : Operand)
    (buffer : FeedbackBuffer) : Emit Unit := do
  let offset ← Emit.load .storageBuffer [.word info, .word 0, .word index]
  let baseVertex ← Emit.loadInput .baseVertex
  let baseInstance ← Emit.loadInput .baseInstance
  let vertexIndex ← Emit.loadInput .vertexIndex
  let instanceIndex ← Emit.loadInput .instanceIndex
  let instanceId ← Emit.isub instanceIndex baseInstance
  let vertex ← Emit.isub vertexIndex baseVertex
  let instanceBase ← Emit.imul instanceId vertexCount
  let captured ← Emit.iadd instanceBase vertex
  let words ← Emit.imul captured (.word (buffer.stride / 4))
  let base ← Emit.iadd offset words
  buffer.words.zipIdx.forM fun (word, slot) => l.captureWord binding base slot word

def capturesInEpilogue (l : Lowering) : Bool :=
  l.config.guestStage == .vertex && l.config.lastBeforeRaster && l.config.capturesOutputs &&
    l.emulatesFeedback && l.reservations.emulatesFeedback

def feedbackEpilogue (l : Lowering) : Emit Unit :=
  match l.reservations.feedbackInfo?, l.reservations.feedbackBase? with
  | some info, some base => do
    let vertexCount ← Emit.load .storageBuffer [.word info, .word 1]
    (l.config.feedback.take maxFeedbackBuffers).zipIdx.forM fun (buffer, index) =>
      l.captureBuffer info (base + index) index vertexCount buffer
  | _, _ => return

/-- The components that are written, in the order of their registers. -/
def colorComponents (c : Config) : List (Nat × Nat) :=
  (List.range 8).flatMap fun target =>
    ((List.range 4).filter (c.writesColor target)).map fun component => (target, component)

/-- Colors come from the first registers; the depth comes from the second one
after as many as there are bits in the color mask. -/
def fragmentEpilogue (l : Lowering) : Emit Unit := do
  let c := l.config
  let first : Register := ⟨0⟩
  (colorComponents c).zipIdx.forM fun ((target, component), n) =>
    Emit.store .output
      [IoVariable.operand .fragmentOutputColor, .word target, .word component, (first.after n).operand]
  if c.writesDepth then
    Emit.store .output
      [IoVariable.operand .fragmentOutputDepth, (first.after (Mask.size c.colorMask + 1)).operand]

def epilogue (l : Lowering) : Emit Unit := do
  if l.writesEpilogue then
    if l.config.emulated then l.emulationEpilogue
    if l.capturesInEpilogue then l.feedbackEpilogue
    if l.config.guestStage = .fragment then l.fragmentEpilogue

end ShaderRecompiler.Lowering
