import ShaderRecompiler.Lowering.Epilogue

/-! Guest instructions as operations. Vectors take consecutive registers, and
every memory access is by word. -/
namespace ShaderRecompiler.Lowering

def unary (dest : Register) (inst : Instruction) (a : Operand) : Emit Unit := do
  let d ← Emit.destination dest
  Emit.assign d inst [a]

def binary (dest : Register) (inst : Instruction) (a : Register) (b : Guest.Source) : Emit Unit := do
  let d ← Emit.destination dest
  Emit.assign d inst [a.operand, b.operand]

def setPredicate (dest : Predicate) (comparison : Comparison) (type : NumType) (a : Register)
    (b : Guest.Source) : Emit Unit := do
  let d ← Emit.predicateDestination dest
  Emit.assign d (.compare comparison type) [a.operand, b.operand]

def select (dest a : Register) (b : Guest.Source) (guard : Guest.Guard) : Emit Unit := do
  let p := guard.predicate.operand
  let cond ← if guard.inverted then Emit.value .logicalNot [p] else pure p
  let d ← Emit.destination dest
  Emit.assign d (.conditionalSelect .u32) [cond, a.operand, b.operand]

def attributeStorage (output perPatch : Bool) : Storage :=
  match output, perPatch with
  | false, false => .input
  | false, true => .inputPerPatch
  | true, false => .output
  | true, true => .outputPerPatch

/-- An attribute that is not there reads as zero. -/
def loadAttribute (l : Lowering) (dest : Register) (storage : Storage) (address : Nat)
    (vertex offset : Option Register) : Emit Unit := do
  let d ← Emit.destination dest
  match ← l.config.attributeSources storage address vertex offset with
  | some sources => Emit.loadInto d storage sources
  | none => Emit.copy d (.word 0)

def storeAttribute (l : Lowering) (src : Register) (storage : Storage) (address : Nat)
    (vertex offset : Option Register) : Emit Unit := do
  match ← l.config.attributeSources storage address vertex offset with
  | some sources => Emit.store storage (sources ++ [src.operand])
  | none => return

def loadSystem (l : Lowering) (dest : Register) (system : Guest.SystemRegister) : Emit Unit := do
  let (v, component) := system.ioVariable
  let d ← Emit.destination dest
  Emit.loadInto d .input
    (l.config.accessSources .input v (.word 0) (.word 0) (.word (component.getD 0)))

def wordIndex (base : Register) (bytes : UInt32) : Emit Operand :=
  if base.isRz then return .constant (bytes >>> 2)
  else do
    let byte ← Emit.iadd base.operand (.constant bytes)
    Emit.value .shiftRightU32 [byte, .word 2]

/-- The storage behind a memory space, and the sources that name its block. A
space without a block is refused before anything is lowered. -/
def spaceBlock (r : Resources) : Guest.Space → Storage × List Operand
  | .localMemory => (.localMemory, [.word (r.currentLocal.getD 0)])
  | .sharedMemory => (.sharedMemory, [.word (r.currentShared.getD 0)])
  | .global slot => (.storageBuffer, [.word (r.useStorageBuffer slot).1, .word 0])

def wordOffset (offset : Int32) (word : Nat) : UInt32 := offset.toUInt32 + UInt32.ofNat (word * 4)

def loadWord (l : Lowering) (dest : Register) (space : Guest.Space) (base : Register)
    (offset : Int32) (word : Nat) : Emit Unit := do
  let (storage, block) := spaceBlock l.resources space
  let index ← wordIndex base (wordOffset offset word)
  let d ← Emit.destination (dest.after word)
  Emit.loadInto d storage (block ++ [index])

def storeWord (l : Lowering) (src : Register) (space : Guest.Space) (base : Register)
    (offset : Int32) (word : Nat) : Emit Unit := do
  let (storage, block) := spaceBlock l.resources space
  let index ← wordIndex base (wordOffset offset word)
  Emit.store storage (block ++ [index, (src.after word).operand])

/-- One result per component in the mask, in consecutive registers. -/
def components (dest : Register) (mask : UInt32) (inst : Nat → Instruction) (sources : List Operand) :
    Emit Unit :=
  (Mask.below mask 4).zipIdx.forM fun (component, n) => do
    let d ← Emit.destination (dest.after n)
    Emit.assign d (inst component) sources

def sampleTexture (l : Lowering) (dest : Register) (mask : UInt32) (handle : Nat) (sampler : Sampler)
    (coords : List Register) (lod : Option Register) (fetch : Bool) : Emit Unit :=
  let (binding, _) := l.resources.useTexture ⟨handle, sampler, .f32⟩
  components dest mask
    (fun component =>
      .textureSample { binding, sampler, intCoords := fetch, lod := lod.isSome, component, result := .f32 })
    ((coords ++ lod.toList).map Register.operand)

def imageOp (l : Lowering) (handle : Nat) (sampler : Sampler) (component : Nat) : ImageOp :=
  { binding := (l.resources.useImage ⟨handle, sampler, .u32⟩).1, sampler, component, format := .u32 }

def storeImage (l : Lowering) (values : Register) (handle : Nat) (sampler : Sampler)
    (coords : List Register) : Emit Unit :=
  Emit.effect (.imageStore (l.imageOp handle sampler 0))
    ((coords ++ (List.range 4).map values.after).map Register.operand)

def shuffle (dest value : Register) (index mask : Guest.Source) (inst : Instruction) : Emit Unit := do
  let d ← Emit.destination dest
  Emit.assign d inst [value.operand, index.operand, mask.operand]

def shuffleInstruction : Guest.ShuffleMode → Instruction
  | .index => .shuffle
  | .up => .shuffleUp
  | .down => .shuffleDown
  | .butterfly => .shuffleXor

def logicInstruction : Guest.LogicOp → Instruction
  | .and => .bitwiseAnd
  | .or => .bitwiseOr
  | .xor => .bitwiseExclusiveOr

/-- The instruction without its guard; branches are lowered with theirs. -/
def op (l : Lowering) : Guest.Op → Emit Unit
  | .nop => return
  | .mov dest src => unary dest .copy src.operand
  | .sel dest a b guard => select dest a b guard
  | .fadd dest a b negateB => binary dest (if negateB then .subtract .f32 else .add .f32) a b
  | .fmul dest a b => binary dest (.multiply .f32) a b
  | .ffma dest a b c => do
    let d ← Emit.destination dest
    Emit.assign d .fusedMultiplyAdd [a.operand, b.operand, c.operand]
  | .fmnmx dest a b min => binary dest (if min then .minimum .f32 else .maximum .f32) a b
  | .iadd dest a b negateB => binary dest (if negateB then .subtract .u32 else .add .u32) a b
  | .imul dest a b => binary dest (.multiply .u32) a b
  | .imulHi dest a b signed => binary dest (if signed then .multiplyHighS32 else .multiplyHighU32) a b
  | .lop dest a b logic => binary dest (logicInstruction logic) a b
  | .shl dest a b => binary dest .shiftLeft a b
  | .shr dest a b signed => binary dest (if signed then .shiftRightS32 else .shiftRightU32) a b
  | .popc dest src => unary dest .bitCount src.operand
  | .i2f dest src signed =>
    unary dest (if signed then .convertS32ToFP32 else .convertU32ToFP32) src.operand
  | .f2i dest src signed =>
    unary dest (if signed then .convertFP32ToS32 else .convertFP32ToU32) src.operand
  | .isetp dest a b comparison signed =>
    setPredicate dest comparison (if signed then .s32 else .u32) a b
  | .fsetp dest a b comparison => setPredicate dest comparison .f32 a b
  | .ald dest count address vertex offset perPatch output =>
    (List.range count).forM fun i =>
      l.loadAttribute (dest.after i) (attributeStorage output perPatch) (address + i * 4) vertex offset
  | .ast src count address vertex offset perPatch =>
    (List.range count).forM fun i =>
      l.storeAttribute (src.after i) (attributeStorage true perPatch) (address + i * 4) vertex offset
  | .ipa dest address offset => l.loadAttribute dest .input address none offset
  | .s2r dest system => l.loadSystem dest system
  | .ld dest count space address offset =>
    (List.range count).forM (l.loadWord dest space address offset)
  | .st src count space address offset =>
    (List.range count).forM (l.storeWord src space address offset)
  | .tex dest mask handle sampler coords lod fetch =>
    l.sampleTexture dest mask handle sampler coords lod fetch
  | .suld dest mask handle sampler coords =>
    components dest mask (fun component => .imageLoad (l.imageOp handle sampler component))
      (coords.map Register.operand)
  | .sust values handle sampler coords => l.storeImage values handle sampler coords
  | .shfl dest value index mask mode => shuffle dest value index mask (shuffleInstruction mode)
  | .fswzadd dest a b mask => do
    let d ← Emit.destination dest
    Emit.assign d .swizzleAdd [a.operand, b.operand, .constant mask]
  | .bar => Emit.effect .barrier []
  | .bra _ => return
  | .exit => do
    l.epilogue
    Emit.ret
  | .kil => Emit.effect .discard []
  | .out emit cut => do
    if emit then Emit.emitVertex
    if cut then Emit.endPrimitive

def guarded (guard : Guest.Guard) (body : Emit Unit) : Emit Unit :=
  if guard.isConditional then do
    let skip ← Emit.freshLabel
    let cond := guard.predicate.operand
    if guard.inverted then Emit.branchIfTrue skip cond else Emit.branchIfFalse skip cond
    body
    Emit.markLabel skip
  else body

def branch (guard : Guest.Guard) (label : Operand) : Emit Unit :=
  if guard.isConditional then
    let cond := guard.predicate.operand
    if guard.inverted then Emit.branchIfFalse label cond else Emit.branchIfTrue label cond
  else Emit.branch label

def label? (l : Lowering) (address : Nat) : Option Operand := l.labels.lookup address

def placed (l : Lowering) (p : Guest.Placed) : Emit Unit :=
  match p.op with
  | .bra target =>
    match l.label? target with
    | some label => branch p.guard label
    | none => return
  | op => guarded p.guard (l.op op)

end ShaderRecompiler.Lowering
