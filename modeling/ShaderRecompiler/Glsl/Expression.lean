import ShaderRecompiler.Glsl.Interface

/-! Operations as GLSL expressions. -/
namespace ShaderRecompiler.Glsl.Scope

def place (op : Operation) (index : Nat) : Except Error Nat :=
  match op.place? index with
  | some place => .ok place
  | none => .error (.missingOperand op.inst index)

def indices (s : Scope) (op : Operation) (first stop : Nat) : Except Error String := do
  let parts ← s.sourcesAs op .u32 first (stop - first)
  return String.join (parts.map fun part => s!"[{part}]")

def bufferElement (s : Scope) (op : Operation) (stop : Nat) : Except Error Value := do
  let binding ← place op 0
  let index ← place op 1
  let (kind, buffer) :=
    if op.storage = .constantBuffer then
      (ResourceKind.constantBuffer, s.resources.constantBuffer? binding)
    else (.storageBuffer, s.resources.storageBuffer? binding)
  match buffer with
  | none => throw (.undeclared kind binding)
  | some buffer =>
    match buffer.fields[index]? with
    | none => throw (.undeclared .bufferField index)
    | some field =>
      let suffix ← s.indices op 2 stop
      return ⟨s!"{buffer.name}.{field.name}{suffix}", .ofNum field.type.numType⟩

def memoryElement (s : Scope) (op : Operation) (stop : Nat) : Except Error Value := do
  let id ← place op 0
  let (kind, memory) :=
    if op.storage = .localMemory then (ResourceKind.localMemory, s.resources.localMemory? id)
    else (.sharedMemory, s.resources.sharedMemory? id)
  match memory with
  | none => throw (.undeclared kind id)
  | some memory =>
    let suffix ← s.indices op 1 (min stop 2)
    return ⟨memory.name ++ suffix, .u32⟩

/-- What a load or store addresses; the sources from `stop` on are values. -/
def element (s : Scope) (op : Operation) (stop : Nat) : Except Error Value :=
  match op.storage with
  | .constantBuffer | .storageBuffer => s.bufferElement op stop
  | .localMemory | .sharedMemory => s.memoryElement op stop
  | .input | .output | .inputPerPatch | .outputPerPatch => do
    let access ← Access.ofOperation s.context.config op
    let text ← s.access op.storage access
    return ⟨text, access.type s.context op.storage⟩
  | .none => .error (.invalidStorage op.inst op.storage)

/-- A component of a sampled vector; past the last there is only the first. -/
def componentName (component : Nat) : String := swizzles.getD component "x"

def coordinates (s : Scope) (op : Operation) (sampler : Sampler) (type : ValueType) :
    Except Error String := do
  return vectorOf type (← s.sourcesAs op type 0 sampler.coordinates)

def textureSample (s : Scope) (op : Operation) (t : TextureOp) : Except Error String := do
  match s.resources.texture? t.binding with
  | none => throw (.undeclared .texture t.binding)
  | some texture =>
    let name := texture.name
    let count := t.sampler.coordinates
    let component := componentName t.component
    if t.sampler = .buffer then
      let coords ← s.coordinates op t.sampler .s32
      return s!"texelFetch({name}, {coords}).{component}"
    else if t.intCoords then
      let coords ← s.coordinates op t.sampler .s32
      let lod ← if t.lod then s.sourceAs op .s32 count else pure "0"
      return s!"texelFetch({name}, {coords}, {lod}).{component}"
    else
      let coords ← s.coordinates op t.sampler .f32
      if t.lod then
        let lod ← s.sourceAs op .f32 count
        return s!"textureLod({name}, {coords}, {lod}).{component}"
      else return s!"texture({name}, {coords}).{component}"

def imageName (s : Scope) (binding : Nat) : Except Error String :=
  match s.resources.image? binding with
  | some image => .ok image.name
  | none => .error (.undeclared .image binding)

def imageLoad (s : Scope) (op : Operation) (image : ImageOp) : Except Error String := do
  let name ← s.imageName image.binding
  let coords ← s.coordinates op image.sampler .s32
  return s!"imageLoad({name}, {coords}).{componentName image.component}"

def computed (s : Scope) (op : Operation) : Except Error String :=
  match op.inst with
  | .add t => s.binary op "+" (.ofNum t) (.ofNum t)
  | .subtract t => s.binary op "-" (.ofNum t) (.ofNum t)
  | .multiply t => s.binary op "*" (.ofNum t) (.ofNum t)
  | .divide t => s.binary op "/" (.ofNum t) (.ofNum t)
  | .negate t => (s.sourceAs op (.ofNum t) 0).map fun a => s!"(-{a})"
  | .absolute .u32 => s.sourceAs op .u32 0
  | .absolute t => s.call op "abs" [.ofNum t]
  | .minimum t => s.call op "min" [.ofNum t, .ofNum t]
  | .maximum t => s.call op "max" [.ofNum t, .ofNum t]
  | .fusedMultiplyAdd => s.call op "fma" [.f32, .f32, .f32]
  | .bitwiseAnd => s.binary op "&" .u32 .u32
  | .bitwiseOr => s.binary op "|" .u32 .u32
  | .bitwiseExclusiveOr => s.binary op "^" .u32 .u32
  | .bitwiseNot => (s.sourceAs op .u32 0).map fun a => s!"(~{a})"
  | .bitCount => s.call op "bitCount" [.u32]
  | .shiftLeft => s.binary op "<<" .u32 .u32
  | .shiftRightS32 => s.binary op ">>" .s32 .u32
  | .shiftRightU32 => s.binary op ">>" .u32 .u32
  | .compare comparison t => s.binary op comparison.symbol (.ofNum t) (.ofNum t)
  | .logicalAnd => s.binary op "&&" .bool .bool
  | .logicalOr => s.binary op "||" .bool .bool
  | .logicalExclusiveOr => s.binary op "^^" .bool .bool
  | .logicalNot => (s.sourceAs op .bool 0).map negation
  | .conditionalSelect t => do
    let cond ← s.sourceAs op .bool 0
    let a ← s.sourceAs op (.ofNum t) 1
    let b ← s.sourceAs op (.ofNum t) 2
    return s!"({cond} ? {a} : {b})"
  | .convertFP32ToS32 => s.call op "int" [.f32]
  | .convertFP32ToU32 => s.call op "uint" [.f32]
  | .convertS32ToFP32 => s.call op "float" [.s32]
  | .convertU32ToFP32 => s.call op "float" [.u32]
  | .multiplyHighS32 => s.call op "Helper_MultiplyHighS32" [.s32, .s32]
  | .multiplyHighU32 => s.call op "Helper_MultiplyHighU32" [.u32, .u32]
  | .shuffle => s.call op "Helper_Shuffle" [.f32, .u32, .u32]
  | .shuffleDown => s.call op "Helper_ShuffleDown" [.f32, .u32, .u32]
  | .shuffleUp => s.call op "Helper_ShuffleUp" [.f32, .u32, .u32]
  | .shuffleXor => s.call op "Helper_ShuffleXor" [.f32, .u32, .u32]
  | .swizzleAdd => s.call op "Helper_SwizzleAdd" [.f32, .f32, .s32]
  | .textureSample texture => s.textureSample op texture
  | .imageLoad image => s.imageLoad op image
  | inst => .error (.noValue inst)

def value (s : Scope) (op : Operation) : Except Error Value :=
  match op.inst with
  | .copy =>
    match op.source? 0 with
    | some o => s.operand o
    | none => .error (.missingOperand op.inst 0)
  | .load => s.element op op.sources.length
  | _ => (s.computed op).map fun text => ⟨text, s.context.resultType s.types op⟩

end ShaderRecompiler.Glsl.Scope
