import ShaderRecompiler.Config
import ShaderRecompiler.IR.Routine
import ShaderRecompiler.Resources

/-! Well-formedness of a routine: terminators stand last, accesses name what is
declared, and each operation has the operands its instruction takes. -/
namespace ShaderRecompiler

inductive Fault where
  | sourceCount (inst : Instruction) (expected actual : Nat)
  | missingDestination (inst : Instruction)
  | unexpectedDestination (inst : Instruction)
  | misplacedTerminator (inst : Instruction)
  | unknownIoVariable
  | undeclared (kind : ResourceKind) (id : Nat)
  | invalidStorage (inst : Instruction) (storage : Storage)
deriving DecidableEq, Repr

def Fault.message : Fault → String
  | sourceCount inst expected actual => s!"{inst.name} expects {expected} sources, found {actual}"
  | missingDestination inst => s!"{inst.name} has no destination"
  | unexpectedDestination inst => s!"{inst.name} must not have a destination"
  | misplacedTerminator inst => s!"{inst.name} is not the last operation of its block"
  | unknownIoVariable => "IO access without a valid variable"
  | undeclared kind id => s!"{kind.name} {id} is not declared"
  | invalidStorage inst storage => s!"{inst.name} on storage kind {storage.name}"

structure CheckError where
  block : Nat
  fault : Fault
deriving DecidableEq, Repr

def CheckError.message (e : CheckError) : String := s!"block {e.block}: {e.fault.message}"

/-- The sources of everything but loads and stores. -/
def Instruction.arity : Instruction → Nat
  | ret | discard | barrier | emitVertex | endPrimitive | load | store => 0
  | copy | negate _ | absolute _ | bitwiseNot | bitCount | logicalNot | convertFP32ToS32
  | convertFP32ToU32 | convertS32ToFP32 | convertU32ToFP32 | branch | markLabel => 1
  | add _ | subtract _ | multiply _ | divide _ | minimum _ | maximum _ | bitwiseAnd | bitwiseOr
  | bitwiseExclusiveOr | shiftLeft | shiftRightS32 | shiftRightU32 | compare .. | logicalAnd
  | logicalOr | logicalExclusiveOr | multiplyHighS32 | multiplyHighU32 | branchIfTrue
  | branchIfFalse => 2
  | fusedMultiplyAdd | conditionalSelect _ | shuffle | shuffleDown | shuffleUp | shuffleXor
  | swizzleAdd => 3
  | textureSample t => t.sampler.coordinates + t.lod.toNat
  | imageLoad i => i.sampler.coordinates
  | imageStore i => i.sampler.coordinates + 4

def Instruction.hasDestination : Instruction → Bool
  | store | imageStore _ | barrier | branch | branchIfTrue | branchIfFalse | markLabel | ret
  | discard | emitVertex | endPrimitive => false
  | _ => true

namespace Check

/-- Stands for the number of a resource that is not a constant. -/
def noId : Nat := 0xffffffff

def bufferSources (op : Operation) (kind : ResourceKind) (buffer : Option Buffer) :
    Except Fault Nat :=
  let id := (op.place? 0).getD noId
  match buffer with
  | none => .error (.undeclared kind id)
  | some buffer =>
    match (op.place? 1).bind fun index => buffer.fields[index]? with
    | none => .error (.undeclared .bufferField id)
    | some field => .ok (2 + field.length.isSome.toNat + field.type.isVector.toNat)

def memorySources (op : Operation) (kind : ResourceKind) (memory : Option Memory) :
    Except Fault Nat :=
  match memory with
  | none => .error (.undeclared kind ((op.place? 0).getD noId))
  | some memory => .ok (1 + memory.length.isSome.toNat)

def ioSources (c : Config) (op : Operation) : Except Fault Nat :=
  match op.ioVariable? with
  | none => .error .unknownIoVariable
  | some v =>
    .ok (1 + v.hasLocation.toNat + (c.hasVertexIndex op.storage v).toNat + v.hasComponent.toNat)

/-- The sources that name the element of a load or store. -/
def elementSources (c : Config) (r : Resources) (op : Operation) : Except Fault Nat :=
  match op.storage with
  | .input | .output | .inputPerPatch | .outputPerPatch => ioSources c op
  | .constantBuffer =>
    if op.inst = .store then .error (.invalidStorage op.inst op.storage)
    else bufferSources op .constantBuffer ((op.place? 0).bind r.constantBuffer?)
  | .storageBuffer => bufferSources op .storageBuffer ((op.place? 0).bind r.storageBuffer?)
  | .localMemory => memorySources op .localMemory ((op.place? 0).bind r.localMemory?)
  | .sharedMemory => memorySources op .sharedMemory ((op.place? 0).bind r.sharedMemory?)
  | .none => .error (.invalidStorage op.inst op.storage)

def expectedSources (c : Config) (r : Resources) (op : Operation) : Except Fault Nat :=
  match op.inst with
  | .load => elementSources c r op
  | .store => (· + 1) <$> elementSources c r op
  | inst => .ok inst.arity

def operation (c : Config) (r : Resources) (op : Operation) : Except Fault Unit := do
  let expected ← expectedSources c r op
  if op.sources.length ≠ expected then throw (.sourceCount op.inst expected op.sources.length)
  match op.inst.hasDestination, op.dest with
  | true, none => throw (.missingDestination op.inst)
  | false, some _ => throw (.unexpectedDestination op.inst)
  | _, _ => return

end Check

/-- The first fault in block order. -/
def Routine.check (r : Routine) (c : Config) (resources : Resources) : Except CheckError Unit :=
  r.allOps.forM fun (b, id) =>
    let op := r.op id
    let result :=
      if op.inst.isTerminator ∧ r.last b ≠ some id then .error (.misplacedTerminator op.inst)
      else Check.operation c resources op
    result.mapError fun fault => ⟨b, fault⟩

end ShaderRecompiler
