import ShaderRecompiler.Guest.Program
import ShaderRecompiler.Lowering.Instruction

/-! Guest programs as flat lists of operations. Resources are declared first, in
the order of their first use, so every instruction is lowered against the same
declarations. -/
namespace ShaderRecompiler

namespace Guest

inductive Fault where
  | unknownTarget (target : Nat)
  | noLocalMemory
  | noSharedMemory
deriving DecidableEq, Repr

def Fault.message : Fault → String
  | unknownTarget target => s!"branch target 0x{Hexadecimal.digits target} is not a block start"
  | noLocalMemory => "local memory is not declared"
  | noSharedMemory => "shared memory is not declared"

structure Error where
  address : Nat
  op : Op
  fault : Fault
deriving DecidableEq, Repr

def Error.message (e : Error) : String :=
  s!"IR build error at address 0x{Hexadecimal.digits e.address}, opcode {e.op.mnemonic}: {e.fault.message}"

def Space.fault? (r : Resources) : Space → Option Fault
  | localMemory => if r.currentLocal.isNone then some .noLocalMemory else none
  | sharedMemory => if r.currentShared.isNone then some .noSharedMemory else none
  | global _ => none

def Op.fault? (r : Resources) (blocks : List Nat) : Op → Option Fault
  | bra target => if blocks.contains target then none else some (.unknownTarget target)
  | ld _ count space _ _ | st _ count space _ _ => if count = 0 then none else space.fault? r
  | _ => none

def Op.declare (r : Resources) : Op → Resources
  | tex _ _ handle sampler _ _ _ => (r.useTexture ⟨handle, sampler, .f32⟩).2
  | suld _ _ handle sampler _ | sust _ handle sampler _ => (r.useImage ⟨handle, sampler, .u32⟩).2
  | ld _ count (.global slot) _ _ | st _ count (.global slot) _ _ =>
    if count = 0 then r else (r.useStorageBuffer slot).2
  | _ => r

def Op.warnings (c : Config) : Op → List String
  | ald _ count address _ offset perPatch output =>
    (Usage.words address count).flatMap
      (c.attributeWarning (Lowering.attributeStorage output perPatch) offset)
  | ast _ count address _ offset perPatch =>
    (Usage.words address count).flatMap
      (c.attributeWarning (Lowering.attributeStorage true perPatch) offset)
  | ipa _ address offset => c.attributeWarning .input offset address
  | _ => []

namespace Program

def placed (p : Program) : List Placed := p.blocks.flatMap (·.body)

def addresses (p : Program) : List Nat := p.blocks.map (·.address)

def error? (p : Program) (r : Resources) : Option Error :=
  p.placed.findSome? fun i =>
    (i.op.fault? r p.addresses).map fun fault => ⟨i.address, i.op, fault⟩

/-- The warnings up to the first fault. -/
def warnings (p : Program) (c : Config) (r : Resources) : List String :=
  (p.placed.takeWhile fun i => (i.op.fault? r p.addresses).isNone).flatMap fun i => i.op.warnings c

def declare (p : Program) (r : Resources) : Resources := p.ops.foldl Op.declare r

end Program
end Guest

structure Parts where
  initialOutputs : Bool := true
  prologue : Bool := true
  epilogue : Bool := true
deriving DecidableEq, Repr

structure Lowered where
  ops : List Operation
  ids : Ids
  /-- The place of the program's first own operation. -/
  bodyStart : Nat
  resources : Resources
  features : Features

/-- What surrounds a program when it is lowered. -/
structure Surroundings where
  config : Config
  host : Host
  resources : Resources
  outputs : UInt32
  layerInput : Option Nat := none

namespace Lowering

def block (l : Lowering) (b : Guest.Block) : Emit Unit := do
  match l.label? b.address with
  | some label => Emit.markLabel label
  | none => return
  b.body.forM l.placed

/-- A program that can run off its end is closed there. -/
def close (l : Lowering) : Emit Unit := do
  if !(← get).endsInJump then
    l.epilogue
    Emit.ret

/-- Some end of the program is followed by an epilogue. -/
def reachesEpilogue (l : Lowering) (p : Guest.Program) (falls : Bool) : Bool :=
  l.writesEpilogue && (falls || p.ops.contains .exit)

end Lowering

namespace Guest.Program

/-- One label per block; of blocks at one address the last one has the label
that is used. -/
def labels (p : Program) : Emit (List (Nat × Operand)) :=
  p.addresses.foldlM
    (fun labels address => do
      let label ← Emit.freshLabel
      return (address, label) :: labels)
    []

/-- The operations of a program without faults. -/
def lowerBody (p : Program) (s : Surroundings) (parts : Parts) : Emit (Nat × Bool) := do
  let labels ← p.labels
  let l : Lowering :=
    { config := s.config
      resources := p.declare s.resources
      emulatesFeedback := s.host.emulatesTransformFeedback
      outputs := s.outputs
      layerInput := s.layerInput
      labels
      writesEpilogue := parts.epilogue }
  if parts.initialOutputs then l.initializeOutputs
  if parts.prologue then l.prologue
  let bodyStart := (← get).ops.size
  p.blocks.forM l.block
  let falls := !(← get).endsInJump
  l.close
  return (bodyStart, l.capturesInEpilogue && l.reachesEpilogue p falls)

def lower (p : Program) (s : Surroundings) (ids : Ids) (parts : Parts) : Except Error Lowered :=
  match p.error? s.resources with
  | some e => .error e
  | none =>
    let ((bodyStart, captures), emitter) := (p.lowerBody s parts).run { ids }
    .ok
      { ops := emitter.ops.toList
        ids := emitter.ids
        bodyStart
        resources := p.declare s.resources
        features := { drawParameters := captures } }

end Guest.Program
end ShaderRecompiler
