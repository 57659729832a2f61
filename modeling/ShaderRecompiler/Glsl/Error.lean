import ShaderRecompiler.Declaration
import ShaderRecompiler.IR.Operation

/-! Why a program has no GLSL text. -/
namespace ShaderRecompiler.Glsl

/-- Accesses to the stage interface that GLSL cannot express. -/
inductive UnsupportedAccess where
  | dynamicPatchLocation
  | dynamicColor
  | dynamicCapturedComponent (location : Nat)
  | capturedComponent (component location : Nat)
deriving DecidableEq, Repr

def UnsupportedAccess.message : UnsupportedAccess → String
  | dynamicPatchLocation => "dynamic per-patch location"
  | dynamicColor => "dynamic fragment output"
  | dynamicCapturedComponent location => s!"dynamic component of captured output {location}"
  | capturedComponent component location => s!"component {component} of output {location}"

inductive Error where
  | missingOperand (inst : Instruction) (index : Nat)
  | noValue (inst : Instruction)
  | invalidDestination (inst : Instruction) (dest : Operand)
  | labelAsValue
  | undeclared (kind : ResourceKind) (id : Nat)
  | unknownIoVariable (inst : Instruction)
  | invalidStorage (inst : Instruction) (storage : Storage)
  | unsupportedIo (access : UnsupportedAccess)
deriving DecidableEq, Repr

def Error.message : Error → String
  | missingOperand inst index => s!"{inst.name} is missing source operand {index}"
  | noValue inst => s!"{inst.name} does not produce a value"
  | invalidDestination inst dest => s!"{inst.name} can not write to {dest.describe}"
  | labelAsValue => "label operand used as a value"
  | undeclared kind id => s!"{kind.name} {id} is not declared"
  | unknownIoVariable inst => s!"{inst.name} does not address a known IO variable"
  | invalidStorage inst storage => s!"{inst.name} can not access {storage.name} storage"
  | unsupportedIo access => s!"unsupported IO access: {access.message}"

end ShaderRecompiler.Glsl
