/-! Where a load or store finds its element. -/
namespace ShaderRecompiler

inductive Storage where
  | none
  | input
  | output
  | inputPerPatch
  | outputPerPatch
  | constantBuffer
  | storageBuffer
  | localMemory
  | sharedMemory
deriving DecidableEq, Repr, Inhabited

namespace Storage

def isInput : Storage → Bool
  | input | inputPerPatch => true
  | _ => false

def isOutput : Storage → Bool
  | output | outputPerPatch => true
  | _ => false

def isIo (s : Storage) : Bool := s.isInput || s.isOutput

def isPerPatch : Storage → Bool
  | inputPerPatch | outputPerPatch => true
  | _ => false

def isMemory : Storage → Bool
  | localMemory | sharedMemory => true
  | _ => false

def isBuffer : Storage → Bool
  | constantBuffer | storageBuffer => true
  | _ => false

def name : Storage → String
  | none => "None"
  | input => "Input"
  | output => "Output"
  | inputPerPatch => "InputPerPatch"
  | outputPerPatch => "OutputPerPatch"
  | constantBuffer => "ConstantBuffer"
  | storageBuffer => "StorageBuffer"
  | localMemory => "LocalMemory"
  | sharedMemory => "SharedMemory"

end Storage
end ShaderRecompiler
