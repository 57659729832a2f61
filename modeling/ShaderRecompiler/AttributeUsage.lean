import ShaderRecompiler.Ascending
import ShaderRecompiler.Attribute
import ShaderRecompiler.Mask

/-! The generic attributes that a stage reads and writes, and how neighbouring
stages agree on them. A merge returns the folded value and leaves both sides
as they were. -/
namespace ShaderRecompiler

structure AttributeUsage where
  /-- Locations read. -/
  inputs : UInt32 := 0
  /-- Locations written here or read by the next stage. -/
  outputs : UInt32 := 0
  patchInputs : List Nat := []
  patchOutputs : List Nat := []
  nextPatchInputs : List Nat := []
  /-- Locations that a passthrough stage forwards without writing them. -/
  passthrough : UInt32 := 0
  /-- Four bits per location: the components read of each. -/
  components : Nat := 0
  nextComponents : Nat := 0
deriving DecidableEq, Repr, Inhabited

namespace AttributeUsage

def readInput (u : AttributeUsage) (location component : Nat) : AttributeUsage :=
  if location < Attribute.userLocations then
    { u with
      inputs := Mask.insert u.inputs location
      components := u.components ||| 1 <<< (location * 4 + component % 4) }
  else u

def readPatchInput (u : AttributeUsage) (index : Nat) : AttributeUsage :=
  { u with patchInputs := Ascending.insert index u.patchInputs }

def writeOutput (u : AttributeUsage) (location : Nat) : AttributeUsage :=
  if location < Attribute.userLocations then { u with outputs := Mask.insert u.outputs location } else u

def writePatchOutput (u : AttributeUsage) (index : Nat) : AttributeUsage :=
  { u with patchOutputs := Ascending.insert index u.patchOutputs }

/-- The components of input `location` that are read, the first in the lowest bit. -/
def inputComponents (u : AttributeUsage) (location : Nat) : Nat :=
  (u.components >>> (location * 4)) % 16

/-- The components of output `location` that the next stage reads. -/
def nextInputComponents (u : AttributeUsage) (location : Nat) : Nat :=
  (u.nextComponents >>> (location * 4)) % 16

/-- Makes the locations in `mask` outputs of the stage. A geometry stage in
passthrough mode cannot write more of them and forwards the missing ones. -/
def mergeOutputs (u : AttributeUsage) (geometryPassthrough : Bool) (mask : UInt32)
    (patches : List Nat) : AttributeUsage :=
  let patchOutputs := Ascending.union u.patchOutputs patches
  if geometryPassthrough then { u with passthrough := mask &&& ~~~u.outputs, patchOutputs }
  else { u with outputs := u.outputs ||| mask, patchOutputs }

def mergeNext (u : AttributeUsage) (geometryPassthrough : Bool) (next : AttributeUsage) :
    AttributeUsage :=
  { u.mergeOutputs geometryPassthrough next.inputs next.patchInputs with
    nextComponents := next.components
    nextPatchInputs := next.patchInputs }

/-- The usage of two stages fused into one program. -/
def inherit (u other : AttributeUsage) : AttributeUsage :=
  { u with
    inputs := u.inputs ||| other.inputs
    outputs := u.outputs ||| other.outputs
    components := u.components ||| other.components
    patchInputs := Ascending.union u.patchInputs other.patchInputs
    patchOutputs := Ascending.union u.patchOutputs other.patchOutputs }

end AttributeUsage
end ShaderRecompiler
