import ShaderRecompiler.IR.IoVariable
import ShaderRecompiler.Stage

/-! The guest's attribute address space. Attributes are addressed by byte:
built-ins stand at fixed addresses, and generic ones fill a window of sixteen
bytes, four words, per location. -/
namespace ShaderRecompiler.Attribute

/-- First byte of the generic window. -/
def userBase : Nat := 0x080

/-- One past the generic window, which has room for 32 locations. -/
def userEnd : Nat := 0x280

/-- Generic locations that a stage interface declares. -/
def userLocations : Nat := 16

def clipDistances : Nat := 8

/-- Per-patch attributes are placed after the regular locations. -/
def patchLocation (index : Nat) : Nat := userLocations + index

inductive Target where
  | builtin (v : IoVariable) (component : Option Nat)
  | user (location component : Nat)
deriving DecidableEq, Repr

def isUser (address : Nat) : Bool := decide (userBase ≤ address ∧ address < userEnd)

/-- Built-ins of a patch are its tessellation levels. -/
def patchBuiltin? (address : Nat) : Option (IoVariable × Option Nat) :=
  if address ≤ 0x00c then some (.tessellationLevelOuter, some (address / 4 % 4))
  else if address ≤ 0x014 then some (.tessellationLevelInner, some (address / 4 % 2))
  else none

/-- The position of a fragment is its window coordinate. -/
def builtin? (address : Nat) (stage : Stage) (isOutput : Bool) : Option (IoVariable × Option Nat) :=
  if address = 0x060 then some (.primitiveId, none)
  else if address = 0x064 then some (.layer, none)
  else if address = 0x068 then some (.viewportIndex, none)
  else if address = 0x06c then some (.pointSize, none)
  else if 0x070 ≤ address ∧ address ≤ 0x07c then
    let v := if stage = .fragment ∧ !isOutput then .fragmentCoord else .position
    some (v, some (address / 4 % 4))
  else if 0x2c0 ≤ address ∧ address ≤ 0x2dc then some (.clipDistance, some ((address - 0x2c0) / 4))
  else if address = 0x2e0 ∨ address = 0x2e4 then some (.pointCoord, some (address / 4 % 2))
  else if address = 0x2f0 ∨ address = 0x2f4 then some (.tessellationCoord, some (address / 4 % 2))
  else if address = 0x2f8 then some (.instanceId, none)
  else if address = 0x2fc then some (.vertexId, none)
  else if address = 0x3fc then some (.frontFacing, none)
  else none

/-- What a byte address refers to. Unaligned addresses, unassigned ones and
locations that no interface declares refer to nothing. -/
def resolve (address : Nat) (stage : Stage) (isOutput perPatch : Bool) : Option Target :=
  if address % 4 ≠ 0 then none
  else if isUser address then
    let location := (address - userBase) / 16
    if location < userLocations then some (.user location (address / 4 % 4)) else none
  else
    let found := if perPatch then patchBuiltin? address else builtin? address stage isOutput
    found.map fun (v, component) => .builtin v component

end ShaderRecompiler.Attribute
