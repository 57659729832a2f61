import ShaderRecompiler.Config
import ShaderRecompiler.Guest.Instruction
import ShaderRecompiler.Hexadecimal
import ShaderRecompiler.IR.Emitter

/-! Guest operands and accesses to the stage interface. The zero register reads
as the constant zero and the true predicate as one; a result that the guest
discards goes to a temporary that nothing reads. -/
namespace ShaderRecompiler

def Register.operand (r : Register) : Operand := if r.isRz then .word 0 else .register r

def Predicate.operand (p : Predicate) : Operand := if p.isPt then .word 1 else .predicate p

def Guest.Source.operand : Guest.Source → Operand
  | register r => r.operand
  | immediate value => .constant value
  | constantBuffer slot offset => .constantBuffer slot (offset / 4)

def Emit.destination (r : Register) : Emit Operand :=
  if r.isRz then Emit.freshTemp else return .register r

def Emit.predicateDestination (p : Predicate) : Emit Operand :=
  if p.isPt then Emit.freshTemp else return .predicate p

namespace Config

/-- The sources of an access: the variable, then location, vertex and component
where the variable takes them. -/
def accessSources (c : Config) (storage : Storage) (v : IoVariable)
    (location vertex component : Operand) : List Operand :=
  [v.operand] ++ (if v.hasLocation then [location] else []) ++
    (if c.hasVertexIndex storage v then [vertex] else []) ++
    if v.hasComponent then [component] else []

def targetSources (c : Config) (storage : Storage) (vertex : Operand) : Attribute.Target → List Operand
  | .user location component =>
    c.accessSources storage .userDefined (.word location) vertex (.word component)
  | .builtin v component => c.accessSources storage v (.word 0) vertex (.word (component.getD 0))

/-- The vertex of an access. Where outputs are arrays, an invocation writes its
own vertex unless told otherwise. -/
def accessVertex (c : Config) (storage : Storage) : Option Register → Emit Operand
  | some r => return r.operand
  | none =>
    if storage.isOutput && c.guestStage.hasArrayedOutputs then Emit.loadInput .invocationId
    else return .word 0

def indexedSources (c : Config) (storage : Storage) (address : Nat) (vertex offset : Operand) :
    Emit (List Operand) := do
  let byte ← Emit.iadd offset (.word address)
  let row ← Emit.value .shiftRightU32 [byte, .word 4]
  let location ← Emit.isub row (.word (Attribute.userBase / 16))
  let word ← Emit.value .shiftRightU32 [byte, .word 2]
  let component ← Emit.value .bitwiseAnd [word, .word 3]
  return c.accessSources storage .userDefined location vertex component

def attributeSources (c : Config) (storage : Storage) (address : Nat)
    (vertex offset : Option Register) : Emit (Option (List Operand)) := do
  let vertex ← c.accessVertex storage vertex
  match offset with
  | some r => some <$> c.indexedSources storage address vertex r.operand
  | none =>
    return (Attribute.resolve address c.guestStage storage.isOutput storage.isPerPatch).map
      (c.targetSources storage vertex)

def attributeWarning (c : Config) (storage : Storage) (offset : Option Register) (address : Nat) :
    List String :=
  if offset.isSome then []
  else
    match Attribute.resolve address c.guestStage storage.isOutput storage.isPerPatch with
    | some _ => []
    | none =>
      let direction := if storage.isOutput then "output" else "input"
      [s!"Invalid {direction} attribute offset 0x{Hexadecimal.digits address}."]

end Config
end ShaderRecompiler
