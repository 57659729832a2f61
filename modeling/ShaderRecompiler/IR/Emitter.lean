import ShaderRecompiler.IR.Operation

/-! Emission of operations in order. What is emitted is only ever appended to,
so an emitting computation is described by the list it adds. -/
namespace ShaderRecompiler

structure Emitter where
  ops : Array Operation := #[]
  ids : Ids := {}
deriving Inhabited

/-- Control cannot fall off the end of what was emitted. -/
def Emitter.endsInJump (e : Emitter) : Bool := e.ops.back?.any (·.inst.isJump)

abbrev Emit := StateM Emitter

namespace Emit

def op (operation : Operation) : Emit Unit := modify fun e => { e with ops := e.ops.push operation }

def freshTemp : Emit Operand := modifyGet fun e =>
  let (operand, ids) := e.ids.freshTemp
  (operand, { e with ids })

def freshLabel : Emit Operand := modifyGet fun e =>
  let (operand, ids) := e.ids.freshLabel
  (operand, { e with ids })

def freshVar : Emit Operand := modifyGet fun e =>
  let (operand, ids) := e.ids.freshVar
  (operand, { e with ids })

def assign (dest : Operand) (inst : Instruction) (sources : List Operand) : Emit Unit :=
  op { inst, dest := some dest, sources }

def value (inst : Instruction) (sources : List Operand) : Emit Operand := do
  let dest ← freshTemp
  assign dest inst sources
  return dest

def copy (dest source : Operand) : Emit Unit := assign dest .copy [source]

def loadInto (dest : Operand) (storage : Storage) (sources : List Operand) : Emit Unit :=
  op { inst := .load, storage, dest := some dest, sources }

def load (storage : Storage) (sources : List Operand) : Emit Operand := do
  let dest ← freshTemp
  loadInto dest storage sources
  return dest

def loadInput (v : IoVariable) : Emit Operand := load .input [v.operand]

def globalInvocationId (component : Nat) : Emit Operand :=
  load .input [IoVariable.operand .globalInvocationId, .word component]

def store (storage : Storage) (sources : List Operand) : Emit Unit :=
  op { inst := .store, storage, dest := none, sources }

def iadd (a b : Operand) : Emit Operand := value (.add .u32) [a, b]

def isub (a b : Operand) : Emit Operand := value (.subtract .u32) [a, b]

def imul (a b : Operand) : Emit Operand := value (.multiply .u32) [a, b]

def compare (comparison : Comparison) (type : NumType) (a b : Operand) : Emit Operand :=
  value (.compare comparison type) [a, b]

def select (type : NumType) (cond a b : Operand) : Emit Operand :=
  value (.conditionalSelect type) [cond, a, b]

def effect (inst : Instruction) (sources : List Operand) : Emit Unit :=
  op { inst, dest := none, sources }

def markLabel (label : Operand) : Emit Unit := effect .markLabel [label]

def branch (label : Operand) : Emit Unit := effect .branch [label]

def branchIfTrue (label cond : Operand) : Emit Unit := effect .branchIfTrue [label, cond]

def branchIfFalse (label cond : Operand) : Emit Unit := effect .branchIfFalse [label, cond]

def ret : Emit Unit := effect .ret []

def emitVertex : Emit Unit := effect .emitVertex []

def endPrimitive : Emit Unit := effect .endPrimitive []

end Emit
end ShaderRecompiler
