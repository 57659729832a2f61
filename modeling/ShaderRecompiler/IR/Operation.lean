import ShaderRecompiler.IR.Instruction
import ShaderRecompiler.IR.IoVariable
import ShaderRecompiler.IR.Storage

/-! Operations and the allocator of fresh operands. One allocator is threaded
through everything that ends up in one program, so parts built one after the
other share no temporaries, labels or variables. -/
namespace ShaderRecompiler

structure Operation where
  inst : Instruction
  storage : Storage := .none
  dest : Option Operand
  sources : List Operand
deriving DecidableEq, Repr

instance : Inhabited Operation := ⟨{ inst := .copy, dest := none, sources := [] }⟩

namespace Operation

def source? (op : Operation) (index : Nat) : Option Operand := op.sources[index]?

def place? (op : Operation) (index : Nat) : Option Nat := (op.source? index).bind Operand.asNat?

def ioVariable? (op : Operation) : Option IoVariable :=
  if op.storage.isIo then (op.place? 0).bind IoVariable.ofNumber? else none

def isLoad (op : Operation) (storage : Storage) : Bool := op.inst == .load && op.storage == storage

def isStore (op : Operation) (storage : Storage) : Bool := op.inst == .store && op.storage == storage

/-- The same destination, now assigned `source`. -/
def toCopy (op : Operation) (source : Operand) : Operation :=
  { inst := .copy, dest := op.dest, sources := [source] }

def operands (op : Operation) : List Operand := op.dest.toList ++ op.sources

/-- The place of the component among the sources: last, before a stored value. -/
def componentIndex? (op : Operation) : Option Nat :=
  let trailing := if op.inst == .store then 2 else 1
  if trailing ≤ op.sources.length then some (op.sources.length - trailing) else none

end Operation

structure Ids where
  temps : Nat := 0
  labels : Nat := 0
  vars : Nat := 0
deriving DecidableEq, Repr, Inhabited

namespace Ids

def freshTemp (ids : Ids) : Operand × Ids := (.temp ids.temps, { ids with temps := ids.temps + 1 })

def freshLabel (ids : Ids) : Operand × Ids := (.label ids.labels, { ids with labels := ids.labels + 1 })

def freshVar (ids : Ids) : Operand × Ids := (.var ids.vars, { ids with vars := ids.vars + 1 })

end Ids
end ShaderRecompiler
