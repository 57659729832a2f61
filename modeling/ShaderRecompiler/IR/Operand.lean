/-! Operands of an operation. A constant is a raw word; what it means is decided
by the operation that reads it. -/
namespace ShaderRecompiler

structure Register where
  index : UInt8
deriving DecidableEq, Repr, Inhabited

/-- Reads as zero and discards what is written. -/
def Register.rz : Register := ⟨255⟩

def Register.isRz (r : Register) : Bool := r == rz

/-- The register `n` places on. A range that starts at, or runs into, the zero
register stays there. -/
def Register.after (r : Register) (n : Nat) : Register :=
  if r.isRz || decide (255 ≤ r.index.toNat + n) then rz else ⟨UInt8.ofNat (r.index.toNat + n)⟩

structure Predicate where
  index : UInt8
deriving DecidableEq, Repr, Inhabited

/-- Reads as true and discards what is written. -/
def Predicate.pt : Predicate := ⟨7⟩

def Predicate.isPt (p : Predicate) : Bool := p == pt

inductive Operand where
  | constant (value : UInt32)
  /-- A word of a guest constant buffer; `offset` counts words. -/
  | constantBuffer (slot offset : Nat)
  | register (r : Register)
  | predicate (p : Predicate)
  /-- A value assigned by exactly one operation. -/
  | temp (id : Nat)
  /-- A value assigned on several paths. -/
  | var (id : Nat)
  | label (id : Nat)
  | undefined
deriving DecidableEq, Repr, Inhabited

namespace Operand

def word (n : Nat) : Operand := constant (UInt32.ofNat n)

def asConstant? : Operand → Option UInt32
  | constant value => some value
  | _ => none

/-- A constant read as a place: a location, component, binding or index. -/
def asNat? (o : Operand) : Option Nat := o.asConstant?.map UInt32.toNat

def asTemp? : Operand → Option Nat
  | temp id => some id
  | _ => none

def asLabel? : Operand → Option Nat
  | label id => some id
  | _ => none

def describe : Operand → String
  | constant value => s!"Constant({value.toNat})"
  | constantBuffer slot offset => s!"ConstantBuffer \x7b slot: {slot}, offset: {offset} \x7d"
  | register r => s!"Register(Register({r.index.toNat}))"
  | predicate p => s!"Predicate(Predicate({p.index.toNat}))"
  | temp id => s!"Local(LocalId({id}))"
  | var id => s!"Variable(VariableId({id}))"
  | label id => s!"Label(LabelId({id}))"
  | undefined => "Undefined"

end Operand
end ShaderRecompiler
