import ShaderRecompiler.IR.Instruction
import ShaderRecompiler.IR.IoVariable

/-! Decoded guest instructions. Operands keep the guest's encoding where it
matters: attributes by byte address, constant buffers by byte offset, vectors
as runs of registers. -/
namespace ShaderRecompiler.Guest

inductive Source where
  | register (r : Register)
  | immediate (value : UInt32)
  /-- A constant buffer word; `offset` counts bytes. -/
  | constantBuffer (slot offset : Nat)
deriving DecidableEq, Repr

inductive SystemRegister where
  | laneId
  | invocationId
  | tidX
  | tidY
  | tidZ
  | ctaIdX
  | ctaIdY
  | ctaIdZ
  | eqMask
  | ltMask
  | leMask
  | gtMask
  | geMask
deriving DecidableEq, Repr

def SystemRegister.ioVariable : SystemRegister → IoVariable × Option Nat
  | laneId => (.subgroupLaneId, none)
  | invocationId => (.invocationId, none)
  | tidX => (.localInvocationId, some 0)
  | tidY => (.localInvocationId, some 1)
  | tidZ => (.localInvocationId, some 2)
  | ctaIdX => (.workgroupId, some 0)
  | ctaIdY => (.workgroupId, some 1)
  | ctaIdZ => (.workgroupId, some 2)
  | eqMask => (.subgroupEqMask, some 0)
  | ltMask => (.subgroupLtMask, some 0)
  | leMask => (.subgroupLeMask, some 0)
  | gtMask => (.subgroupGtMask, some 0)
  | geMask => (.subgroupGeMask, some 0)

inductive LogicOp where
  | and
  | or
  | xor
deriving DecidableEq, Repr

inductive ShuffleMode where
  | index
  | up
  | down
  | butterfly
deriving DecidableEq, Repr

inductive Space where
  | localMemory
  | sharedMemory
  /-- Global memory reached through a guest storage buffer. -/
  | global (slot : Nat)
deriving DecidableEq, Repr

structure Guard where
  predicate : Predicate := .pt
  inverted : Bool := false
deriving DecidableEq, Repr

/-- Something is tested at all. -/
def Guard.isConditional (g : Guard) : Bool := !g.predicate.isPt || g.inverted

inductive Op where
  | nop
  | mov (dest : Register) (src : Source)
  | sel (dest a : Register) (b : Source) (guard : Guard)
  | fadd (dest a : Register) (b : Source) (negateB : Bool)
  | fmul (dest a : Register) (b : Source)
  | ffma (dest a : Register) (b : Source) (c : Register)
  | fmnmx (dest a : Register) (b : Source) (min : Bool)
  | iadd (dest a : Register) (b : Source) (negateB : Bool)
  | imul (dest a : Register) (b : Source)
  | imulHi (dest a : Register) (b : Source) (signed : Bool)
  | lop (dest a : Register) (b : Source) (logic : LogicOp)
  | shl (dest a : Register) (b : Source)
  | shr (dest a : Register) (b : Source) (signed : Bool)
  | popc (dest : Register) (src : Source)
  | i2f (dest : Register) (src : Source) (signed : Bool)
  | f2i (dest : Register) (src : Source) (signed : Bool)
  | isetp (dest : Predicate) (a : Register) (b : Source) (comparison : Comparison) (signed : Bool)
  | fsetp (dest : Predicate) (a : Register) (b : Source) (comparison : Comparison)
  /-- Loads `count` attribute words from byte `address` on. `vertex` selects the
  vertex of an arrayed input and `offset` adds a number of bytes. -/
  | ald (dest : Register) (count address : Nat) (vertex offset : Option Register)
      (perPatch output : Bool)
  | ast (src : Register) (count address : Nat) (vertex offset : Option Register) (perPatch : Bool)
  | ipa (dest : Register) (address : Nat) (offset : Option Register)
  | s2r (dest : Register) (system : SystemRegister)
  | ld (dest : Register) (count : Nat) (space : Space) (address : Register) (offset : Int32)
  | st (src : Register) (count : Nat) (space : Space) (address : Register) (offset : Int32)
  | tex (dest : Register) (mask : UInt32) (handle : Nat) (sampler : Sampler)
      (coords : List Register) (lod : Option Register) (fetch : Bool)
  | suld (dest : Register) (mask : UInt32) (handle : Nat) (sampler : Sampler)
      (coords : List Register)
  | sust (values : Register) (handle : Nat) (sampler : Sampler) (coords : List Register)
  | shfl (dest value : Register) (index mask : Source) (mode : ShuffleMode)
  | fswzadd (dest a b : Register) (mask : UInt32)
  | bar
  | bra (target : Nat)
  | exit
  | kil
  | out (emit cut : Bool)
deriving DecidableEq, Repr

def Op.mnemonic : Op → String
  | nop => "NOP"
  | mov .. => "MOV"
  | sel .. => "SEL"
  | fadd .. => "FADD"
  | fmul .. => "FMUL"
  | ffma .. => "FFMA"
  | fmnmx .. => "FMNMX"
  | iadd .. => "IADD"
  | imul .. => "IMUL"
  | imulHi .. => "IMUL.HI"
  | lop .. => "LOP"
  | shl .. => "SHL"
  | shr .. => "SHR"
  | popc .. => "POPC"
  | i2f .. => "I2F"
  | f2i .. => "F2I"
  | isetp .. => "ISETP"
  | fsetp .. => "FSETP"
  | ald .. => "ALD"
  | ast .. => "AST"
  | ipa .. => "IPA"
  | s2r .. => "S2R"
  | ld .. => "LD"
  | st .. => "ST"
  | tex .. => "TEX"
  | suld .. => "SULD"
  | sust .. => "SUST"
  | shfl .. => "SHFL"
  | fswzadd .. => "FSWZADD"
  | bar => "BAR"
  | bra .. => "BRA"
  | exit => "EXIT"
  | kil => "KIL"
  | out .. => "OUT"

structure Placed where
  address : Nat
  guard : Guard := {}
  op : Op
deriving DecidableEq, Repr

end ShaderRecompiler.Guest
