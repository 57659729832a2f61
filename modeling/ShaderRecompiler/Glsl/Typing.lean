import Std.Data.HashMap
import ShaderRecompiler.Glsl.Context
import ShaderRecompiler.IR.Routine

/-! Types of temporaries. A temporary has the type of the operation that assigns
it; a copy has the type of its source, which may be assigned later in block
order, so the assignment is repeated until a round changes nothing. -/
namespace ShaderRecompiler.Glsl

abbrev TempTypes := Std.HashMap Nat ValueType

namespace TempTypes

/-- Words, unless an operation says otherwise. -/
def get (types : TempTypes) (t : Nat) : ValueType := types.getD t .u32

def ofOperand (types : TempTypes) : Operand → ValueType
  | .predicate _ => .bool
  | .temp t => types.get t
  | .undefined => .s32
  | .constant _ | .constantBuffer .. | .register _ | .var _ | .label _ => .u32

end TempTypes

namespace Context

def bufferType (buffer : Option Buffer) (field : Option Nat) : ValueType :=
  match buffer.bind fun b => field.bind fun index => b.fields[index]? with
  | some field => .ofNum field.type.numType
  | none => .u32

def loadType (x : Context) (op : Operation) : ValueType :=
  match op.storage with
  | .constantBuffer => bufferType ((op.place? 0).bind x.resources.constantBuffer?) (op.place? 1)
  | .storageBuffer => bufferType ((op.place? 0).bind x.resources.storageBuffer?) (op.place? 1)
  | .input | .output | .inputPerPatch | .outputPerPatch =>
    match Access.ofOperation x.config op with
    | .ok access => access.type x op.storage
    | .error _ => .u32
  | .localMemory | .sharedMemory | .none => .u32

def resultType (x : Context) (types : TempTypes) (op : Operation) : ValueType :=
  match op.inst with
  | .copy => (op.source? 0).elim .u32 types.ofOperand
  | .add t | .subtract t | .multiply t | .divide t | .negate t | .absolute t | .minimum t
  | .maximum t | .conditionalSelect t => .ofNum t
  | .fusedMultiplyAdd | .convertS32ToFP32 | .convertU32ToFP32 | .shuffle | .shuffleDown
  | .shuffleUp | .shuffleXor | .swizzleAdd => .f32
  | .bitCount | .shiftRightS32 | .convertFP32ToS32 | .multiplyHighS32 => .s32
  | .compare .. | .logicalAnd | .logicalOr | .logicalExclusiveOr | .logicalNot => .bool
  | .load => x.loadType op
  | .textureSample texture => .ofNum texture.result
  | .imageLoad image => .ofNum image.format
  | _ => .u32

end Context

namespace TempTypes

/-- Types an operation's temporary, and notes whether that was news. -/
def assign (x : Context) (state : TempTypes × Bool) (op : Operation) : TempTypes × Bool :=
  match op.dest.bind Operand.asTemp? with
  | none => state
  | some t =>
    let (types, changed) := state
    let type := x.resultType types op
    (types.insert t type, changed || types[t]? != some type)

def round (x : Context) (ops : List Operation) (types : TempTypes) : TempTypes × Bool :=
  ops.foldl (assign x) (types, false)

def settle (x : Context) (ops : List Operation) : Nat → TempTypes → TempTypes
  | 0, types => types
  | rounds + 1, types =>
    let (next, changed) := round x ops types
    if changed then settle x ops rounds next else next

/-- As many rounds as there are temporaries carry a type along the longest chain
of copies. -/
def ofRoutine (x : Context) (r : Routine) : TempTypes :=
  settle x (r.allOps.map fun (_, id) => r.op id) (r.ids.temps + 1) {}

end TempTypes
end ShaderRecompiler.Glsl
