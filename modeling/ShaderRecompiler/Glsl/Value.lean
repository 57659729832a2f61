import ShaderRecompiler.Glsl.Typing

/-! Operands as GLSL expressions. Registers and variables are unsigned words,
predicates are booleans, and constants are spelled in the type that is wanted. -/
namespace ShaderRecompiler.Glsl

structure Value where
  text : String
  type : ValueType
deriving DecidableEq, Repr

/-- What a body is written in: its context and its temporaries. -/
structure Scope where
  context : Context
  types : TempTypes
  predeclared : List Nat

namespace Scope

def resources (s : Scope) : Resources := s.context.resources

def operand (s : Scope) : Operand → Except Error Value
  | .constant bits => .ok ⟨Literal.uint bits, .u32⟩
  | .register r => .ok ⟨if r.isRz then Literal.uint 0 else s!"r{r.index.toNat}", .u32⟩
  | .predicate p => .ok ⟨if p.isPt then "true" else s!"p{p.index.toNat}", .bool⟩
  | .temp id => .ok ⟨s!"temp_{id}", s.types.get id⟩
  | .var id => .ok ⟨s!"var_{id}", .u32⟩
  | .constantBuffer slot offset =>
    match s.resources.constantBuffer? (s.resources.reservations.constantBuffers + slot) with
    | some buffer => .ok ⟨s!"{buffer.name}.data[{offset / 4}][{offset % 4}]", .u32⟩
    | none => .error (.undeclared .constantBuffer slot)
  | .undefined => .ok ⟨"undef", .s32⟩
  | .label _ => .error .labelAsValue

def operandAs (s : Scope) (type : ValueType) (o : Operand) : Except Error String :=
  match o with
  | .constant bits => .ok (constant bits type)
  | _ => (s.operand o).map fun value => cast value.text value.type type

def sourceAs (s : Scope) (op : Operation) (type : ValueType) (index : Nat) : Except Error String :=
  match op.source? index with
  | some o => s.operandAs type o
  | none => .error (.missingOperand op.inst index)

def sourcesAs (s : Scope) (op : Operation) (type : ValueType) (first count : Nat) :
    Except Error (List String) :=
  (List.range count).mapM fun i => s.sourceAs op type (first + i)

/-- The sources in order, each as the type listed for it. -/
def call (s : Scope) (op : Operation) (name : String) (types : List ValueType) :
    Except Error String := do
  let args ← types.zipIdx.mapM fun (type, index) => s.sourceAs op type index
  return name ++ arguments args

def binary (s : Scope) (op : Operation) (symbol : String) (left right : ValueType) :
    Except Error String := do
  let a ← s.sourceAs op left 0
  let b ← s.sourceAs op right 1
  return s!"({a} {symbol} {b})"

end Scope
end ShaderRecompiler.Glsl
