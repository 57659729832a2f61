import ShaderRecompiler.Flow.Structuring
import ShaderRecompiler.Glsl.Expression
import ShaderRecompiler.Glsl.Lines

/-! Statements as GLSL. Registers, predicates, variables and the temporaries
that several places share are declared first. -/
namespace ShaderRecompiler.Glsl.Scope

/-- Writes to the zero register and to the true predicate leave no trace. -/
def assignment (s : Scope) (inst : Instruction) (dest : Operand) (v : Value) : Except Error Lines :=
  match dest with
  | .temp id =>
    let type := s.types.get id
    let keyword := if s.predeclared.contains id then "" else type.scalar ++ " "
    .ok [s!"{keyword}temp_{id} = {cast v.text v.type type};"]
  | .register r =>
    .ok (if r.isRz then [] else [s!"r{r.index.toNat} = {cast v.text v.type .u32};"])
  | .predicate p =>
    .ok (if p.isPt then [] else [s!"p{p.index.toNat} = {cast v.text v.type .bool};"])
  | .var id => .ok [s!"var_{id} = {cast v.text v.type .u32};"]
  | .constant _ | .constantBuffer .. | .label _ | .undefined => .error (.invalidDestination inst dest)

def storeLine (s : Scope) (op : Operation) : Except Error Lines := do
  let target ← s.element op (op.sources.length - 1)
  match op.sources.getLast? with
  | none => throw (.missingOperand op.inst 0)
  | some o =>
    let text ← s.operandAs target.type o
    return [s!"{target.text} = {text};"]

def imageStoreLine (s : Scope) (op : Operation) (image : ImageOp) : Except Error Lines := do
  let name ← s.imageName image.binding
  let coords ← s.coordinates op image.sampler .s32
  let format := ValueType.ofNum image.format
  let texel := vectorOf format (← s.sourcesAs op format image.sampler.coordinates 4)
  return [s!"imageStore({name}, {coords}, {texel});"]

def operation (s : Scope) (op : Operation) : Except Error Lines :=
  match op.inst with
  | .store => s.storeLine op
  | .imageStore image => s.imageStoreLine op image
  | .barrier => .ok ["barrier();"]
  | .discard => .ok ["discard;"]
  | .emitVertex => .ok ["EmitVertex();"]
  | .endPrimitive => .ok ["EndPrimitive();"]
  | .ret => .ok ["return;"]
  | .branch | .branchIfTrue | .branchIfFalse | .markLabel => .ok []
  | inst =>
    match op.dest with
    | none => .ok []
    | some dest => do s.assignment inst dest (← s.value op)

mutual

def statement (s : Scope) (r : Routine) : Stmt → Except Error Lines
  | .op id => s.operation (r.op id)
  | .cond test invert thenBody elseBody => do
    let text ← s.operandAs .bool test
    let cond := if invert then negation text else text
    let yes ← s.statements r thenBody
    let no ← s.statements r elseBody
    let otherwise := if elseBody.isEmpty then [] else ["else"] ++ Lines.block no ""
    return [s!"if ({cond})"] ++ Lines.block yes "" ++ otherwise
  | .loop body => do
    let lines ← s.statements r body
    return ["while (true)"] ++ Lines.block lines ""
  | .breakLoop => .ok ["break;"]
  | .continueLoop => .ok ["continue;"]
  | .ret => .ok ["return;"]

def statements (s : Scope) (r : Routine) : List Stmt → Except Error Lines
  | [] => .ok []
  | first :: rest => do
    let lines ← s.statement r first
    return lines ++ (← s.statements r rest)

end

def declared (r : Routine) (number? : Operand → Option Nat) : List Nat :=
  Ascending.ofList (r.allOps.flatMap fun (_, id) => (r.op id).operands.filterMap number?)

def registerNumber? : Operand → Option Nat
  | .register r => if r.isRz then none else some r.index.toNat
  | _ => none

def predicateNumber? : Operand → Option Nat
  | .predicate p => if p.isPt then none else some p.index.toNat
  | _ => none

def varNumber? : Operand → Option Nat
  | .var id => some id
  | _ => none

def declarations (s : Scope) (r : Routine) : Lines :=
  Lines.paragraph <|
    (declared r registerNumber?).map (fun n => s!"uint r{n};") ++
    (declared r predicateNumber?).map (fun n => s!"bool p{n};") ++
    (declared r varNumber?).map (fun n => s!"uint var_{n};") ++
    s.predeclared.map fun id => s!"{(s.types.get id).scalar} temp_{id};"

def mainFunction (s : Scope) (r : Routine) (body : List Stmt) : Except Error Lines := do
  let lines ← s.statements r body
  return ["void main()"] ++ Lines.block (s.declarations r ++ lines) ""

end ShaderRecompiler.Glsl.Scope
