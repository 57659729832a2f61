import ShaderRecompiler.Flow.Digraph
import ShaderRecompiler.IR.Routine

/-! Cutting a flat list of operations into basic blocks. A block starts at a
label and ends after a terminator; labels in a row name the same block, and
blocks that the entry cannot reach are left out. -/
namespace ShaderRecompiler

inductive FlowError where
  | empty
  | duplicateLabel (label : Nat)
  | undefinedLabel (label : Nat)
  | missingLabel (inst : Instruction)
deriving DecidableEq, Repr

def FlowError.message : FlowError → String
  | empty => "program has no operations"
  | duplicateLabel label => s!"label {label} is marked more than once"
  | undefinedLabel label => s!"branch to undefined label {label}"
  | missingLabel inst => s!"{inst.name} without a label operand"

def Operation.label? (op : Operation) : Except FlowError Nat :=
  match (op.source? 0).bind Operand.asLabel? with
  | some label => .ok label
  | none => .error (.missingLabel op.inst)

/-- A block to be: the labels that name it and its operations. -/
structure Segment where
  labels : List Nat
  ops : List Operation
deriving DecidableEq, Repr, Inhabited

namespace Segment

/-- Puts one operation before the segments of what follows it. -/
def cons (op : Operation) (rest : List Segment) : List Segment :=
  if op.inst = .markLabel then
    let label := ((op.source? 0).bind Operand.asLabel?).toList
    match rest with
    | [] => [⟨label, []⟩]
    | segment :: later => { segment with labels := label ++ segment.labels } :: later
  else
    match rest with
    | ⟨[], ops⟩ :: later =>
      if op.inst.isTerminator then ⟨[], [op]⟩ :: rest else ⟨[], op :: ops⟩ :: later
    | _ => ⟨[], [op]⟩ :: rest

def ofOperations (ops : List Operation) : List Segment := ops.foldr cons []

/-- Labels as they are marked; each may be marked once. -/
def checkLabels : List Operation → List Nat → Except FlowError Unit
  | [], _ => .ok ()
  | op :: rest, marked =>
    if op.inst = .markLabel then do
      let label ← op.label?
      if marked.contains label then .error (.duplicateLabel label) else checkLabels rest (label :: marked)
    else checkLabels rest marked

def edges (segments : List Segment) (index : Nat) (segment : Segment) :
    Except FlowError (Option Nat × Option Nat) :=
  let fallthrough := if index + 1 < segments.length then some (index + 1) else none
  match segment.ops.getLast? with
  | none => .ok (fallthrough, none)
  | some op =>
    if op.inst = .ret then .ok (none, none)
    else if op.inst.isTerminator then do
      let label ← op.label?
      match segments.findIdx? (·.labels.contains label) with
      | none => .error (.undefinedLabel label)
      | some target => .ok (if op.inst.isConditionalBranch then fallthrough else none, some target)
    else .ok (fallthrough, none)

end Segment

namespace Routine

def addFilledBlock (r : Routine) (ops : List Operation) (next branch : Option Nat) : Routine :=
  let (b, r) := r.addBlock
  (r.appendOps b ops).modifyBlock b ({ · with next, branch })

def ofOperations (ops : List Operation) (ids : Ids) : Except FlowError Routine := do
  if ops.isEmpty then throw .empty
  Segment.checkLabels ops []
  let segments := Segment.ofOperations ops
  let edges ← segments.zipIdx.mapM fun (segment, index) => Segment.edges segments index segment
  let graph : Digraph := ⟨(edges.map fun (next, branch) => next.toList ++ branch.toList).toArray⟩
  let kept := graph.reached [0]
  let renumber (b : Nat) : Nat := (kept.toList.take b).count true
  let cut := ((segments.zip edges).zip kept.toList).filter (·.2)
  return cut.foldl
    (fun r ((segment, next, branch), _) =>
      r.addFilledBlock segment.ops (next.map renumber) (branch.map renumber))
    { ids }

def graph (r : Routine) : Digraph := ⟨r.blocks.map Block.successors⟩

end Routine
end ShaderRecompiler
