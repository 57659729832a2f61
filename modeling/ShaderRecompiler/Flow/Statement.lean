import ShaderRecompiler.IR.Routine

/-! Nested statements over the operations of a routine. -/
namespace ShaderRecompiler

inductive Stmt where
  | op (id : OpId)
  /-- With `invert` the first body runs when the test is false. -/
  | cond (test : Operand) (invert : Bool) (thenBody elseBody : List Stmt)
  | loop (body : List Stmt)
  | breakLoop
  | continueLoop
  | ret
deriving Repr, Inhabited

namespace Stmt

/-- Control never falls out of it. -/
def isJump : Stmt → Bool
  | breakLoop | continueLoop | ret => true
  | _ => false

def isContinue : Stmt → Bool
  | continueLoop => true
  | _ => false

def isRet : Stmt → Bool
  | ret => true
  | _ => false

/-- A jump at the end of a body that the end itself performs is dropped. -/
def dropFinal (isFinal : Stmt → Bool) (body : List Stmt) : List Stmt :=
  if body.getLast?.any isFinal then body.dropLast else body

mutual

/-- The operations of a statement, once for each place they stand at. -/
def ops : Stmt → List OpId
  | op id => [id]
  | cond _ _ thenBody elseBody => opsOf thenBody ++ opsOf elseBody
  | loop body => opsOf body
  | breakLoop | continueLoop | ret => []

def opsOf : List Stmt → List OpId
  | [] => []
  | s :: rest => ops s ++ opsOf rest

end

/-- A two-way test of which an empty arm is not written. Where control never
meets again, the second arm can follow the first, which ends in a jump. -/
def branching (test : Operand) (invert meets : Bool) (thenBody elseBody : List Stmt) : List Stmt :=
  match thenBody, elseBody with
  | [], [] => []
  | [], body => [cond test (!invert) body []]
  | body, other =>
    if !meets && body.getLast?.any isJump then cond test invert body [] :: other
    else [cond test invert body other]

end Stmt
end ShaderRecompiler
