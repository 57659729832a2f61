import Std.Data.HashMap
import ShaderRecompiler.Flow.Routing
import ShaderRecompiler.Flow.Statement

/-! Nested statements from a block graph. The arms of a test meet at the
immediate post-dominator of its block; a loop is left at its one exit. Every
place visited costs a step of the budget, which is what ends the recursion: a
block that several paths lead to can be written once for each of them. -/
namespace ShaderRecompiler

inductive Leave where
  | goto (target : Option Nat)
  | ret
  | test (cond : Operand) (invert : Bool)
deriving DecidableEq, Repr

structure Layout where
  routine : Routine
  joins : Array (Option Nat)
  loops : List Loop

namespace Layout

def plainOps (s : Layout) (b : Nat) : List Stmt :=
  ((s.routine.blockOps b).filter fun id => !(s.routine.op id).inst.isTerminator).map Stmt.op

/-- The last terminator decides. -/
def terminator? (s : Layout) (b : Nat) : Option Operation :=
  ((s.routine.blockOps b).map s.routine.op).findRev? (·.inst.isTerminator)

def leave (s : Layout) (b : Nat) : Except StructureError Leave :=
  let block := s.routine.block b
  match s.terminator? b with
  | none => .ok (.goto block.next)
  | some op =>
    match op.inst with
    | .ret => .ok .ret
    | .branch => .ok (.goto block.branch)
    | inst =>
      match op.source? 1 with
      | some cond => .ok (.test cond (inst == .branchIfFalse))
      | none => .error (.missingCondition b)

/-- The jump that reaching `b` means to the innermost of the enclosing `loops`. -/
def jump? (loops : List Loop) (entering : Bool) (b : Nat) : Option Stmt :=
  match loops with
  | [] => none
  | l :: _ =>
    if b = l.header ∧ !entering then some .continueLoop
    else if l.exit? = some b then some .breakLoop
    else none

/-- The loop that starts at `b`, unless control is in it already. -/
def enters? (s : Layout) (loops : List Loop) (entering : Bool) (b : Nat) : Option Loop :=
  if entering || loops.any (·.header == b) then none else s.loops.find? (·.header == b)

/-- Where the arms of the test at the end of `b` meet, if inside the innermost
loop. -/
def join? (s : Layout) (loops : List Loop) (b : Nat) : Option Nat :=
  (s.joins.getD b none).filter fun join => loops.head?.all (·.contains join)

/-- The statements from `start` until control reaches `stop`, and how many steps
they took. `entering` is set at the header of a loop whose body is written. -/
def emit (s : Layout) (budget : Nat) (start stop : Option Nat) (loops : List Loop)
    (entering : Bool) : Except StructureError (List Stmt × Nat) :=
  match start, budget with
  | none, _ => .ok ([], 0)
  | some _, 0 => .error .stepLimit
  | some b, budget + 1 =>
    if stop = some b then .ok ([], 1)
    else
      match jump? loops entering b with
      | some jump => .ok ([jump], 1)
      | none =>
        match s.enters? loops entering b with
        | some l => do
          let (body, inner) ← s.emit budget (some b) none (l :: loops) true
          let (rest, after) ← s.emit (budget - inner) l.exit? stop loops false
          return (.loop (Stmt.dropFinal Stmt.isContinue body) :: rest, 1 + inner + after)
        | none => do
          let ops := s.plainOps b
          match ← s.leave b with
          | .ret => return (ops ++ [.ret], 1)
          | .goto target =>
            let (rest, after) ← s.emit budget target stop loops false
            return (ops ++ rest, 1 + after)
          | .test cond invert =>
            let block := s.routine.block b
            let join := s.join? loops b
            let (yes, first) ← s.emit budget block.branch join loops false
            let (no, second) ← s.emit (budget - first) block.next join loops false
            let (rest, after) ← s.emit (budget - (first + second)) join stop loops false
            return (ops ++ Stmt.branching cond invert join.isSome yes no ++ rest,
              1 + first + second + after)
termination_by budget

end Layout

structure Structured where
  body : List Stmt := []
  predeclared : List Nat := []
deriving Repr, Inhabited

namespace Routine

/-- The last block without successors. -/
def exitBlock (r : Routine) : Nat :=
  ((List.range r.blocks.size).findRev? fun b => (r.successors b).isEmpty).getD (r.blocks.size - 1)

/-- The temporaries that operations of a block assign, with that block. -/
def assignments (r : Routine) : List (Nat × Nat × OpId) :=
  r.allOps.filterMap fun (b, id) => ((r.op id).dest.bind Operand.asTemp?).map fun t => (t, b, id)

/-- Temporaries assigned by an operation that stands at several places, or read
outside the block that assigns them. -/
def predeclaredTemps (r : Routine) (body : List Stmt) : List Nat :=
  let counts := (Stmt.opsOf body).foldl (fun counts id => counts.modify id (· + 1))
    (Array.replicate r.nodes.size 0)
  let repeated := r.assignments.filterMap fun (t, _, id) =>
    if 1 < counts.getD id 0 then some t else none
  let home : Std.HashMap Nat Nat := r.assignments.foldl (fun home (t, b, _) => home.insert t b) {}
  let readElsewhere := r.allOps.flatMap fun (b, id) =>
    ((r.op id).sources.filterMap Operand.asTemp?).filter fun t => home[t]?.any (· != b)
  Ascending.ofList (repeated ++ readElsewhere)

/-- Routes loop exits where needed, then writes the routine as statements. A
return at the very end is not written. -/
def structured (r : Routine) : Except StructureError (Structured × Routine) :=
  if r.blocks.isEmpty then .ok ({}, r)
  else do
    let exit := r.exitBlock
    let (r, loops) ← singleExitLoops exit (r.blocks.size + 1) r []
    let layout : Layout := { routine := r, joins := r.graph.immediatePostDominators exit, loops }
    let (body, _) ← layout.emit maxSteps (some 0) none [] false
    let body := Stmt.dropFinal Stmt.isRet body
    return ({ body, predeclared := r.predeclaredTemps body }, r)

end Routine
end ShaderRecompiler
