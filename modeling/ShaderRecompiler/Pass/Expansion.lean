import ShaderRecompiler.Config
import ShaderRecompiler.IR.Emitter
import ShaderRecompiler.IR.Routine
import ShaderRecompiler.Resources

/-! Expansion of a routine's operations, one at a time. What an operation expands
to is put before it; the operation itself is then kept, changed or taken out.
An expansion sees only its own operation, so the order of blocks does not
matter to it, and what it puts in is not expanded again. -/
namespace ShaderRecompiler

/-- An access to the stage interface that emulation cannot express. -/
structure Unresolved where
  isOutput : Bool
  name : String
deriving DecidableEq, Repr

def Unresolved.kind (u : Unresolved) : String := if u.isOutput then "output" else "input"

def Unresolved.warning (u : Unresolved) : String := s!"Invalid {u.kind} \"{u.name}\"."

structure Verdict where
  kept : Option Operation
  unresolved : Option Unresolved := none
  drawParameters : Bool := false

namespace Verdict

def keep (op : Operation) : Verdict := { kept := some op }

def drop : Verdict := { kept := none }

/-- The access stays as it is. -/
def unresolvedInput (op : Operation) (name : String) : Verdict :=
  { kept := some op, unresolved := some ⟨false, name⟩ }

def unresolvedOutput (op : Operation) (name : String) : Verdict :=
  { kept := some op, unresolved := some ⟨true, name⟩ }

end Verdict

abbrev Expansion := Operation → Emit Verdict

structure PassReport where
  unresolved : List Unresolved := []
  drawParameters : Bool := false
deriving DecidableEq, Repr

namespace PassReport

def add (report : PassReport) (v : Verdict) : PassReport where
  unresolved := report.unresolved ++ v.unresolved.toList
  drawParameters := report.drawParameters || v.drawParameters

end PassReport

namespace Routine

def expandOp (expand : Expansion) (r : Routine) (id : OpId) : Verdict × Routine :=
  let (verdict, emitter) := (expand (r.op id)).run { ids := r.ids }
  let grown := emitter.ops.foldl (fun r op => (r.insertBefore id op).2) { r with ids := emitter.ids }
  (verdict,
    match verdict.kept with
    | some op => grown.setOp id op
    | none => grown.remove id)

/-- Expands at most `fuel` operations from `cursor` on, going on from each to what then
follows it. An operation that was taken out still leads on. -/
def expandFrom (expand : Expansion) : Nat → PassReport × Routine → Option OpId → PassReport × Routine
  | fuel + 1, (report, r), some id =>
    let (verdict, r) := r.expandOp expand id
    expandFrom expand fuel (report.add verdict, r) (r.next id)
  | _, state, _ => state

/-- Expands every operation, block after block. What is put in stands before the cursor,
so the arena's size before a block bounds the way through it. -/
def expand (expand : Expansion) (r : Routine) : PassReport × Routine :=
  (List.range r.blocks.size).foldl
    (fun state b => expandFrom expand state.2.nodes.size state (state.2.first b)) ({}, r)

end Routine

structure PassContext where
  config : Config
  resources : Resources
  host : Host

end ShaderRecompiler
