import ShaderRecompiler.IR.Operation

/-! A routine: basic blocks whose operations are linked through an arena. An
operation keeps its id for good, also when others are put next to it or when it
is taken out; a removed one keeps its own links, so a walk that stands on it
still finds the way on. -/
namespace ShaderRecompiler

abbrev OpId := Nat

structure Node where
  op : Operation
  block : Nat
  prev : Option OpId := none
  next : Option OpId := none
  removed : Bool := false
deriving DecidableEq, Repr, Inhabited

structure Block where
  first : Option OpId := none
  last : Option OpId := none
  /-- The block control falls through to. -/
  next : Option Nat := none
  /-- The block a branch goes to. -/
  branch : Option Nat := none
deriving DecidableEq, Repr, Inhabited

/-- Fallthrough first; a branch to the same block adds nothing. -/
def Block.successors (b : Block) : List Nat :=
  b.next.toList ++ (if b.branch = b.next then [] else b.branch.toList)

/-- Block 0 is the entry. -/
structure Routine where
  nodes : Array Node := #[]
  blocks : Array Block := #[]
  ids : Ids := {}
deriving Repr, Inhabited

namespace Routine

def node (r : Routine) (id : OpId) : Node := r.nodes.getD id default
def block (r : Routine) (b : Nat) : Block := r.blocks.getD b default

def op (r : Routine) (id : OpId) : Operation := (r.node id).op
def blockOf (r : Routine) (id : OpId) : Nat := (r.node id).block
def isRemoved (r : Routine) (id : OpId) : Bool := (r.node id).removed
def next (r : Routine) (id : OpId) : Option OpId := (r.node id).next
def prev (r : Routine) (id : OpId) : Option OpId := (r.node id).prev
def first (r : Routine) (b : Nat) : Option OpId := (r.block b).first
def last (r : Routine) (b : Nat) : Option OpId := (r.block b).last

def modifyNode (r : Routine) (id : OpId) (f : Node → Node) : Routine :=
  { r with nodes := r.nodes.modify id f }

def modifyBlock (r : Routine) (b : Nat) (f : Block → Block) : Routine :=
  { r with blocks := r.blocks.modify b f }

def setOp (r : Routine) (id : OpId) (operation : Operation) : Routine :=
  r.modifyNode id ({ · with op := operation })

def addBlock (r : Routine) : Nat × Routine :=
  (r.blocks.size, { r with blocks := r.blocks.push {} })

def freshTemp (r : Routine) : Operand × Routine :=
  let (operand, ids) := r.ids.freshTemp
  (operand, { r with ids })

def freshLabel (r : Routine) : Operand × Routine :=
  let (operand, ids) := r.ids.freshLabel
  (operand, { r with ids })

def freshVar (r : Routine) : Operand × Routine :=
  let (operand, ids) := r.ids.freshVar
  (operand, { r with ids })

/-- Makes `next` the way on from `place`, or the way into the block. -/
def linkForward (r : Routine) (b : Nat) (place : Option OpId) (next : Option OpId) : Routine :=
  match place with
  | some id => r.modifyNode id ({ · with next })
  | none => r.modifyBlock b ({ · with first := next })

/-- Makes `prev` the way back from `place`, or the end of the block. -/
def linkBack (r : Routine) (b : Nat) (place : Option OpId) (prev : Option OpId) : Routine :=
  match place with
  | some id => r.modifyNode id ({ · with prev })
  | none => r.modifyBlock b ({ · with last := prev })

def insertBetween (r : Routine) (b : Nat) (prev next : Option OpId) (operation : Operation) :
    OpId × Routine :=
  let id := r.nodes.size
  let grown := { r with nodes := r.nodes.push { op := operation, block := b, prev, next } }
  (id, (grown.linkForward b prev (some id)).linkBack b next (some id))

def push (r : Routine) (b : Nat) (operation : Operation) : OpId × Routine :=
  r.insertBetween b (r.last b) none operation

def insertBefore (r : Routine) (place : OpId) (operation : Operation) : OpId × Routine :=
  r.insertBetween (r.blockOf place) (r.prev place) (some place) operation

def insertAfter (r : Routine) (place : OpId) (operation : Operation) : OpId × Routine :=
  r.insertBetween (r.blockOf place) (some place) (r.next place) operation

/-- Takes an operation out of its block; a second removal changes nothing. -/
def remove (r : Routine) (id : OpId) : Routine :=
  if r.isRemoved id then r
  else
    let b := r.blockOf id
    let unlinked := (r.linkForward b (r.prev id) (r.next id)).linkBack b (r.next id) (r.prev id)
    unlinked.modifyNode id ({ · with removed := true })

def walk (r : Routine) : Nat → Option OpId → List OpId
  | fuel + 1, some id => id :: r.walk fuel (r.next id)
  | _, _ => []

/-- The operations of a block in order. Links of a block visit no node twice, so
the arena's size bounds the walk. -/
def blockOps (r : Routine) (b : Nat) : List OpId := r.walk r.nodes.size (r.first b)

/-- Every block's operations, in block order, each with its block. -/
def allOps (r : Routine) : List (Nat × OpId) :=
  (List.range r.blocks.size).flatMap fun b => (r.blockOps b).map fun id => (b, id)

def liveCount (r : Routine) : Nat := r.nodes.toList.countP (!·.removed)

def appendOps (r : Routine) (b : Nat) (ops : List Operation) : Routine :=
  ops.foldl (fun r operation => (r.push b operation).2) r

def successors (r : Routine) (b : Nat) : List Nat := (r.block b).successors

end Routine
end ShaderRecompiler
