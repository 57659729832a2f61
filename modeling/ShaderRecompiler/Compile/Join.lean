import ShaderRecompiler.Lowering.Program

/-! Two lowered programs as one. The first runs into the second instead of
returning, and a generic attribute that the first writes and the second reads
travels in a variable. Both were lowered with one allocator, so their operands
cannot clash. -/
namespace ShaderRecompiler

/-- The location and component of an access to a generic attribute, if constant. -/
def Operation.userSlot? (op : Operation) : Option (Nat × Nat) :=
  if op.ioVariable? = some .userDefined then do
    let location ← op.place? 1
    let component ← op.place? (← op.componentIndex?)
    return (location, component)
  else none

namespace Join

def read? (op : Operation) : Option (Nat × Nat) := if op.isLoad .input then op.userSlot? else none

def written? (op : Operation) : Option (Nat × Nat) := if op.isStore .output then op.userSlot? else none

/-- The attributes that the second program reads, each with the number of its
variable counted from the first one that is free. -/
structure Bridge where
  slots : List (Nat × Nat)
  firstVar : Nat

def Bridge.ofReads (second : List Operation) (ids : Ids) : Bridge where
  slots := (second.filterMap read?).eraseDups
  firstVar := ids.vars

def Bridge.carrier? (b : Bridge) (slot : Nat × Nat) : Option Operand :=
  (b.slots.idxOf? slot).map fun i => .var (b.firstVar + i)

/-- A store to a carried attribute assigns its variable. -/
def carryStore (b : Bridge) (op : Operation) : Operation :=
  match (written? op).bind b.carrier? with
  | some carrier => { op with dest := some carrier }.toCopy (op.sources.getLast?.getD .undefined)
  | none => op

/-- Past the prologue, a return goes on with the second program. -/
def continueAt (label : Operand) (bodyStart index : Nat) (op : Operation) : Operation :=
  if op.inst = .ret ∧ bodyStart ≤ index then { inst := .branch, dest := none, sources := [label] }
  else op

/-- A load of an attribute that the first program stores reads its variable. -/
def carryLoad (b : Bridge) (stored : List (Nat × Nat)) (op : Operation) : Operation :=
  match (read? op).bind fun slot => if stored.contains slot then b.carrier? slot else none with
  | some carrier => op.toCopy carrier
  | none => op

end Join

/-- The operations of `first` and then `second`. The allocator is that of `first`,
which was lowered last. -/
def Lowered.join (first : Lowered) (second : List Operation) : List Operation × Ids :=
  let bridge := Join.Bridge.ofReads second first.ids
  let (label, ids) := first.ids.freshLabel
  let head := first.ops.zipIdx.map fun (op, index) =>
    Join.continueAt label first.bodyStart index (Join.carryStore bridge op)
  let stored := first.ops.filterMap Join.written?
  let tail := second.map (Join.carryLoad bridge stored)
  (head ++ { inst := .markLabel, dest := none, sources := [label] } :: tail,
    { ids with vars := ids.vars + bridge.slots.length })

end ShaderRecompiler
