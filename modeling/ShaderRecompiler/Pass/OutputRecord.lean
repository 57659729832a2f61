import ShaderRecompiler.Pass.Expansion

/-! The vertex record in the place of stage outputs. -/
namespace ShaderRecompiler

/-- The record word that an access names. Computed locations and components name
none. -/
def Operation.recordOffset? (op : Operation) (r : Reservations) (storage : Storage) : Option Nat := do
  let v ← op.ioVariable?
  let last ← op.componentIndex?
  if v = .userDefined then r.userOffset? storage (← op.place? 1) (← op.place? last)
  else if v.isRecordArray then r.offset? storage v 0 (← op.place? last)
  else r.offset? storage v 0 0

def Operation.ioName (op : Operation) : String := op.ioVariable?.elim "unknown" IoVariable.name

/-- Sends an output access to the record kept in local memory. -/
def expandOutput (x : PassContext) : Expansion := fun op =>
  match x.resources.emulation with
  | none => return .keep op
  | some memory =>
    match op.recordOffset? x.resources.reservations .output with
    | none => return .unresolvedOutput op op.ioName
    | some offset => do
      let place := [.word memory.vertexData, .word offset]
      if op.inst = .store then Emit.store .localMemory (place ++ [op.sources.getLastD .undefined])
      else Emit.op { inst := .load, storage := .localMemory, dest := op.dest, sources := place }
      return .drop

end ShaderRecompiler
