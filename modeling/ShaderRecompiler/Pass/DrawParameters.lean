import ShaderRecompiler.Pass.Expansion

/-! Draw parameters that the guest reads from constant buffer 0. Where the host
can provide the real ones, the reads become loads of built-ins. -/
namespace ShaderRecompiler.DrawParameters

/-- The parameter behind a word of constant buffer 0, by its byte offset. -/
def parameter? : Operand → Option IoVariable
  | .constantBuffer 0 offset =>
    if offset * 4 = 0x640 then some .baseVertex
    else if offset * 4 = 0x644 then some .baseInstance
    else if offset * 4 = 0x648 then some .drawIndex
    else none
  | _ => none

def source (replaces : Bool) (o : Operand) : Emit Operand :=
  match parameter? o with
  | some v => if replaces then Emit.loadInput v else pure o
  | none => pure o

def expansion (x : PassContext) : Expansion := fun op => do
  let sources ← op.sources.mapM (source x.host.drawParametersInBuffer)
  return { kept := some { op with sources }
           drawParameters := op.sources.any fun o => (parameter? o).isSome }

end ShaderRecompiler.DrawParameters
