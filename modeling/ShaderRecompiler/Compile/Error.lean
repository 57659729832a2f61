import ShaderRecompiler.Check
import ShaderRecompiler.Flow.Structuring
import ShaderRecompiler.Glsl.Error
import ShaderRecompiler.Lowering.Program
import ShaderRecompiler.Pass.Expansion

/-! Everything that compiling a stage can fail with. Each phase keeps its own
cause; only the wording is added here. -/
namespace ShaderRecompiler

/-- Where operations came from that turn out to be malformed. -/
inductive Phase where
  | construction
  | passes
  | synthesis
deriving DecidableEq, Repr

def Phase.name : Phase → String
  | construction => "IR construction"
  | passes => "transform passes"
  | synthesis => "passthrough synthesis"

inductive Progress where
  | fresh
  | compiled
  | joined
  | synthesized
deriving DecidableEq, Repr

namespace Progress

def name : Progress → String
  | fresh => "unconfigured"
  | compiled => "translated"
  | joined => "merged and translated"
  | synthesized => "passthrough synthesized"

/-- Its own program was compiled; synthesized programs do not count. -/
def isSpent : Progress → Bool
  | fresh | synthesized => false
  | compiled | joined => true

end Progress

inductive CompileError where
  | lowering (e : Guest.Error)
  | flow (e : FlowError)
  | malformed (phase : Phase) (e : CheckError)
  | structuring (e : StructureError)
  | glsl (e : Glsl.Error)
  | spent (progress : Progress)
  | notGeometry (stage : Stage)
  | unresolved (access : Unresolved)

namespace CompileError

def misuse (actual expected : String) : String :=
  s!"translator context is {actual}, expected {expected}"

def message : CompileError → String
  | lowering e => e.message
  | flow e => s!"control flow graph error: {e.message}"
  | malformed phase e => s!"malformed IR after {phase.name}: {e.message}"
  | structuring e => s!"control flow structuring failed: {e.message}"
  | glsl e => s!"GLSL generation failed: {e.message}"
  | spent progress => misuse progress.name Progress.fresh.name
  | notGeometry stage => misuse stage.name Stage.geometry.name
  | unresolved access => s!"unresolved {access.kind} \"{access.name}\""

end CompileError
end ShaderRecompiler
