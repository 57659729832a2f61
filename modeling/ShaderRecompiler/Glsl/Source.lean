import ShaderRecompiler.Glsl.Body
import ShaderRecompiler.Glsl.Declarations
import ShaderRecompiler.Glsl.Helper

/-! The complete text of a program. -/
namespace ShaderRecompiler.Glsl

def helperLines (x : Context) (r : Routine) : Lines :=
  (Helper.ofRoutine r).flatMap fun h => Lines.paragraph (h.lines x.capabilities.shaderBallot)

def source (x : Context) (r : Routine) (program : Structured) : Except Error String := do
  let scope : Scope := ⟨x, TempTypes.ofRoutine x r, program.predeclared⟩
  let main ← scope.mainFunction r program.body
  return Lines.render
    (x.header ++ x.stageLayout ++ x.resourceLines ++ x.inputLines ++ x.outputLines ++
      helperLines x r ++ main)

end ShaderRecompiler.Glsl
