import ShaderRecompiler.Compile.Interface
import ShaderRecompiler.Compile.Join

/-! Compiling a stage, alone or with the stage that runs before it. -/
namespace ShaderRecompiler

structure JoinedReport where
  result : Except CompileError Shader
  /-- Warnings about the second program and the whole. -/
  warnings : List String := []
  firstWarnings : List String := []

namespace StageContext

def surroundings (s : StageContext) (emulated : Bool) (resources : Resources) : Surroundings where
  config := s.configFor emulated
  host := s.host
  resources := resources
  outputs := s.usage.attributes.outputs
  layerInput := s.layerInput

def lower (s : StageContext) (emulated : Bool) (resources : Resources) (ids : Ids) (parts : Parts) :
    Except CompileError Lowered :=
  (s.program.lower (s.surroundings emulated resources) ids parts).mapError .lowering

def warnings (s : StageContext) (emulated : Bool) (resources : Resources) : List String :=
  s.program.warnings (s.configFor emulated) resources

def compileAlone (s : StageContext) (emulated : Bool) : Report :=
  let resources := s.beginSharedMemory (s.beginLocalMemory (s.resources emulated))
  let warnings := s.warnings emulated resources
  match s.lower emulated resources {} {} with
  | .error e => { result := .error e, warnings }
  | .ok l =>
    let c : Compilation :=
      { config := s.configFor emulated
        attributes := s.usage.attributes
        host := s.host
        options := s.options
        clipDistances := s.usage.clipDistances
        resources := l.resources }
    let report := c.compile l.ops l.ids ((s.featuresFor emulated).union l.features)
    { report with warnings := warnings ++ report.warnings }

def compile (s : StageContext) (emulated : Bool) : Report × StageContext :=
  if s.progress.isSpent then ({ result := .error (.spent s.progress) }, s)
  else
    let report := s.compileAlone emulated
    (report, if report.result.isOk then { s with progress := .compiled } else s)

/-- The second program ends the shader, the first one starts it. -/
def secondParts : Parts := { initialOutputs := false, prologue := false, epilogue := true }

def firstParts : Parts := { initialOutputs := true, prologue := true, epilogue := false }

/-- The first stage also writes what the second one writes. -/
def feeding (first second : StageContext) : StageContext :=
  first.mergeOutputs second.usage.attributes.outputs []

def compileLowered (s first : StageContext) (emulated : Bool) (head tail : Lowered) : Report :=
  let (ops, ids) := head.join tail.ops
  let features :=
    (((s.featuresFor emulated).union tail.features).union head.features).union first.usage.features
  let c : Compilation :=
    { config := s.configFor emulated
      attributes := s.usage.attributes.inherit first.usage.attributes
      host := s.host
      options := s.options
      clipDistances := s.usage.clipDistances ||| first.usage.clipDistances
      resources := head.resources }
  c.compile ops ids features

def compileAfter (s first : StageContext) (emulated : Bool) (tail : Lowered) : JoinedReport :=
  let resources := first.beginLocalMemory tail.resources
  let firstWarnings := first.warnings emulated resources
  match first.lower emulated resources tail.ids firstParts with
  | .error e => { result := .error e, firstWarnings }
  | .ok head =>
    let report := s.compileLowered first emulated head tail
    { result := report.result, warnings := report.warnings, firstWarnings }

/-- Compiles `first` and then `s` as one shader. `first` is asked for the outputs
of `s` as soon as `s` could be lowered. -/
def compileWith (s first : StageContext) (emulated : Bool) : JoinedReport × StageContext × StageContext :=
  if s.progress.isSpent then ({ result := .error (.spent s.progress) }, s, first)
  else
    let resources := s.beginLocalMemory (s.resources emulated)
    let warnings := s.warnings emulated resources
    match s.lower emulated resources {} secondParts with
    | .error e => ({ result := .error e, warnings }, s, first)
    | .ok tail =>
      let first := first.feeding s
      let report := s.compileAfter first emulated tail
      ({ report with warnings := warnings ++ report.warnings },
        if report.result.isOk then { s with progress := .joined } else s, first)

end StageContext
end ShaderRecompiler
