import ShaderRecompiler.Compile.Error
import ShaderRecompiler.Glsl.Source
import ShaderRecompiler.Pass

/-! From operations to a shader. The operations are checked before and after the
passes, so source text is only written for well-formed routines. -/
namespace ShaderRecompiler

structure Options where
  api : Api := .openGl
  debug : Bool := false
  /-- An access that emulation cannot express is an error. -/
  strict : Bool := false
deriving DecidableEq, Repr, Inhabited

/-- Source text and what the host has to bind for it. -/
structure Shader where
  stage : Stage
  code : String
  constantBuffers : List Buffer
  storageBuffers : List Buffer
  textures : List Texture
  images : List Texture
  features : Features
  clipDistances : UInt32
  colorMask : Option UInt32
  reservations : Reservations
deriving DecidableEq, Repr

structure Report where
  result : Except CompileError Shader
  warnings : List String := []

structure Compilation where
  config : Config
  attributes : AttributeUsage
  host : Host
  options : Options
  clipDistances : UInt32 := 0
  resources : Resources

namespace Compilation

def checked (c : Compilation) (phase : Phase) (r : Routine) : Except CompileError Unit :=
  (r.check c.config c.resources).mapError (.malformed phase)

def routine (c : Compilation) (phase : Phase) (ops : List Operation) (ids : Ids) :
    Except CompileError Routine := do
  let r ← (Routine.ofOperations ops ids).mapError .flow
  c.checked phase r
  return r

def useConstants (r : Resources) : Operand → Resources
  | .constantBuffer slot _ => (r.useConstantBuffer slot).2
  | _ => r

def declareConstants (r : Resources) (routine : Routine) : Resources :=
  (routine.allOps.flatMap fun (_, id) => (routine.op id).operands).foldl useConstants r

def write (c : Compilation) (routine : Routine) (features : Features) : Except CompileError Shader := do
  let resources := declareConstants c.resources routine
  let (structured, routine) ← routine.structured.mapError .structuring
  let context : Glsl.Context :=
    { config := c.config
      resources
      usage := c.attributes
      features
      capabilities := c.host.capabilities
      api := c.options.api
      debug := c.options.debug }
  let code ← (Glsl.source context routine structured).mapError .glsl
  return {
    stage := c.config.stage
    code
    constantBuffers := resources.sortedConstantBuffers
    storageBuffers := resources.sortedStorageBuffers
    textures := resources.sortedTextures
    images := resources.sortedImages
    features
    clipDistances := c.clipDistances
    colorMask := if c.config.stage = .fragment then some c.config.colorMask else none
    reservations := resources.reservations }

/-- A strict compilation stops at the first access that is unresolved. -/
def resolved (c : Compilation) (unresolved : List Unresolved) : Except CompileError Unit :=
  match unresolved with
  | access :: _ => if c.options.strict then .error (.unresolved access) else .ok ()
  | [] => .ok ()

def finish (c : Compilation) (p : Passed) : Except CompileError Shader := do
  c.resolved p.unresolved
  c.checked .passes p.routine
  c.write p.routine p.features

def compile (c : Compilation) (ops : List Operation) (ids : Ids) (features : Features) : Report :=
  match c.routine .construction ops ids with
  | .error e => { result := .error e }
  | .ok r =>
    let p := r.runPasses ⟨c.config, c.resources, c.host⟩ features
    { result := c.finish p, warnings := p.unresolved.map (·.warning) }

def synthesize (c : Compilation) (program : Emit Unit) (features : Features) :
    Except CompileError Shader := do
  let (_, emitter) := program.run {}
  let r ← c.routine .synthesis emitter.ops.toList emitter.ids
  c.write r features

end Compilation
end ShaderRecompiler
