import ShaderRecompiler.Pass.DrawParameters
import ShaderRecompiler.Pass.GeometryEmulation
import ShaderRecompiler.Pass.VertexEmulation

/-! The passes between the block graph and its structuring. -/
namespace ShaderRecompiler

inductive Pass where
  | drawParameters
  | vertexEmulation
  | geometryEmulation
deriving DecidableEq, Repr

namespace Pass

def all : List Pass := [drawParameters, vertexEmulation, geometryEmulation]

def name : Pass → String
  | drawParameters => "DrawParametersReplace"
  | vertexEmulation => "VertexToCompute"
  | geometryEmulation => "GeometryToCompute"

def isEnabled (guestStage : Stage) (features : Features) : Pass → Bool
  | drawParameters => guestStage == .vertex
  | vertexEmulation => guestStage == .vertex && features.emulated
  | geometryEmulation => guestStage == .geometry && features.emulated

def expansion (x : PassContext) : Pass → Expansion
  | drawParameters => DrawParameters.expansion x
  | vertexEmulation => VertexEmulation.expansion x
  | geometryEmulation => GeometryEmulation.expansion x

end Pass

structure Passed where
  routine : Routine
  features : Features
  unresolved : List Unresolved := []

def Passed.run (x : PassContext) (state : Passed) (pass : Pass) : Passed :=
  if pass.isEnabled x.config.guestStage state.features then
    let (report, routine) := state.routine.expand (pass.expansion x)
    { routine
      features := state.features.union { drawParameters := report.drawParameters }
      unresolved := state.unresolved ++ report.unresolved }
  else state

def Routine.runPasses (r : Routine) (x : PassContext) (features : Features) : Passed :=
  Pass.all.foldl (Passed.run x) { routine := r, features }

end ShaderRecompiler
