/-! The programmable stages of a graphics pipeline. -/
namespace ShaderRecompiler

inductive Stage where
  | compute
  | vertex
  | tessControl
  | tessEvaluation
  | geometry
  | fragment
deriving DecidableEq, Repr, Inhabited

namespace Stage

def name : Stage → String
  | compute => "compute"
  | vertex => "vertex"
  | tessControl => "tessellation control"
  | tessEvaluation => "tessellation evaluation"
  | geometry => "geometry"
  | fragment => "fragment"

def isPreRaster : Stage → Bool
  | vertex | tessControl | tessEvaluation | geometry => true
  | compute | fragment => false

/-- Per-vertex inputs are arrays over the vertices of a primitive or patch. -/
def hasArrayedInputs : Stage → Bool
  | tessControl | tessEvaluation | geometry => true
  | _ => false

/-- Only tessellation control writes one output record per invocation. -/
def hasArrayedOutputs : Stage → Bool
  | tessControl => true
  | _ => false

end Stage
end ShaderRecompiler
