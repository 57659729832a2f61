/-! Primitive shapes and the fixed-function settings that a stage layout names. -/
namespace ShaderRecompiler

inductive InputTopology where
  | points
  | lines
  | linesAdjacency
  | triangles
  | trianglesAdjacency
deriving DecidableEq, Repr, Inhabited

namespace InputTopology

def vertices : InputTopology → Nat
  | points => 1
  | lines => 2
  | linesAdjacency => 4
  | triangles => 3
  | trianglesAdjacency => 6

def verticesWithoutAdjacency : InputTopology → Nat
  | points => 1
  | lines | linesAdjacency => 2
  | triangles | trianglesAdjacency => 3

def keyword : InputTopology → String
  | points => "points"
  | lines => "lines"
  | linesAdjacency => "lines_adjacency"
  | triangles => "triangles"
  | trianglesAdjacency => "triangles_adjacency"

end InputTopology

inductive OutputTopology where
  | pointList
  | lineStrip
  | triangleStrip
deriving DecidableEq, Repr, Inhabited

namespace OutputTopology

def keyword : OutputTopology → String
  | pointList => "points"
  | lineStrip => "line_strip"
  | triangleStrip => "triangle_strip"

def verticesPerPrimitive : OutputTopology → Nat
  | pointList => 1
  | lineStrip => 2
  | triangleStrip => 3

end OutputTopology

inductive PatchKind where
  | isolines
  | triangles
  | quads
deriving DecidableEq, Repr

instance : Inhabited PatchKind := ⟨.triangles⟩

def PatchKind.keyword : PatchKind → String
  | isolines => "isolines"
  | triangles => "triangles"
  | quads => "quads"

inductive PatchSpacing where
  | equal
  | fractionalEven
  | fractionalOdd
deriving DecidableEq, Repr, Inhabited

def PatchSpacing.keyword : PatchSpacing → String
  | equal => "equal_spacing"
  | fractionalEven => "fractional_even_spacing"
  | fractionalOdd => "fractional_odd_spacing"

inductive Interpolation where
  | perspective
  | constant
  | screenLinear
deriving DecidableEq, Repr, Inhabited

/-- With the blank that separates it from what follows; perspective is the
unwritten default. -/
def Interpolation.qualifier : Interpolation → String
  | perspective => ""
  | constant => "flat "
  | screenLinear => "noperspective "

end ShaderRecompiler
