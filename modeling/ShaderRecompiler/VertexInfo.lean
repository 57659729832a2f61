/-! Fields of the uniform buffer that describes a draw to an emulated stage. -/
namespace ShaderRecompiler.VertexInfo

/-- Vertices, instances, first vertex, first instance. -/
def counts : Nat := 0

/-- Primitives, unused, first index, whether there are indices. -/
def geometry : Nat := 1

/-- For each location its stride in elements, then which components exist. -/
def strides : Nat := 2

/-- For each location whether it advances per instance. -/
def divisors : Nat := 3

end ShaderRecompiler.VertexInfo
