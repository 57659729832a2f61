/-! Source text as a list of lines. -/
namespace ShaderRecompiler.Glsl

abbrev Lines := List String

namespace Lines

/-- Moves lines one level to the right; blank ones stay blank. -/
def indent (lines : Lines) : Lines := lines.map fun line => if line.isEmpty then line else "    " ++ line

/-- A braced body, with what follows the closing brace. -/
def block (body : Lines) (suffix : String) : Lines :=
  ["\x7b"] ++ indent body ++ ["\x7d" ++ suffix]

/-- A blank line follows what is there. -/
def paragraph (lines : Lines) : Lines := if lines.isEmpty then [] else lines ++ [""]

/-- Every line is ended. -/
def render (lines : Lines) : String := String.join (lines.map (· ++ "\n"))

end Lines
end ShaderRecompiler.Glsl
