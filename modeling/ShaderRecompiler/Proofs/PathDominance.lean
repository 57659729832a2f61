import ShaderRecompiler.Proofs.Blocks
import ShaderRecompiler.Proofs.Loop

/-! What the trees say about the paths of a routine. The dominators of a block are
the blocks on every path from the entry to it; the nearest join of a block is the
first other block on every path from it to the exit. -/
namespace ShaderRecompiler

open Relation

namespace Digraph

variable {g : Digraph} {a p x y : Nat}

theorem Cuts.lt_size (h : g.Cuts x a y) (hx : x < g.size) (hpath : ReflTransGen g.Edge x y) : a < g.size := by
  by_contra ha
  refine h ⟨fun heq => ha (heq ▸ hx), ReflTransGen.mono (fun _ _ hedge => ⟨hedge, fun heq => ?_⟩) _ _ hpath⟩
  exact ha (heq ▸ hedge.2)

section Backward

end Backward
end Digraph

namespace Routine

/-- Blocks 1 and 3 are a loop that is entered at both; block 5 is entered nowhere. -/
def twisted : Routine where
  blocks := #[{ next := some 1, branch := some 2 }, { next := some 3 }, { branch := some 3 },
    { next := some 4, branch := some 1 }, {}, { next := some 4 }]

end Routine
end ShaderRecompiler
