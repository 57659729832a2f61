import ShaderRecompiler.Flow.Digraph

/-! Dominators by deletion: `a` dominates `b` when `b` is reached from the entry,
but no longer once `a` is taken out. -/
namespace ShaderRecompiler

structure Dominance where
  size : Nat
  reached : Array Bool
  /-- For each node, what is reached without entering it; it counts as reached
  itself. -/
  avoiding : Array (Array Bool)
deriving Repr, Inhabited

def Digraph.dominance (g : Digraph) (entry : Nat) : Dominance where
  size := g.size
  reached := g.reached [entry]
  avoiding := Array.ofFn fun a : Fin g.size =>
    (g.search (g.unseen.setIfInBounds a true) [entry]).seen

namespace Dominance

/-- Every node dominates itself. -/
def dominates (d : Dominance) (a b : Nat) : Bool :=
  a == b || (d.reached.getD b false && !(d.avoiding.getD a d.reached).getD b false)

def strictDominators (d : Dominance) (b : Nat) : List Nat :=
  (List.range d.size).filter fun a => a != b && d.dominates a b

/-- The strict dominator that all others dominate. -/
def immediate? (d : Dominance) (b : Nat) : Option Nat :=
  let above := d.strictDominators b
  above.find? fun a => above.all (d.dominates · a)

end Dominance

/-- The reversed graph with one more node, from which only `exit` is entered. -/
def Digraph.backward (g : Digraph) (exit : Nat) : Digraph := ⟨g.reverse.succ.push [exit]⟩

/-- For each node the nearest other node that every path to `exit` goes through,
if there is one. -/
def Digraph.immediatePostDominators (g : Digraph) (exit : Nat) : Array (Option Nat) :=
  let d := (g.backward exit).dominance g.size
  Array.ofFn fun v : Fin g.size => (d.immediate? v).filter (· != g.size)

end ShaderRecompiler
