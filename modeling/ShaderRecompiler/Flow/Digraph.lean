/-! Depth-first search on a finite directed graph. Every visit marks its node
before it goes on, so a search as deep as the graph is large misses nothing. -/
namespace ShaderRecompiler

/-- The successors of each node, in the order a search tries them. -/
structure Digraph where
  succ : Array (List Nat)
deriving DecidableEq, Repr, Inhabited

/-- Nodes outside the graph count as seen. -/
structure Search where
  seen : Array Bool
  /-- Finished nodes, the last one first. -/
  finished : List Nat := []
deriving DecidableEq, Repr, Inhabited

namespace Search

def isSeen (s : Search) (v : Nat) : Bool := s.seen.getD v true
def mark (s : Search) (v : Nat) : Search := { s with seen := s.seen.setIfInBounds v true }
def finish (s : Search) (v : Nat) : Search := { s with finished := v :: s.finished }

end Search

namespace Digraph

def size (g : Digraph) : Nat := g.succ.size
def next (g : Digraph) (v : Nat) : List Nat := g.succ.getD v []

def visit (g : Digraph) : Nat → Search → Nat → Search
  | 0, s, _ => s
  | depth + 1, s, v =>
    if s.isSeen v then s else ((g.next v).foldl (g.visit depth) (s.mark v)).finish v

/-- Explores from `roots` without entering the nodes `seen` already holds. -/
def search (g : Digraph) (seen : Array Bool) (roots : List Nat) : Search :=
  roots.foldl (g.visit g.size) { seen }

def unseen (g : Digraph) : Array Bool := Array.replicate g.size false

def reached (g : Digraph) (roots : List Nat) : Array Bool := (g.search g.unseen roots).seen

/-- The nodes reached from `entry`, each after all that finished later. -/
def reversePostorder (g : Digraph) (entry : Nat) : List Nat := (g.search g.unseen [entry]).finished

def predecessors (g : Digraph) (v : Nat) : List Nat :=
  (List.range g.size).filter fun u => (g.next u).contains v

def reverse (g : Digraph) : Digraph := ⟨Array.ofFn fun v : Fin g.size => g.predecessors v⟩

end Digraph
end ShaderRecompiler
