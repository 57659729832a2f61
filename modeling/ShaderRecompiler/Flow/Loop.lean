import ShaderRecompiler.Ascending
import ShaderRecompiler.Flow.Blocks
import ShaderRecompiler.Flow.Dominance

/-! Natural loops. A retreating edge of the depth-first order must return to a
block that dominates its source; the blocks that reach such an edge without
passing its target are the loop. -/
namespace ShaderRecompiler

/-- The most places that structuring may visit. -/
def maxSteps : Nat := 65536

inductive StructureError where
  | irreducible (source target : Nat)
  | missingCondition (block : Nat)
  | stepLimit
deriving DecidableEq, Repr

def StructureError.message : StructureError → String
  | irreducible source target =>
    s!"irreducible control flow: edge from block {source} to block {target}"
  | missingCondition block => s!"block {block} ends in a conditional branch without a condition"
  | stepLimit => s!"control flow did not converge after {maxSteps} steps"

structure Loop where
  header : Nat
  body : Array Bool
  /-- Blocks outside the loop, with a path to the end of the program, that the
  body leads to; ascending. -/
  exits : List Nat
deriving DecidableEq, Repr, Inhabited

namespace Loop

def contains (l : Loop) (b : Nat) : Bool := l.body.getD b false

def exit? (l : Loop) : Option Nat := l.exits.head?

def size (l : Loop) : Nat := l.body.toList.count true

def smallest? : List Loop → Option Loop
  | [] => none
  | l :: rest =>
    match smallest? rest with
    | none => some l
    | some m => if m.size < l.size then some m else some l

end Loop

/-- A block put on an exit edge, and the header of the loop it still belongs to. -/
structure Landing where
  block : Nat
  header : Nat
deriving DecidableEq, Repr, Inhabited

namespace Digraph

/-- Edges from `order` that do not lead further on in it. -/
def retreatingEdges (g : Digraph) (order : List Nat) : List (Nat × Nat) :=
  order.flatMap fun u =>
    ((g.next u).filter fun v => decide (order.idxOf v ≤ order.idxOf u)).map fun v => (u, v)

/-- The blocks from which a latch is reached without passing the header. -/
def loopBody (g : Digraph) (header : Nat) (latches : List Nat) : Array Bool :=
  (g.reverse.search (g.unseen.setIfInBounds header true) latches).seen

def loopAt (g : Digraph) (reachesExit : Array Bool) (landings : List Landing) (header : Nat)
    (latches : List Nat) : Loop :=
  let owned := landings.filter (·.header == header)
  let body := owned.foldl (fun body l => body.setIfInBounds l.block true) (g.loopBody header latches)
  let inside := (List.range g.size).filter fun b => body.getD b false
  let leaving := (inside.flatMap g.next).filter fun s => !body.getD s false && reachesExit.getD s false
  { header, body, exits := Ascending.ofList leaving }

def loops (g : Digraph) (exit : Nat) (landings : List Landing) : Except StructureError (List Loop) :=
  let retreating := g.retreatingEdges (g.reversePostorder 0)
  let d := g.dominance 0
  match retreating.find? fun (u, v) => !d.dominates v u with
  | some (u, v) => .error (.irreducible u v)
  | none =>
    let reachesExit := g.reverse.reached [exit]
    .ok ((Ascending.ofList (retreating.map (·.2))).map fun header =>
      g.loopAt reachesExit landings header ((retreating.filter (·.2 == header)).map (·.1)))

end Digraph
end ShaderRecompiler
