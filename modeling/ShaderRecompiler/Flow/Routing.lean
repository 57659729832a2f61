import ShaderRecompiler.Flow.Loop

/-! One way out of every loop. A loop that goes on at several blocks gets a
selector variable: each exit edge lands on a block that stores the number of
its target, and a chain of tests after the loop leads on to that target. -/
namespace ShaderRecompiler.Routine

/-- The test that takes exit `index` and otherwise goes on to `next`. -/
def addDispatch (r : Routine) (selector : Operand) (index target next : Nat) : Routine :=
  let (taken, r) := r.freshTemp
  let (label, r) := r.freshLabel
  r.addFilledBlock
    [{ inst := .compare .equal .u32, dest := some taken, sources := [selector, .word index] },
      { inst := .branchIfTrue, dest := none, sources := [label, taken] }]
    (some next) (some target)

def addLanding (r : Routine) (selector : Operand) (index dispatch : Nat) : Routine :=
  let (label, r) := r.freshLabel
  r.addFilledBlock
    [{ inst := .copy, dest := some selector, sources := [.word index] },
      { inst := .branch, dest := none, sources := [label] }]
    none (some dispatch)

def redirect (r : Routine) (l : Loop) (target landing : Nat) : Routine :=
  let move (e : Option Nat) : Option Nat := if e = some target then some landing else e
  { r with
    blocks := r.blocks.mapIdx fun b block =>
      if l.contains b then { block with next := move block.next, branch := move block.branch }
      else block }

def routeExits (r : Routine) (l : Loop) : Routine × List Landing :=
  let dispatch := r.blocks.size
  let tests := l.exits.length - 1
  let finalExit := l.exits.getLastD 0
  let (selector, r) := r.freshVar
  let r := l.exits.dropLast.zipIdx.foldl
    (fun r (target, index) =>
      r.addDispatch selector index target
        (if index + 1 < tests then dispatch + index + 1 else finalExit))
    r
  let r := l.exits.zipIdx.foldl
    (fun r (target, index) =>
      (r.addLanding selector index dispatch).redirect l target (dispatch + tests + index))
    r
  (r, (List.range l.exits.length).map fun index => ⟨dispatch + tests + index, l.header⟩)

/-- Routes one loop per round, inner ones first, until each has at most one
exit. -/
def singleExitLoops (exit : Nat) : Nat → Routine → List Landing →
    Except StructureError (Routine × List Loop)
  | 0, _, _ => .error .stepLimit
  | rounds + 1, r, landings =>
    match r.graph.loops exit landings with
    | .error e => .error e
    | .ok loops =>
      match Loop.smallest? (loops.filter fun l => decide (1 < l.exits.length)) with
      | none => .ok (r, loops)
      | some l =>
        let (routed, added) := r.routeExits l
        singleExitLoops exit rounds routed (landings ++ added)

end ShaderRecompiler.Routine
