import ShaderRecompiler.Proofs.Recording
import ShaderRecompiler.Proofs.Rerouting

/-! Static single assignment on the whole way from lowered programs to the structured one.
Temporaries come from lowering, from a second program that is lowered with the numbers the
first has left, from passes and from the tests behind a loop. None is assigned twice, and
in a routine each is read only where control has passed its assignment. -/
namespace ShaderRecompiler

/-- No two operations assign one temporary. -/
def SingleAssignment (ops : List Operation) : Prop := (ops.flatMap Operation.assigned).Nodup

/-- What is read was assigned earlier in the block, or in another block that dominates it. -/
structure Routine.IsSsa (r : Routine) : Prop where
  once : SingleAssignment r.live
  reached : ∀ b < r.blocks.size, r.graph.Reachable b
  defined : ∀ b < r.blocks.size, ∀ before op after, r.code b = before ++ op :: after → ∀ t ∈ op.reads,
    t ∈ before.flatMap Operation.assigned ∨
      ∃ a < r.blocks.size, a ≠ b ∧ t ∈ (r.code a).flatMap Operation.assigned ∧ r.graph.Dominates a b

theorem Routine.Orderly.isSsa {r : Routine} (h : r.Orderly) (hrch : ∀ b < r.blocks.size, r.graph.Reachable b) :
    r.IsSsa where
  once := h.once
  reached := hrch
  defined b hb before op after hspl t ht := by
    refine (h.reads b hb before op after hspl t ht).imp_right ?_
    rintro ⟨a, ha, hta, hties⟩
    exact ⟨a, ha, hties.ne, hta, hties.dominates⟩

/-- Lowering, joining, cutting into blocks, passes and structuring keep to single assignment. -/
theorem Assembled.single_assignment {ops : List Operation} {ids : Ids} (hops : Assembled ops ids) :
    SingleAssignment ops ∧ ∀ r, Routine.ofOperations ops ids = .ok r →
      r.IsSsa ∧ ∀ x features, (r.runPasses x features).routine.IsSsa ∧
        ∀ p r', (r.runPasses x features).routine.structured = .ok (p, r') → r'.IsSsa := by
  refine ⟨hops.assigned.1, fun r hr => ?_⟩
  have horderly := Routine.Orderly.ofOperations hops hr
  have hreach := fun b => Routine.reachable_ofOperations (b := b) hr
  refine ⟨horderly.isSsa hreach, fun x features => ?_⟩
  obtain ⟨hpassed, hlinked, hflow⟩ := horderly.runPasses (Routine.WellLinked.ofOperations hr) x features
  have hreach' : ∀ b < (r.runPasses x features).routine.blocks.size,
      (r.runPasses x features).routine.graph.Reachable b := by
    rw [hflow.graph_eq, hflow.blocks_size]
    exact hreach
  have hpos : 0 < (r.runPasses x features).routine.blocks.size := by
    rw [hflow.blocks_size]
    exact Routine.blocks_pos_ofOperations hr
  refine ⟨hpassed.isSsa hreach', fun p r' hstructured => ?_⟩
  obtain ⟨hrouted, hreached⟩ := hpassed.structured hlinked
    (hflow.inside (Routine.Closed.ofOperations hr).inside) hpos hreach' hstructured
  exact hrouted.isSsa hreached

namespace StageContext

/-- Follows a chain in global memory, and leaves the loop from both of its blocks. -/
def chasing : StageContext :=
  let program : Guest.Program :=
    { blocks :=
        [ ⟨0, [⟨0, {}, .ld ⟨4⟩ 1 (.global 0) ⟨4⟩ 8⟩, ⟨8, { predicate := ⟨0⟩ }, .bra 48⟩]⟩,
          ⟨16, [⟨16, {}, .iadd ⟨4⟩ ⟨4⟩ (.constantBuffer 0 0x640) false⟩, ⟨24, { predicate := ⟨1⟩ }, .bra 0⟩]⟩,
          ⟨32, [⟨32, { predicate := ⟨2⟩, inverted := true }, .ast ⟨4⟩ 1 0x80 none none false⟩]⟩,
          ⟨48, [⟨48, {}, .exit⟩]⟩ ] }
  ofProgram program { stage := .vertex } { drawParametersInBuffer := true } {}

def loading : StageContext := vertexStage [.ld ⟨4⟩ 1 (.global 0) ⟨0⟩ 4, .exit]

def chasingTail : Lowered :=
  (chasing.lower false (chasing.beginLocalMemory (chasing.resources false)) {} secondParts).toOption.get
    (by decide +kernel)

def loadingHead : Lowered :=
  ((loading.feeding chasing).lower false ((loading.feeding chasing).beginLocalMemory chasingTail.resources)
    chasingTail.ids firstParts).toOption.get (by decide +kernel)

def chasingRoutine : Routine :=
  (Routine.ofOperations (loadingHead.join chasingTail.ops).1 (loadingHead.join chasingTail.ops).2).toOption.get
    (by decide +kernel)

/-- With the base vertex loaded where the constant buffer was read. -/
def chasingPassed : Routine :=
  (chasingRoutine.runPasses ⟨chasing.config, loadingHead.resources, chasing.host⟩ {}).routine

end StageContext

open StageContext in
theorem Assembled.single_assignment_chasing :
    Assembled (loadingHead.join chasingTail.ops).1 (loadingHead.join chasingTail.ops).2 ∧
      SingleAssignment (loadingHead.join chasingTail.ops).1 ∧ chasingRoutine.IsSsa ∧ chasingPassed.IsSsa ∧
      ∃ p r', chasingPassed.structured = .ok (p, r') ∧ r'.IsSsa := by
  have hops : Assembled (loadingHead.join chasingTail.ops).1 (loadingHead.join chasingTail.ops).2 :=
    .joined (lower_ok (eq_ok_get _)) (lower_ok (eq_ok_get _))
  obtain ⟨honce, hroutine⟩ := Assembled.single_assignment hops
  obtain ⟨hssa, hpasses⟩ := hroutine chasingRoutine (eq_ok_get _)
  obtain ⟨hpassed, hstructured⟩ := hpasses ⟨chasing.config, loadingHead.resources, chasing.host⟩ {}
  obtain ⟨⟨p, r'⟩, hok⟩ : ∃ structured, chasingPassed.structured = .ok structured :=
    ⟨_, eq_ok_get (by decide +kernel)⟩
  exact ⟨hops, honce, hssa, hpassed, p, r', hok, hstructured p r' hok⟩

end ShaderRecompiler
