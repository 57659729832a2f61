import ShaderRecompiler.Proofs.Pieces
import ShaderRecompiler.Proofs.Resolving

/-! What a pass visits. While it edits the blocks it goes through, it is called once on
every operation that was there before and on none that it put in; the blocks keep
their edges and their terminators. -/
namespace ShaderRecompiler

open List

variable {r : Routine}

theorem Pass.kept_terminator (x : PassContext) (pass : Pass) {op : Operation} (h : op.inst.isTerminator)
    (ids : Ids) : ∃ sources, ((pass.expansion x op).run { ids }).1.kept = some { op with sources } ∧
      Forall₂ (Operand.Settles 0) op.sources sources := by
  obtain ⟨haway, hacc⟩ := Operation.isAway_terminator h
  have hkeep : ∀ expand : Expansion, expand op = pure (.keep op) → ∃ sources,
      ((expand op).run { ids }).1.kept = some { op with sources } ∧
        Forall₂ (Operand.Settles 0) op.sources sources := by
    intro expand heq
    rw [heq]
    exact ⟨op.sources, rfl, Operand.Settles.list_refl 0 _⟩
  cases pass with
  | drawParameters =>
    obtain ⟨-, sources, hkept, hsrc, -⟩ := (DrawParameters.appends_expansion x op { ids } (Nat.zero_le _)).1
    exact ⟨sources, hkept, hsrc⟩
  | vertexEmulation =>
    exact hkeep _ (VertexEmulation.expansion_of_still x (Operation.isAway_eq_false_iff.1 haway).1 hacc)
  | geometryEmulation => exact hkeep _ (GeometryEmulation.expansion_of_still x haway hacc)

theorem Expansion.FillsAll.concat {expand : Expansion} {floor : Nat} {r₀ : Routine} {front new : List OpId} {id : OpId}
    (h : expand.FillsAll floor r₀ r (front ++ [id]) new)
    (hkept : ∀ ids, ((expand (r₀.op id)).run { ids }).1.kept.isSome) :
    new.getLast? = some id ∧ ∃ ids, ((expand (r₀.op id)).run { ids }).1.kept = some (r.op id) := by
  generalize hold : front ++ [id] = old at h
  cases h with
  | nil => simp at hold
  | @snoc old new added id' ids hids hadd h =>
    obtain ⟨rfl, hid⟩ := append_inj' hold rfl
    obtain rfl := singleton_inj.1 hid
    obtain ⟨hpiece, put, -, rfl⟩ := hadd
    obtain ⟨kept, hkept⟩ := Option.isSome_iff_exists.1 (hkept ids)
    refine ⟨by simp [hkept], ids, ?_⟩
    have hpiece : (put ++ (((expand (r₀.op id)).run { ids }).1.kept.map fun _ => id).toList).map r.op =
        ((expand (r₀.op id)).run { ids }).2.ops.toList ++ ((expand (r₀.op id)).run { ids }).1.kept.toList := hpiece
    rw [hkept, map_append] at hpiece
    rw [hkept, ← singleton_inj.1 (append_inj' hpiece rfl).2]

namespace Routine

theorem WellLinked.nodup_allOps (h : r.WellLinked) : (r.allOps.map Prod.snd).Nodup := by
  have hids : r.allOps.map Prod.snd = (List.range r.blocks.size).flatMap r.blockOps := by
    simp [allOps, map_flatMap, Function.comp_def]
  rw [hids]
  refine nodup_flatMap.2 ⟨fun b _ => h.nodup b, nodup_range.imp fun hne => ?_⟩
  exact fun _ hid hid' => hne (Linked.unique h hid hid')

/-- A pass is called once on each operation of a block, as it stood at the beginning, in
the order of the blocks; the operations have become their pieces, edges are the same,
and a block ends in the terminator it had. -/
theorem expand_visits (h : r.WellLinked) (x : PassContext) (pass : Pass) :
    let r' := (r.expand (pass.expansion x)).2
    Sweep (pass.expansion x) ({}, r) (List.range r.blocks.size) (r.allOps.map fun y => (y.2, r.op y.2))
        (r.expand (pass.expansion x)) ∧
      (r.allOps.map Prod.snd).Nodup ∧ (∀ y ∈ r.allOps, y.2 < r.nodes.size) ∧
      (∀ b, (pass.expansion x).FillsAll 0 r r' (r.blockOps b) (r'.blockOps b)) ∧
      r.SameFlow r' ∧ (∀ b, r'.graph.predecessors b = r.graph.predecessors b) ∧
      ∀ b id, r.last b = some id → (r.op id).inst.isTerminator = true → r'.last b = some id ∧
        ∃ sources, r'.op id = { r.op id with sources } ∧
          List.Forall₂ (Operand.Settles 0) (r.op id).sources sources := by
  intro r'
  have hend : Underway (pass.expansion x) 0 r r' [] := underway_expand h (Nat.zero_le _) (Expansion.respects_zero _)
  refine ⟨(sweep_expand h _).1, h.nodup_allOps, ?_, hend.fillsAll, hend.flow, fun b => ?_, fun b id hlast hterm => ?_⟩
  · intro y hy
    simp only [allOps, List.mem_flatMap, List.mem_map] at hy
    obtain ⟨b, -, id, hid, rfl⟩ := hy
    exact h.lt b id hid
  · rw [hend.flow.graph_eq]
  · rw [h.last_eq] at hlast
    have hfills := hend.fillsAll b
    rw [← List.dropLast_append_getLast? id hlast] at hfills
    obtain ⟨hnew, ids, hop⟩ := hfills.concat fun ids => by
      obtain ⟨sources, hkept, -⟩ := pass.kept_terminator x hterm ids
      rw [hkept]
      rfl
    obtain ⟨sources, hkept, hsources⟩ := pass.kept_terminator x hterm ids
    exact ⟨(hend.linked.last_eq b).trans hnew, sources, Option.some.inj (hop.symm.trans hkept), hsources⟩

/-- The first operation is taken out, and the pass goes on from it to the second. -/
theorem expand_visits_taken_out :
    let load : Operation := { inst := .load, storage := .input, dest := some (.register ⟨0⟩),
                              sources := [IoVariable.userDefined.operand, .word 0, .word 1] }
    let ret : Operation := { inst := .ret, dest := none, sources := [] }
    let r : Routine := ((addBlock { ids := {} }).2.appendOps 0 [load, ret])
    let visited := r.expand (Pass.vertexEmulation.expansion relayContext)
    r.WellLinked ∧ Sweep (Pass.vertexEmulation.expansion relayContext) ({}, r) [0] [(0, load), (1, ret)] visited ∧
      visited.2.isRemoved 0 = true ∧ visited.2.last 0 = some 1 := by
  intro load ret r visited
  have h : r.WellLinked := (wellLinked_empty {}).addBlock.appendOps (Nat.one_pos) _
  have hcalls : (r.allOps.map fun y => (y.2, r.op y.2)) = [(0, load), (1, ret)] := by decide +kernel
  have hblocks : List.range r.blocks.size = [0] := by decide +kernel
  obtain ⟨hsweep, -, -, -, -, -, hend⟩ := expand_visits h relayContext .vertexEmulation
  rw [hcalls, hblocks] at hsweep
  exact ⟨h, hsweep, by decide +kernel, (hend 0 1 (by decide +kernel) (by decide +kernel)).1⟩

end Routine
end ShaderRecompiler
