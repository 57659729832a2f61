import ShaderRecompiler.Proofs.PathDominance

/-! The depth-first order of a routine's blocks. A worklist finds it without
recursion: its frames are the path that the search stands on, each with the number
of the successor it tries next. -/
namespace ShaderRecompiler

open Relation

namespace Digraph

variable {g : Digraph} {s : Search}

/-- One turn of the worklist. A node is marked when its frame is put on and finished
when its frame runs out of successors. -/
def turn (g : Digraph) : List (Nat × Nat) × Search → List (Nat × Nat) × Search
  | ([], s) => ([], s)
  | ((v, i) :: frames, s) =>
    match (g.next v)[i]? with
    | none => (frames, s.finish v)
    | some w =>
      if s.isSeen w then ((v, i + 1) :: frames, s) else ((w, 0) :: (v, i + 1) :: frames, s.mark w)

theorem Explores.turns (h : g.Explores s vs s') (hvs : (g.next v).drop i = vs)
    (frames : List (Nat × Nat)) : ∃ n, g.turn^[n] ((v, i) :: frames, s) = (frames, s'.finish v) := by
  have hnext : ∀ {v i w vs}, (g.next v).drop i = w :: vs → (g.next v)[i]? = some w ∧ (g.next v).drop (i + 1) = vs := by
    intro v i w vs h
    rw [← List.head?_drop, ← List.tail_drop, h]
    exact ⟨rfl, rfl⟩
  induction h generalizing v i frames with
  | done s =>
    have hget : (g.next v)[i]? = none := by rw [← List.head?_drop, hvs, List.head?_nil]
    exact ⟨1, by simp [turn, hget]⟩
  | seen hw _ ih =>
    obtain ⟨hget, hdrop⟩ := hnext hvs
    obtain ⟨n, hn⟩ := ih hdrop frames
    exact ⟨n + 1, by simpa [turn, hget, hw] using hn⟩
  | fresh hw _ _ ih₁ ih₂ =>
    obtain ⟨hget, hdrop⟩ := hnext hvs
    obtain ⟨n₁, hn₁⟩ := ih₁ List.drop_zero ((v, i + 1) :: frames)
    obtain ⟨n₂, hn₂⟩ := ih₂ hdrop frames
    refine ⟨n₂ + n₁ + 1, ?_⟩
    rw [Function.iterate_succ_apply, Function.iterate_add_apply]
    simpa [turn, hget, hw, hn₁] using hn₂

/-- The search from `entry` explores its successors and finishes it last. -/
theorem explores_entry (he : entry < g.size) : ∃ s,
    g.Explores (Search.mark { seen := g.unseen } entry) (g.next entry) s ∧
      g.search g.unseen [entry] = s.finish entry := by
  have h := g.explores_search (Nat.le_of_eq size_unseen) [entry]
  generalize g.search g.unseen [entry] = last at h
  cases h with
  | seen hseen =>
    rw [isSeen_eq (by simpa using he), getD_unseen] at hseen
    cases hseen
  | fresh _ h hrest =>
    cases hrest with
    | done => exact ⟨_, h, rfl⟩

end Digraph

namespace Routine

def Flows (r : Routine) (u v : Nat) : Prop := v ∈ r.successors u

/-- The depth-first order is what is finished when the worklist is empty, which it comes to be.
It starts with the entry and holds the blocks that the entry reaches, each once. An edge that does not
lead on in it closes a cycle, so without cycles the order is topological. -/
theorem reversePostorder_depthFirst (r : Routine) (hpos : 0 < r.blocks.size)
    (hinside : ∀ b < r.blocks.size, ∀ t ∈ r.successors b, t < r.blocks.size) :
    (∃ n s, r.graph.turn^[n] ([(0, 0)], Search.mark { seen := r.graph.unseen } 0) = ([], s) ∧
      s.finished = r.graph.reversePostorder 0) ∧
    (r.graph.reversePostorder 0).head? = some 0 ∧ (r.graph.reversePostorder 0).Nodup ∧
    (∀ b, b ∈ r.graph.reversePostorder 0 ↔ ReflTransGen r.Flows 0 b) ∧
    (∀ u ∈ r.graph.reversePostorder 0, ∀ v ∈ r.successors u,
      (r.graph.reversePostorder 0).idxOf v ≤ (r.graph.reversePostorder 0).idxOf u → ReflTransGen r.Flows v u) ∧
    ((∀ b, ¬TransGen r.Flows b b) → ∀ u ∈ r.graph.reversePostorder 0, ∀ v ∈ r.successors u,
      (r.graph.reversePostorder 0).idxOf u < (r.graph.reversePostorder 0).idxOf v) := by
  have h0 : 0 < r.graph.size := by rwa [size_graph]
  have hedge : r.graph.Edge = r.Flows := by
    funext u v
    rw [Digraph.Edge, next_graph, size_graph]
    refine propext ⟨And.left, fun h => ⟨h, hinside u ?_ v h⟩⟩
    by_contra hu
    have hnil : r.successors u = [] := by rw [← next_graph, Digraph.next_of_size_le (by simpa using hu)]
    rw [Flows, hnil] at h
    cases h
  obtain ⟨s, hexplores, hlast⟩ := Digraph.explores_entry h0
  obtain ⟨n, hn⟩ := hexplores.turns List.drop_zero []
  have hmem := fun b => Digraph.mem_reversePostorder (u := b) h0
  rw [hedge] at hmem
  have hback : ∀ u ∈ r.graph.reversePostorder 0, ∀ v ∈ r.successors u,
      (r.graph.reversePostorder 0).idxOf v ≤ (r.graph.reversePostorder 0).idxOf u → ReflTransGen r.Flows v u := by
    intro u hu v hv hle
    have hreach : r.graph.Reachable u := (Digraph.mem_reversePostorder h0).1 hu
    obtain ⟨t, htrail, -, hmem⟩ := Digraph.trail_of_idxOf_le h0 hreach (by rwa [next_graph]) hle
    obtain ⟨before, after, heq⟩ := List.append_of_mem hmem
    rw [heq] at htrail
    have hsince := htrail.since
    cases before with
    | nil => exact (List.cons.inj heq).1 ▸ .refl
    | cons x before =>
      obtain ⟨rfl, -⟩ := List.cons.inj heq
      exact hedge ▸ hsince.reaches (hreach.lt h0) List.mem_cons_self
  refine ⟨⟨n, _, hn, ?_⟩, ?_, Digraph.nodup_reversePostorder _ 0, hmem, hback, fun hacyclic u hu v hv => ?_⟩
  · rw [Digraph.reversePostorder, hlast]
  · rw [Digraph.reversePostorder, hlast]
    rfl
  · by_contra hle
    exact hacyclic v (TransGen.tail' (hback u hu v hv (Nat.le_of_not_lt hle)) hv)

theorem reversePostorder_depthFirst_twisted :
    twisted.graph.reversePostorder 0 = [0, 2, 1, 3, 4] ∧ ReflTransGen twisted.Flows 1 3 ∧
      ¬ReflTransGen twisted.Flows 0 5 := by
  obtain ⟨-, -, -, hmem, hback, -⟩ := reversePostorder_depthFirst twisted (by decide) (by decide)
  have horder : twisted.graph.reversePostorder 0 = [0, 2, 1, 3, 4] := by decide +kernel
  rw [horder] at hmem hback
  exact ⟨horder, hback 3 (by decide) 1 (by decide) (by decide), fun h => absurd ((hmem 5).2 h) (by decide)⟩

end Routine
end ShaderRecompiler
