import ShaderRecompiler.Proofs.Budget

/-! Irreducible flow is found, and nothing else is taken for it. A retreating edge
of the depth-first order that does not lead back to a dominator is a step of a
cycle of forward edges, and where there is such a cycle one of its edges retreats.
Which edge is named depends on the order; that there is one does not. -/
namespace ShaderRecompiler

open Relation

namespace Digraph

variable {g g' : Digraph}

/-- Reducibility is a matter of the edges alone, not of the order they are listed in. -/
theorem reducible_congr (h : ∀ u v, g.Edge u v ↔ g'.Edge u v) : g.Reducible ↔ g'.Reducible := by
  have hedge : g.Edge = g'.Edge := by
    funext u v
    exact propext (h u v)
  unfold Reducible Forward Dominates Avoids
  rw [hedge]

theorem loops_eq_error (h : g.loops exit landings = .error e) :
    ∃ u v, e = .irreducible u v ∧ (u, v) ∈ g.retreatingEdges (g.reversePostorder 0) ∧
      (g.dominance 0).dominates v u = false := by
  unfold loops at h
  dsimp only at h
  split at h
  · next u v hfind =>
    have hfwd := List.find?_some hfind
    cases h
    exact ⟨u, v, rfl, List.mem_of_find?_eq_some hfind, by simpa using hfwd⟩
  · cases h

theorem loops_irreducible_iff (h0 : 0 < g.size) :
    (∃ u v, g.loops exit landings = .error (.irreducible u v)) ↔ ¬g.Reducible := by
  constructor
  · rintro ⟨u, v, h⟩ hred
    obtain ⟨u', v', -, hmem, hdom⟩ := loops_eq_error h
    obtain ⟨hu, -, hback⟩ := (mem_retreatingEdges h0 hred).1 hmem
    rw [(dominates_dominance h0 hu v').2 hback] at hdom
    cases hdom
  · intro hred
    cases hloops : g.loops exit landings with
    | ok loops => exact absurd (reducible_of_loops h0 hloops) hred
    | error e =>
      obtain ⟨u, v, rfl, -⟩ := loops_eq_error hloops
      exact ⟨u, v, rfl⟩

end Digraph

/-- A block cannot be left when its branch has no condition, and for no other reason. -/
theorem Layout.leave_eq_error {s : Layout} (h : s.leave b = .error e) : e = .missingCondition b := by
  unfold leave at h
  split at h
  · cases h
  · split at h
    · cases h
    · cases h
    · split at h
      · cases h
      · exact (Except.error.inj h).symm

namespace Routine

variable {r r' : Routine} {ops : List Operation} {ids : Ids}

section

variable {loops : List Loop} (hpos : 0 < r.blocks.size)
  (hroute : singleExitLoops r.exitBlock (r.blocks.size + 1) r [] = .ok (r', loops))
include hpos hroute

/-- Once the exits are routed, structuring fails at the budget or at leaving a block. -/
theorem structured_eq_error_of_routed (h : r.structured = .error e) :
    e = .stepLimit ∨ ∃ b, (r'.layout r.exitBlock loops).leave b = .error e := by
  rw [structured_eq_bind hpos hroute] at h
  have hemitted := (r'.layout r.exitBlock loops).emitted_emit maxSteps (some 0) none [] false
  generalize (r'.layout r.exitBlock loops).emit maxSteps (some 0) none [] false = result at hemitted h
  cases hemitted with
  | body => cases h
  | stepLimit => exact .inl (Except.error.inj h).symm
  | stuck hlv =>
    obtain rfl := Except.error.inj h
    exact .inr ⟨_, hlv⟩

theorem structured_ne_irreducible (u v : Nat) : r.structured ≠ .error (.irreducible u v) := by
  intro h
  obtain he | ⟨b, hlv⟩ := structured_eq_error_of_routed hpos hroute h
  · cases he
  · cases Layout.leave_eq_error hlv

end

theorem structured_eq_error (hpos : 0 < r.blocks.size)
    (h : r.graph.loops r.exitBlock [] = .error e) : r.structured = .error e := by
  unfold structured
  rw [if_neg (by simpa using Array.ne_empty_of_size_pos hpos)]
  dsimp only
  rw [singleExitLoops, h]
  rfl

/-- Structuring reports irreducible flow exactly when the edges that do not lead
back to a dominator of their source close a cycle. Another order of the
successors, which gives another depth-first order, is answered the same. -/
theorem structured_irreducible_iff (hr : ofOperations ops ids = .ok r) :
    ((∃ u v, r.structured = .error (.irreducible u v)) ↔ ∃ v, TransGen r.graph.Forward v v) ∧
      ∀ g : Digraph, g.size = r.graph.size → (∀ u v, v ∈ g.next u ↔ v ∈ r.graph.next u) →
        ∀ exit landings, (∃ u v, g.loops exit landings = .error (.irreducible u v)) ↔
          ∃ u v, r.structured = .error (.irreducible u v) := by
  have hpos := blocks_pos_ofOperations hr
  have h0 : 0 < r.graph.size := by rwa [size_graph]
  have hstructured : (∃ u v, r.structured = .error (.irreducible u v)) ↔ ¬r.graph.Reducible := by
    constructor
    · rintro ⟨u, v, h⟩ hred
      obtain ⟨r', loops, hroute⟩ := routed_ofOperations hr (exitBlock_lt hpos) hred
      exact structured_ne_irreducible hpos hroute u v h
    · intro hred
      obtain ⟨u, v, hloops⟩ := (Digraph.loops_irreducible_iff h0).2 hred
      exact ⟨u, v, structured_eq_error hpos hloops⟩
  refine ⟨by rw [hstructured]; simp [Digraph.Reducible], ?_⟩
  intro g hsize hnext exit landings
  have hedge : ∀ u v, g.Edge u v ↔ r.graph.Edge u v := by
    intro u v
    unfold Digraph.Edge
    rw [hnext, hsize]
  rw [hstructured, Digraph.loops_irreducible_iff (by rwa [hsize]), Digraph.reducible_congr hedge]

/-- A loop of two blocks that is entered at both. -/
def enteredTwice : List Operation :=
  [⟨.branchIfTrue, .none, none, [.label 1, .temp 0]⟩, ⟨.markLabel, .none, none, [.label 0]⟩,
    ⟨.copy, .none, some (.temp 1), [.word 1]⟩,
    ⟨.markLabel, .none, none, [.label 1]⟩,
    ⟨.branchIfTrue, .none, none, [.label 0, .temp 1]⟩,
    ⟨.ret, .none, none, []⟩]

theorem structured_irreducible_iff_enteredTwice : ∃ r, ofOperations enteredTwice {} = .ok r ∧
    r.structured = .error (.irreducible 2 1) ∧ ∃ v, TransGen r.graph.Forward v v := by
  have hok : (ofOperations enteredTwice {}).toOption.any (fun r =>
      decide (0 < r.blocks.size ∧ r.graph.loops r.exitBlock [] = .error (.irreducible 2 1))) = true := by cbv
  cases hr : ofOperations enteredTwice {} with
  | error e => simp [hr, Except.toOption] at hok
  | ok r =>
    simp only [hr, Except.toOption, Option.any_some, decide_eq_true_eq] at hok
    have hs := structured_eq_error hok.1 hok.2
    exact ⟨r, rfl, hs, (structured_irreducible_iff hr).1.1 ⟨2, 1, hs⟩⟩

end Routine
end ShaderRecompiler
