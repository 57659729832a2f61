import ShaderRecompiler.Proofs.Budget

/-! The loops of a routine: one natural loop for each block that an edge leads back
to from a block it dominates, any two of them apart or one inside the other. -/
namespace ShaderRecompiler

open Relation

/-- All of `l` lies in `k`, and not the other way round. -/
def Loop.Within (l k : Loop) : Prop :=
  (∀ x, l.contains x → k.contains x) ∧ ∃ x, k.contains x ∧ l.contains x = false

namespace Routine

variable {r : Routine} {ops : List Operation} {ids : Ids}

theorem latch_ofOperations (hr : ofOperations ops ids = .ok r) :
    r.graph.Latch h u ↔ r.graph.Edge u h ∧ r.graph.Dominates h u :=
  ⟨And.right, fun hu => ⟨reachable_ofOperations hr (by simpa using hu.1.lt_size), hu⟩⟩

/-- The loops that are found in reducible flow. Their headers are the targets of the edges back to a
dominator; the body of each is its header with what comes to the source of such an edge without passing
the header; its exits are the blocks outside that the body leads to and that come to `exit`. -/
theorem loops_natural (hr : ofOperations ops ids = .ok r) (hred : r.graph.Reducible) {exit : Nat}
    (hexit : exit < r.blocks.size) :
    ∃ loops, r.graph.loops exit [] = .ok loops ∧ (loops.map Loop.header).Nodup ∧
      (∀ h, h ∈ loops.map Loop.header ↔ ∃ u, r.graph.Edge u h ∧ r.graph.Dominates h u) ∧
      (∀ l ∈ loops, (∀ x, l.contains x = true ↔ x = l.header ∨
          ∃ u, (r.graph.Edge u l.header ∧ r.graph.Dominates l.header u) ∧ r.graph.Avoids l.header x u) ∧
        (∀ x, l.contains x = true → r.graph.Dominates l.header x) ∧
        ∀ t, t ∈ l.exits ↔ l.contains t = false ∧ ReflTransGen r.graph.Edge t exit ∧
          ∃ b, l.contains b = true ∧ r.graph.Edge b t) ∧
      ∀ l ∈ loops, ∀ k ∈ loops, l ≠ k →
        (∀ x, ¬(l.contains x = true ∧ k.contains x = true)) ∨ l.Within k ∨ k.Within l := by
  have h0 : 0 < r.graph.size := by simpa using blocks_pos_ofOperations hr
  obtain ⟨loops, hok, hfound, hheader⟩ := Digraph.loops_of_reducible h0 hred (by rwa [size_graph]) []
  have hcontains : ∀ l ∈ loops, ∀ x, l.contains x = true ↔ r.graph.InLoop l.header x := by
    intro l hl x
    have hbody : r.graph.InBody [] l.header x ↔ r.graph.InLoop l.header x := by simp [Digraph.InBody]
    rw [(hfound l hl).contains_iff, hbody]
    exact ⟨And.right, fun hx => ⟨hx.lt_size (hfound l hl).isHeader, hx⟩⟩
  have hreach : ∀ l ∈ loops, ∀ x, l.contains x = true → r.graph.Reachable x := fun l hl x hx =>
    reachable_ofOperations hr (by simpa using ((hfound l hl).contains_iff x).1 hx |>.1)
  have hnodup : (loops.map Loop.header).Nodup := by
    obtain ⟨-, hloops⟩ := Digraph.loops_eq hok
    have hheaders := congrArg (List.map Loop.header) hloops
    rw [List.map_map] at hheaders
    rw [hheaders.trans (List.map_id'' (fun _ => rfl) _)]
    exact (Ascending.pairwise_ofList _).imp Nat.ne_of_lt
  have hwithin : ∀ l ∈ loops, ∀ k ∈ loops, l ≠ k → r.graph.InLoop l.header k.header → k.Within l := by
    intro l hl k hk hne hin
    have hheader := hreach k hk k.header ((hcontains k hk _).2 (.self ..))
    refine ⟨fun x hx => ?_, l.header, (hcontains l hl _).2 (.self ..), Bool.eq_false_iff.2 fun hx => ?_⟩
    · exact (hcontains l hl x).2 (.nested h0 hheader hin ((hcontains k hk x).1 hx))
    · refine Digraph.InLoop.not_outer h0 hheader hin (fun heq => hne ?_) ((hcontains k hk _).1 hx)
      exact List.inj_on_of_nodup_map hnodup hl hk heq.symm
  refine ⟨loops, hok, hnodup, fun h => ?_, fun l hl => ⟨fun x => ?_, fun x hx => ?_, fun t => ?_⟩, ?_⟩
  · simp only [List.mem_map, ← latch_ofOperations hr]
    constructor
    · rintro ⟨l, hl, rfl⟩
      exact (hfound l hl).isHeader
    · exact hheader h
  · simp only [hcontains l hl, ← latch_ofOperations hr]
    rfl
  · exact ((hcontains l hl x).1 hx).dominates
  · simp only [(hfound l hl).mem_exits, Digraph.Exit, ← Bool.not_eq_true, hcontains l hl, Digraph.InBody,
      List.not_mem_nil, or_false]
    refine and_congr_right fun _ => and_congr ⟨And.right, fun hpath => ⟨?_, hpath⟩⟩ ?_
    · rcases ReflTransGen.cases_head hpath with rfl | ⟨y, hedge, -⟩
      · rwa [size_graph]
      · exact hedge.lt_size
    · exact exists_congr fun b => ⟨And.right, fun h => ⟨h.2.lt_size, h⟩⟩
  · intro l hl k hk hne
    by_cases hcommon : ∃ x, l.contains x = true ∧ k.contains x = true
    · obtain ⟨x, hxl, hxk⟩ := hcommon
      obtain hin | hin := Digraph.InLoop.comparable h0 (hreach l hl x hxl) ((hcontains l hl x).1 hxl)
        ((hcontains k hk x).1 hxk)
      · exact .inr (.inr (hwithin l hl k hk hne hin))
      · exact .inr (.inl (hwithin k hk l hl (Ne.symm hne) hin))
    · exact .inl (not_exists.1 hcommon)

/-- Two loops that are apart from each other lie in a third one. -/
theorem loops_natural_spinning : ∃ r loops, ofOperations spinning {} = .ok r ∧ r.graph.Reducible ∧
    r.graph.loops r.exitBlock [] = .ok loops ∧ loops.map Loop.header = [1, 2, 3] ∧
    ∀ l ∈ loops, l.header = 1 → ∀ k ∈ loops, k ≠ l → k.Within l := by
  have hok : (ofOperations spinning {}).toOption.any (fun r => r.graph.climbs &&
      decide (r.exitBlock < r.blocks.size) && (r.graph.loops r.exitBlock []).toOption.any fun loops =>
        decide (loops.map Loop.header = [1, 2, 3] ∧ ∀ l ∈ loops, l.header = 1 → ∀ k ∈ loops, k ≠ l →
          l.contains k.header = true ∧ k.contains k.header = true ∧ l.contains 1 = true ∧ k.contains 1 = false)) =
      true := by cbv
  cases hr : ofOperations spinning {} with
  | error e => simp [hr, Except.toOption] at hok
  | ok r =>
    simp only [hr, Except.toOption, Option.any_some, Bool.and_eq_true, decide_eq_true_eq] at hok
    have hred := Digraph.reducible_of_climbs
      (fun b hb => reachable_ofOperations hr (by rwa [size_graph] at hb)) hok.1.1
    obtain ⟨loops, hloops, -, -, -, hnest⟩ := loops_natural hr hred hok.1.2
    simp only [hloops, Option.any_some, decide_eq_true_eq] at hok
    refine ⟨r, loops, rfl, hred, hloops, hok.2.1, fun l hl hone k hk hne => ?_⟩
    obtain ⟨hin, hself, houter, hout⟩ := hok.2.2 l hl hone k hk hne
    obtain hapart | hwithin | hwithin := hnest k hk l hl hne
    · exact absurd ⟨hself, hin⟩ (hapart _)
    · exact hwithin
    · rw [hwithin.1 1 houter] at hout
      cases hout

end Routine
end ShaderRecompiler
