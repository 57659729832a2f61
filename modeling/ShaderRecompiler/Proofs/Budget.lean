import ShaderRecompiler.Proofs.Convergence

/-! Structuring reducible flow. Routing always comes to an end and every block
can be left, so the one way to fail is a body that the step budget does not
cover; that includes bodies that would never end, as a block of an outer loop
can be written again and again inside an inner one. -/
namespace ShaderRecompiler

open Relation List

/-- Edges that do not climb return to a dominator of their source. -/
def Digraph.climbs (g : Digraph) : Bool :=
  (List.range g.size).all fun u => (g.next u).all fun v =>
    decide (u < v) || (g.dominance 0).dominates v u

theorem Digraph.reducible_of_climbs {g : Digraph} (hrch : ∀ b < g.size, g.Reachable b)
    (h : g.climbs) : g.Reducible := by
  have hup : ∀ u v, g.Forward u v → u < v := by
    intro u v hfwd
    have hu := hfwd.1.lt_size
    unfold climbs at h
    have hedge := all_eq_true.1 (all_eq_true.1 h u (mem_range.2 hu)) v hfwd.1.1
    rw [Bool.or_eq_true, decide_eq_true_eq] at hedge
    refine hedge.resolve_right fun hdom => hfwd.2 ?_
    exact (dominates_dominance (Nat.zero_lt_of_lt hu) (hrch u hu) v).1 hdom
  intro v hcyc
  have hlt : TransGen (· < ·) v v := TransGen.mono hup _ _ hcyc
  rw [transGen_eq_self] at hlt
  exact Nat.lt_irrefl v hlt

namespace Layout

variable {s : Layout}

/-- What is left to write: from `start` until `stop`, inside `loops`. -/
structure Task where
  start : Option Nat
  stop : Option Nat
  loops : List Loop
  entering : Bool
deriving DecidableEq

/-- The body of a task, without a budget. -/
def Done (s : Layout) (t : Task) (n : Nat) : Prop :=
  ∃ body, s.Writes t.start t.stop t.loops t.entering body n

/-- The tasks that a task is divided into. -/
def subtasks (s : Layout) (t : Task) : List Task :=
  match t.start with
  | none => []
  | some b =>
    if t.stop = some b ∨ (jump? t.loops t.entering b).isSome then []
    else
      match s.enters? t.loops t.entering b with
      | some l => [⟨some b, none, l :: t.loops, true⟩, ⟨l.exit?, t.stop, t.loops, false⟩]
      | none =>
        match s.leave b with
        | .ok (.goto target) => [⟨target, t.stop, t.loops, false⟩]
        | .ok (.test _ _) =>
          let join := s.join? t.loops b
          [⟨(s.routine.block b).branch, join, t.loops, false⟩,
            ⟨(s.routine.block b).next, join, t.loops, false⟩, ⟨join, t.stop, t.loops, false⟩]
        | _ => []

theorem Writes.subtask {loops : List Loop} (h : s.Writes start stop loops entering body n)
    (ht : t ∈ s.subtasks ⟨start, stop, loops, entering⟩) : ∃ m < n, s.Done t m := by
  cases h with
  | nowhere => simp [subtasks] at ht
  | arrived => simp [subtasks] at ht
  | jump hstop hjump => simp [subtasks, hjump] at ht
  | loop hstop hjump henters hbody hrest =>
    simp only [subtasks, hstop, hjump, henters, Option.isSome_none, Bool.false_eq_true, or_self,
      if_false, mem_cons, not_mem_nil, or_false] at ht
    obtain rfl | rfl := ht
    · exact ⟨_, by omega, _, hbody⟩
    · exact ⟨_, by omega, _, hrest⟩
  | ret hstop hjump henters hlv => simp [subtasks, hstop, hjump, henters, hlv] at ht
  | goto hstop hjump henters hlv hrest =>
    simp only [subtasks, hstop, hjump, henters, hlv, Option.isSome_none, Bool.false_eq_true,
      or_self, if_false, mem_singleton] at ht
    subst ht
    exact ⟨_, by omega, _, hrest⟩
  | test hstop hjump henters hlv hyes hno hrest =>
    simp only [subtasks, hstop, hjump, henters, hlv, Option.isSome_none, Bool.false_eq_true,
      or_self, if_false, mem_cons, not_mem_nil, or_false] at ht
    obtain rfl | rfl | rfl := ht
    · exact ⟨_, by omega, _, hyes⟩
    · exact ⟨_, by omega, _, hno⟩
    · exact ⟨_, by omega, _, hrest⟩

/-- The task that choosing a part each time leads to. -/
def follow (s : Layout) : List Nat → Task → Option Task
  | [], t => some t
  | i :: path, t => (s.subtasks t)[i]?.bind (s.follow path)

theorem Done.follow (h : s.Done t n) (hpath : s.follow path t = some t') : ∃ m, m + path.length ≤ n ∧ s.Done t' m := by
  induction path generalizing t n with
  | nil =>
    obtain rfl := Option.some.inj hpath
    exact ⟨n, Nat.le_refl _, h⟩
  | cons i path ih =>
    obtain ⟨t₁, ht₁, hrest⟩ := Option.bind_eq_some_iff.1 hpath
    obtain ⟨body, hwrites⟩ := h
    obtain ⟨k, hk, hdone⟩ := hwrites.subtask (mem_of_getElem? ht₁)
    obtain ⟨m, hm, hdone⟩ := ih hdone hrest
    exact ⟨m, by rw [length_cons]; omega, hdone⟩

theorem not_done_of_follow (hne : cycle ≠ [])
    (h : (s.follow path t).any (fun u => decide (s.follow cycle u = some u))) (n : Nat) :
    ¬s.Done t n := by
  obtain ⟨u, hpath, hcyc⟩ := (Option.any_eq_true _ _).1 h
  have hcyc := of_decide_eq_true hcyc
  have hpos := length_pos_iff.2 hne
  have hnot : ∀ m, ¬s.Done u m := by
    intro m
    induction m using Nat.strongRecOn with
    | ind m ih =>
      intro hdone
      obtain ⟨k, hk, hdone⟩ := hdone.follow hcyc
      exact ih k (by omega) hdone
  intro hdone
  obtain ⟨m, -, hdone⟩ := hdone.follow hpath
  exact hnot m hdone

end Layout

namespace Routine

variable {r r' : Routine} {ops : List Operation} {ids : Ids}

def Conditioned (r : Routine) : Prop :=
  ∀ v ∈ r.views, ∀ op ∈ v.ops, op.inst.isConditionalBranch → (op.source? 1).isSome

theorem Conditioned.singleExitLoops (h : r.Conditioned)
    (hlink : r.WellLinked) (hroute : singleExitLoops exit rounds r [] = .ok (r', loops)) :
    r'.WellLinked ∧ r'.Conditioned := by
  refine Holds.singleExitLoops h ?_ hlink hroute
  intro op hop hcond
  cases hop with
  | branchIfTrue => rfl
  | compare | copy | branch => cases hcond

theorem Conditioned.leave {s : Layout} (h : s.routine.Conditioned) (hlink : s.routine.WellLinked)
    (b : Nat) : ∃ leave, s.leave b = .ok leave := by
  unfold Layout.leave
  cases hterm : s.terminator? b with
  | none => exact ⟨_, rfl⟩
  | some op =>
    obtain ⟨hmem, hterminator⟩ := Layout.mem_of_terminator? hterm
    have hcond := (holds_iff hlink).1 h b op hmem
    dsimp only
    split
    · exact ⟨_, rfl⟩
    · exact ⟨_, rfl⟩
    · next hret hbr =>
      have hconditional : op.inst.isConditionalBranch := by
        revert hret hbr hterminator
        cases op.inst <;> simp [Instruction.isTerminator, Instruction.isConditionalBranch]
      obtain ⟨cond, hsrc⟩ := Option.isSome_iff_exists.1 (hcond hconditional)
      exact ⟨_, by rw [hsrc]⟩

theorem exitBlock_lt (h : 0 < r.blocks.size) : r.exitBlock < r.blocks.size := by
  unfold exitBlock
  cases hfind : (List.range r.blocks.size).findRev? fun b => (r.successors b).isEmpty with
  | none => simp; omega
  | some b =>
    rw [findRev?_eq_find?_reverse] at hfind
    simpa using mem_of_find?_eq_some hfind

theorem routable (hexit : exit < r.blocks.size)
    (hrch : ∀ b < r.blocks.size, r.graph.Reachable b) (hred : r.graph.Reducible) :
    Digraph.Routable r.blocks.size exit r.graph [] where
  le_size := by rw [size_graph]
  exit_lt := hexit
  reach b hb := hrch b (by rwa [size_graph] at hb)
  reducible := hred
  header_lt k hk := by
    rw [← size_graph]
    exact (Digraph.InLoop.self _ _).lt_size hk
  landing_ge := by simp
  landing_lt := by simp
  owner := by simp
  preds := by simp
  single k h howned := by simp [Digraph.Owned] at howned

theorem routed_ofOperations (hr : ofOperations ops ids = .ok r)
    (hexit : exit < r.blocks.size) (hred : r.graph.Reducible) :
    ∃ r' loops, singleExitLoops exit (r.blocks.size + 1) r [] = .ok (r', loops) := by
  have hrnds : unrouted r.blocks.size [] < r.blocks.size + 1 := by
    unfold unrouted
    exact Nat.lt_succ_of_le (Nat.le_trans (length_filter_le _ _) (by simp))
  exact exists_singleExitLoops (routable hexit (fun _ => reachable_ofOperations hr) hred)
    (WellLinked.ofOperations hr) (Closed.ofOperations hr).inside hrnds

/-- Reducible flow with conditions is always routed. It is then written as
statements exactly when that takes no more steps than the budget has, and the
only other answer is that the budget is used up. -/
theorem structured_of_reducible (hr : ofOperations ops ids = .ok r) (hred : r.graph.Reducible)
    (hcond : r.Conditioned) :
    ∃ r' loops, singleExitLoops r.exitBlock (r.blocks.size + 1) r [] = .ok (r', loops) ∧
      ((∃ p, r.structured = .ok (p, r')) ↔
        ∃ n ≤ maxSteps, (r'.layout r.exitBlock loops).Done ⟨some 0, none, [], false⟩ n) ∧
      (r.structured = .error .stepLimit ↔
        ¬∃ n ≤ maxSteps, (r'.layout r.exitBlock loops).Done ⟨some 0, none, [], false⟩ n) := by
  have hpos := blocks_pos_ofOperations hr
  obtain ⟨r', loops, hroute⟩ := routed_ofOperations hr (exitBlock_lt hpos) hred
  obtain ⟨hlinked, hcond'⟩ := hcond.singleExitLoops (WellLinked.ofOperations hr) hroute
  refine ⟨r', loops, hroute, ?_⟩
  rw [structured_eq_bind hpos hroute]
  have hemitted := (r'.layout r.exitBlock loops).emitted_emit maxSteps (some 0) none [] false
  generalize hemit : (r'.layout r.exitBlock loops).emit maxSteps (some 0) none [] false = result at hemitted ⊢
  have hdone : (∃ n ≤ maxSteps, (r'.layout r.exitBlock loops).Done ⟨some 0, none, [], false⟩ n) ↔
      ∃ emitted, result = .ok emitted := by
    rw [← hemit]
    constructor
    · rintro ⟨n, hn, body, hwrites⟩
      exact ⟨_, hwrites.emit_eq hn⟩
    · rintro ⟨⟨body, n⟩, h⟩
      obtain ⟨hwrites, hn⟩ := Layout.writes_of_emit h
      exact ⟨n, hn, body, hwrites⟩
  rw [hdone]
  cases hemitted with
  | body => simp [bind, Except.bind, pure, Except.pure]
  | stepLimit => simp [bind, Except.bind]
  | stuck hleave =>
    obtain ⟨leave, hok⟩ := hcond'.leave (s := r'.layout r.exitBlock loops) hlinked _
    rw [hok] at hleave
    cases hleave

/-- After a test, an endless loop (blocks 1 to 4) with a loop of one block and
one of two blocks in it. From inside the last loop the body of the first is
written once more, where block 2 repeats without being entered as a loop. -/
def spinning : List Operation :=
  let mark (l : Nat) : Operation := ⟨.markLabel, .none, none, [.label l]⟩
  let test (l t : Nat) : Operation :=
    ⟨.branchIfTrue, .none, none, [.label l, .temp t]⟩
  [mark 0, test 5 0, mark 1, ⟨.copy, .none, some (.temp 3), [.word 1]⟩, mark 2, test 2 1, mark 3, test 1 2, mark 4,
    ⟨.branch, .none, none, [.label 3]⟩,
    mark 5, ⟨.ret, .none, none, []⟩]

theorem structured_of_reducible_spinning : ∃ r, ofOperations spinning {} = .ok r ∧ r.graph.Reducible ∧ r.Conditioned ∧
      r.structured = .error .stepLimit := by
  have hok : (ofOperations spinning {}).toOption.any (fun r => r.graph.climbs &&
      decide (∀ v ∈ r.views, ∀ op ∈ v.ops, op.inst.isConditionalBranch = true →
        (op.source? 1).isSome = true)) = true := by cbv
  have hspins : (ofOperations spinning {}).toOption.any (fun r =>
      (singleExitLoops r.exitBlock (r.blocks.size + 1) r []).toOption.any fun routed =>
        ((routed.1.layout r.exitBlock routed.2).follow [1, 0, 0, 0, 1, 0, 0, 0] ⟨some 0, none, [], false⟩).any
          fun u => decide ((routed.1.layout r.exitBlock routed.2).follow [0] u = some u)) = true := by cbv
  cases hr : ofOperations spinning {} with
  | error e => simp [hr, Except.toOption] at hok
  | ok r =>
    simp only [hr, Except.toOption, Option.any_some, Bool.and_eq_true, decide_eq_true_eq] at hok
    have hred := Digraph.reducible_of_climbs (fun b hb => reachable_ofOperations hr (by rwa [size_graph] at hb)) hok.1
    obtain ⟨r', loops, hroute, -, hlimit⟩ := structured_of_reducible hr hred hok.2
    simp only [hr, hroute, Except.toOption, Option.any_some] at hspins
    refine ⟨r, rfl, hred, hok.2, hlimit.2 ?_⟩
    rintro ⟨n, -, hdone⟩
    exact Layout.not_done_of_follow (by simp) hspins n hdone

end Routine
end ShaderRecompiler
