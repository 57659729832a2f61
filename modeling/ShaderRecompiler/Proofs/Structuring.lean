import Mathlib.Data.List.Permutation
import ShaderRecompiler.Proofs.Simulation

/-! Structuring a routine keeps its behaviour: under every interpretation of its
operations and tests, the written body and the routed graph perform the same
operations and stop in the same states. -/
namespace ShaderRecompiler

open Stmt

universe u

variable {s : Layout}

namespace Stmt

mutual

/-- Every break and continue stands in a loop, or `inLoop` says that there is one
around. -/
def nested (inLoop : Bool) : Stmt → Bool
  | cond _ _ thenBody elseBody => nestedAll inLoop thenBody && nestedAll inLoop elseBody
  | loop body => nestedAll true body
  | breakLoop | continueLoop => inLoop
  | op _ | ret => true

def nestedAll (inLoop : Bool) : List Stmt → Bool
  | [] => true
  | stmt :: rest => nested inLoop stmt && nestedAll inLoop rest

end

theorem nestedAll_append (xs ys : List Stmt) :
    nestedAll inLoop (xs ++ ys) = (nestedAll inLoop xs && nestedAll inLoop ys) := by
  induction xs with
  | nil => rfl
  | cons x xs ih => rw [List.cons_append, nestedAll, nestedAll, ih, Bool.and_assoc]

theorem nestedAll_dropFinal {body : List Stmt} (isFinal : Stmt → Bool)
    (h : nestedAll inLoop body) : nestedAll inLoop (dropFinal isFinal body) := by
  obtain heq | ⟨init, last, -, rfl, heq⟩ := dropFinal_cases isFinal body
  · rwa [heq]
  · rw [nestedAll_append, Bool.and_eq_true] at h
    rw [heq]
    exact h.1

theorem nestedAll_ops (ids : List OpId) : nestedAll inLoop (ids.map op) := by
  induction ids with
  | nil => rfl
  | cons id ids ih => rw [List.map_cons, nestedAll, nested, ih]; rfl

theorem nestedAll_branching (test : Operand) (invert meets : Bool)
    (hyes : nestedAll inLoop yes) (hno : nestedAll inLoop no) :
    nestedAll inLoop (branching test invert meets yes no) := by
  unfold branching
  split
  · rfl
  · simp [nestedAll, nested, hno]
  · split <;> simp [nestedAll, nested, hyes, hno]

end Stmt

theorem Layout.Writes.nested {start : Option Nat} {loops : List Loop} (h : s.Writes start stop loops entering body n) :
    Stmt.nestedAll (!loops.isEmpty) body := by
  induction h with
  | nowhere | arrived => rfl
  | jump _ hjump =>
    obtain ⟨l, outer, rfl, ⟨rfl, -, -⟩ | ⟨rfl, -⟩⟩ := jump?_eq_some hjump <;> rfl
  | loop _ _ _ _ _ ihbody ihrest =>
    rw [Stmt.nestedAll, Stmt.nested, ihrest, Bool.and_true]
    exact nestedAll_dropFinal _ ihbody
  | ret => rw [nestedAll_append, plainOps_eq, nestedAll_ops]; rfl
  | goto _ _ _ _ _ ihrest =>
    rw [nestedAll_append, plainOps_eq, nestedAll_ops, ihrest]
    rfl
  | test _ _ _ _ _ _ _ ihyes ihno ihrest =>
    rw [nestedAll_append, nestedAll_append, plainOps_eq, nestedAll_ops, ihrest,
      nestedAll_branching _ _ _ ihyes ihno]
    rfl

namespace Routine

variable {r : Routine}

/-- The layout that is written for a routed routine. -/
def layout (exit : Nat) (r : Routine) (loops : List Loop) : Layout :=
  { routine := r, joins := r.graph.immediatePostDominators exit, loops }

theorem structured_eq_bind (hr : 0 < r.blocks.size)
    (hroute : singleExitLoops r.exitBlock (r.blocks.size + 1) r [] = .ok (r', loops)) :
    r.structured = (r'.layout r.exitBlock loops).emit maxSteps (some 0) none [] false >>= fun emitted =>
      pure ({ body := dropFinal isRet emitted.1,
              predeclared := r'.predeclaredTemps (dropFinal isRet emitted.1) }, r') := by
  unfold structured
  rw [if_neg (by simpa using Array.ne_empty_of_size_pos hr)]
  dsimp only
  rw [hroute]
  rfl

theorem structured_eq (hr : 0 < r.blocks.size) (h : r.structured = .ok (p, r')) :
    ∃ loops body n, singleExitLoops r.exitBlock (r.blocks.size + 1) r [] = .ok (r', loops) ∧
      (r'.layout r.exitBlock loops).Writes (some 0) none [] false body n ∧
      p.body = dropFinal isRet body ∧ p.predeclared = r'.predeclaredTemps p.body := by
  cases hroute : singleExitLoops r.exitBlock (r.blocks.size + 1) r [] with
  | error e =>
    unfold structured at h
    rw [if_neg (by simpa using Array.ne_empty_of_size_pos hr)] at h
    dsimp only at h
    rw [hroute] at h
    cases h
  | ok routed =>
    obtain ⟨routed, loops⟩ := routed
    rw [structured_eq_bind hr hroute] at h
    cases hemit : (routed.layout r.exitBlock loops).emit maxSteps (some 0) none [] false with
    | error e => simp [hemit, bind, Except.bind] at h
    | ok emitted =>
      obtain ⟨body, n⟩ := emitted
      simp only [hemit, bind, Except.bind, pure, Except.pure, Except.ok.injEq, Prod.mk.injEq] at h
      obtain ⟨rfl, rfl⟩ := h
      exact ⟨loops, body, n, rfl, (Layout.writes_of_emit hemit).1, rfl, rfl⟩

theorem singleExitLoops_closed {exit : Nat}
    (hlink : r.WellLinked) (hclosed : r.Closed) (honw : r.Onward) (hsize : 0 < r.blocks.size)
    (h : singleExitLoops exit rounds r [] = .ok (r', loops)) :
    r'.Closed ∧ r'.Onward ∧ 0 < r'.blocks.size := by
  refine (singleExitLoops_linked (P := fun r => r.Closed ∧ r.Onward ∧ 0 < r.blocks.size) ?_ hlink
    ⟨hclosed, honw, hsize⟩ h).2
  rintro r l hloop ⟨hclosed, honw, hsize⟩
  refine ⟨hclosed.routeExits hloop, honw.routeExits hloop, ?_⟩
  rw [blocks_size_routeExits hloop]
  exact Nat.lt_of_lt_of_le hsize (by unfold landingBase; omega)

end Routine

theorem exists_take_eq {α : Type} {f : Nat → List α} (hf : ∀ m n, m ≤ n → f m <+: f n) (k : Nat) :
    ∃ N, ∀ n ≥ N, (f n).take k = (f N).take k := by
  induction k with
  | zero => exact ⟨0, by simp⟩
  | succ k ih =>
    obtain ⟨N, hN⟩ := ih
    by_cases hlong : ∃ m ≥ N, k < (f m).length
    · obtain ⟨m, -, hm⟩ := hlong
      refine ⟨m, fun n hn => ?_⟩
      obtain ⟨t, ht⟩ := hf m n hn
      rw [← ht, List.take_append_of_le_length hm]
    · have hshort : ∀ m ≥ N, (f m).take (k + 1) = (f m).take k := by
        intro m hm
        have : (f m).length ≤ k := by
          by_contra hlen
          exact hlong ⟨m, hm, by omega⟩
        rw [List.take_of_length_le this, List.take_of_length_le (by omega)]
      refine ⟨N, fun n hn => ?_⟩
      rw [hshort n hn, hshort N (Nat.le_refl _), hN n hn]

section Agreement

/-- A whole body performs what the graph performs in at least as many blocks as
its loops have passes; it comes to its end exactly where the graph stops. -/
theorem Layout.Writes.run_eq (h : s.Writes (some 0) none [] false body n) (hclosed : s.routine.Closed)
    (honw : s.routine.Onward) (hsize : 0 < s.routine.blocks.size) (fuel : Nat) (st : σ) :
    ∃ k ≥ fuel, ∃ place st', s.routine.run I k (some 0, st) = ((run I s.routine fuel body st).1, place, st') ∧
        (run I s.routine fuel body st).2 = (if place = none then some st' else none) := by
  obtain ⟨k, last, hk, hlands, -⟩ :=
    h.simulates (I := I) hclosed honw fuel ⟨0, hsize, rfl⟩ (by simp) st
  unfold run
  generalize execAll I s.routine fuel body st = result at hk hlands
  obtain ⟨ids, out⟩ := result
  cases hlands with
  | fell h => cases h
  | broke h => cases h
  | continued h => cases h
  | @returned st' =>
    exact ⟨max k fuel, Nat.le_max_right _ _, none, st', Routine.stepwise.of_stopped hk (Nat.le_max_left _ _), rfl⟩
  | @exhausted b st' hfuel => exact ⟨k, hfuel, some b, st', hk, rfl⟩

end Agreement

namespace Routine

variable {r r' : Routine} {p : Structured} {ops : List Operation} {ids : Ids}

/-- Under every interpretation, the body that structuring writes and the routed
graph perform the same operations in the same order, and one stops in a state
exactly when the other does; breaks and continues stand in loops. -/
theorem structured_agrees (hr : ofOperations ops ids = .ok r)
    (hlast : ∃ op ∈ ops.getLast?, op.inst = .ret ∨ op.inst = .branch)
    (hs : r.structured = .ok (p, r')) {σ : Type u} (I : Interpretation σ) (st : σ) :
    Stmt.nestedAll false p.body = true ∧ (∀ k, ∃ N, ∀ n ≥ N,
        (Stmt.run I r' n p.body st).1.take k = (r'.run I n (some 0, st)).1.take k) ∧
      ∀ st', (∃ n, (Stmt.run I r' n p.body st).2 = some st') ↔
        ∃ n, (r'.run I n (some 0, st)).2 = (none, st') := by
  have hjump : ∃ op ∈ ops.getLast?, op.inst.isJump = true := by
    obtain ⟨op, hop, hinst⟩ := hlast
    exact ⟨op, hop, by rcases hinst with h | h <;> simp [h, Instruction.isJump]⟩
  obtain ⟨loops, body, steps, hroute, hwrites, hbody, -⟩ :=
    structured_eq (blocks_pos_ofOperations hr) hs
  obtain ⟨hclosed, honward, hsize⟩ := singleExitLoops_closed (WellLinked.ofOperations hr)
    (Closed.ofOperations hr) (Onward.ofOperations hr hjump) (blocks_pos_ofOperations hr) hroute
  have hsim : ∀ n, ∃ m ≥ n, ∃ place st', r'.run I m (some 0, st) = ((Stmt.run I r' n p.body st).1, place, st') ∧
        (Stmt.run I r' n p.body st).2 = (if place = none then some st' else none) := by
    intro n
    rw [hbody, Stmt.run_dropFinal]
    exact hwrites.run_eq hclosed honward hsize n st
  refine ⟨?_, fun k => ?_, fun st' => ⟨?_, ?_⟩⟩
  · rw [hbody]
    exact Stmt.nestedAll_dropFinal _ hwrites.nested
  · obtain ⟨N, hN⟩ := exists_take_eq (fun m n hmn => stepwise.grows (some 0, st) hmn) k
    refine ⟨N, fun n hn => ?_⟩
    obtain ⟨m, hm, place, st', hrun, -⟩ := hsim n
    have hgraph := hN m (Nat.le_trans hn hm)
    rw [hrun, ← hN n hn] at hgraph
    exact hgraph
  · rintro ⟨n, hn⟩
    obtain ⟨m, -, place, st₁, hrun, hfinal⟩ := hsim n
    rw [hfinal] at hn
    split at hn
    · next hplace =>
      obtain rfl := Option.some.inj hn
      exact ⟨m, by rw [hrun, hplace]⟩
    · cases hn
  · rintro ⟨n, hn⟩
    obtain ⟨m, hm, place, st₁, hrun, hfinal⟩ := hsim n
    -- The graph has stopped after `n` blocks, so it stands still from there on.
    have hstopped := stepwise.of_stopped (show r'.run I n (some 0, st) = (_, none, st') from
      Prod.ext rfl hn) hm
    rw [hrun] at hstopped
    obtain ⟨-, hplace, rfl⟩ : _ ∧ place = none ∧ st₁ = st' := by simpa using hstopped
    exact ⟨n, by rw [hfinal, if_pos hplace]⟩

/-- A loop that is left at two places, so that its exits are routed. -/
def leftTwice : List Operation :=
  [⟨.markLabel, .none, none, [.label 0]⟩, ⟨.copy, .none, some (.temp 0), [.word 1]⟩,
    ⟨.branchIfTrue, .none, none, [.label 1, .temp 1]⟩,
    ⟨.copy, .none, some (.temp 2), [.word 2]⟩,
    ⟨.branchIfFalse, .none, none, [.label 0, .temp 3]⟩,
    ⟨.copy, .none, some (.temp 4), [.word 3]⟩,
    ⟨.markLabel, .none, none, [.label 1]⟩,
    ⟨.ret, .none, none, []⟩]

theorem structured_agrees_leftTwice : ∃ r p r', ofOperations leftTwice {} = .ok r ∧ r.structured = .ok (p, r') ∧
      Stmt.nestedAll false p.body = true ∧
      (∀ k, ∃ N, ∀ n ≥ N, (Stmt.run ⟨fun _ n => n / 2, fun _ n => n % 3 == 0⟩ r' n p.body 1000).1.take k =
          (r'.run ⟨fun _ n => n / 2, fun _ n => n % 3 == 0⟩ n (some 0, 1000)).1.take k) ∧
      ∀ st', (∃ n, (Stmt.run ⟨fun _ n => n / 2, fun _ n => n % 3 == 0⟩ r' n p.body 1000).2 = some st') ↔
        ∃ n, (r'.run ⟨fun _ n => n / 2, fun _ n => n % 3 == 0⟩ n (some 0, 1000)).2 = (none, st') := by
  have hok : ((ofOperations leftTwice {}).toOption.bind (·.structured.toOption)).isSome = true := by cbv
  cases hr : ofOperations leftTwice {} with
  | error e => simp [hr, Except.toOption] at hok
  | ok r =>
    cases hs : r.structured with
    | error e => simp [hr, hs, Except.toOption] at hok
    | ok result =>
      exact ⟨r, result.1, result.2, rfl, hs,
        structured_agrees hr ⟨_, rfl, .inl rfl⟩ hs ⟨fun _ n => n / 2, fun _ n => n % 3 == 0⟩ 1000⟩

end Routine
end ShaderRecompiler
