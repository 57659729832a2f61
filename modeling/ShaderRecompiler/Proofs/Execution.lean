import ShaderRecompiler.Flow.Structuring
import ShaderRecompiler.Proofs.Blocks

/-! Running a routine along its graph and running nested statements. Both take
what operations do to a state from an interpretation, and both record the ids of
the operations they perform. A graph run is cut off after so many blocks, a
statement run after so many passes through each loop. -/
namespace ShaderRecompiler

open List

universe u v

/-- What operations do to a state, and how tests read it. -/
structure Interpretation (σ : Type u) where
  perform : Operation → σ → σ
  holds : Operand → σ → Bool

variable {σ : Type u}

/-- A run records what it does, goes on from where a shorter one ended, and has stopped
where control is at no place. -/
structure Stepwise {β : Type v} (run : Nat → Option Nat × σ → List β × Option Nat × σ) : Prop where
  zero : ∀ c, run 0 c = ([], c)
  none : ∀ n s, run n (none, s) = ([], none, s)
  succ : ∀ n c, run (n + 1) c = ((run 1 c).1 ++ (run n (run 1 c).2).1, (run n (run 1 c).2).2)

namespace Stepwise

variable {β : Type v} {run : Nat → Option Nat × σ → List β × Option Nat × σ} (h : Stepwise run)
include h

theorem add (m n : Nat) (c : Option Nat × σ) :
    run (m + n) c = ((run m c).1 ++ (run n (run m c).2).1, (run n (run m c).2).2) := by
  induction m generalizing c with
  | zero => simp [h.zero]
  | succ m ih => rw [Nat.succ_add, h.succ (m + n), h.succ m, ih, append_assoc]

theorem chain (hm : run m c = (done, c')) : run (m + n) c = (done ++ (run n c').1, (run n c').2) := by
  rw [h.add, hm]

theorem of_stopped (hm : run m c = (done, .none, s)) (hmn : m ≤ n) : run n c = (done, .none, s) := by
  obtain ⟨k, rfl⟩ := Nat.exists_eq_add_of_le hmn
  rw [h.chain hm, h.none, append_nil]

theorem grows (c : Option Nat × σ) (hmn : m ≤ n) : (run m c).1 <+: (run n c).1 := by
  obtain ⟨k, rfl⟩ := Nat.exists_eq_add_of_le hmn
  rw [h.add]
  exact prefix_append _ _

end Stepwise

namespace Routine

variable (I : Interpretation σ) (r : Routine)

def performAll (ids : List OpId) (s : σ) : σ := ids.foldl (fun s id => I.perform (r.op id) s) s

/-- Where terminator `op` of block `b` leads; a return leads nowhere. -/
def target (b : Nat) (op : Operation) (s : σ) : Option Nat :=
  match op.inst with
  | .ret => none
  | .branch => (r.block b).branch
  | inst =>
    match op.source? 1 with
    | some cond =>
      if I.holds cond s != (inst == .branchIfFalse) then (r.block b).branch else (r.block b).next
    | none => none

/-- Performs the rest of block `b` up to its terminator, or to its end. -/
def runFrom (b : Nat) : List OpId → σ → List OpId × Option Nat × σ
  | [], s => ([], (r.block b).next, s)
  | id :: rest, s =>
    if (r.op id).inst.isTerminator then ([], r.target I b (r.op id) s, s)
    else
      let (ids, place) := runFrom b rest (I.perform (r.op id) s)
      (id :: ids, place)

/-- Runs at most `n` blocks, from the block control is about to enter; without
one it has stopped. -/
def run : Nat → Option Nat × σ → List OpId × Option Nat × σ
  | 0, place => ([], place)
  | _ + 1, (none, s) => ([], none, s)
  | n + 1, (some b, s) =>
    let (ids, place) := r.runFrom I b (r.blockOps b) s
    let (more, last) := run n place
    (ids ++ more, last)

variable {I r}

@[simp] theorem run_zero (place : Option Nat × σ) : r.run I 0 place = ([], place) := rfl

@[simp] theorem run_none (n : Nat) (s : σ) : r.run I n (none, s) = ([], none, s) := by
  cases n <;> rfl

theorem run_succ (n b : Nat) (s : σ) : r.run I (n + 1) (some b, s) =
      ((r.runFrom I b (r.blockOps b) s).1 ++ (r.run I n (r.runFrom I b (r.blockOps b) s).2).1,
        (r.run I n (r.runFrom I b (r.blockOps b) s).2).2) := rfl

theorem run_one (b : Nat) (s : σ) : r.run I 1 (some b, s) = r.runFrom I b (r.blockOps b) s := by
  simp [run_succ]

theorem stepwise : Stepwise (r.run I) := by
  refine ⟨run_zero, run_none, fun _ c => ?_⟩
  obtain ⟨_ | b, s⟩ := c
  · simp
  · rw [run_one, run_succ]

theorem runFrom_append (hxs : ∀ id ∈ xs, (r.op id).inst.isTerminator = false) (s : σ) : r.runFrom I b (xs ++ ys) s =
      (xs ++ (r.runFrom I b ys (r.performAll I xs s)).1, (r.runFrom I b ys (r.performAll I xs s)).2) := by
  induction xs generalizing s with
  | nil => rfl
  | cons id xs ih =>
    rw [cons_append, runFrom, hxs id mem_cons_self, if_neg Bool.false_ne_true,
      ih fun x hx => hxs x (mem_cons_of_mem _ hx)]
    rfl

end Routine

/-- How a statement ends, and in which state. -/
inductive Outcome (σ : Type u) where
  | fell (s : σ)
  | broke (s : σ)
  | continued (s : σ)
  | returned (s : σ)
  /-- A loop was cut off. -/
  | exhausted

namespace Outcome

/-- Goes on with `rest` where the first part falls out at its end. -/
def andThen (first : List OpId × Outcome σ) (rest : σ → List OpId × Outcome σ) : List OpId × Outcome σ :=
  match first with
  | (ids, fell s) => (ids ++ (rest s).1, (rest s).2)
  | other => other

/-- At most `n` passes; a pass that falls out at its end is followed by another. -/
def again (pass : σ → List OpId × Outcome σ) : Nat → σ → List OpId × Outcome σ
  | 0, _ => ([], exhausted)
  | n + 1, s =>
    match pass s with
    | (ids, fell s') | (ids, continued s') => (ids ++ (again pass n s').1, (again pass n s').2)
    | (ids, broke s') => (ids, fell s')
    | other => other

theorem andThen_assoc (first : List OpId × Outcome σ) (f g : σ → List OpId × Outcome σ) :
    andThen (andThen first f) g = andThen first fun s => andThen (f s) g := by
  obtain ⟨ids, _ | _ | _ | _ | _⟩ := first
  · rename_i s
    simp only [andThen]
    obtain ⟨more, _ | _ | _ | _ | _⟩ := f s <;> simp
  all_goals rfl

theorem andThen_fell (first : List OpId × Outcome σ) : andThen first (fun s => ([], fell s)) = first := by
  obtain ⟨ids, _ | _ | _ | _ | _⟩ := first
  · simp [andThen]
  all_goals rfl

/-- Falling out and continuing are the same to a loop. -/
def repeats : Outcome σ → Outcome σ
  | continued s => fell s
  | other => other

theorem again_congr {pass pass' : σ → List OpId × Outcome σ}
    (h : ∀ s, (pass s).1 = (pass' s).1 ∧ repeats (pass s).2 = repeats (pass' s).2) (n : Nat) :
    again pass n = again pass' n := by
  induction n with
  | zero => rfl
  | succ n ih =>
    funext s
    have hs := h s
    rw [again, again, ih]
    revert hs
    obtain ⟨ids, out⟩ := pass s
    obtain ⟨ids', out'⟩ := pass' s
    rintro ⟨hids, hout⟩
    obtain rfl : ids = ids' := hids
    cases out <;> cases out' <;> simp_all [repeats]

end Outcome

namespace Stmt

open Outcome

variable (I : Interpretation σ) (r : Routine)

mutual

/-- Performs a statement; each loop in it is passed through at most `fuel` times. -/
def exec (fuel : Nat) : Stmt → σ → List OpId × Outcome σ
  | op id, s => ([id], .fell (I.perform (r.op id) s))
  | cond test invert thenBody elseBody, s =>
    if I.holds test s != invert then execAll fuel thenBody s else execAll fuel elseBody s
  | loop body, s => again (execAll fuel body) fuel s
  | breakLoop, s => ([], .broke s)
  | continueLoop, s => ([], .continued s)
  | ret, s => ([], .returned s)

def execAll (fuel : Nat) : List Stmt → σ → List OpId × Outcome σ
  | [], s => ([], .fell s)
  | stmt :: rest, s => andThen (exec fuel stmt s) (execAll fuel rest)

end

/-- The operations performed and, unless a loop was cut off, the state in which
the body returns or ends. -/
def run (fuel : Nat) (body : List Stmt) (s : σ) : List OpId × Option σ :=
  match execAll I r fuel body s with
  | (ids, .fell s') | (ids, .returned s') => (ids, some s')
  | (ids, _) => (ids, none)

variable {I r}

theorem execAll_append (xs ys : List Stmt) (s : σ) :
    execAll I r fuel (xs ++ ys) s = andThen (execAll I r fuel xs s) (execAll I r fuel ys) := by
  induction xs generalizing s with
  | nil => simp [execAll, andThen]
  | cons x xs ih =>
    rw [cons_append, execAll, execAll, andThen_assoc]
    congr 1
    funext s'
    exact ih s'

theorem execAll_singleton (x : Stmt) (s : σ) : execAll I r fuel [x] s = exec I r fuel x s := by
  rw [execAll]
  exact andThen_fell _

theorem execAll_ops (ids : List OpId) (s : σ) :
    execAll I r fuel (ids.map op) s = (ids, .fell (r.performAll I ids s)) := by
  induction ids generalizing s with
  | nil => rfl
  | cons id ids ih =>
    rw [map_cons, execAll, exec, andThen, ih]
    rfl

theorem execAll_ne_fell (h : body.getLast?.any isJump) (s s' : σ) : (execAll I r fuel body s).2 ≠ .fell s' := by
  obtain ⟨jump, hjump⟩ : ∃ j, body.getLast? = some j := by
    cases hlast : body.getLast? with
    | none => simp [hlast] at h
    | some j => exact ⟨j, rfl⟩
  obtain ⟨init, rfl⟩ := getLast?_eq_some_iff.1 hjump
  rw [execAll_append]
  obtain ⟨ids, _ | _ | _ | _ | _⟩ := execAll I r fuel init s
  · rename_i s₁
    simp only [andThen, execAll_singleton]
    cases jump <;> simp_all [isJump, exec]
  all_goals simp [andThen]

theorem execAll_branching (test : Operand) (invert meets : Bool) (yes no : List Stmt) (s : σ) :
    execAll I r fuel (branching test invert meets yes no) s =
      if I.holds test s != invert then execAll I r fuel yes s else execAll I r fuel no s := by
  have hcond : execAll I r fuel [cond test invert yes no] s =
      if I.holds test s != invert then execAll I r fuel yes s else execAll I r fuel no s := by
    rw [execAll_singleton, exec]
  unfold branching
  split
  · simp
  · rw [execAll_singleton, exec]
    cases I.holds test s <;> cases invert <;> rfl
  · split
    · next hjump =>
      simp only [Bool.and_eq_true] at hjump
      rw [execAll, exec]
      by_cases htest : (I.holds test s != invert)
      · rw [if_pos htest, if_pos htest]
        have hne : ∀ s', (execAll I r fuel yes s).2 ≠ .fell s' := execAll_ne_fell hjump.2 s
        revert hne
        obtain ⟨ids, _ | _ | _ | _ | _⟩ := execAll I r fuel yes s <;> simp [andThen]
      · rw [if_neg htest, if_neg htest]
        simp [execAll, andThen]
    · exact hcond

theorem dropFinal_cases (isFinal : Stmt → Bool) (body : List Stmt) : dropFinal isFinal body = body ∨
    ∃ init last, isFinal last ∧ body = init ++ [last] ∧ dropFinal isFinal body = init := by
  unfold dropFinal
  split
  · next hany =>
    obtain ⟨last, hlast, hfinal⟩ := (Option.any_eq_true ..).1 hany
    obtain ⟨init, rfl⟩ := getLast?_eq_some_iff.1 hlast
    exact .inr ⟨init, last, hfinal, rfl, dropLast_concat⟩
  · exact .inl rfl

theorem exec_loop_dropFinal (body : List Stmt) :
    exec I r fuel (loop (dropFinal isContinue body)) = exec I r fuel (loop body) := by
  have hpass : ∀ s : σ, (execAll I r fuel (dropFinal isContinue body) s).1 = (execAll I r fuel body s).1 ∧
        repeats (execAll I r fuel (dropFinal isContinue body) s).2 =
          repeats (execAll I r fuel body s).2 := by
    intro s
    obtain heq | ⟨init, last, hfinal, rfl, heq⟩ := dropFinal_cases isContinue body
    · rw [heq]
      exact ⟨rfl, rfl⟩
    · obtain rfl : last = .continueLoop := by
        cases last <;> simp_all [isContinue]
      rw [heq, execAll_append]
      obtain ⟨ids, _ | _ | _ | _ | _⟩ := execAll I r fuel init s <;>
        simp [andThen, execAll_singleton, exec, repeats]
  funext s
  rw [exec, exec, again_congr hpass]

theorem run_dropFinal (body : List Stmt) (s : σ) : run I r fuel (dropFinal isRet body) s = run I r fuel body s := by
  obtain heq | ⟨init, last, hfinal, rfl, heq⟩ := dropFinal_cases isRet body
  · rw [heq]
  · obtain rfl : last = .ret := by
      cases last <;> simp_all [isRet]
    rw [heq, run, run, execAll_append]
    obtain ⟨ids, _ | _ | _ | _ | _⟩ := execAll I r fuel init s <;>
      simp [andThen, execAll_singleton, exec]

end Stmt
end ShaderRecompiler
