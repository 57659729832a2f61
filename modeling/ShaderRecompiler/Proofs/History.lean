import ShaderRecompiler.Compile.Join
import ShaderRecompiler.Proofs.Assignment
import ShaderRecompiler.Proofs.Evaluation
import ShaderRecompiler.Proofs.Flat

/-! What a run has stored. A cell of the state holds what was put into it the last
time control was at a place that writes it. Cells are the variables and the generic
outputs of a machine, of which nothing else is asked. -/
namespace ShaderRecompiler

open Function

universe u v

variable {op : Operation}

variable {σ : Type u} {V : Type v}

namespace Flat

section

variable (I : Interpretation σ) (ops : List Operation) (s : σ)

/-- Control and state after `k` steps from the first operation. -/
def after (k : Nat) : Option Nat × σ := (run I ops k (some 0, s)).2

/-- Of the steps before `k` that start at a place in `W`, step `j` is the last one; it
starts at `pc`. -/
structure Last (W : Nat → Prop) (k j pc : Nat) : Prop where
  lt : j < k
  place : (after I ops s j).1 = some pc
  mem : W pc
  quiet : ∀ i, j < i → i < k → ∀ pc ∈ (after I ops s i).1, ¬ W pc

end

variable {I : Interpretation σ} {ops : List Operation} {W : Nat → Prop} {pc : Nat} {f : σ → V}

theorem after_succ (k : Nat) : after I ops s (k + 1) = step I ops (after I ops s k) := by
  rw [after, stepwise.add, run_one]
  rfl

theorem after_straight (hplc : (after I ops s k).1 = some pc) (hop : ops[pc]? = some op) (hstr : op.inst.isStraight) :
    after I ops s (k + 1) = (some (pc + 1), I.perform op (after I ops s k).2) := by
  have hafter : after I ops s k = (some pc, (after I ops s k).2) := Prod.ext hplc rfl
  rw [after_succ, hafter, step_some hop, follow_straight hstr, if_pos hstr]

theorem after_terminator (hplc : (after I ops s k).1 = some pc) (hop : ops[pc]? = some op)
    (hterm : op.inst.isStraight = false) :
    after I ops s (k + 1) = (follow I ops pc op (after I ops s k).2, (after I ops s k).2) := by
  have hafter : after I ops s k = (some pc, (after I ops s k).2) := Prod.ext hplc rfl
  rw [after_succ, hafter, step_some hop, hterm, if_neg Bool.false_ne_true]

theorem after_of_straight (h : ∀ i < n, ∃ op, ops[i]? = some op ∧ op.inst.isStraight) (hk : k ≤ n) :
    (after I ops s k).1 = some k := by
  induction k with
  | zero => rfl
  | succ k ih =>
    obtain ⟨op, hop, hstr⟩ := h k hk
    rw [after_straight (ih (Nat.le_of_lt hk)) hop hstr]

theorem le_of_after (h : ∀ i < n, ∃ op, ops[i]? = some op ∧ op.inst.isStraight)
    (hplc : (after I ops s k).1 = some pc) (hpc : n ≤ pc) : n ≤ k := by
  by_contra hlt
  have := after_of_straight (I := I) (s := s) h (Nat.le_of_lt (Nat.lt_of_not_le hlt))
  rw [hplc] at this
  obtain rfl := Option.some.inj this
  exact hlt hpc

theorem exists_last (h : ∃ j < k, ∃ pc ∈ (after I ops s j).1, W pc) : ∃ j pc, Last I ops s W k j pc := by
  induction k with
  | zero =>
    obtain ⟨j, hj, -⟩ := h
    cases hj
  | succ k ih =>
    by_cases hnow : ∃ pc ∈ (after I ops s k).1, W pc
    · obtain ⟨pc, hpc, hW⟩ := hnow
      refine ⟨k, pc, Nat.lt_succ_self k, hpc, hW, fun i _ hik => ?_⟩
      omega
    · have hearl : ∃ j < k, ∃ pc ∈ (after I ops s j).1, W pc := by
        obtain ⟨j, hj, hW⟩ := h
        obtain hlt | rfl := Nat.lt_succ_iff_lt_or_eq.1 hj
        · exact ⟨j, hlt, hW⟩
        · exact absurd hW hnow
      obtain ⟨j, pc, hlast⟩ := ih hearl
      refine ⟨j, pc, Nat.lt_succ_of_lt hlast.lt, hlast.place, hlast.mem, fun i hji hik pc hpc hW => ?_⟩
      obtain hlt | rfl := Nat.lt_succ_iff_lt_or_eq.1 hik
      · exact hlast.quiet i hji hlt pc hpc hW
      · exact hnow ⟨pc, hpc, hW⟩

section Cell

variable (hf : ∀ pc op, ops[pc]? = some op → ¬ W pc → ∀ t, f (I.perform op t) = f t)
include hf

theorem step_unchanged {c : Option Nat × σ} (hquiet : ∀ pc ∈ c.1, ¬ W pc) : f (step I ops c).2 = f c.2 := by
  obtain ⟨place, t⟩ := c
  cases place with
  | none => rfl
  | some pc =>
    rw [step]
    split
    · rfl
    · next op hop =>
      dsimp only
      split
      · exact hf pc op hop (hquiet pc rfl) t
      · rfl

theorem unchanged (hjk : j ≤ k) (hquiet : ∀ i, j ≤ i → i < k → ∀ pc ∈ (after I ops s i).1, ¬ W pc) :
    f (after I ops s k).2 = f (after I ops s j).2 := by
  induction hjk with
  | refl => rfl
  | @step k hjk ih =>
    rw [after_succ, step_unchanged hf (hquiet k hjk (Nat.lt_succ_self k))]
    exact ih fun i hji hik => hquiet i hji (Nat.lt_succ_of_lt hik)

theorem Last.content (h : Last I ops s W k j pc) : f (after I ops s k).2 = f (after I ops s (j + 1)).2 :=
  unchanged hf h.lt fun i hji hik => h.quiet i hji hik

end Cell
end Flat

def Operation.stored (op : Operation) : Operand := op.sources.getLast?.getD .undefined

/-- The slot of a load from a generic output. -/
def Operation.readBack? (op : Operation) : Option (Nat × Nat) := if op.isLoad .output then op.userSlot? else none

/-- A store to a generic output, maybe to a slot that is only known when it is performed. -/
def Operation.storesUser (op : Operation) : Bool := op.isStore .output && op.ioVariable? == some .userDefined

/-- An interpretation in which operands and generic outputs have contents. -/
structure Machine (σ : Type u) (V : Type v) extends Interpretation σ where
  read : Operand → σ → V
  output : Nat × Nat → σ → V
  read_copy : ∀ dest source s, dest.isAssignable →
    read dest (perform ⟨.copy, .none, some dest, [source]⟩ s) = read source s
  read_var : ∀ op n s, op.dest ≠ some (.var n) → read (.var n) (perform op s) = read (.var n) s
  output_store : ∀ op slot s, Join.written? op = some slot → output slot (perform op s) = read op.stored s
  output_other : ∀ op slot s, Join.written? op ≠ some slot →
    (op.storesUser → (Join.written? op).isSome) → output slot (perform op s) = output slot s
  read_load : ∀ op dest slot s, op.readBack? = some slot → op.dest = some dest → dest.isAssignable →
    read dest (perform op s) = output slot s

namespace World

theorem value_of_isAssignable (w : World) {o : Operand} (h : o.isAssignable) (s : Valuation) : w.value s o = s o := by
  cases o with
  | constant | constantBuffer => cases h
  | _ => rfl

/-- The words that operands hold after an operation. -/
def stepWith (w : World) (op : Operation) (s : Valuation) (outputs : Nat × Nat → UInt32) : Valuation :=
  match op.readBack?, op.dest with
  | some slot, some dest => update s dest (outputs slot)
  | _, _ => w.step s op

theorem stepWith_of_ne (w : World) (h : op.dest ≠ some o) (s : Valuation)
    (outputs : Nat × Nat → UInt32) : w.stepWith op s outputs o = s o := by
  cases hdest : op.dest with
  | none =>
    rw [stepWith, step, hdest]
    cases op.readBack? <;> rfl
  | some dest =>
    have hne : o ≠ dest := by
      rintro rfl
      exact h hdest
    rw [stepWith, step, hdest]
    cases op.readBack? <;> exact update_of_ne hne _ _

/-- Operands and generic outputs that hold words, in any world. -/
def machine (w : World) : Machine (Valuation × (Nat × Nat → UInt32)) UInt32 where
  perform op s :=
    (w.stepWith op s.1 s.2, match Join.written? op with
      | some slot => update s.2 slot (w.value s.1 op.stored)
      | none => s.2)
  holds o s := w.value s.1 o != 0
  read o s := w.value s.1 o
  output slot s := s.2 slot
  read_copy dest source s h := by
    rw [value_of_isAssignable w h]
    exact update_self ..
  read_var op n s h := w.stepWith_of_ne h s.1 s.2
  output_store op slot s h := by
    rw [h]
    exact update_self ..
  output_other op slot s h _ := by
    cases hwritten : Join.written? op with
    | none => rfl
    | some other =>
      refine update_of_ne ?_ _ _
      rintro rfl
      exact h hwritten
  read_load op dest slot s h hdest hassignable := by
    rw [value_of_isAssignable w hassignable, stepWith, h, hdest]
    exact update_self ..

end World
end ShaderRecompiler
