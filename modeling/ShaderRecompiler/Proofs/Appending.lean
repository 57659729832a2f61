import Mathlib.Data.List.Forall2
import ShaderRecompiler.IR.Emitter

/-! What an emitting computation appends, operation by operation and without regard to
labels. Temporaries count: those that a computation takes are new to everything that
was emitted before it. -/
namespace ShaderRecompiler

open List

def Operand.TempFrom (first : Nat) (o : Operand) : Prop := ∃ t, first ≤ t ∧ o = .temp t

/-- Once `first` temporaries are taken, `m` appends operations in `P`, gives back no
temporary, and its result is in `Q`. -/
def Emit.Appends {α : Type} (first : Nat) (P : Operation → Prop) (m : Emit α) (Q : α → Prop) : Prop :=
  ∀ e : Emitter, first ≤ e.ids.temps → Q (m.run e).1 ∧ e.ids.temps ≤ (m.run e).2.ids.temps ∧
    ∃ added, (m.run e).2.ops.toList = e.ops.toList ++ added ∧ ∀ op ∈ added, P op

namespace Emit.Appends

theorem pure (h : Q a) : Appends first P (Pure.pure a) Q :=
  fun _ _ => ⟨h, Nat.le_refl _, [], (append_nil _).symm, by simp⟩

theorem bind (hm : Appends first P m Q) (hf : ∀ a, Q a → Appends first P (f a) R) : Appends first P (m >>= f) R := by
  intro e he
  obtain ⟨hq, hle, added, hops, hadd⟩ := hm e he
  obtain ⟨hr, hle', added', hops', hadd'⟩ := hf _ hq (m.run e).2 (Nat.le_trans he hle)
  refine ⟨hr, Nat.le_trans hle hle', added ++ added', ?_, ?_⟩
  · rw [← append_assoc, ← hops]
    exact hops'
  · intro op hop
    exact (mem_append.1 hop).elim (hadd op) (hadd' op)

theorem mono (h : Appends first P m Q) (hq : ∀ a, Q a → Q' a) : Appends first P m Q' :=
  fun e he => ⟨hq _ (h e he).1, (h e he).2⟩

theorem imp (h : Appends first P m Q) (himp : ∀ op, P op → P' op) : Appends first P' m Q := by
  intro e he
  obtain ⟨hq, hle, added, hops, hadd⟩ := h e he
  exact ⟨hq, hle, added, hops, fun op hop => himp op (hadd op hop)⟩

theorem ite {_ : Decidable p} (ht : p → Appends first P m Q)
    (he : ¬p → Appends first P m' Q) : Appends first P (if p then m else m') Q := by
  split
  · next h => exact ht h
  · next h => exact he h

theorem forM {xs : List α} (h : ∀ x ∈ xs, Appends first P (g x) fun _ => True) :
    Appends first P (xs.forM g) fun _ => True := by
  induction xs with
  | nil => exact pure trivial
  | cons x xs ih => exact bind (h x mem_cons_self) fun _ _ => ih fun y hy => h y (mem_cons_of_mem _ hy)

theorem mapM (h : ∀ x ∈ xs, Appends first P (g x) (S x)) : Appends first P (xs.mapM g) (Forall₂ S xs) := by
  induction xs with
  | nil => exact pure .nil
  | cons x xs ih =>
    rw [mapM_cons]
    refine bind (h x mem_cons_self) fun _ hy => ?_
    exact bind (ih fun z hz => h z (mem_cons_of_mem _ hz)) fun _ hys => pure (.cons hy hys)

theorem op (h : P operation) : Appends first P (Emit.op operation) fun _ => True :=
  fun _ _ => ⟨trivial, Nat.le_refl _, [operation], Array.toList_push, by simpa using h⟩

theorem freshTemp : Appends first P Emit.freshTemp (Operand.TempFrom first) :=
  fun e he => ⟨⟨e.ids.temps, he, rfl⟩, Nat.le_succ _, [], (append_nil _).symm, by simp⟩

section Operation

theorem value (h : ∀ t, first ≤ t → P ⟨inst, .none, some (.temp t), sources⟩) :
    Appends first P (Emit.value inst sources) (Operand.TempFrom first) := by
  refine bind freshTemp ?_
  rintro _ ⟨t, ht, rfl⟩
  exact bind (op (h t ht)) fun _ _ => pure ⟨t, ht, rfl⟩

theorem load (h : ∀ t, first ≤ t → P ⟨.load, storage, some (.temp t), sources⟩) :
    Appends first P (Emit.load storage sources) (Operand.TempFrom first) := by
  refine bind freshTemp ?_
  rintro _ ⟨t, ht, rfl⟩
  exact bind (op (h t ht)) fun _ _ => pure ⟨t, ht, rfl⟩

end Operation

theorem of_append (h : Appends 0 P m Q)
    (hcode : (m.run e).2.ops.toList = e.ops.toList ++ code) : ∀ op ∈ code, P op := by
  obtain ⟨-, -, added, hadd, hP⟩ := h e (Nat.zero_le _)
  obtain rfl := append_cancel_left (hcode.symm.trans hadd)
  exact hP

end Emit.Appends
end ShaderRecompiler
