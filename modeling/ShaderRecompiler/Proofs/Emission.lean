import Mathlib.Data.List.Nodup
import Mathlib.Data.List.Perm.Basic
import ShaderRecompiler.IR.Emitter

/-! What an emitting computation appends. Beside a property of every operation,
the labels are accounted for: a computation marks each label that it takes for
itself once, marks others only when it says so, and branches to what it marks or
to labels that are open to it. -/
namespace ShaderRecompiler

open List

variable {inst : Instruction}

def Operand.IsTemp (o : Operand) : Prop := ∃ t, o = .temp t

/-- Neither marks a label nor ends a block. -/
def Instruction.isStraight : Instruction → Bool
  | branch | branchIfTrue | branchIfFalse | markLabel | ret => false
  | _ => true

theorem Instruction.isTerminator_of_isStraight (h : inst.isStraight) : inst.isTerminator = false := by
  cases inst <;> first | rfl | cases h

theorem Instruction.isStraight_of_isTerminator (h : inst.isTerminator) : inst.isStraight = false := by
  rw [← Bool.not_eq_true]
  intro hstr
  cases (isTerminator_of_isStraight hstr).symm.trans h

theorem Instruction.ne_markLabel (h : inst.isTerminator) : inst ≠ .markLabel := by
  rintro rfl
  cases h

namespace Operation

def label (op : Operation) : List Nat := ((op.source? 0).bind Operand.asLabel?).toList

def marks (op : Operation) : List Nat := if op.inst = .markLabel then op.label else []

def targets (op : Operation) : List Nat := if op.inst.isTerminator then op.label else []

variable {op : Operation}

theorem marks_eq_nil (h : op.inst.isStraight) : op.marks = [] := by
  unfold marks
  rw [if_neg]
  intro hmark
  simp [hmark, Instruction.isStraight] at h

theorem isLoad_eq {storage : Storage} (h : op.isLoad storage) : op.inst = .load ∧ op.storage = storage := by
  simpa [isLoad] using h

theorem isMark_of_marks (h : op.marks = [n]) : op.inst = .markLabel := by
  by_contra hmark
  rw [marks, if_neg hmark] at h
  cases h

theorem targets_eq_nil (h : op.inst.isStraight) : op.targets = [] := by
  unfold targets
  rw [Instruction.isTerminator_of_isStraight h, if_neg Bool.false_ne_true]

end Operation

/-- `found` is what is owed and, once each, numbers from `first` to `last`. -/
def Accounts (owed : List Nat) (first last : Nat) (found : List Nat) : Prop :=
  ∃ own : List Nat, own.Nodup ∧ (∀ n ∈ own, first ≤ n ∧ n < last) ∧ found.Perm (owed ++ own)

namespace Accounts

theorem append (h : Accounts owed first middle found) (h' : Accounts owed' middle last found')
    (hle : first ≤ middle) (hle' : middle ≤ last) : Accounts (owed ++ owed') first last (found ++ found') := by
  obtain ⟨own, hnd, hown, hperm⟩ := h
  obtain ⟨own', hnd', hown', hperm'⟩ := h'
  refine ⟨own ++ own', nodup_append.2 ⟨hnd, hnd', ?_⟩, fun n hn => ?_, ?_⟩
  · rintro n hn _ hn' rfl
    have := (hown n hn).2
    have := (hown' n hn').1
    omega
  · obtain hn | hn := mem_append.1 hn
    · have := hown n hn
      omega
    · have := hown' n hn
      omega
  · refine (hperm.append hperm').trans ?_
    rw [append_assoc, append_assoc]
    exact List.Perm.append_left _ (perm_append_comm_assoc own owed' own')

theorem scope (h : Accounts (first :: owed) (first + 1) last found) (hle : first + 1 ≤ last) :
    Accounts owed first last found := by
  obtain ⟨own, hnd, hown, hperm⟩ := h
  refine ⟨first :: own, nodup_cons.2 ⟨fun hmem => ?_, hnd⟩, ?_, hperm.trans perm_middle.symm⟩
  · have := (hown first hmem).1
    omega
  · intro n hn
    obtain rfl | hn := mem_cons.1 hn
    · omega
    · have := hown n hn
      omega

end Accounts

/-- `added` is emitted while the labels from `first` to `last` are handed out. -/
structure Emission (P : Operation → Prop) (opens closes : List Nat) (first last : Nat)
    (added : List Operation) : Prop where
  le : first ≤ last
  all : ∀ op ∈ added, P op
  marks : Accounts closes first last (added.flatMap Operation.marks)
  targets : ∀ l ∈ added.flatMap Operation.targets, l ∈ added.flatMap Operation.marks ∨ l ∈ opens

namespace Emission

theorem nil (P : Operation → Prop) (opens : List Nat) (n : Nat) : Emission P opens [] n n [] where
  le := Nat.le_refl n
  all := by simp
  marks := ⟨[], by simp⟩
  targets := by simp

theorem singleton (h : P op) (htgts : ∀ l ∈ op.targets, l ∈ opens) (n : Nat) : Emission P opens op.marks n n [op] where
  le := Nat.le_refl n
  all := forall_mem_singleton.2 h
  marks := ⟨[], by simp⟩
  targets l hl := .inr (htgts l (by simpa using hl))

theorem append (h : Emission P opens closes first middle added) (h' : Emission P opens closes' middle last added') :
    Emission P opens (closes ++ closes') first last (added ++ added') where
  le := Nat.le_trans h.le h'.le
  all op hop := (mem_append.1 hop).elim (h.all op) (h'.all op)
  marks := flatMap_append ▸ h.marks.append h'.marks h.le h'.le
  targets l hl := by
    rw [flatMap_append, mem_append] at hl ⊢
    obtain hl | hl := hl
    · exact (h.targets l hl).imp .inl id
    · exact (h'.targets l hl).imp .inr id

theorem scope (h : Emission P (first :: opens) (first :: closes) (first + 1) last added) :
    Emission P opens closes first last added where
  le := Nat.le_trans (Nat.le_succ _) h.le
  all := h.all
  marks := h.marks.scope h.le
  targets l hl := by
    obtain hmark | hopen := h.targets l hl
    · exact .inl hmark
    · obtain rfl | hopen := mem_cons.1 hopen
      · obtain ⟨own, -, -, hperm⟩ := h.marks
        exact .inl (hperm.mem_iff.2 (by simp))
      · exact .inr hopen

theorem scope_range (h : Emission P (List.range' first n).reverse (List.range' first n).reverse (first + n)
    last added) : Emission P [] [] first last added := by
  induction n with
  | zero => exact h
  | succ n ih =>
    rw [range'_1_concat, reverse_append] at h
    exact ih h.scope

theorem imp (h : Emission P opens closes first last added) (himp : ∀ op, P op → P' op) :
    Emission P' opens closes first last added :=
  { h with all := fun op hop => himp op (h.all op hop) }

theorem perm (h : Emission P opens closes first last added) (hperm : closes.Perm closes') :
    Emission P opens closes' first last added := by
  obtain ⟨own, hnd, hown, hmarks⟩ := h.marks
  exact { h with marks := ⟨own, hnd, hown, hmarks.trans (hperm.append_right own)⟩ }

end Emission

end ShaderRecompiler
