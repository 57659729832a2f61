import ShaderRecompiler.Check
import ShaderRecompiler.Lowering.Access
import ShaderRecompiler.Proofs.Arena
import ShaderRecompiler.Proofs.Emission

/-! Which temporaries emitted code assigns and reads. It assigns each temporary that is
taken for it once, assigns others only where it owes them, and reads only what it was
given or has assigned before. -/
namespace ShaderRecompiler

open List Operation

theorem Instruction.isStraight_of_hasDestination {inst : Instruction} (h : inst.hasDestination) : inst.isStraight := by
  revert h
  cases inst <;> simp [hasDestination, isStraight]

namespace Operation

variable {op : Operation}

def assigned (op : Operation) : List Nat := (op.dest.bind Operand.asTemp?).toList

def reads (op : Operation) : List Nat := op.sources.filterMap Operand.asTemp?

/-- What assigns a temporary has a result. -/
def Computes (op : Operation) : Prop := op.assigned ≠ [] → op.inst.hasDestination

theorem assigned_eq_nil (h : op.dest = none) : op.assigned = [] := by
  rw [assigned, h]
  rfl

theorem computes_of_dest (h : op.dest = none) : op.Computes :=
  fun hne => absurd (assigned_eq_nil h) hne

theorem Computes.assigned_eq_nil (h : op.Computes) (hinst : op.inst.hasDestination = false) : op.assigned = [] := by
  by_contra hne
  rw [h hne] at hinst
  cases hinst

theorem mem_reads : t ∈ op.reads ↔ .temp t ∈ op.sources := by
  rw [reads, mem_filterMap]
  constructor
  · rintro ⟨o, ho, ht⟩
    cases o with
    | temp => exact Option.some.inj ht ▸ ho
    | _ => cases ht
  · exact fun h => ⟨_, h, rfl⟩

end Operation

/-- Keeps what is assigned to it. -/
def Operand.isAssignable : Operand → Bool
  | register r => !r.isRz
  | predicate p => !p.isPt
  | temp _ | var _ => true
  | _ => false

/-- Was given, or is no temporary. -/
def Operand.Ready (known : List Operand) (o : Operand) : Prop := o ∈ known ∨ o.asTemp? = none

namespace Operand

theorem Ready.mem (h : (temp t).Ready known) : temp t ∈ known := h.resolve_right (by simp [asTemp?])

@[simp] theorem asTemp?_word (n : Nat) : (word n).asTemp? = none := rfl

@[simp] theorem asTemp?_constant (w : UInt32) : (constant w).asTemp? = none := rfl

@[simp] theorem asTemp?_label (n : Nat) : (label n).asTemp? = none := rfl

end Operand

@[simp] theorem IoVariable.asTemp?_operand (v : IoVariable) : v.operand.asTemp? = none := rfl

@[simp] theorem Predicate.asTemp?_operand (p : Predicate) : p.operand.asTemp? = none := by
  unfold operand
  split <;> rfl

/-- `added` is emitted while the temporaries from `first` to `last` are handed out; it
assigns those in `owed`, and reads those in `known`. -/
structure Assigning (known : List Operand) (owed : List Nat) (first last : Nat) (added : List Operation) : Prop where
  le : first ≤ last
  computes : ∀ op ∈ added, op.Computes
  temps : Accounts owed first last (added.flatMap assigned)
  reads : ∀ before op after, added = before ++ op :: after → ∀ t ∈ op.reads,
    .temp t ∈ known ∨ t ∈ before.flatMap assigned

namespace Assigning

theorem nil (known : List Operand) (first : Nat) : Assigning known [] first first [] where
  le := Nat.le_refl _
  computes := by simp
  temps := ⟨[], by simp⟩
  reads := by simp

theorem singleton (hcomp : op.Computes) (hsrc : ∀ o ∈ op.sources, o.Ready known) (first : Nat) :
    Assigning known op.assigned first first [op] where
  le := Nat.le_refl _
  computes := forall_mem_singleton.2 hcomp
  temps := ⟨[], by simp⟩
  reads := by
    intro before op' after h t ht
    obtain ⟨rfl, h⟩ | ⟨rest, -, h⟩ := cons_eq_append_iff.1 h
    · obtain rfl := (List.cons.inj h).1
      exact .inl (hsrc _ (mem_reads.1 ht)).mem
    · simp at h

theorem append (h : Assigning known owed first middle added) (h' : Assigning known' owed' middle last added')
    (hknown : ∀ t, .temp t ∈ known' → .temp t ∈ known ∨ t ∈ added.flatMap assigned) :
    Assigning known (owed ++ owed') first last (added ++ added') where
  le := Nat.le_trans h.le h'.le
  computes op hop := (mem_append.1 hop).elim (h.computes op) (h'.computes op)
  temps := flatMap_append ▸ h.temps.append h'.temps h.le h'.le
  reads := by
    intro before op after hspl t ht
    obtain ⟨front, hrest, rfl⟩ | ⟨rest, rfl, -⟩ := Routine.Linked.append_cases hspl
    · rw [flatMap_append]
      obtain hknown' | hassigned := h'.reads front op after hrest t ht
      · exact (hknown t hknown').imp_right (mem_append_left _)
      · exact .inr (mem_append_right _ hassigned)
    · exact h.reads before op rest rfl t ht

theorem scope (h : Assigning known (first :: owed) (first + 1) last added) : Assigning known owed first last added where
  le := Nat.le_trans (Nat.le_succ _) h.le
  computes := h.computes
  temps := h.temps.scope h.le
  reads := h.reads

theorem congr (h : Assigning known owed first last added) (hknown : ∀ t, .temp t ∈ known → .temp t ∈ known') :
    Assigning known' owed first last added :=
  { h with reads := fun before op after hspl t ht => (h.reads before op after hspl t ht).imp_left (hknown t) }

theorem nodup (h : Assigning known [] first last added) : (added.flatMap assigned).Nodup := by
  obtain ⟨own, hnd, -, hperm⟩ := h.temps
  exact hperm.nodup_iff.2 hnd

theorem within (h : Assigning known [] first last added) : ∀ t ∈ added.flatMap assigned, first ≤ t ∧ t < last := by
  obtain ⟨own, -, hown, hperm⟩ := h.temps
  exact fun t ht => hown t (hperm.mem_iff.1 ht)

end Assigning

end ShaderRecompiler
