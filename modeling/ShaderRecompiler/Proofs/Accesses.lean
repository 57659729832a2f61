import ShaderRecompiler.Proofs.Assignment
import ShaderRecompiler.Proofs.Fitting

/-! What kinds of operations a lowered program is made of. Loads and stores of the stage
interface have the sources of an access, stores to local memory name their block, and
words of guest constant buffers are read by operations that give a result only. -/
namespace ShaderRecompiler

variable {o : Operand}

namespace Operand

def isConstantBuffer : Operand → Bool
  | constantBuffer .. => true
  | _ => false

@[simp] theorem isConstantBuffer_word (n : Nat) : (word n).isConstantBuffer = false := rfl

theorem isWritable_of_isAssignable (h : o.isAssignable) : o.isWritable := by
  cases o <;> first | rfl | cases h

theorem isConstantBuffer_of_isValue (h : o.isValue) : o.isConstantBuffer = false := by
  cases o <;> first | rfl | cases h

end Operand

/-- Can be part of a vertex record. -/
def IoVariable.isRecorded : IoVariable → Bool
  | userDefined | position | layer | viewportIndex | pointSize | clipDistance => true
  | _ => false

/-- Which outputs may be accessed, by instruction, variable, location and component. -/
abbrev Places := Instruction → IoVariable → Operand → Operand → Prop

namespace Operation

variable {c : Config} {O : Places} {B : Nat → Prop} {op : Operation}

/-- Has the sources of an access to a variable of the stage interface. -/
structure AccessAt (c : Config) (op : Operation) (v : IoVariable) (location vertex component : Operand) : Prop where
  sources : ∃ trailing : List Operand, trailing.length = (if op.inst == .store then 1 else 0) ∧
    op.sources = c.accessSources op.storage v location vertex component ++ trailing

structure Sound (c : Config) (O : Places) (B : Nat → Prop) (op : Operation) : Prop where
  access : op.storage.isIo → ∃ v location vertex component, op.AccessAt c v location vertex component ∧
    (op.storage = .output → O op.inst v location component) ∧ (op.inst = .store → op.dest = none)
  block : op.isStore .localMemory → ∃ n rest, op.sources = .word n :: rest ∧ B n
  operands : op.dest = none ∨ op.storage.isIo → ∀ o ∈ op.sources, o.isConstantBuffer = false
  result : op.inst = .load → op.dest.isSome
  assignable : ∀ dest, op.dest = some dest → dest.isAssignable

theorem AccessAt.ioVariable?_eq
    (h : op.AccessAt c v location vertex component) (hio : op.storage.isIo) : op.ioVariable? = some v := by
  obtain ⟨trailing, -, hsrc⟩ := h.sources
  exact Operation.ioVariable?_eq hio hsrc

namespace Sound

variable {inst : Instruction} {storage : Storage} {dest : Operand} {sources : List Operand}

theorem assign (hdest : dest.isAssignable) : Sound c O B ⟨inst, .none, some dest, sources⟩ where
  access h := by cases h
  block h := by simp [isStore] at h
  operands h := h.elim (by simp) fun hio => by cases hio
  result _ := rfl
  assignable := by simpa using hdest

theorem fetch (hio : storage.isIo = false) (hdest : dest.isAssignable) :
    Sound c O B ⟨.load, storage, some dest, sources⟩ where
  access h := by simp [hio] at h
  block h := by simp [isStore] at h
  operands := by simp [hio]
  result _ := rfl
  assignable := by simpa using hdest

theorem effect (hio : storage.isIo = false) (hlocal : storage ≠ .localMemory) (hinst : inst ≠ .load)
    (hsrc : ∀ o ∈ sources, o.isConstantBuffer = false) : Sound c O B ⟨inst, storage, none, sources⟩ where
  access h := by simp [hio] at h
  block h := by simp [isStore, hlocal] at h
  operands _ := hsrc
  result h := absurd h hinst
  assignable := by simp

theorem loadIo (hdest : dest.isAssignable) (h : storage = .output → O .load v location component)
    (hsrc : ∀ o ∈ c.accessSources storage v location vertex component, o.isConstantBuffer = false) :
    Sound c O B ⟨.load, storage, some dest, c.accessSources storage v location vertex component⟩ where
  access _ := ⟨v, location, vertex, component, ⟨[], rfl, (List.append_nil _).symm⟩, h, by simp⟩
  block h := by simp [isStore] at h
  operands _ := hsrc
  result _ := rfl
  assignable := by simpa using hdest

theorem storeIo {value : Operand} (hio : storage.isIo) (h : storage = .output → O .store v location component)
    (hsrc : ∀ o ∈ c.accessSources storage v location vertex component, o.isConstantBuffer = false)
    (hval : value.isConstantBuffer = false) : Sound c O B
      ⟨.store, storage, none, c.accessSources storage v location vertex component ++ [value]⟩ where
  access _ := ⟨v, location, vertex, component, ⟨[value], rfl, rfl⟩, h, fun _ => rfl⟩
  block h := by
    simp only [isStore, BEq.rfl, Bool.true_and, beq_iff_eq] at h
    subst h
    cases hio
  operands _ := List.forall_mem_append.2 ⟨hsrc, by simpa using hval⟩
  result := by simp
  assignable := by simp

theorem storeBlock (h : B n) (hrest : ∀ o ∈ rest, o.isConstantBuffer = false) :
    Sound c O B ⟨.store, .localMemory, none, .word n :: rest⟩ where
  access h := by cases h
  block _ := ⟨n, rest, rfl, h⟩
  operands _ := List.forall_mem_cons.2 ⟨rfl, hrest⟩
  result := by simp
  assignable := by simp

end Sound
end Operation

end ShaderRecompiler
