import ShaderRecompiler.Compile.Passthrough
import ShaderRecompiler.Proofs.Joining
import ShaderRecompiler.Proofs.Records

/-! The program that replays records. Run for a vertex of an instance over the buffer that
an emulated vertex stage left, it gives every output the word that was recorded for
it. -/
namespace ShaderRecompiler

open List Operation Emit

open UInt32 (ofNat)

universe u v

variable {api : Api} {record : List Slot}

def Operation.outputSlot? (op : Operation) : Option Slot := if op.isStore .output then op.slot? else none

/-- What `m` appends stores to these outputs, in this order. -/
def Emit.Outputs {α : Type} (slots : List Slot) (m : Emit α) : Prop :=
  ∀ e : Emitter, ∃ code, (m.run e).2.ops.toList = e.ops.toList ++ code ∧ code.filterMap outputSlot? = slots

namespace Emit.Outputs

theorem pure (a : α) : Outputs [] (Pure.pure a) := fun _ => ⟨[], (append_nil _).symm, rfl⟩

theorem bind (hm : Outputs slots m) (hf : ∀ a, Outputs slots' (f a)) : Outputs (slots ++ slots') (m >>= f) := by
  intro e
  obtain ⟨code, hcode, hslots⟩ := hm e
  obtain ⟨code', hcode', hslots'⟩ := hf (m.run e).1 (m.run e).2
  refine ⟨code ++ code', ?_, ?_⟩
  · rw [← append_assoc, ← hcode]
    exact hcode'
  · rw [filterMap_append, hslots, hslots']

theorem op (operation : Operation) : Outputs operation.outputSlot?.toList (op operation) := by
  intro e
  refine ⟨[operation], Array.toList_push, ?_⟩
  cases h : operation.outputSlot? <;> simp [h]

theorem quiet {operation : Operation} (h : operation.inst ≠ .store) : Outputs [] (Emit.op operation) := by
  have hnone : operation.outputSlot? = none := by simp [outputSlot?, isStore, h]
  have hop := op operation
  rwa [hnone] at hop

theorem fresh {operation : Operand → Operation} (h : ∀ dest, (operation dest).inst ≠ .store) : Outputs [] (do
      let dest ← freshTemp
      Emit.op (operation dest)
      return dest) := by
  intro e
  exact bind (quiet (h (.temp e.ids.temps))) (fun _ => pure (Operand.temp e.ids.temps)) (freshTemp.run e).2

theorem value {inst : Instruction} (h : inst ≠ .store) (sources : List Operand) :
    Outputs [] (Emit.value inst sources) :=
  fresh fun _ => h

theorem load (storage : Storage) (sources : List Operand) : Outputs [] (Emit.load storage sources) :=
  fresh fun _ => by simp

theorem forM {xs : List α} (h : ∀ x ∈ xs, Outputs [slot x] (body x)) : Outputs (xs.map slot) (xs.forM body) := by
  induction xs with
  | nil => exact pure ()
  | cons x xs ih => exact bind (h x mem_cons_self) fun _ => ih fun y hy => h y (mem_cons_of_mem _ hy)

end Emit.Outputs

namespace Replay

/-- A word of the buffer that is replayed. -/
def dataCell (element : Nat) : Cell := ⟨.storageBuffer, [ofNat dataBinding, 0, ofNat element]⟩

def countCell : Cell := ⟨.constantBuffer, [ofNat infoBinding, 0, 0]⟩

/-- All but the return. -/
def body (api : Api) (record : List Slot) : Emit Unit := do
  let vertex ← recordIndex api true
  let base ← imul vertex (.word record.length)
  record.zipIdx.forM fun (slot, offset) => word base slot offset

section Outputs

open Emit

end Outputs
end Replay

namespace Device

variable {σ : Type u} {w : World} {M : Device σ w Alone} {count vertex instanceId : Nat} {e : Emitter} {s : σ}

end Device

namespace StageContext

variable {s : StageContext}

/-- An invocation of a draw of two vertices; the words of its record tell it from the
other one. -/
def drawing (vertex : UInt32) (buffer : Cell → UInt32) : Valuation × (Cell → UInt32) :=
  (fun _ => 0, fun c => match c.storage with
    | .storageBuffer => buffer c
    | .constantBuffer => 2
    | .localMemory => 16 * vertex + c.address.getLastD 0
    | _ => if c.address = [ofNat (IoVariable.number .globalInvocationId), 1] ∨
        c.address = [ofNat (IoVariable.number .instanceId)] then 0 else vertex)

theorem serves_drawing (h : vertex < 2) (buffer : Cell → UInt32) :
    (zeroWorld.device Alone).Serves storing.reservations 2 vertex 0 (drawing (ofNat vertex) buffer) := by
  obtain rfl | rfl : vertex = 0 ∨ vertex = 1 := by omega
  · exact ⟨rfl, rfl, rfl, by decide, by decide +kernel⟩
  · exact ⟨rfl, rfl, rfl, by decide, by decide +kernel⟩

/-- What the two invocations of the draw leave, the second vertex last. -/
def drawnBuffer (code : List Operation) : Cell → UInt32 :=
  ((zeroWorld.device Alone).performAll code
    (drawing 1 ((zeroWorld.device Alone).performAll code (drawing 0 fun _ => 0)).2)).2

theorem dispatched_drawing (code : List Operation) :
    (zeroWorld.device Alone).Dispatched storing.reservations 2 code [(0, 0, drawing 0 fun _ => 0),
      (1, 0, drawing 1 ((zeroWorld.device Alone).performAll code (drawing 0 fun _ => 0)).2)]
        fun n => drawnBuffer code (Replay.dataCell n) :=
  .next (.next (.none fun _ => 0) (fun _ => rfl) (serves_drawing (by decide) _) (by simp)) (fun _ => rfl)
    (serves_drawing (by decide) _) (by simp)

end StageContext
end ShaderRecompiler
