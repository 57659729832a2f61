import ShaderRecompiler.IR.Storage
import ShaderRecompiler.Record

/-! Bindings and record layouts that are fixed before a program is compiled, so
that both sides of an interface and the host agree on them. What is reserved
takes the lowest bindings of its set; the bindings follow from which kinds of
emulation are on. -/
namespace ShaderRecompiler

def maxVertexBuffers : Nat := 32

def maxFeedbackBuffers : Nat := 4

structure Reservations where
  emulatesFeedback : Bool := false
  emulated : Bool := false
  inputRecord : List Slot := []
  outputRecord : List Slot := []
deriving DecidableEq, Repr, Inhabited

namespace Reservations

/-- Only an emulated stage has records. -/
def ofUsage (emulatesFeedback emulated : Bool) (input output : Option RecordUsage) : Reservations :=
  if emulated then
    { emulatesFeedback, emulated
      inputRecord := input.elim [] RecordUsage.slots
      outputRecord := output.elim [] RecordUsage.slots }
  else { emulatesFeedback }

/-- The support buffer of the host comes first. -/
def constantBuffers (r : Reservations) : Nat := if r.emulated then 2 else 1

def feedbackStorage (r : Reservations) : Nat :=
  if r.emulatesFeedback then 1 + maxFeedbackBuffers else 0

def storageBuffers (r : Reservations) : Nat := r.feedbackStorage + if r.emulated then 3 else 0

def textures (r : Reservations) : Nat := if r.emulated then 2 + maxVertexBuffers else 0

def images (_ : Reservations) : Nat := 0

def feedbackInfo? (r : Reservations) : Option Nat := if r.emulatesFeedback then some 0 else none

def feedbackBase? (r : Reservations) : Option Nat := if r.emulatesFeedback then some 1 else none

def feedbackBuffer? (r : Reservations) (index : Nat) : Option Nat :=
  r.feedbackBase?.map (· + index)

/-- The uniform buffer that describes the draw to an emulated stage. -/
def vertexInfo (r : Reservations) : Nat := if r.emulated then 1 else 0

def vertexOutput (r : Reservations) : Nat := if r.emulated then r.feedbackStorage else 0

def geometryVertexOutput (r : Reservations) : Nat := if r.emulated then r.feedbackStorage + 1 else 0

def geometryIndexOutput (r : Reservations) : Nat := if r.emulated then r.feedbackStorage + 2 else 0

def indexBuffer (_ : Reservations) : Nat := 0

def vertexBufferBase (r : Reservations) : Nat := if r.emulated then 1 else 0

def vertexBuffer (r : Reservations) (location : Nat) : Nat := r.vertexBufferBase + location

def topologyRemap (r : Reservations) : Nat := if r.emulated then 1 + maxVertexBuffers else 0

def inputSize (r : Reservations) : Nat := r.inputRecord.length

def outputSize (r : Reservations) : Nat := r.outputRecord.length

def record (r : Reservations) : Storage → List Slot
  | .input => r.inputRecord
  | .output => r.outputRecord
  | _ => []

/-- The word of a record that holds a value, counted from the vertex's first. -/
def offset? (r : Reservations) (storage : Storage) (v : IoVariable) (location component : Nat) :
    Option Nat :=
  (r.record storage).idxOf? ⟨v, location, component⟩

def userOffset? (r : Reservations) (storage : Storage) (location component : Nat) : Option Nat :=
  r.offset? storage .userDefined location component

def offsets (r : Reservations) : List (Storage × Slot × Nat) :=
  [Storage.input, .output].flatMap fun storage =>
    (r.record storage).zipIdx.map fun (slot, offset) => (storage, slot, offset)

end Reservations
end ShaderRecompiler
