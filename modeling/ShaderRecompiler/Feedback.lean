import ShaderRecompiler.Attribute

/-! Transform feedback: which attribute words are captured, and where. -/
namespace ShaderRecompiler

structure FeedbackBuffer where
  stride : Nat
  /-- The attribute word captured at each four-byte slot; `hole` captures none. -/
  words : List Nat
deriving DecidableEq, Repr, Inhabited

structure Capture where
  buffer : Nat
  /-- Bytes from the start of the vertex. -/
  offset : Nat
  stride : Nat
deriving DecidableEq, Repr

namespace FeedbackBuffer

def hole : Nat := 0xff

def slot? (b : FeedbackBuffer) (word : Nat) : Option Nat :=
  if word = hole then none else b.words.idxOf? word

end FeedbackBuffer

namespace Capture

/-- The first buffer that captures a word keeps it. -/
def ofWord? (buffers : List FeedbackBuffer) (word : Nat) : Option Capture :=
  buffers.zipIdx.findSome? fun (b, index) =>
    (b.slot? word).map fun slot => { buffer := index, offset := slot * 4, stride := b.stride }

def ofUser? (buffers : List FeedbackBuffer) (location component : Nat) : Option Capture :=
  ofWord? buffers (Attribute.userBase / 4 + location * 4 + component)

/-- How many of the listed components directly follow `prev`. -/
def following (buffers : List FeedbackBuffer) (location : Nat) (prev : Capture) : List Nat → Nat
  | [] => 0
  | component :: rest =>
    match ofUser? buffers location component with
    | none => 0
    | some next =>
      if next.buffer = prev.buffer ∧ next.offset = prev.offset + 4 then
        1 + following buffers location next rest
      else 0

/-- How many components from `component` on are captured back to back. -/
def run (buffers : List FeedbackBuffer) (location component : Nat) : Nat :=
  match ofUser? buffers location component with
  | none => 0
  | some first => 1 + following buffers location first ((List.range 4).drop (component + 1))

end Capture
end ShaderRecompiler
