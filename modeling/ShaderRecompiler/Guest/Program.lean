import ShaderRecompiler.AttributeUsage
import ShaderRecompiler.Features
import ShaderRecompiler.Guest.Instruction

/-! Guest programs, and what of its stage interface a program can touch. The
scan looks at every instruction whether or not control reaches it. -/
namespace ShaderRecompiler.Guest

structure Block where
  address : Nat
  body : List Placed
deriving DecidableEq, Repr

structure Program where
  blocks : List Block := []
  /-- Bytes of memory that each thread has for itself. -/
  localMemorySize : Nat := 0
deriving DecidableEq, Repr, Inhabited

def Program.ops (p : Program) : List Op := p.blocks.flatMap fun b => b.body.map (·.op)

structure Usage where
  attributes : AttributeUsage := {}
  features : Features := {}
  clipDistances : UInt32 := 0
deriving DecidableEq, Repr, Inhabited

namespace Usage

def recordInput (u : Usage) (stage : Stage) (perPatch : Bool) (address : Nat) : Usage :=
  match Attribute.resolve address stage false perPatch with
  | some (.user location component) =>
    { u with
      attributes :=
        if perPatch then u.attributes.readPatchInput location
        else u.attributes.readInput location component }
  | some (.builtin .fragmentCoord (some component)) =>
    if component < 2 then { u with features.fragCoordXY := true } else u
  | some (.builtin .instanceId _) => { u with features.instanceId := true }
  | _ => u

def recordOutput (u : Usage) (stage : Stage) (perPatch : Bool) (address : Nat) : Usage :=
  match Attribute.resolve address stage true perPatch with
  | some (.user location _) =>
    { u with
      attributes :=
        if perPatch then u.attributes.writePatchOutput location else u.attributes.writeOutput location }
  | some (.builtin .layer _) => { u with features.layer := true }
  | some (.builtin .viewportIndex _) => { u with features.viewportIndex := true }
  | some (.builtin .pointSize _) => { u with features.pointSize := true }
  | some (.builtin .clipDistance component) =>
    { u with clipDistances := Mask.insert u.clipDistances (component.getD 0) }
  | _ => u

def words (address count : Nat) : List Nat := (List.range count).map fun i => address + i * 4

def recordSpace (u : Usage) : Space → Usage
  | .localMemory => { u with features.localMemory := true }
  | .sharedMemory => { u with features.sharedMemory := true }
  | .global _ => u

def indexInput (u : Usage) (offset : Option Register) : Usage :=
  if offset.isSome then { u with features.inputIndexing := true } else u

def indexOutput (u : Usage) (offset : Option Register) : Usage :=
  if offset.isSome then { u with features.outputIndexing := true } else u

def record (stage : Stage) (u : Usage) : Op → Usage
  | .ald _ count address _ offset perPatch output =>
    if output then
      (words address count).foldl (·.recordOutput stage perPatch ·) (u.indexOutput offset)
    else (words address count).foldl (·.recordInput stage perPatch ·) (u.indexInput offset)
  | .ipa _ address offset => (u.indexInput offset).recordInput stage false address
  | .ast _ count address _ offset perPatch =>
    (words address count).foldl (·.recordOutput stage perPatch ·) (u.indexOutput offset)
  | .ld _ _ space _ _ | .st _ _ space _ _ => u.recordSpace space
  | _ => u

end Usage

def Program.usage (p : Program) (stage : Stage) : Usage := p.ops.foldl (Usage.record stage) {}

end ShaderRecompiler.Guest
