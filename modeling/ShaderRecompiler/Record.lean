import ShaderRecompiler.Attribute
import ShaderRecompiler.Features
import ShaderRecompiler.Mask

/-! The record of one vertex, as emulated stages exchange it. A record is the
list of its words, so the offset of a word is its place in the list and no two
words can share one. -/
namespace ShaderRecompiler

structure RecordUsage where
  layer : Bool := false
  viewportIndex : Bool := false
  pointSize : Bool := false
  clipDistances : UInt32 := 0
  locations : UInt32 := 0
deriving DecidableEq, Repr, Inhabited

namespace RecordUsage

def ofFeatures (features : Features) (clipDistances locations : UInt32) : RecordUsage where
  layer := features.layer
  viewportIndex := features.viewportIndex
  pointSize := features.pointSize
  clipDistances := clipDistances
  locations := locations

def union (a b : RecordUsage) : RecordUsage where
  layer := a.layer || b.layer
  viewportIndex := a.viewportIndex || b.viewportIndex
  pointSize := a.pointSize || b.pointSize
  clipDistances := a.clipDistances ||| b.clipDistances
  locations := a.locations ||| b.locations

end RecordUsage

structure Slot where
  io : IoVariable
  location : Nat := 0
  component : Nat := 0
deriving DecidableEq, Repr

def Slot.row (v : IoVariable) (location count : Nat) : List Slot :=
  (List.range count).map fun component => ⟨v, location, component⟩

/-- The words of a record: position, then layer, viewport index and point size
where they are written, the clip distances up to the highest one written, and
all four components of each generic location. -/
def RecordUsage.slots (u : RecordUsage) : List Slot :=
  Slot.row .position 0 4 ++
    (if u.layer then [⟨.layer, 0, 0⟩] else []) ++
    (if u.viewportIndex then [⟨.viewportIndex, 0, 0⟩] else []) ++
    (if u.pointSize then [⟨.pointSize, 0, 0⟩] else []) ++
    Slot.row .clipDistance 0 (Mask.width u.clipDistances) ++
    (Mask.below u.locations Attribute.userLocations).flatMap fun location =>
      Slot.row .userDefined location 4

end ShaderRecompiler
