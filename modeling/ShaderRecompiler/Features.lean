/-! What a program was found to need. Features only accumulate, by union. -/
namespace ShaderRecompiler

structure Features where
  /-- Base vertex, base instance or draw index is read. -/
  drawParameters : Bool := false
  fragCoordXY : Bool := false
  instanceId : Bool := false
  /-- The render target layer is written or forwarded. -/
  layer : Bool := false
  viewportIndex : Bool := false
  pointSize : Bool := false
  inputIndexing : Bool := false
  outputIndexing : Bool := false
  localMemory : Bool := false
  sharedMemory : Bool := false
  emulated : Bool := false
deriving DecidableEq, Repr, Inhabited

namespace Features

def union (a b : Features) : Features where
  drawParameters := a.drawParameters || b.drawParameters
  fragCoordXY := a.fragCoordXY || b.fragCoordXY
  instanceId := a.instanceId || b.instanceId
  layer := a.layer || b.layer
  viewportIndex := a.viewportIndex || b.viewportIndex
  pointSize := a.pointSize || b.pointSize
  inputIndexing := a.inputIndexing || b.inputIndexing
  outputIndexing := a.outputIndexing || b.outputIndexing
  localMemory := a.localMemory || b.localMemory
  sharedMemory := a.sharedMemory || b.sharedMemory
  emulated := a.emulated || b.emulated

/-- The features that change the layout of a vertex record. -/
def layoutPart (f : Features) : Features where
  layer := f.layer
  viewportIndex := f.viewportIndex
  pointSize := f.pointSize

/-- In the order of their bits. -/
def toList (f : Features) : List Bool :=
  [f.drawParameters, f.fragCoordXY, f.instanceId, f.layer, f.viewportIndex, f.pointSize,
    f.inputIndexing, f.outputIndexing, f.localMemory, f.sharedMemory, f.emulated]

def toBits (f : Features) : Nat := f.toList.foldr (fun set rest => set.toNat + 2 * rest) 0

/-- Bits that name no feature are dropped. -/
def ofBits (bits : Nat) : Features where
  drawParameters := bits.testBit 0
  fragCoordXY := bits.testBit 1
  instanceId := bits.testBit 2
  layer := bits.testBit 3
  viewportIndex := bits.testBit 4
  pointSize := bits.testBit 5
  inputIndexing := bits.testBit 6
  outputIndexing := bits.testBit 7
  localMemory := bits.testBit 8
  sharedMemory := bits.testBit 9
  emulated := bits.testBit 10

end Features
end ShaderRecompiler
