import ShaderRecompiler.Compile.Shader

/-! A guest stage with what is known about its neighbours. Facts are added
before the stage is compiled, and its own program is compiled once. -/
namespace ShaderRecompiler

structure StageContext where
  program : Guest.Program
  config : Config
  host : Host
  options : Options
  usage : Guest.Usage
  /-- What the vertex stage hands to an emulated geometry stage. -/
  vertexRecord : RecordUsage
  /-- The attribute that stands for the layer when a geometry stage is
  synthesized. -/
  layerOutput : Option Nat := none
  /-- The attribute that a passthrough geometry stage forwards as the layer. -/
  layerInput : Option Nat := none
  progress : Progress := .fresh

namespace StageContext

/-- Every generic attribute, until the vertex stage is known. -/
def allLocations : RecordUsage := { locations := 0xffff }

def ofProgram (program : Guest.Program) (config : Config) (host : Host) (options : Options) :
    StageContext where
  program := program
  config := config
  host := host
  options := options
  usage := program.usage config.stage
  vertexRecord := allLocations

/-- A passthrough geometry stage cannot change what it forwards. -/
def forwardsOnly (s : StageContext) : Bool := s.config.stage == .geometry && s.config.geometryPassthrough

def setNext (s next : StageContext) : StageContext :=
  { s with
    usage.attributes := s.usage.attributes.mergeNext s.config.geometryPassthrough next.usage.attributes
    config.lastBeforeRaster :=
      s.config.lastBeforeRaster && (next.config.stage == .fragment || next.forwardsOnly) }

def mergeOutputs (s : StageContext) (mask : UInt32) (perPatch : List Nat) : StageContext :=
  { s with
    usage.attributes := s.usage.attributes.mergeOutputs s.config.geometryPassthrough mask perPatch }

def setLast (s : StageContext) : StageContext := { s with config.lastBeforeRaster := true }

def setLayerOutput (s : StageContext) (address : Nat) : StageContext :=
  { s with layerOutput := some address }

def setLayerInput (s : StageContext) (address : Nat) : StageContext :=
  { s with usage.features.layer := true, layerInput := some address }

def record (s : StageContext) : RecordUsage :=
  .ofFeatures s.usage.features s.usage.clipDistances s.usage.attributes.outputs

def setVertex (s vertex : StageContext) : StageContext := { s with vertexRecord := vertex.record }

def reservationsFor (s : StageContext) (emulated : Bool) : Reservations :=
  .ofUsage s.host.emulatesTransformFeedback emulated (some s.vertexRecord) (some s.record)

def reservations (s : StageContext) : Reservations := s.reservationsFor true

def emulationSize : LocalSize := ⟨32, 32, 1⟩

def configFor (s : StageContext) (emulated : Bool) : Config :=
  if emulated then s.config.asCompute emulationSize else s.config

def featuresFor (s : StageContext) (emulated : Bool) : Features :=
  s.usage.features.union { emulated }

end StageContext
end ShaderRecompiler
