import ShaderRecompiler.IR.Instruction

/-! The resources that a program declares. Each class has a descriptor set of
its own. -/
namespace ShaderRecompiler

namespace DescriptorSet

def uniform : Nat := 0
def storage : Nat := 1
def texture : Nat := 2
def image : Nat := 3

end DescriptorSet

inductive BufferLayout where
  | std140
  | std430
deriving DecidableEq, Repr

def BufferLayout.keyword : BufferLayout → String
  | std140 => "std140"
  | std430 => "std430"

inductive FieldType where
  | scalar (type : NumType)
  | vec4 (type : NumType)
deriving DecidableEq, Repr

namespace FieldType

def numType : FieldType → NumType
  | scalar type | vec4 type => type

def isVector : FieldType → Bool
  | vec4 _ => true
  | scalar _ => false

def keyword : FieldType → String
  | scalar .s32 => "int"
  | scalar .u32 => "uint"
  | scalar .f32 => "float"
  | vec4 type => type.letter ++ "vec4"

end FieldType

structure Field where
  type : FieldType
  name : String
  /-- Elements of an array; zero leaves its length to the bound buffer. -/
  length : Option Nat := none
deriving DecidableEq, Repr

structure Buffer where
  layout : BufferLayout
  set : Nat
  binding : Nat
  name : String
  fields : List Field
deriving DecidableEq, Repr

structure Texture where
  set : Nat
  binding : Nat
  name : String
  sampler : Sampler
  type : NumType
deriving DecidableEq, Repr

structure Memory where
  name : String
  /-- A single word unless given. -/
  length : Option Nat := none
deriving DecidableEq, Repr

inductive ResourceKind where
  | constantBuffer
  | storageBuffer
  | bufferField
  | localMemory
  | sharedMemory
  | texture
  | image
deriving DecidableEq, Repr

def ResourceKind.name : ResourceKind → String
  | constantBuffer => "constant buffer"
  | storageBuffer => "storage buffer"
  | bufferField => "buffer field"
  | localMemory => "local memory"
  | sharedMemory => "shared memory"
  | texture => "texture"
  | image => "image"

inductive EmulationMemory where
  | vertex (vertexData vertexRateIndex instanceRateIndex : Nat)
  | geometry (vertexData topologyRemap vertexCount indexCount : Nat)
deriving DecidableEq, Repr

def EmulationMemory.vertexData : EmulationMemory → Nat
  | vertex vertexData .. | geometry vertexData .. => vertexData

namespace Buffer

/-- Sixteen-byte elements of a guest constant buffer, 64 KiB in all. -/
def constantBufferLength : Nat := 4096

def guestConstants (slot binding : Nat) : Buffer where
  layout := .std140
  set := DescriptorSet.uniform
  binding := binding
  name := s!"cb{slot}"
  fields := [⟨.vec4 .u32, "data", some constantBufferLength⟩]

def unbounded (binding : Nat) (name : String) (type : NumType) : Buffer where
  layout := .std430
  set := DescriptorSet.storage
  binding := binding
  name := name
  fields := [⟨.scalar type, "data", some 0⟩]

def words (binding : Nat) (name : String) : Buffer := unbounded binding name .u32

end Buffer

def Texture.ofBuffer (binding : Nat) (name : String) (type : NumType) : Texture where
  set := DescriptorSet.texture
  binding := binding
  name := name
  sampler := .buffer
  type := type

end ShaderRecompiler
