import ShaderRecompiler.Declaration
import ShaderRecompiler.Host
import ShaderRecompiler.Reservations

/-! The declarations of one program. Guest resources are numbered after what is
reserved: constant buffers by their slot, the others in the order of their
first use. -/
namespace ShaderRecompiler

/-- A guest texture or image; the same handle read as another type is another. -/
structure TextureHandle where
  handle : Nat
  sampler : Sampler
  type : NumType
deriving DecidableEq, Repr

structure Resources where
  stage : Stage
  api : Api
  reservations : Reservations := {}
  constantBuffers : List Buffer := []
  storageBuffers : List Buffer := []
  textures : List Texture := []
  images : List Texture := []
  localMemories : List Memory := []
  sharedMemories : List Memory := []
  /-- Guest resources in the order of their first use. -/
  guestStorage : List Nat := []
  guestTextures : List TextureHandle := []
  guestImages : List TextureHandle := []
  /-- The guest memories of the program that is being built. -/
  currentLocal : Option Nat := none
  currentShared : Option Nat := none
  emulation : Option EmulationMemory := none
deriving DecidableEq, Repr

namespace Resources

/-- Puts an item in the place of the one with its binding, or at the end. -/
def upsert {α : Type} (binding : α → Nat) (item : α) : List α → List α
  | [] => [item]
  | other :: rest =>
    if binding other = binding item then item :: rest else other :: upsert binding item rest

def addNew {α : Type} (binding : α → Nat) (item : α) (items : List α) : List α :=
  if items.any (binding · == binding item) then items else items ++ [item]

def remember {α : Type} [BEq α] (member : α) (members : List α) : List α :=
  if members.contains member then members else members ++ [member]

def byBinding {α : Type} (binding : α → Nat) (items : List α) : List α :=
  items.mergeSort fun a b => decide (binding a ≤ binding b)

def addConstantBuffer (r : Resources) (b : Buffer) : Resources :=
  { r with constantBuffers := upsert Buffer.binding b r.constantBuffers }

def addStorageBuffer (r : Resources) (b : Buffer) : Resources :=
  { r with storageBuffers := upsert Buffer.binding b r.storageBuffers }

def addTexture (r : Resources) (t : Texture) : Resources :=
  { r with textures := upsert Texture.binding t r.textures }

def useConstantBuffer (r : Resources) (slot : Nat) : Nat × Resources :=
  let binding := r.reservations.constantBuffers + slot
  (binding,
    { r with
      constantBuffers := addNew Buffer.binding (.guestConstants slot binding) r.constantBuffers })

def useStorageBuffer (r : Resources) (slot : Nat) : Nat × Resources :=
  let binding := r.reservations.storageBuffers + r.guestStorage.idxOf slot
  if r.guestStorage.contains slot then (binding, r)
  else
    (binding,
      { r with guestStorage := r.guestStorage ++ [slot] }.addStorageBuffer
        (.words binding s!"sb{slot}"))

def useTexture (r : Resources) (h : TextureHandle) : Nat × Resources :=
  let binding := r.reservations.textures + r.guestTextures.idxOf h
  let texture : Texture :=
    ⟨DescriptorSet.texture, binding, s!"tex{binding}", h.sampler, h.type⟩
  (binding,
    { r with
      guestTextures := remember h r.guestTextures
      textures := addNew Texture.binding texture r.textures })

def useImage (r : Resources) (h : TextureHandle) : Nat × Resources :=
  let binding := r.reservations.images + r.guestImages.idxOf h
  let image : Texture := ⟨DescriptorSet.image, binding, s!"img{binding}", h.sampler, h.type⟩
  (binding,
    { r with
      guestImages := remember h r.guestImages
      images := addNew Texture.binding image r.images })

def constantBuffer? (r : Resources) (binding : Nat) : Option Buffer :=
  r.constantBuffers.find? (·.binding == binding)

def storageBuffer? (r : Resources) (binding : Nat) : Option Buffer :=
  r.storageBuffers.find? (·.binding == binding)

def texture? (r : Resources) (binding : Nat) : Option Texture :=
  r.textures.find? (·.binding == binding)

def image? (r : Resources) (binding : Nat) : Option Texture :=
  r.images.find? (·.binding == binding)

def localMemory? (r : Resources) (id : Nat) : Option Memory := r.localMemories[id]?

def sharedMemory? (r : Resources) (id : Nat) : Option Memory := r.sharedMemories[id]?

def sortedConstantBuffers (r : Resources) : List Buffer := byBinding Buffer.binding r.constantBuffers

def sortedStorageBuffers (r : Resources) : List Buffer := byBinding Buffer.binding r.storageBuffers

def sortedTextures (r : Resources) : List Texture := byBinding Texture.binding r.textures

def sortedImages (r : Resources) : List Texture := byBinding Texture.binding r.images

def wordsFor (bytes : Nat) : Nat := (bytes + 3) / 4

/-- Declares the guest's local memory for the program about to be built. Stages
that are fused keep a block each. -/
def beginLocalMemory (r : Resources) (bytes : Nat) (used : Bool) : Resources :=
  if used && bytes != 0 then
    { r with
      currentLocal := some r.localMemories.length
      localMemories :=
        r.localMemories ++ [⟨s!"local_mem{r.localMemories.length}", some (wordsFor bytes)⟩] }
  else { r with currentLocal := none }

def beginSharedMemory (r : Resources) (bytes : Nat) (used : Bool) : Resources :=
  if used && bytes != 0 then
    { r with
      currentShared := some r.sharedMemories.length
      sharedMemories :=
        r.sharedMemories ++ [⟨s!"shared_mem{r.sharedMemories.length}", some (wordsFor bytes)⟩] }
  else { r with currentShared := none }

def beginEmulation (r : Resources) (guestStage : Stage) (topology : InputTopology) : Resources :=
  let base := r.localMemories.length
  let vertexData : Memory := ⟨"local_vertex_data", some (max r.reservations.outputSize 1)⟩
  match guestStage with
  | .vertex =>
    { r with
      localMemories := r.localMemories ++
        [vertexData, ⟨"local_vertex_index_vr", none⟩, ⟨"local_vertex_index_ir", none⟩]
      emulation := some (.vertex base (base + 1) (base + 2)) }
  | .geometry =>
    { r with
      localMemories := r.localMemories ++
        [vertexData, ⟨"local_topology_remap", some topology.vertices⟩,
          ⟨"local_geometry_output_vertex", none⟩, ⟨"local_geometry_output_index", none⟩]
      emulation := some (.geometry base (base + 1) (base + 2) (base + 3)) }
  | _ => { r with localMemories := r.localMemories ++ [vertexData], emulation := none }

/-- The set and binding of every declaration, class by class. -/
def bindings (r : Resources) : List (Nat × Nat) :=
  (r.constantBuffers ++ r.storageBuffers).map (fun b => (b.set, b.binding)) ++
    (r.textures ++ r.images).map fun t => (t.set, t.binding)

end Resources
end ShaderRecompiler
