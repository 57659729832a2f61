import ShaderRecompiler.Proofs.Declared

/-! What a stage declares before its program: everything that the code around the
program, and emulation, address by a reserved binding or a memory of their own. -/
namespace ShaderRecompiler

open List Attribute Resources Reservations

namespace Resources

variable {r r' : Resources}

def HasWord (r : Resources) (id : Nat) : Prop :=
  id < 2 ^ 32 ∧ ∃ m, r.localMemory? id = some m ∧ m.length = none

def HasWords (r : Resources) (id : Nat) : Prop :=
  id < 2 ^ 32 ∧ ∃ m, r.localMemory? id = some m ∧ m.length.isSome

def HasShared (r : Resources) (id : Nat) : Prop :=
  id < 2 ^ 32 ∧ ∃ m, r.sharedMemory? id = some m ∧ m.length.isSome

def HasInfo (r : Resources) : Prop :=
  ∃ b, r.constantBuffer? r.reservations.vertexInfo = some b ∧ b.fields = (Buffer.vertexInfo 0).fields

def HasFeedback (r : Resources) : Prop :=
  (∃ b, r.storageBuffer? 0 = some b ∧ b.fields = (Buffer.feedbackInfo 0).fields) ∧
    ∀ index < maxFeedbackBuffers, r.HasArray (1 + index)

/-- The memories of an emulated stage, and what its kind of stage fetches from
and writes to. -/
def HasMemories (r : Resources) : EmulationMemory → Prop
  | .vertex vertexData vertexRate instanceRate =>
    r.HasWords vertexData ∧ r.HasWord vertexRate ∧ r.HasWord instanceRate ∧
      (r.texture? r.reservations.indexBuffer).isSome
  | .geometry vertexData topologyRemap vertexCounter indexCounter =>
    r.HasWords vertexData ∧ r.HasWords topologyRemap ∧ r.HasWord vertexCounter ∧
      r.HasWord indexCounter ∧ (r.texture? r.reservations.topologyRemap).isSome ∧
      r.HasArray r.reservations.geometryVertexOutput ∧ r.HasArray r.reservations.geometryIndexOutput

/-- Everything that the code around a program addresses. An emulated vertex stage
fetches the attributes in `inputs`. -/
structure Provides (r : Resources) (inputs : UInt32) : Prop where
  feedback : r.reservations.emulatesFeedback → r.HasFeedback
  info : r.emulation.isSome → r.HasInfo
  output : r.emulation.isSome → r.HasArray r.reservations.vertexOutput
  memories : ∀ memory, r.emulation = some memory → r.HasMemories memory
  fetch : ∀ d v i, r.emulation = some (.vertex d v i) → ∀ location ∈ Mask.below inputs userLocations,
    (r.texture? (r.reservations.vertexBuffer location)).isSome

section Mono

variable (h : r.Extends r')

include h

theorem HasWord.mono (hw : r.HasWord n) : r'.HasWord n := by
  obtain ⟨hn, m, hm, hlen⟩ := hw
  exact ⟨hn, m, h.localMemory hm, hlen⟩

theorem HasWords.mono (hw : r.HasWords n) : r'.HasWords n := by
  obtain ⟨hn, m, hm, hlen⟩ := hw
  exact ⟨hn, m, h.localMemory hm, hlen⟩

theorem HasShared.mono (hw : r.HasShared n) : r'.HasShared n := by
  obtain ⟨hn, m, hm, hlen⟩ := hw
  exact ⟨hn, m, h.sharedMemory hm, hlen⟩

theorem isSome_texture?_mono (ht : (r.texture? n).isSome) : (r'.texture? n).isSome := by
  obtain ⟨t, ht⟩ := Option.isSome_iff_exists.1 ht
  rw [h.texture ht]
  rfl

theorem isSome_image?_mono (ht : (r.image? n).isSome) : (r'.image? n).isSome := by
  obtain ⟨t, ht⟩ := Option.isSome_iff_exists.1 ht
  rw [h.image ht]
  rfl

theorem Provides.mono (hp : r.Provides inputs) : r'.Provides inputs where
  feedback hf := by
    rw [h.reservations] at hf
    obtain ⟨⟨b, hb, hflds⟩, harr⟩ := hp.feedback hf
    exact ⟨⟨b, h.storageBuffer hb, hflds⟩, fun index hi => (harr index hi).mono h⟩
  info he := by
    rw [h.emulation] at he
    obtain ⟨b, hb, hflds⟩ := hp.info he
    exact ⟨b, by rw [h.reservations]; exact h.constantBuffer hb, hflds⟩
  output he := by
    rw [h.emulation] at he
    rw [h.reservations]
    exact (hp.output he).mono h
  memories memory he := by
    rw [h.emulation] at he
    have hm := hp.memories memory he
    cases memory with
    | vertex =>
      unfold HasMemories
      rw [h.reservations]
      exact ⟨hm.1.mono h, hm.2.1.mono h, hm.2.2.1.mono h, isSome_texture?_mono h hm.2.2.2⟩
    | geometry =>
      obtain ⟨hdata, hremap, hvtx, hidx, htex, hverts, hidxs⟩ := hm
      unfold HasMemories
      rw [h.reservations]
      exact ⟨hdata.mono h, hremap.mono h, hvtx.mono h, hidx.mono h,
        isSome_texture?_mono h htex, hverts.mono h, hidxs.mono h⟩
  fetch d v i he location hl := by
    rw [h.emulation] at he
    rw [h.reservations]
    exact isSome_texture?_mono h (hp.fetch d v i he location hl)

end Mono

/-! The steps that build the declarations of a stage. -/

@[simp] theorem reservations_addStorageBuffer (r : Resources) (b : Buffer) :
    (r.addStorageBuffer b).reservations = r.reservations := rfl

@[simp] theorem reservations_addTexture (r : Resources) (t : Texture) :
    (r.addTexture t).reservations = r.reservations := rfl

theorem texture?_addTexture (r : Resources) (t : Texture) (n : Nat) :
    (r.addTexture t).texture? n = if t.binding = n then some t else r.texture? n :=
  find?_upsert n

theorem constantBuffer?_addConstantBuffer (r : Resources) (b : Buffer) (n : Nat) :
    (r.addConstantBuffer b).constantBuffer? n = if b.binding = n then some b else r.constantBuffer? n :=
  find?_upsert n

theorem isSome_texture?_addTexture : ((r.addTexture t).texture? n).isSome ↔ t.binding = n ∨ (r.texture? n).isSome := by
  rw [texture?_addTexture]
  split
  · next heq => simp [heq]
  · next hne => simp [hne]

theorem addFeedback_eq (h : r.reservations.emulatesFeedback) :
    r.addFeedback = ((((r.addStorageBuffer (.feedbackInfo 0)).addStorageBuffer
      (.words 1 "tfe_data0")).addStorageBuffer (.words 2 "tfe_data1")).addStorageBuffer
        (.words 3 "tfe_data2")).addStorageBuffer (.words 4 "tfe_data3") := by
  simp [addFeedback, feedbackInfo?, feedbackBuffer?, feedbackBase?, h, maxFeedbackBuffers, range_succ]
  rfl

theorem hasArray_addStorageBuffer (hn : b.binding = n)
    (hf : b.fields[0]? = some f) (hlen : f.length.isSome) (htype : f.type.isVector = false) :
    (r.addStorageBuffer b).HasArray n :=
  ⟨b, f, by rw [storageBuffer?_addStorageBuffer, if_pos hn], hf, hlen, htype⟩

theorem HasArray.addStorageBuffer (h : r.HasArray n) (hn : b.binding ≠ n) : (r.addStorageBuffer b).HasArray n := by
  obtain ⟨b', f, hb, hf⟩ := h
  exact ⟨b', f, by rw [storageBuffer?_addStorageBuffer, if_neg hn, hb], hf⟩

theorem hasFeedback_addFeedback (h : r.reservations.emulatesFeedback) : r.addFeedback.HasFeedback := by
  rw [addFeedback_eq h]
  refine ⟨⟨.feedbackInfo 0, ?_, rfl⟩, fun index hi => ?_⟩
  · simp [storageBuffer?_addStorageBuffer, Buffer.words, Buffer.unbounded, Buffer.feedbackInfo]
  · unfold maxFeedbackBuffers at hi
    obtain rfl | rfl | rfl | rfl : index = 0 ∨ index = 1 ∨ index = 2 ∨ index = 3 := by omega
    · exact (((hasArray_addStorageBuffer rfl rfl rfl rfl).addStorageBuffer (by decide)).addStorageBuffer
        (by decide)).addStorageBuffer (by decide)
    · exact ((hasArray_addStorageBuffer rfl rfl rfl rfl).addStorageBuffer (by decide)).addStorageBuffer (by decide)
    · exact (hasArray_addStorageBuffer rfl rfl rfl rfl).addStorageBuffer (by decide)
    · exact hasArray_addStorageBuffer rfl rfl rfl rfl

theorem foldl_addTexture (r : Resources) (added : List Texture) :
    (∃ textures, added.foldl addTexture r = { r with textures }) ∧
      ∀ n, ((added.foldl addTexture r).texture? n).isSome ↔
        (r.texture? n).isSome ∨ ∃ t ∈ added, t.binding = n := by
  induction added generalizing r with
  | nil => exact ⟨⟨r.textures, rfl⟩, fun n => by simp⟩
  | cons t added ih =>
    obtain ⟨⟨textures, heq⟩, hfound⟩ := ih (r.addTexture t)
    refine ⟨⟨textures, heq⟩, fun n => (hfound n).trans ?_⟩
    simp only [isSome_texture?_addTexture, mem_cons, or_and_right, exists_or, exists_eq_left]
    rw [or_assoc, or_left_comm]

theorem addVertexFetch_eq (r : Resources) (c : Config) (inputs : UInt32) : r.addVertexFetch c inputs =
      (Texture.ofBuffer r.reservations.indexBuffer "ib_data" .u32 ::
        (Mask.below inputs userLocations).map fun location =>
          .ofBuffer (r.reservations.vertexBuffer location) s!"vb_data{location}"
            (c.fetchType location)).foldl addTexture r := by
  have hfold : ∀ (locations : List Nat) (r : Resources) (f : Reservations → Nat → Texture),
      locations.foldl (fun r location => r.addTexture (f r.reservations location)) r =
        (locations.map (f r.reservations)).foldl addTexture r := by
    intro locations
    induction locations with
    | nil => exact fun _ _ => rfl
    | cons location locations ih => exact fun r f => ih (r.addTexture (f r.reservations location)) f
  exact hfold _ (r.addTexture (.ofBuffer r.reservations.indexBuffer "ib_data" .u32))
    fun b location => .ofBuffer (b.vertexBuffer location) s!"vb_data{location}" (c.fetchType location)

/-- What every emulated stage declares. -/
def emulationBase (r : Resources) : Resources :=
  (r.addConstantBuffer (.vertexInfo r.reservations.vertexInfo)).addStorageBuffer
    (.unbounded r.reservations.vertexOutput "vertex_output" .f32)

section Emulation

theorem addEmulation_vertex (r : Resources) (c : Config) (inputs : UInt32) :
    ∃ textures, r.addEmulation .vertex c inputs =
        ({ r.emulationBase with textures } : Resources).beginEmulation .vertex c.inputTopology ∧
      ∀ n, (textures.find? (·.binding == n)).isSome ↔ (r.texture? n).isSome ∨
        n = r.reservations.indexBuffer ∨ ∃ location ∈ Mask.below inputs userLocations,
          n = r.reservations.vertexBuffer location := by
  have heq : r.addEmulation .vertex c inputs =
      (r.emulationBase.addVertexFetch c inputs).beginEmulation .vertex c.inputTopology := rfl
  rw [heq, addVertexFetch_eq]
  obtain ⟨⟨textures, htexs⟩, hfound⟩ := foldl_addTexture r.emulationBase
    (Texture.ofBuffer r.emulationBase.reservations.indexBuffer "ib_data" .u32 ::
      (Mask.below inputs userLocations).map fun location =>
        .ofBuffer (r.emulationBase.reservations.vertexBuffer location) s!"vb_data{location}" (c.fetchType location))
  rw [htexs] at hfound ⊢
  refine ⟨textures, rfl, fun n => (hfound n).trans (or_congr Iff.rfl ?_)⟩
  simp only [mem_cons, mem_map, or_and_right, exists_or, exists_eq_left, exists_exists_and_eq_and, @eq_comm _ n]
  exact Iff.rfl

theorem addEmulation_geometry (r : Resources) (c : Config) (inputs : UInt32) : r.addEmulation .geometry c inputs =
      r.emulationBase.addGeometryBuffers.beginEmulation .geometry c.inputTopology := rfl

/-- Besides its memories, emulation declares textures, and storage buffers under its
reserved bindings. -/
theorem addEmulation_eq (r : Resources) (stage : Stage) (c : Config) (inputs : UInt32) : ∃ textures storageBuffers,
    r.addEmulation stage c inputs =
        ({ r.emulationBase with textures, storageBuffers } : Resources).beginEmulation stage c.inputTopology ∧
      ∀ b ∈ storageBuffers, b.binding ∈ [r.reservations.vertexOutput, r.reservations.geometryVertexOutput,
        r.reservations.geometryIndexOutput] ∨ b ∈ r.storageBuffers := by
  have hbase : ∀ b ∈ r.emulationBase.storageBuffers, b.binding ∈ [r.reservations.vertexOutput,
      r.reservations.geometryVertexOutput, r.reservations.geometryIndexOutput] ∨ b ∈ r.storageBuffers :=
    fun b hb => (mem_upsert hb).imp_left fun h => by simp [h, Buffer.unbounded]
  cases stage with
  | vertex =>
    obtain ⟨textures, heq, -⟩ := r.addEmulation_vertex c inputs
    exact ⟨textures, _, heq, hbase⟩
  | geometry =>
    refine ⟨_, _, rfl, fun b hb => ?_⟩
    obtain rfl | hb := mem_upsert hb
    · exact .inl (mem_of_getElem? (i := 2) rfl)
    · obtain rfl | hb := mem_upsert hb
      · exact .inl (mem_of_getElem? (i := 1) rfl)
      · exact hbase b hb
  | _ => exact ⟨_, _, rfl, hbase⟩

theorem localMemory?_append (h : r.localMemories = before ++ added) (i : Nat) :
    r.localMemory? (before.length + i) = added[i]? := by
  rw [localMemory?, h, getElem?_append_right (Nat.le_add_right _ _), Nat.add_sub_cancel_left]

theorem storageBuffer?_addEmulation (hr : r.reservations.emulated)
    (hn : n < r.reservations.feedbackStorage) (stage : Stage) :
    (r.addEmulation stage c inputs).storageBuffer? n = r.storageBuffer? n := by
  have hbase : r.emulationBase.storageBuffer? n = r.storageBuffer? n := by
    unfold emulationBase
    rw [storageBuffer?_addStorageBuffer, if_neg]
    · rfl
    · simp only [Buffer.unbounded, vertexOutput, hr, if_true]
      omega
  cases stage with
  | vertex =>
    obtain ⟨textures, heq, -⟩ := r.addEmulation_vertex c inputs
    rw [heq]
    exact hbase
  | geometry =>
    rw [← hbase, addEmulation_geometry]
    change (addStorageBuffer _ _).storageBuffer? n = _
    rw [storageBuffer?_addStorageBuffer, storageBuffer?_addStorageBuffer, if_neg, if_neg]
    · rfl
    · simp only [Buffer.unbounded, geometryVertexOutput, emulationBase,
        reservations_addStorageBuffer, addConstantBuffer, hr, if_true]
      omega
    · simp only [Buffer.words, Buffer.unbounded, geometryIndexOutput, emulationBase,
        reservations_addStorageBuffer, addConstantBuffer, hr, if_true]
      omega
  | _ => exact hbase

/-- Declarations before those of emulation: nothing of the guest's, and storage
buffers for captured outputs only. -/
structure Bare (r : Resources) : Prop where
  guestStorage : r.guestStorage = []
  guestTextures : r.guestTextures = []
  guestImages : r.guestImages = []
  localMemories : r.localMemories = []
  emulation : r.emulation = none
  feedback : r.reservations.emulatesFeedback → r.HasFeedback
  storage_lt : ∀ b ∈ r.storageBuffers, b.binding < r.reservations.feedbackStorage

theorem provides_of_emulation_none (hf : r.reservations.emulatesFeedback → r.HasFeedback)
    (he : r.emulation = none) : r.Provides inputs where
  feedback := hf
  info hs := by simp [he] at hs
  output hs := by simp [he] at hs
  memories memory hs := by simp [he] at hs
  fetch d v i hs := by simp [he] at hs

theorem numbered_of_storage_lt (hs : r.guestStorage = []) (ht : r.guestTextures = [])
    (hi : r.guestImages = []) (h : ∀ b ∈ r.storageBuffers, b.binding < r.reservations.storageBuffers) :
    r.Numbered where
  storage_lt := by simpa [hs] using h
  storage := by simp [hs]
  texture := by simp [ht]
  image := by simp [hi]

theorem Bare.numbered (h : r.Bare) : r.Numbered :=
  numbered_of_storage_lt h.guestStorage h.guestTextures h.guestImages fun b hb =>
    Nat.lt_of_lt_of_le (h.storage_lt b hb) (Nat.le_add_right _ _)

theorem hasInfo_emulationBase (r : Resources) : r.emulationBase.HasInfo :=
  ⟨.vertexInfo r.reservations.vertexInfo, by
    change (r.addConstantBuffer _).constantBuffer? _ = _
    exact (constantBuffer?_addConstantBuffer ..).trans (if_pos rfl), rfl⟩

theorem hasFeedback_addEmulation (h : r.Bare) (hr : r.reservations.emulated) (stage : Stage)
    (hf : r.reservations.emulatesFeedback) : (r.addEmulation stage c inputs).HasFeedback := by
  have hstor : r.reservations.feedbackStorage = 1 + maxFeedbackBuffers := by
    unfold feedbackStorage
    rw [if_pos hf]
  obtain ⟨⟨b, hb, hflds⟩, harr⟩ := h.feedback hf
  refine ⟨⟨b, ?_, hflds⟩, fun index hi => ?_⟩
  · rw [storageBuffer?_addEmulation hr (by omega), hb]
  · obtain ⟨b, f, hb, hf⟩ := harr index hi
    exact ⟨b, f, by rw [storageBuffer?_addEmulation hr (by omega), hb], hf⟩

theorem hasArray_addGeometryBuffers (r : Resources) (hr : r.reservations.emulated) :
    r.emulationBase.addGeometryBuffers.HasArray r.reservations.vertexOutput ∧
      r.emulationBase.addGeometryBuffers.HasArray r.reservations.geometryVertexOutput ∧
      r.emulationBase.addGeometryBuffers.HasArray r.reservations.geometryIndexOutput := by
  have hvtx : r.emulationBase.HasArray r.reservations.vertexOutput := hasArray_addStorageBuffer rfl rfl rfl rfl
  have hne : r.reservations.geometryVertexOutput ≠ r.reservations.vertexOutput ∧
      r.reservations.geometryIndexOutput ≠ r.reservations.vertexOutput ∧
      r.reservations.geometryIndexOutput ≠ r.reservations.geometryVertexOutput := by
    simp [geometryVertexOutput, vertexOutput, geometryIndexOutput, hr]
  exact ⟨HasArray.addStorageBuffer (HasArray.addStorageBuffer hvtx hne.1) hne.2.1,
    HasArray.addStorageBuffer (hasArray_addStorageBuffer rfl rfl rfl rfl) hne.2.2,
    hasArray_addStorageBuffer rfl rfl rfl rfl⟩

theorem Bare.provides_addEmulation (h : r.Bare) (hr : r.reservations.emulated) (stage : Stage) :
    (r.addEmulation stage c inputs).Provides inputs := by
  have hfb : r.reservations.emulatesFeedback → (r.addEmulation stage c inputs).HasFeedback :=
    hasFeedback_addEmulation h hr stage
  have hsmall : ∀ i < 4, r.emulationBase.localMemories.length + i < 2 ^ 32 := by
    have hbef : r.emulationBase.localMemories.length = 0 := congrArg length h.localMemories
    omega
  cases stage with
  | vertex =>
    obtain ⟨textures, heq, hfound⟩ := r.addEmulation_vertex c inputs
    rw [heq] at hfb ⊢
    refine ⟨hfb, fun _ => hasInfo_emulationBase r, fun _ => hasArray_addStorageBuffer rfl rfl rfl rfl,
      fun _ he => ?_, fun _ _ i _ location hl => (hfound _).2 (.inr (.inr ⟨location, hl, rfl⟩))⟩
    obtain rfl := Option.some.inj he
    have hmem := localMemory?_append
      (r := ({ r.emulationBase with textures } : Resources).beginEmulation .vertex c.inputTopology) rfl
    exact ⟨⟨hsmall 0 (by decide), _, hmem 0, rfl⟩, ⟨hsmall 1 (by decide), _, hmem 1, rfl⟩,
      ⟨hsmall 2 (by decide), _, hmem 2, rfl⟩, (hfound _).2 (.inr (.inl rfl))⟩
  | geometry =>
    obtain ⟨hout, hverts, hidxs⟩ := r.hasArray_addGeometryBuffers hr
    rw [addEmulation_geometry] at hfb ⊢
    refine ⟨hfb, fun _ => hasInfo_emulationBase r, fun _ => hout, fun _ he => ?_, nofun⟩
    obtain rfl := Option.some.inj he
    have hmem := localMemory?_append
      (r := r.emulationBase.addGeometryBuffers.beginEmulation .geometry c.inputTopology) rfl
    exact ⟨⟨hsmall 0 (by decide), _, hmem 0, rfl⟩, ⟨hsmall 1 (by decide), _, hmem 1, rfl⟩,
      ⟨hsmall 2 (by decide), _, hmem 2, rfl⟩, ⟨hsmall 3 (by decide), _, hmem 3, rfl⟩,
      isSome_texture?_addTexture.2 (.inl rfl), hverts, hidxs⟩
  | _ => exact provides_of_emulation_none hfb rfl

theorem Bare.numbered_addEmulation (h : r.Bare) (hr : r.reservations.emulated) (stage : Stage) :
    (r.addEmulation stage c inputs).Numbered := by
  have hreserved : r.reservations.storageBuffers = r.reservations.feedbackStorage + 3 := by
    rw [Reservations.storageBuffers, if_pos hr]
  obtain ⟨textures, storageBuffers, heq, hbufs⟩ := r.addEmulation_eq stage c inputs
  have hstor : ∀ b ∈ storageBuffers, b.binding < r.reservations.storageBuffers := by
    intro b hb
    obtain hown | hb := hbufs b hb
    · simp only [vertexOutput, geometryVertexOutput, geometryIndexOutput, hr,
        if_true, mem_cons, not_mem_nil, or_false] at hown
      omega
    · have := h.storage_lt b hb
      omega
  rw [heq]
  cases stage <;> exact numbered_of_storage_lt h.guestStorage h.guestTextures h.guestImages hstor

theorem shared_addEmulation (stage : Stage) : (r.addEmulation stage c inputs).sharedMemories = r.sharedMemories ∧
      (r.addEmulation stage c inputs).currentShared = r.currentShared := by
  obtain ⟨textures, storageBuffers, heq, -⟩ := r.addEmulation_eq stage c inputs
  rw [heq]
  cases stage <;> exact ⟨rfl, rfl⟩

theorem length_localMemories_addEmulation (h : r.Bare) (stage : Stage) :
    (r.addEmulation stage c inputs).localMemories.length ≤ 4 := by
  have hbef : r.emulationBase.localMemories = [] := h.localMemories
  obtain ⟨textures, storageBuffers, heq, -⟩ := r.addEmulation_eq stage c inputs
  rw [heq]
  cases stage <;> simp [beginEmulation, hbef]

end Emulation

/-- All that lowering and the passes address, but for what the program declares. -/
structure Prepared (r : Resources) (inputs : UInt32) : Prop extends r.Provides inputs, r.Numbered where
  localMemory : ∀ id, r.currentLocal = some id → r.HasWords id
  sharedMemory : ∀ id, r.currentShared = some id → r.HasShared id

theorem Prepared.declare (h : r.Prepared inputs) (p : Guest.Program) :
    (p.declare r).Prepared inputs ∧ ∀ op ∈ p.ops, op.Declared (p.declare r) := by
  obtain ⟨hnumd, hgrows, hdecl⟩ := p.declare_spec h.toNumbered
  refine ⟨⟨h.toProvides.mono hgrows.toExtends, hnumd, fun id hid => ?_, fun id hid => ?_⟩, hdecl⟩
  · rw [hgrows.currentLocal] at hid
    exact (h.localMemory id hid).mono hgrows.toExtends
  · rw [hgrows.currentShared] at hid
    exact (h.sharedMemory id hid).mono hgrows.toExtends

theorem localMemory_beginLocalMemory (h : r.localMemories.length < 2 ^ 32) (bytes : Nat) (used : Bool) :
    ∀ id, (r.beginLocalMemory bytes used).currentLocal = some id →
      (r.beginLocalMemory bytes used).HasWords id := by
  unfold beginLocalMemory
  split
  · rintro id ⟨⟩
    exact ⟨h, _, getElem?_concat_length, rfl⟩
  · exact nofun

theorem sharedMemory_beginSharedMemory (h : r.sharedMemories.length < 2 ^ 32) (bytes : Nat) (used : Bool) :
    ∀ id, (r.beginSharedMemory bytes used).currentShared = some id →
      (r.beginSharedMemory bytes used).HasShared id := by
  unfold beginSharedMemory
  split
  · rintro id ⟨⟩
    exact ⟨h, _, getElem?_concat_length, rfl⟩
  · exact nofun

theorem Numbered.beginLocalMemory (h : r.Numbered) (bytes : Nat) (used : Bool) :
    (r.beginLocalMemory bytes used).Numbered := by
  unfold Resources.beginLocalMemory
  split <;> exact ⟨h.storage_lt, h.storage, h.texture, h.image⟩

theorem Numbered.beginSharedMemory (h : r.Numbered) (bytes : Nat) (used : Bool) :
    (r.beginSharedMemory bytes used).Numbered := by
  unfold Resources.beginSharedMemory
  split <;> exact ⟨h.storage_lt, h.storage, h.texture, h.image⟩

theorem currentLocal_beginSharedMemory (bytes : Nat) (used : Bool) :
    (r.beginSharedMemory bytes used).currentLocal = r.currentLocal := by
  unfold beginSharedMemory
  split <;> rfl

theorem shared_beginLocalMemory (bytes : Nat) (used : Bool) :
    (r.beginLocalMemory bytes used).sharedMemories = r.sharedMemories ∧
      (r.beginLocalMemory bytes used).currentShared = r.currentShared := by
  unfold beginLocalMemory
  split <;> exact ⟨rfl, rfl⟩

end Resources

namespace StageContext

variable (s : StageContext) (emulated : Bool)

/-- The declarations before those of emulation. -/
def bareResources : Resources :=
  let r : Resources :=
    { stage := (s.configFor emulated).guestStage, api := s.options.api
      reservations := s.reservationsFor emulated }
  if s.host.emulatesTransformFeedback then r.addFeedback else r

theorem reservations_reservationsFor : (s.reservationsFor emulated).emulated = emulated ∧
    (s.reservationsFor emulated).emulatesFeedback = s.host.emulatesTransformFeedback := by
  cases emulated <;> exact ⟨rfl, rfl⟩

theorem bare_bareResources : (s.bareResources emulated).Bare := by
  have hfb := (s.reservations_reservationsFor emulated).2
  unfold bareResources
  dsimp only
  split
  · next hhost =>
    rw [hhost] at hfb
    have hprovided := hasFeedback_addFeedback (r :=
      { stage := (s.configFor emulated).guestStage, api := s.options.api
        reservations := s.reservationsFor emulated }) hfb
    rw [addFeedback_eq hfb] at hprovided ⊢
    refine ⟨rfl, rfl, rfl, rfl, rfl, fun _ => hprovided, ?_⟩
    change ∀ b ∈ [Buffer.feedbackInfo 0, .words 1 "tfe_data0", .words 2 "tfe_data1", .words 3 "tfe_data2",
      .words 4 "tfe_data3"], b.binding < (s.reservationsFor emulated).feedbackStorage
    rw [feedbackStorage, if_pos hfb]
    decide
  · next hhost =>
    refine ⟨rfl, rfl, rfl, rfl, rfl, fun hf => ?_, by simp⟩
    exact absurd (hfb.symm.trans hf) hhost

theorem resources_eq : s.resources emulated = if emulated then (s.bareResources emulated).addEmulation
    s.config.stage (s.configFor emulated) s.usage.attributes.inputs else s.bareResources emulated := rfl

theorem reservations_bareResources : (s.bareResources emulated).reservations = s.reservationsFor emulated := by
  unfold bareResources
  dsimp only
  split
  · next hhost => rw [addFeedback_eq ((s.reservations_reservationsFor emulated).2.trans hhost)]; rfl
  · rfl

theorem shared_bareResources : (s.bareResources emulated).sharedMemories = [] ∧
    (s.bareResources emulated).currentShared = none := by
  unfold bareResources
  dsimp only
  split
  · next hhost =>
    rw [addFeedback_eq ((s.reservations_reservationsFor emulated).2.trans hhost)]
    exact ⟨rfl, rfl⟩
  · exact ⟨rfl, rfl⟩

theorem provides_resources : (s.resources emulated).Provides s.usage.attributes.inputs := by
  have hbare := s.bare_bareResources emulated
  rw [resources_eq]
  split
  · next hemu =>
    refine hbare.provides_addEmulation ?_ _
    rw [reservations_bareResources, (s.reservations_reservationsFor emulated).1, hemu]
  · exact provides_of_emulation_none hbare.feedback hbare.emulation

theorem numbered_resources : (s.resources emulated).Numbered := by
  have hbare := s.bare_bareResources emulated
  rw [resources_eq]
  split
  · next hemu =>
    refine hbare.numbered_addEmulation ?_ _
    rw [reservations_bareResources, (s.reservations_reservationsFor emulated).1, hemu]
  · exact hbare.numbered

theorem memories_resources : (s.resources emulated).localMemories.length ≤ 4 ∧
    (s.resources emulated).sharedMemories = [] ∧ (s.resources emulated).currentShared = none := by
  have hbare := s.bare_bareResources emulated
  have hshared := s.shared_bareResources emulated
  rw [resources_eq]
  split
  · refine ⟨length_localMemories_addEmulation hbare _, ?_⟩
    exact ⟨(shared_addEmulation _).1.trans hshared.1, (shared_addEmulation _).2.trans hshared.2⟩
  · exact ⟨by simp [hbare.localMemories], hshared⟩

/-- The declarations that a stage is lowered against, before those of its program. -/
def prepared : Resources := s.beginSharedMemory (s.beginLocalMemory (s.resources emulated))

theorem prepared_prepared : (s.prepared emulated).Prepared s.usage.attributes.inputs := by
  obtain ⟨hlocal, hmems, hcurrent⟩ := s.memories_resources emulated
  have hprov := (s.provides_resources emulated).mono
    (extends_beginLocalMemory _ s.program.localMemorySize s.usage.features.localMemory)
  have hnumd := (s.numbered_resources emulated).beginLocalMemory s.program.localMemorySize s.usage.features.localMemory
  have hwords := localMemory_beginLocalMemory (Nat.lt_of_le_of_lt hlocal (by decide))
    s.program.localMemorySize s.usage.features.localMemory
  obtain ⟨hshared, hnone⟩ := shared_beginLocalMemory (r := s.resources emulated)
    s.program.localMemorySize s.usage.features.localMemory
  rw [hmems] at hshared
  rw [hcurrent] at hnone
  unfold prepared beginSharedMemory beginLocalMemory
  split
  · have hext := extends_beginSharedMemory
      ((s.resources emulated).beginLocalMemory s.program.localMemorySize s.usage.features.localMemory)
      s.host.sharedMemorySize s.usage.features.sharedMemory
    refine ⟨hprov.mono hext, hnumd.beginSharedMemory _ _, fun id hid => ?_,
      sharedMemory_beginSharedMemory (by simp [hshared]) _ _⟩
    rw [currentLocal_beginSharedMemory] at hid
    exact (hwords id hid).mono hext
  · exact ⟨hprov, hnumd, hwords, by simp [hnone]⟩

end StageContext
end ShaderRecompiler
