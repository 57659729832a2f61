import ShaderRecompiler.Proofs.Labels
import ShaderRecompiler.Proofs.Provision

/-! Operations that the check accepts and that have a text: their operands are as
many and of the kind that the instruction takes, and they address what is
declared. -/
namespace ShaderRecompiler

open List Operation Instruction IoVariable Operand Check

variable {c c' : Config} {i : ImageOp} {inst : Instruction} {v : IoVariable} {sources : List Operand} {n : Nat}
  {component : Operand} {op : Operation} {r : Resources} {x : Setting} {storage : Storage}

namespace Operand

def isLabel : Operand → Bool
  | label _ => true
  | _ => false

/-- Neither a label nor a word of a guest constant buffer. -/
def isValue : Operand → Bool
  | label _ | constantBuffer .. => false
  | _ => true

def isWritable : Operand → Bool
  | temp _ | register _ | predicate _ | var _ => true
  | _ => false

@[simp] theorem isLabel_word (n : Nat) : (word n).isLabel = false := rfl

@[simp] theorem isLabel_constant (w : UInt32) : (constant w).isLabel = false := rfl

@[simp] theorem asNat?_word (h : n < 2 ^ 32) : (word n).asNat? = some n :=
  congrArg some (UInt32.toNat_ofNat_of_lt h)

@[simp] theorem isLabel_temp (t : Nat) : (temp t).isLabel = false := rfl

@[simp] theorem isValue_temp (t : Nat) : (temp t).isValue := rfl

@[simp] theorem isValue_word (n : Nat) : (word n).isValue := rfl

@[simp] theorem isValue_constant (bits : UInt32) : (constant bits).isValue := rfl

variable {o : Operand}

theorem isLabel_of_isValue (h : o.isValue) : o.isLabel = false := by
  cases o <;> first | rfl | cases h

theorem IsTemp.isLabel_eq (h : o.IsTemp) : o.isLabel = false := by
  obtain ⟨t, rfl⟩ := h
  rfl

theorem IsTemp.asNat?_eq (h : o.IsTemp) : o.asNat? = none := by
  obtain ⟨t, rfl⟩ := h
  rfl

end Operand

def Operation.values (op : Operation) : List Operand :=
  if op.inst.isStraight then op.sources else op.sources.drop 1

/-- Addresses neither the stage interface nor a resource. -/
def Instruction.isPlain : Instruction → Bool
  | load | store | textureSample _ | imageLoad _ | imageStore _ => false
  | inst => inst.isStraight

/-- Computes a result from `n` values, without looking at an interface or a resource. -/
def Instruction.computes (inst : Instruction) (n : Nat) : Bool :=
  inst.isPlain && inst.hasDestination && inst.arity == n

theorem Instruction.computes_iff :
    inst.computes n ↔ inst.isPlain ∧ inst.hasDestination ∧ inst.arity = n := by
  simp [computes, and_assoc]

/-- What operations are put together against. -/
structure Setting where
  config : Config
  resources : Resources
  /-- Generic inputs that an emulated vertex stage can fetch. -/
  inputs : UInt32
  /-- The location of a per-patch attribute may be computed. -/
  indexesPatch : Prop
  /-- Textures that may be sampled without being declared. -/
  undeclared : Nat → Prop

namespace Setting

/-- The texture can be sampled. -/
def Samples (x : Setting) (binding : Nat) : Prop :=
  (x.resources.texture? binding).isSome ∨ x.undeclared binding

/-- An emulated vertex stage can fetch its generic inputs. -/
def Fetches (x : Setting) : Prop :=
  ∀ d v i, x.resources.emulation = some (.vertex d v i) → ∀ location ∈ Mask.below x.inputs Attribute.userLocations,
    x.Samples (x.resources.reservations.vertexBuffer location)

/-- What writing operations as text may fail with. -/
structure Admits (x : Setting) (E : Glsl.Error → Prop) : Prop where
  patch : x.indexesPatch → E (.unsupportedIo .dynamicPatchLocation)
  texture : ∀ n, x.undeclared n → E (.undeclared .texture n)

/-- An access that GLSL, or emulation in its place, can express. -/
structure Allows (x : Setting) (storage : Storage) (v : IoVariable) (location component : Operand) :
    Prop where
  color : v = .fragmentOutputColor → location.asNat?.isSome
  patch : v = .userDefined → storage.isPerPatch → location.asNat?.isSome ∨ x.indexesPatch
  output : v = .userDefined → storage.isOutput → location.asNat?.isSome →
    ∃ i < 4, component.asNat? = some i
  input : v = .userDefined → storage = .input → x.config.guestStage = .vertex →
    ∀ n, location.asNat? = some n → n ∈ Mask.below x.inputs Attribute.userLocations

def Accesses (x : Setting) (storage : Storage) (sources : List Operand) : Prop :=
  ∃ v location vertex component rest,
    sources = x.config.accessSources storage v location vertex component ++ rest ∧
      x.Allows storage v location component

theorem Allows.builtin {location : Operand}
    (hv : v.hasLocation = false) : x.Allows storage v location component where
  color h := by simp [h, hasLocation] at hv
  patch h := by simp [h, hasLocation] at hv
  output h := by simp [h, hasLocation] at hv
  input h := by simp [h, hasLocation] at hv

end Setting

theorem IoVariable.asNat?_operand (v : IoVariable) : v.operand.asNat? = some v.number :=
  asNat?_word (by cases v <;> decide)

/-- An operation that the check accepts: its sources are as many as its instruction and
what it addresses ask for, and it has a destination if it has a result. -/
structure Operation.Checked (c : Config) (r : Resources) (op : Operation) : Prop where
  count : expectedSources c r op = .ok op.sources.length
  dest : op.dest.isSome = op.inst.hasDestination

structure Operation.Fits (x : Setting) (op : Operation) : Prop extends op.Checked x.config x.resources where
  writable : ∀ d, op.dest = some d → d.isWritable
  labelled : op.Labelled
  values : ∀ o ∈ op.values, o.isLabel = false
  access : op.inst = .load ∨ op.inst = .store → op.storage.isIo → x.Accesses op.storage op.sources
  texture : ∀ t, op.inst = .textureSample t → x.Samples t.binding
  image : ∀ i, op.inst = .imageLoad i ∨ op.inst = .imageStore i →
    (x.resources.image? i.binding).isSome

namespace Config

theorem hasVertexIndex_congr (h : c'.guestStage = c.guestStage) : c'.hasVertexIndex = c.hasVertexIndex := by
  funext storage v
  simp only [hasVertexIndex, h]

theorem accessSources_congr (h : c'.guestStage = c.guestStage) : c'.accessSources = c.accessSources := by
  funext storage v location vertex component
  rw [accessSources, accessSources, hasVertexIndex_congr h]

theorem forall_accessSources {p : Operand → Prop} (hv : p v.operand) (hloc : p location) (hvertex : p vertex)
    (hcomp : p component) : ∀ o ∈ c.accessSources storage v location vertex component, p o := by
  intro o ho
  simp only [accessSources, mem_append, mem_singleton, mem_ite_nil_right] at ho
  obtain ((rfl | ⟨-, rfl⟩) | ⟨-, rfl⟩) | ⟨-, rfl⟩ := ho <;> assumption

end Config

namespace Check

variable {r' : Resources}

theorem elementSources_of_isIo (hio : op.storage.isIo) : elementSources c r op = ioSources c op := by
  unfold elementSources
  cases hstor : op.storage <;> first | rfl | simp [hstor, Storage.isIo, Storage.isInput, Storage.isOutput] at hio

theorem found_mono {α : Type} {f : Option α → Except Fault Nat} {find find' : Nat → Option α}
    (hnone : f none ≠ .ok n) (hfind : ∀ {id a}, find id = some a → find' id = some a)
    (h : f ((op.place? 0).bind find) = .ok n) : f ((op.place? 0).bind find') = .ok n := by
  cases hfound : (op.place? 0).bind find with
  | none => exact absurd (hfound ▸ h) hnone
  | some a =>
    obtain ⟨id, hid, ha⟩ := Option.bind_eq_some_iff.1 hfound
    rwa [hid, Option.bind_some, hfind ha, ← hfound]

theorem elementSources_mono (hstg : c'.guestStage = c.guestStage) (hext : r.Extends r')
    (h : elementSources c r op = .ok n) : elementSources c' r' op = .ok n := by
  have hio : ioSources c' op = ioSources c op := by
    rw [ioSources, ioSources, Config.hasVertexIndex_congr hstg]
  unfold elementSources at h ⊢
  rw [hio]
  cases hstor : op.storage with
  | input | output | inputPerPatch | outputPerPatch | none => rwa [hstor] at h
  | constantBuffer =>
    rw [hstor] at h
    dsimp only at h ⊢
    split at h
    · cases h
    · next hstore =>
      rw [if_neg hstore]
      exact found_mono (f := bufferSources op _) (by simp [bufferSources]) hext.constantBuffer h
  | storageBuffer =>
    rw [hstor] at h
    exact found_mono (f := bufferSources op _) (by simp [bufferSources]) hext.storageBuffer h
  | localMemory =>
    rw [hstor] at h
    exact found_mono (f := memorySources op _) (by simp [memorySources]) hext.localMemory h
  | sharedMemory =>
    rw [hstor] at h
    exact found_mono (f := memorySources op _) (by simp [memorySources]) hext.sharedMemory h

theorem expectedSources_mono (hstg : c'.guestStage = c.guestStage) (hext : r.Extends r')
    (h : expectedSources c r op = .ok n) : expectedSources c' r' op = .ok n := by
  unfold expectedSources at h ⊢
  split at h
  · exact elementSources_mono hstg hext h
  · cases helt : elementSources c r op with
    | error e =>
      rw [helt] at h
      cases h
    | ok k =>
      rw [helt] at h
      rw [elementSources_mono hstg hext helt]
      exact h
  · exact h

end Check

namespace Operation

namespace Checked

theorem mono (h : op.Checked c r) (hstg : c'.guestStage = c.guestStage) (hext : r.Extends r') :
    op.Checked c' r' :=
  ⟨expectedSources_mono hstg hext h.count, h.dest⟩

theorem operation_eq_ok (h : op.Checked c r) : operation c r op = .ok () := by
  have hdest := h.dest
  unfold operation
  simp only [h.count, bind, Except.bind]
  rw [if_neg (by simp)]
  cases hd : op.dest <;> rw [hd] at hdest <;> rw [← hdest] <;> rfl

theorem of_operation_eq_ok (h : operation c r op = .ok ()) : op.Checked c r := by
  unfold operation at h
  cases hcnt : expectedSources c r op with
  | error e =>
    rw [hcnt] at h
    cases h
  | ok n =>
    simp only [hcnt, bind, Except.bind] at h
    split at h
    · cases h
    next hlen =>
    refine ⟨hcnt.trans (congrArg Except.ok (Decidable.not_not.1 hlen).symm), ?_⟩
    cases hhas : op.inst.hasDestination <;> cases hdest : op.dest <;> rw [hhas, hdest] at h <;>
      first | rfl | cases h

theorem length_eq (h : op.Checked c r) (hl : op.inst ≠ .load) (hs : op.inst ≠ .store) :
    op.sources.length = op.inst.arity := by
  have hcnt := h.count
  unfold expectedSources at hcnt
  split at hcnt
  · next hi => exact absurd hi hl
  · next hi => exact absurd hi hs
  · exact (Except.ok.inj hcnt).symm

theorem elementSources_load (h : op.Checked c r) (hi : op.inst = .load) :
    elementSources c r op = .ok op.sources.length := by
  have hcnt := h.count
  rwa [expectedSources, hi] at hcnt

theorem elementSources_store (h : op.Checked c r) (hi : op.inst = .store) :
    ∃ n, elementSources c r op = .ok n ∧ op.sources.length = n + 1 := by
  have hcnt := h.count
  rw [expectedSources, hi] at hcnt
  cases helt : elementSources c r op with
  | error e =>
    rw [helt] at hcnt
    cases hcnt
  | ok n =>
    rw [helt] at hcnt
    exact ⟨n, rfl, (Except.ok.inj hcnt).symm⟩

end Checked

theorem labelled_of_straight (h : op.inst.isStraight) : op.Labelled := by
  intro hs
  simp [h] at hs

theorem values_of_straight (h : op.inst.isStraight) : op.values = op.sources := if_pos h

theorem values_subset (op : Operation) : op.values ⊆ op.sources := by
  unfold values
  split
  · exact fun _ ho => ho
  · exact drop_subset 1 op.sources

theorem Fits.plain (h : op.inst.isPlain) (hlen : op.sources.length = op.inst.arity)
    (hdest : op.dest.isSome = op.inst.hasDestination) (hw : ∀ d, op.dest = some d → d.isWritable)
    (hv : ∀ o ∈ op.sources, o.isLabel = false) : op.Fits x := by
  have hs : op.inst.isStraight := by
    revert h
    cases op.inst <;> simp [isPlain, isStraight]
  refine ⟨⟨?_, hdest⟩, hw, labelled_of_straight hs, ?_, ?_, ?_, ?_⟩
  · rw [hlen]
    unfold expectedSources
    split <;> simp_all [isPlain]
  · rwa [values_of_straight hs]
  · rintro (hi | hi) <;> simp [hi, isPlain] at h
  · intro t ht
    simp [ht, isPlain] at h
  · rintro i (hi | hi) <;> simp [hi, isPlain] at h

theorem Fits.ret : Fits x ⟨.ret, .none, none, []⟩ :=
  ⟨⟨rfl, rfl⟩, nofun, fun _ h => absurd rfl h, by simp [Operation.values], nofun, nofun, nofun⟩

theorem Fits.labelling (inst : Instruction) (l : Nat) (rest : List Operand)
    (hs : inst.isStraight = false) (hlen : rest.length + 1 = inst.arity) (hv : ∀ o ∈ rest, o.isLabel = false) :
    Fits x ⟨inst, .none, none, .label l :: rest⟩ where
  count := by
    rw [length_cons, hlen]
    cases inst <;> first | rfl | cases hs
  dest := by cases inst <;> first | rfl | cases hs
  writable := nofun
  labelled _ _ := ⟨l, rfl⟩
  values := by
    rw [Operation.values, if_neg (by simp [hs])]
    exact hv
  access := by rintro (rfl | rfl) <;> cases hs
  texture := by
    rintro t rfl
    cases hs
  image := by rintro i (rfl | rfl) <;> cases hs

theorem Fits.markLabel (l : Nat) : Fits x ⟨.markLabel, .none, none, [.label l]⟩ :=
  .labelling _ _ _ rfl rfl (by simp)

theorem Fits.branch (l : Nat) : Fits x ⟨.branch, .none, none, [.label l]⟩ :=
  .labelling _ _ _ rfl rfl (by simp)

theorem Fits.conditional (h : inst.isConditionalBranch) (l : Nat) {cond : Operand}
    (hc : cond.isLabel = false) : Fits x ⟨inst, .none, none, [.label l, cond]⟩ := by
  cases inst
  case branchIfTrue | branchIfFalse => exact .labelling _ _ _ rfl rfl (by simp [hc])
  all_goals cases h

section Resource

variable (hv : ∀ o ∈ sources, o.isLabel = false) {dest : Operand}

include hv

theorem Fits.textureSample (hw : dest.isWritable) {t : TextureOp}
    (ht : x.Samples t.binding) (hlen : sources.length = t.sampler.coordinates + t.lod.toNat) :
    Fits x ⟨.textureSample t, .none, some dest, sources⟩ :=
  ⟨⟨by rw [hlen]; rfl, rfl⟩, fun _ hd => Option.some.inj hd ▸ hw, labelled_of_straight rfl, hv, nofun,
    fun _ h => textureSample.inj h ▸ ht, nofun⟩

theorem Fits.imageLoad (hw : dest.isWritable)
    (hi : (x.resources.image? i.binding).isSome) (hlen : sources.length = i.sampler.coordinates) :
    Fits x ⟨.imageLoad i, .none, some dest, sources⟩ := by
  refine ⟨⟨by rw [hlen]; rfl, rfl⟩, fun _ hd => Option.some.inj hd ▸ hw, labelled_of_straight rfl, hv,
    nofun, nofun, ?_⟩
  rintro i' (⟨⟨⟩⟩ | ⟨⟨⟩⟩)
  exact hi

theorem Fits.imageStore (hi : (x.resources.image? i.binding).isSome)
    (hlen : sources.length = i.sampler.coordinates + 4) :
    Fits x ⟨.imageStore i, .none, none, sources⟩ := by
  refine ⟨⟨by rw [hlen]; rfl, rfl⟩, nofun, labelled_of_straight rfl, hv, nofun, nofun, ?_⟩
  rintro i' (⟨⟨⟩⟩ | ⟨⟨⟩⟩)
  exact hi

theorem Fits.load (hw : dest.isWritable)
    (hcnt : elementSources x.config x.resources ⟨.load, storage, some dest, sources⟩ =
      .ok sources.length)
    (hio : storage.isIo → x.Accesses storage sources) :
    Fits x ⟨.load, storage, some dest, sources⟩ :=
  ⟨⟨hcnt, rfl⟩, fun _ hd => Option.some.inj hd ▸ hw, labelled_of_straight rfl, hv, fun _ => hio, nofun, nofun⟩

theorem Fits.store (hlen : sources.length = n + 1)
    (hcnt : elementSources x.config x.resources ⟨.store, storage, none, sources⟩ =
      .ok n)
    (hio : storage.isIo → x.Accesses storage sources) :
    Fits x ⟨.store, storage, none, sources⟩ := by
  refine ⟨⟨?_, rfl⟩, nofun, labelled_of_straight rfl, hv, fun _ => hio, nofun, nofun⟩
  change (· + 1) <$> elementSources x.config x.resources _ = _
  rw [hcnt, hlen]
  rfl

end Resource

/-! What the first sources of an access name. -/

section Element

variable {dest : Option Operand} {id : Nat}

theorem elementSources_localWord (h : r.HasWord id) : elementSources c r
    ⟨inst, .localMemory, dest, .word id :: rest⟩ = .ok 1 := by
  obtain ⟨hid, m, hm, hlen⟩ := h
  simp [elementSources, memorySources, place?, source?, asNat?_word hid, hm, hlen]

theorem elementSources_localWords (h : r.HasWords id) : elementSources c r
    ⟨inst, .localMemory, dest, .word id :: rest⟩ = .ok 2 := by
  obtain ⟨hid, m, hm, hlen⟩ := h
  simp [elementSources, memorySources, place?, source?, asNat?_word hid, hm, hlen]

theorem elementSources_shared (h : r.HasShared id) : elementSources c r
    ⟨inst, .sharedMemory, dest, .word id :: rest⟩ = .ok 2 := by
  obtain ⟨hid, m, hm, hlen⟩ := h
  simp [elementSources, memorySources, place?, source?, asNat?_word hid, hm, hlen]

theorem elementSources_array (hid : id < 2 ^ 32) (h : r.HasArray id) : elementSources c r
    ⟨inst, .storageBuffer, dest, .word id :: .word 0 :: rest⟩ = .ok 3 := by
  obtain ⟨b, f, hb, hf, hlen, htype⟩ := h
  simp [elementSources, bufferSources, place?, source?, asNat?_word hid,
    asNat?_word, hb, hf, hlen, htype]

/-- The sources of a field of the description of a draw. -/
def infoSources (field : Nat) : Nat := if field = VertexInfo.strides then 4 else 3

theorem elementSources_info (h : r.HasInfo) {field : Nat} (hfld : field < 4) : elementSources c r
    ⟨.load, .constantBuffer, dest, .word r.reservations.vertexInfo :: .word field :: rest⟩ =
      .ok (infoSources field) := by
  obtain ⟨b, hb, hflds⟩ := h
  have hid : r.reservations.vertexInfo < 2 ^ 32 := by
    unfold Reservations.vertexInfo
    split <;> decide
  obtain rfl | rfl | rfl | rfl : field = 0 ∨ field = 1 ∨ field = 2 ∨ field = 3 := by omega
  all_goals
    simp [elementSources, bufferSources, place?, source?, asNat?_word hid,
      asNat?_word, hb, hflds, Buffer.vertexInfo, Buffer.drawInfo, Buffer.vertexCounts,
      FieldType.isVector, infoSources, VertexInfo.strides]

end Element

/-! Accesses to the stage interface. -/

section Io

variable
  {location vertex : Operand}

theorem ioVariable?_cons (hio : op.storage.isIo) (h : op.sources = v.operand :: rest) :
    op.ioVariable? = some v := by
  have hplc : op.place? 0 = some v.number := by simp [place?, source?, h, v.asNat?_operand]
  rw [ioVariable?, if_pos hio, hplc]
  exact v.ofNumber?_number

theorem ioVariable?_eq (hio : op.storage.isIo)
    (h : op.sources = c.accessSources storage v location vertex component ++ rest) :
    op.ioVariable? = some v :=
  ioVariable?_cons hio h

theorem elementSources_io (hio : op.storage.isIo)
    (h : op.sources = c.accessSources op.storage v location vertex component ++ rest) :
    elementSources c r op = .ok (c.accessSources op.storage v location vertex component).length := by
  rw [elementSources_of_isIo hio, ioSources, ioVariable?_eq hio h]
  simp only [Config.accessSources]
  cases v.hasLocation <;> cases c.hasVertexIndex op.storage v <;> cases v.hasComponent <;> rfl

theorem ofOperation_eq (hio : op.storage.isIo)
    (h : op.sources = c.accessSources op.storage v location vertex component ++ rest) :
    Glsl.Access.ofOperation c op = .ok
      { io := v
        location := if v.hasLocation then some location else none
        vertex := if c.hasVertexIndex op.storage v then some vertex else none
        component := if v.hasComponent then some component else none } := by
  rw [Glsl.Access.ofOperation, ioVariable?_eq hio h]
  simp only [Glsl.Access.take, source?, h, Config.accessSources]
  cases v.hasLocation <;> cases c.hasVertexIndex op.storage v <;> cases v.hasComponent <;> rfl

end Io

section Access

variable {location vertex : Operand}
  (hio : storage.isIo) (ha : x.Allows storage v location component)
  (hl : location.isLabel = false) (hvertex : vertex.isLabel = false) (hc : component.isLabel = false)

include hio ha hl hvertex hc

theorem Fits.loadIo {dest : Operand} (hw : dest.isWritable) :
    Fits x ⟨.load, storage, some dest, x.config.accessSources storage v location vertex component⟩ :=
  .load (Config.forall_accessSources rfl hl hvertex hc) hw
    (elementSources_io hio (append_nil _).symm)
    fun _ => ⟨v, location, vertex, component, [], (append_nil _).symm, ha⟩

theorem Fits.storeIo {value : Operand} (hval : value.isLabel = false) :
    Fits x ⟨.store, storage, none, x.config.accessSources storage v location vertex component ++ [value]⟩ := by
  refine .store ?_ length_append (elementSources_io hio rfl)
    fun _ => ⟨v, location, vertex, component, [value], rfl, ha⟩
  exact forall_mem_append.2 ⟨Config.forall_accessSources rfl hl hvertex hc, forall_mem_singleton.2 hval⟩

end Access

end Operation

/-! What emulation reads and writes. -/

/-- The words of local memory in which emulation keeps indices and counts. -/
def EmulationMemory.words : EmulationMemory → List Nat
  | vertex _ vertexRate instanceRate => [vertexRate, instanceRate]
  | geometry _ _ vertexCounter indexCounter => [vertexCounter, indexCounter]

theorem Reservations.outputs_lt (r : Reservations) :
    r.vertexOutput < 2 ^ 32 ∧ r.geometryVertexOutput < 2 ^ 32 ∧ r.geometryIndexOutput < 2 ^ 32 := by
  have hfb : r.feedbackStorage ≤ 1 + maxFeedbackBuffers := by
    unfold feedbackStorage
    split <;> decide
  simp only [maxFeedbackBuffers] at hfb
  unfold vertexOutput geometryVertexOutput geometryIndexOutput
  split <;> omega

namespace Resources

section Kinds

variable (r : Resources)

/-- Words that emulation reads. -/
inductive Fetches : Storage → List Operand → Prop
  | info (he : r.emulation.isSome) {field : Nat} (hfield : field < 4) {indices : List Nat}
    (hlength : indices.length + 2 = infoSources field) :
    Fetches .constantBuffer (.word r.reservations.vertexInfo :: .word field :: indices.map word)
  | word {memory : EmulationMemory} (hm : r.emulation = some memory) {n : Nat} (hn : n ∈ memory.words) :
    Fetches .localMemory [.word n]
  | record {memory : EmulationMemory} (hm : r.emulation = some memory) (offset : Nat) :
    Fetches .localMemory [.word memory.vertexData, .word offset]
  | vertex (he : r.emulation.isSome) {place : Operand} (hplace : place.isValue) :
    Fetches .storageBuffer [.word r.reservations.vertexOutput, .word 0, place]

/-- Words that emulation writes beside the record of outputs. -/
inductive Keeps : Storage → List Operand → Prop
  | word {memory : EmulationMemory} (hm : r.emulation = some memory) {n : Nat} (hn : n ∈ memory.words) :
    Keeps .localMemory [.word n]
  | remap {data remap vertices indices : Nat} (hm : r.emulation = some (.geometry data remap vertices indices))
    (index : Nat) : Keeps .localMemory [.word remap, .word index]
  | vertex (he : r.emulation.isSome) {place : Operand} (hplace : place.isValue) :
    Keeps .storageBuffer [.word r.reservations.vertexOutput, .word 0, place]
  | appended {data remap vertices indices : Nat} (hm : r.emulation = some (.geometry data remap vertices indices))
    {buffer : Nat} (hbuffer : buffer = r.reservations.geometryVertexOutput ∨
      buffer = r.reservations.geometryIndexOutput)
    {place : Operand} (hplace : place.isValue) : Keeps .storageBuffer [.word buffer, .word 0, place]

end Kinds

theorem Fetches.isIo_eq (h : r.Fetches storage sources) : storage.isIo = false := by
  cases h <;> rfl

theorem Keeps.isIo_eq (h : r.Keeps storage sources) : storage.isIo = false := by
  cases h <;> rfl

theorem Fetches.isValue (h : r.Fetches storage sources) : ∀ o ∈ sources, o.isValue := by
  cases h with
  | vertex _ hplc => simp [hplc]
  | _ => simp

theorem Keeps.isValue (h : r.Keeps storage sources) : ∀ o ∈ sources, o.isValue := by
  cases h with
  | vertex _ hplc | appended _ _ hplc => simp [hplc]
  | _ => simp

theorem HasMemories.hasWords (h : r.HasMemories memory) : r.HasWords memory.vertexData := by
  cases memory <;> exact h.1

theorem HasMemories.hasWord (h : r.HasMemories memory) (hn : n ∈ memory.words) :
    r.HasWord n := by
  cases memory with
  | vertex =>
    obtain ⟨-, hvertex, hinsta, -⟩ := h
    obtain rfl | rfl : _ ∨ _ := by simpa [EmulationMemory.words] using hn
    · exact hvertex
    · exact hinsta
  | geometry =>
    obtain ⟨-, -, hvertex, hidx, -⟩ := h
    obtain rfl | rfl : _ ∨ _ := by simpa [EmulationMemory.words] using hn
    · exact hvertex
    · exact hidx

section Element

variable (hp : r.Provides inputs) (c : Config)
include hp

theorem Fetches.elementSources_eq (h : r.Fetches storage sources) (dest : Option Operand) :
    elementSources c r ⟨.load, storage, dest, sources⟩ = .ok sources.length := by
  cases h with
  | info he hfld hlen =>
    rw [elementSources_info (hp.info he) hfld, ← hlen]
    simp
  | word hm hn => exact elementSources_localWord ((hp.memories _ hm).hasWord hn)
  | record hm => exact elementSources_localWords (hp.memories _ hm).hasWords
  | vertex he => exact elementSources_array r.reservations.outputs_lt.1 (hp.output he)

theorem Keeps.elementSources_eq (h : r.Keeps storage sources) (value : Operand) :
    elementSources c r ⟨.store, storage, none, sources ++ [value]⟩ =
      .ok sources.length := by
  cases h with
  | word hm hn => exact elementSources_localWord ((hp.memories _ hm).hasWord hn)
  | remap hm => exact elementSources_localWords (hp.memories _ hm).2.1
  | vertex he => exact elementSources_array r.reservations.outputs_lt.1 (hp.output he)
  | appended hm hbuf =>
    obtain ⟨-, -, -, -, -, hverts, hidxs⟩ := hp.memories _ hm
    obtain rfl | rfl := hbuf
    · exact elementSources_array r.reservations.outputs_lt.2.1 hverts
    · exact elementSources_array r.reservations.outputs_lt.2.2 hidxs

end Element
end Resources
end ShaderRecompiler
