import ShaderRecompiler.Proofs.Assembly

/-! What lowering emits fits the declarations that it is done against, and its
labels are in order. -/
namespace ShaderRecompiler

open List Operation Attribute Operand Check Option

variable {inst : Instruction} {dest : Option Operand} {storage : Storage}

/-- Textures and images are accessed with as many coordinates as they have. -/
def Guest.Op.hasCoordinates : Guest.Op → Bool
  | tex _ _ _ sampler coords _ _ | suld _ _ _ sampler coords | sust _ _ sampler coords =>
    coords.length == sampler.coordinates
  | _ => true

/-- A per-patch attribute is accessed at a computed location. -/
def Guest.Op.indexesPatch : Guest.Op → Bool
  | ald _ count _ _ offset perPatch _ => count != 0 && offset.isSome && perPatch
  | ast _ count _ _ offset perPatch => count != 0 && offset.isSome && perPatch
  | _ => false

/-- Inputs that are read without an index are among those an emulated stage can fetch. -/
def Setting.Covers (x : Setting) (storage : Storage) (address : Nat) : Prop :=
  storage = .input → ∀ stage isOutput perPatch location component,
    resolve address stage isOutput perPatch = some (.user location component) →
      location ∈ Mask.below x.inputs userLocations

theorem Setting.allows_target {x : Setting} {target : Target}
    (ht : resolve address stage isOutput perPatch = some target) (hin : x.Covers storage address) :
    x.Allows storage target.io (.word target.location) (.word target.component) := by
  cases target with
  | builtin v component => exact .builtin (resolve_builtin ht)
  | user location component =>
    obtain ⟨hloc, hcomp⟩ := resolve_user ht
    have hsmall : location < 2 ^ 32 := Nat.lt_trans hloc (by decide)
    refine ⟨nofun, fun _ _ => .inl rfl, fun _ _ _ => ?_, fun _ hinp _ _ hn => ?_⟩
    · exact ⟨component, hcomp, asNat?_word (Nat.lt_trans hcomp (by decide))⟩
    · rw [Target.location, asNat?_word hsmall] at hn
      exact some.inj hn ▸ hin hinp _ _ _ _ _ ht

namespace Guest.Op.Accesses

variable {op : Guest.Op}

theorem mem_inputWords (h : op.Accesses inst .input address none) : address ∈ op.inputWords := by
  generalize hs : Storage.input = storage at h
  generalize ho : (none : Option Register) = offset at h
  cases h with
  | ald hword =>
    obtain ⟨rfl, rfl⟩ := Lowering.attributeStorage_eq_input.1 hs.symm
    exact ho ▸ hword
  | ast => cases (Lowering.attributeStorage_eq_input.1 hs.symm).1
  | ipa => exact ho ▸ mem_singleton_self _

theorem indexesPatch (h : op.Accesses inst storage address (some r)) (hpat : storage.isPerPatch) :
    op.indexesPatch := by
  generalize ho : some r = offset at h
  cases h with
  | ald hword | ast hword =>
    rw [Lowering.isPerPatch_attributeStorage] at hpat
    simp [Guest.Op.indexesPatch, ← ho, hpat, Lowering.ne_zero_of_mem_words hword]
  | ipa => cases hpat

end Guest.Op.Accesses

namespace Lowering

variable {l : Lowering} {G : Option Guest.Op → Prop} {inputs fetched : UInt32} {D : Prop}

/-- What the operations of a lowering have to fit. -/
abbrev setting (l : Lowering) (inputs : UInt32) (D : Prop) : Setting :=
  ⟨l.config, l.resources, inputs, D, fun _ => False⟩

theorem elementSources_feedbackInfo (hf : r.HasFeedback) (hfld : field < 2) : elementSources c r
      ⟨.load, .storageBuffer, dest, .word 0 :: .word field :: rest⟩ =
        .ok (3 - field) := by
  obtain ⟨⟨b, hb, hflds⟩, -⟩ := hf
  obtain rfl | rfl : field = 0 ∨ field = 1 := by omega
  all_goals
    simp [elementSources, bufferSources, place?, source?,
      asNat?_word, hb, hflds, Buffer.feedbackInfo, FieldType.isVector]

def HasSpace (r : Resources) : Guest.Space → Prop
  | .localMemory => ∃ id, r.currentLocal = some id ∧ r.HasWords id
  | .sharedMemory => ∃ id, r.currentShared = some id ∧ r.HasShared id
  | .global slot => (r.useStorageBuffer slot).1 < 2 ^ 32 ∧ r.HasArray (r.useStorageBuffer slot).1

theorem elementSources_space {space : Guest.Space} (h : HasSpace r space) : elementSources c r
      ⟨inst, (spaceBlock r space).1, dest, (spaceBlock r space).2 ++ index :: rest⟩ =
        .ok ((spaceBlock r space).2.length + 1) := by
  cases space with
  | localMemory =>
    obtain ⟨id, hid, hwords⟩ := h
    simp only [spaceBlock, hid, getD_some]
    exact elementSources_localWords hwords
  | sharedMemory =>
    obtain ⟨id, hid, hwords⟩ := h
    simp only [spaceBlock, hid, getD_some]
    exact elementSources_shared hwords
  | «global» slot => exact elementSources_array h.1 h.2

def Finds (r : Resources) : Guest.Op → Prop
  | .tex _ _ handle sampler _ _ _ => (r.texture? (r.useTexture ⟨handle, sampler, .f32⟩).1).isSome
  | .suld _ _ handle sampler _ | .sust _ handle sampler _ =>
    (r.image? (r.useImage ⟨handle, sampler, .u32⟩).1).isSome
  | .ld _ count space _ _ | .st _ count space _ _ => count ≠ 0 → HasSpace r space
  | _ => True

/-- What an instruction asks of its surroundings. -/
structure Suits (x : Setting) (op : Guest.Op) : Prop where
  finds : Finds x.resources op
  coordinates : op.hasCoordinates
  patch : op.indexesPatch → x.indexesPatch
  input : ∀ address ∈ op.inputWords, x.Covers .input address

section Fits

variable (hp : l.resources.Provides fetched)
  (hG : ∀ op, G (some op) → Suits (l.setting inputs D) op) {sources : List Operand}
include hG

theorem Touches.allows {v : IoVariable} (h : l.Touches G inst storage v location vertex component) :
    (l.setting inputs D).Allows storage v location component := by
  cases h with
  | builtin hv => exact .builtin hv
  | @initial _ _ component hv hcomp =>
    obtain ⟨rfl, -⟩ | ⟨rfl, -⟩ := hv
    · exact .builtin rfl
    · refine ⟨nofun, fun _ _ => .inl rfl, fun _ _ _ => ?_, nofun⟩
      exact ⟨component, hcomp, asNat?_word (Nat.lt_trans hcomp (by decide))⟩
  -- The layer is forwarded by geometry stages only, which fetch no input.
  | forwarded _ hstg => exact ⟨nofun, nofun, nofun, fun _ _ hs => nomatch hstg.symm.trans hs⟩
  | layer => exact .builtin rfl
  | captured _ _ _ _ _ ht => exact Setting.allows_target ht nofun
  | fragment hv =>
    obtain rfl | rfl := hv
    · exact ⟨fun _ => rfl, nofun, nofun, nofun⟩
    · exact .builtin rfl
  | fixed hop hacc ht =>
    refine Setting.allows_target ht fun hs => ?_
    subst hs
    exact (hG _ hop).input _ hacc.mem_inputWords rfl
  -- A computed location names no place, so only per-patch accesses need a licence.
  | indexed hop hacc =>
    exact ⟨nofun, fun _ hpat => .inr ((hG _ hop).patch (hacc.indexesPatch hpat)), nofun, nofun⟩

include hp in
theorem Fetches.elementSources_eq (h : l.Fetches G storage sources)
    (dest : Option Operand) : elementSources l.config l.resources ⟨.load, storage, dest, sources⟩ =
      .ok sources.length := by
  cases h with
  | emulation h => exact h.elementSources_eq hp l.config dest
  | captures hinfo | captureOffset hinfo =>
    obtain ⟨hems, rfl⟩ := ite_some_none_eq_some.1 hinfo
    exact elementSources_feedbackInfo (hp.feedback hems) (by decide)
  | space hop hcnt =>
    rw [length_append]
    exact elementSources_space ((hG _ hop).finds hcnt)

include hp in
theorem Keeps.elementSources_eq (h : l.Keeps G storage sources) (value : Operand) : elementSources l.config l.resources
      ⟨.store, storage, none, sources ++ [value]⟩ = .ok sources.length := by
  cases h with
  | emulation _ h => exact h.elementSources_eq hp l.config value
  | capture _ hbase hidx =>
    obtain ⟨hems, rfl⟩ := ite_some_none_eq_some.1 hbase
    exact elementSources_array (Nat.lt_trans (Nat.add_lt_add_left hidx 1) (by decide)) ((hp.feedback hems).2 _ hidx)
  | space hop hcnt =>
    rw [append_assoc, length_append]
    exact elementSources_space ((hG _ hop).finds hcnt)

include hp in
theorem Samples.fits {t : TextureOp} (h : l.Samples G t sources) :
    (l.setting inputs D).Samples t.binding ∧ sources.length = t.sampler.coordinates + t.lod.toNat ∧
      ∀ o ∈ sources, o.isLabel = false := by
  cases h with
  | indices hm helt =>
    obtain ⟨-, -, -, htex⟩ := hp.memories _ hm
    exact ⟨.inl htex, rfl, forall_mem_singleton.2 helt⟩
  | remap hm helt =>
    obtain ⟨-, -, -, -, htex, -⟩ := hp.memories _ hm
    exact ⟨.inl htex, rfl, forall_mem_singleton.2 helt⟩
  | @tex _ _ _ _ coords lod _ hop =>
    have hcoords := eq_of_beq (hG _ hop).coordinates
    refine ⟨.inl (hG _ hop).finds, ?_, fun o ho => isLabel_of_isValue (Register.isValue_of_mem_map _ o ho)⟩
    cases lod <;> simp [hcoords]

include hp in
theorem Emitted.fits {op : Operation} (h : l.Emitted G C op) : op.Fits (l.setting inputs D) := by
  have hlabs : ∀ {sources : List Operand}, (∀ o ∈ sources, o.isValue) → ∀ o ∈ sources, o.isLabel = false :=
    fun h o ho => isLabel_of_isValue (h o ho)
  cases h with
  | compute hinst hdest hsrc =>
    obtain ⟨hpln, hres, harity⟩ := Instruction.computes_iff.1 hinst
    exact .plain hpln harity.symm hres.symm (by simpa using isWritable_of_isAssignable hdest) hsrc
  | act hinst hnone harity => exact .plain hinst harity.symm hnone.symm (by simp) (by simp)
  | sample h hdest =>
    obtain ⟨htex, hlen, hsrc⟩ := h.fits hp hG
    exact .textureSample hsrc (isWritable_of_isAssignable hdest) htex hlen
  | imageLoad hop component hdest =>
    have hcoords := eq_of_beq (hG _ hop).coordinates
    exact .imageLoad (hlabs (Register.isValue_of_mem_map _)) (isWritable_of_isAssignable hdest) (hG _ hop).finds
      (by simp [hcoords, imageOp])
  | imageStore hop =>
    have hcoords := eq_of_beq (hG _ hop).coordinates
    exact .imageStore (hlabs (Register.isValue_of_mem_map _)) (hG _ hop).finds (by simp [hcoords, imageOp])
  | fetch h hdest =>
    exact .load (hlabs h.isValue) (isWritable_of_isAssignable hdest) (h.elementSources_eq hp hG _)
      fun hio => nomatch h.isIo.symm.trans hio
  | keep h hval =>
    exact .store (hlabs (forall_mem_append.2 ⟨h.isValue, forall_mem_singleton.2 hval⟩)) length_append
      (h.elementSources_eq hp hG _) fun hio => nomatch h.isIo.symm.trans hio
  | load h hdest =>
    obtain ⟨hloc, hvtx, hcomp⟩ := h.isValue
    exact .loadIo h.isIo (h.allows hG) (isLabel_of_isValue hloc) (isLabel_of_isValue hvtx)
      (isLabel_of_isValue hcomp) (isWritable_of_isAssignable hdest)
  | store h hval =>
    obtain ⟨hloc, hvtx, hcomp⟩ := h.isValue
    exact .storeIo h.isIo (h.allows hG) (isLabel_of_isValue hloc) (isLabel_of_isValue hvtx)
      (isLabel_of_isValue hcomp) (isLabel_of_isValue hval)
  | ret => exact .ret
  | labelling _ hs hlen hrest => exact .labelling _ _ _ hs hlen (hlabs hrest)

end Fits
end Lowering

namespace Guest.Program

variable {p : Program}

abbrev setting (p : Program) (s : Surroundings) (inputs : UInt32) (D : Prop) : Setting :=
  ⟨s.config, p.declare s.resources, inputs, D, fun _ => False⟩

theorem lower_spec (hp : (p.declare s.resources).Provides fetched) (hnd : p.addresses.Nodup)
    (hsuits : ∀ op ∈ p.ops, Lowering.Suits (p.setting s inputs D) op) (h : p.lower s ids parts = .ok lowered) :
    lowered.ops ≠ [] ∧
      Emission (Fits (p.setting s inputs D)) [] [] ids.labels lowered.ids.labels lowered.ops := by
  refine ⟨fun hnil => ?_, ?_⟩
  · obtain ⟨last, hlast, -⟩ := exists_last_of_lower h
    rw [hnil] at hlast
    cases hlast
  · exact (emission_lower hnd h).imp fun _ hop => hop.fits hp fun op h => hsuits op (h op rfl)

theorem hasSpace (hp : (p.declare r).Prepared inputs) (hgrows : r.Grows (p.declare r))
    (hfit : ∀ b ∈ (p.declare r).storageBuffers, b.binding < 2 ^ 32) (hfault : space.fault? r = none)
    (hdecl : ∀ slot, space = .global slot → slot ∈ (p.declare r).guestStorage) :
    Lowering.HasSpace (p.declare r) space := by
  cases space with
  | localMemory =>
    have hsome : r.currentLocal ≠ none := by
      simpa [Space.fault?] using hfault
    obtain ⟨id, hid⟩ := ne_none_iff_exists'.1 hsome
    rw [← hgrows.currentLocal] at hid
    exact ⟨id, hid, hp.localMemory id hid⟩
  | sharedMemory =>
    have hsome : r.currentShared ≠ none := by
      simpa [Space.fault?] using hfault
    obtain ⟨id, hid⟩ := ne_none_iff_exists'.1 hsome
    rw [← hgrows.currentShared] at hid
    exact ⟨id, hid, hp.sharedMemory id hid⟩
  | «global» slot =>
    have harr := hp.storage slot (hdecl slot rfl)
    have hbind : ((p.declare r).useStorageBuffer slot).1 =
        (p.declare r).reservations.storageBuffers + (p.declare r).guestStorage.idxOf slot := by
      unfold Resources.useStorageBuffer
      dsimp only
      split <;> rfl
    rw [← hbind] at harr
    exact ⟨harr.lt hfit, harr⟩

theorem suits (hp : s.resources.Prepared fetched)
    (hfit : ∀ b ∈ (p.declare s.resources).storageBuffers, b.binding < 2 ^ 32) (herror : p.error? s.resources = none)
    (hcoord : ∀ op ∈ p.ops, op.hasCoordinates) (hpat : ∀ op ∈ p.ops, op.indexesPatch → D)
    (hinps : inputs = (p.usage stage).attributes.inputs) :
    ∀ op ∈ p.ops, Lowering.Suits (p.setting s inputs D) op := by
  intro op hop
  obtain ⟨hprep, hdecl⟩ := hp.declare p
  have hgrows := (p.declare_spec hp.toNumbered).2.1
  have hdecl := hdecl op hop
  have hfault := fault?_eq_none herror hop
  refine ⟨?_, hcoord op hop, hpat op hop, ?_⟩
  · cases op with
    | tex => exact hprep.texture _ hdecl
    | suld | sust => exact hprep.image _ hdecl
    | ld _ count space | st _ count space =>
      intro hcnt
      have hfault : space.fault? s.resources = none := by
        rwa [Op.fault?, if_neg hcnt] at hfault
      refine hasSpace hprep hgrows hfit hfault fun _ hslot => ?_
      subst hslot
      exact hdecl hcnt
    | _ => trivial
  · intro address ha _ stage' isOutput perPatch location component hresolve
    change location ∈ Mask.below inputs _
    rw [hinps]
    exact mem_inputs hop ha hresolve stage

end Guest.Program
end ShaderRecompiler
