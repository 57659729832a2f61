import ShaderRecompiler.Proofs.Assembly

/-! A lowered program accesses outputs and local memory where its instructions and what
surrounds them are permitted to. -/
namespace ShaderRecompiler

open Lowering

/-- What is accessed at the address is allowed. -/
def Attribute.Target.Meets (O : Places) (target : Attribute.Target) : Prop :=
  ∀ inst, O inst target.io (.word target.location) (.word target.component)

/-- Generic outputs are accessed at computed places. -/
def Guest.Op.indexesOutput : Guest.Op → Bool
  | ald _ count _ _ offset perPatch output => count != 0 && offset.isSome && !perPatch && output
  | ast _ count _ _ offset perPatch => count != 0 && offset.isSome && !perPatch
  | _ => false

namespace Guest.Op.Accesses

variable {op : Guest.Op}

theorem mem_outputWords (h : op.Accesses inst .output address none) : address ∈ op.outputWords := by
  generalize hs : Storage.output = storage at h
  generalize ho : (none : Option Register) = offset at h
  cases h with
  | ald hword =>
    obtain ⟨rfl, rfl⟩ := attributeStorage_eq_output.1 hs.symm
    exact ho ▸ hword
  | ast hword =>
    obtain ⟨-, rfl⟩ := attributeStorage_eq_output.1 hs.symm
    exact ho ▸ hword
  | ipa => cases hs

theorem indexesOutput (h : op.Accesses inst .output address (some r)) : op.indexesOutput := by
  generalize hs : Storage.output = storage at h
  generalize ho : some r = offset at h
  cases h with
  | ald hword =>
    obtain ⟨rfl, rfl⟩ := attributeStorage_eq_output.1 hs.symm
    simp [Guest.Op.indexesOutput, ← ho, ne_zero_of_mem_words hword]
  | ast hword =>
    obtain ⟨-, rfl⟩ := attributeStorage_eq_output.1 hs.symm
    simp [Guest.Op.indexesOutput, ← ho, ne_zero_of_mem_words hword]
  | ipa => cases hs

end Guest.Op.Accesses

/-- The outputs that an instruction accesses and the block of local memory that it
stores to are allowed. -/
structure Guest.Op.Permitted (op : Guest.Op) (l : Lowering) (O : Places) (B : Nat → Prop) : Prop where
  outputs : ∀ word ∈ op.outputWords, ∀ target,
    Attribute.resolve word l.config.guestStage true false = some target → target.Meets O
  indexed : op.indexesOutput → ∀ inst location component, location.asNat? = none →
    O inst .userDefined location component
  stores : ∀ src count base offset, op = .st src count .localMemory base offset → count ≠ 0 →
    B (l.resources.currentLocal.getD 0)

/-- The memories of emulation that a lowered program writes itself. -/
def EmulationMemory.written : EmulationMemory → List Nat
  | vertex _ vertexRate instanceRate => [vertexRate, instanceRate]
  | geometry _ topologyRemap vertexCounter indexCounter => [topologyRemap, vertexCounter, indexCounter]

theorem EmulationMemory.mem_written {memory : EmulationMemory} (h : n ∈ memory.words) : n ∈ memory.written := by
  cases memory with
  | vertex => exact h
  | geometry => exact List.mem_cons_of_mem _ h

/-- What surrounds the program is allowed. -/
structure Lowering.Permits (l : Lowering) (O : Places) (B : Nat → Prop) : Prop where
  other : ∀ v, v.isRecorded = false → ∀ inst location component, O inst v location component
  initial : ∀ component < 4, O .store .position (.word 0) (.word component) ∧
    ∀ location ∈ Mask.below l.outputs Attribute.userLocations, O .store .userDefined (.word location) (.word component)
  layer : l.layerInput.isSome → O .store .layer (.word 0) (.word 0)
  captured : l.writesEpilogue → l.capturesInEpilogue → ∀ v location component, O .load v location component
  memory : ∀ m, l.resources.emulation = some m → ∀ n ∈ m.written, B n

def Places.all : Places := fun _ _ _ _ => True

theorem Guest.Op.permitted_all (op : Guest.Op) (l : Lowering) : op.Permitted l .all fun _ => True where
  outputs _ _ _ _ _ := trivial
  indexed _ _ _ _ _ := trivial
  stores _ _ _ _ _ _ := trivial

theorem Lowering.permits_all (l : Lowering) : l.Permits .all fun _ => True where
  other _ _ _ _ _ := trivial
  initial _ _ := ⟨trivial, fun _ _ => trivial⟩
  layer _ := trivial
  captured _ _ _ _ _ := trivial
  memory _ _ _ _ := trivial

namespace Lowering

variable {G : Option Guest.Op → Prop} {op : Operation}

section Sound

variable (hpermits : l.Permits O B) (hG : ∀ op, G (some op) → op.Permitted l O B)
include hpermits hG

theorem Touches.permitted
    (h : l.Touches G inst .output v location vertex component) : O inst v location component := by
  generalize hs : Storage.output = storage at h
  cases h with
  | builtin | forwarded => cases hs
  | initial hv hcomp =>
    obtain ⟨rfl, rfl⟩ | ⟨rfl, hloc⟩ := hv
    · exact (hpermits.initial _ hcomp).1
    · exact (hpermits.initial _ hcomp).2 _ hloc
  | layer hlay => exact hpermits.layer hlay
  | captured hwrites hcaps => exact hpermits.captured hwrites hcaps _ _ _
  | fragment hv => obtain rfl | rfl := hv <;> exact hpermits.other _ rfl _ _ _
  | fixed hop hacc ht =>
    subst hs
    exact (hG _ hop).outputs _ hacc.mem_outputWords _ ht _
  | indexed hop hacc =>
    subst hs
    exact (hG _ hop).indexed hacc.indexesOutput _ _ _ rfl

theorem Keeps.sound {storage : Storage} (h : l.Keeps G storage sources) (hval : value.isValue) :
    Operation.Sound l.config O B ⟨.store, storage, none, sources ++ [value]⟩ := by
  have hbufs : ∀ o ∈ sources ++ [value], o.isConstantBuffer = false := fun o ho =>
    Operand.isConstantBuffer_of_isValue (List.forall_mem_append.2 ⟨h.isValue, List.forall_mem_singleton.2 hval⟩ o ho)
  have hblk : ∀ n rest, storage = .localMemory → sources = .word n :: rest → B n →
      Operation.Sound l.config O B ⟨.store, storage, none, sources ++ [value]⟩ := by
    rintro n rest rfl rfl hn
    exact .storeBlock hn (List.forall_mem_cons.1 hbufs).2
  cases h with
  | emulation _ h =>
    cases h with
    | word hm hn => exact hblk _ _ rfl rfl (hpermits.memory _ hm _ (EmulationMemory.mem_written hn))
    | remap hm => exact hblk _ _ rfl rfl (hpermits.memory _ hm _ List.mem_cons_self)
    | vertex | appended => exact .effect rfl (by simp) (by simp) hbufs
  | capture => exact .effect rfl (by simp) (by simp) hbufs
  | @space _ _ _ space _ _ hop hcnt =>
    cases space with
    | localMemory => exact hblk _ _ rfl rfl ((hG _ hop).stores _ _ _ _ rfl hcnt)
    | sharedMemory | «global» => exact .effect rfl (by simp [spaceBlock]) (by simp) hbufs

theorem Emitted.sound (h : l.Emitted G C op) : op.Sound l.config O B := by
  have hbufs : ∀ {sources : List Operand}, (∀ o ∈ sources, o.isValue) → ∀ o ∈ sources, o.isConstantBuffer = false :=
    fun h o ho => Operand.isConstantBuffer_of_isValue (h o ho)
  cases h with
  | compute _ hdest | sample _ hdest | imageLoad _ _ hdest => exact .assign hdest
  | act hinst =>
    refine .effect rfl (by simp) ?_ (by simp)
    rintro rfl
    cases hinst
  | imageStore => exact .effect rfl (by simp) (by simp) (hbufs (Register.isValue_of_mem_map _))
  | fetch h hdest => exact .fetch h.isIo hdest
  | keep h hval => exact h.sound hpermits hG hval
  | load h hdest =>
    refine .loadIo hdest (fun hs => ?_) (hbufs h.isValue_sources)
    subst hs
    exact h.permitted hpermits hG
  | store h hval =>
    refine .storeIo h.isIo (fun hs => ?_) (hbufs h.isValue_sources) (Operand.isConstantBuffer_of_isValue hval)
    subst hs
    exact h.permitted hpermits hG
  | ret => exact .effect rfl (by simp) (by simp) (by simp)
  | labelling _ hs _ hrest =>
    refine .effect rfl (by simp) ?_ (List.forall_mem_cons.2 ⟨rfl, hbufs hrest⟩)
    rintro rfl
    cases hs

end Sound
end Lowering

namespace Guest.Program

variable {p : Program}

/-- The operations of a lowered program are allowed if its instructions and surroundings
are. -/
theorem sound_lower (h : p.lower s ids parts = .ok lowered)
    (hpermits : (p.lowering s parts (p.blockLabels ids)).Permits O B)
    (hops : ∀ op ∈ p.ops, op.Permitted (p.lowering s parts (p.blockLabels ids)) O B) :
    ∀ op ∈ lowered.ops, op.Sound s.config O B :=
  fun op hop => ((lower_emitted h).emission.all op hop).sound hpermits fun op h => hops op (h op rfl)

end Guest.Program
end ShaderRecompiler
