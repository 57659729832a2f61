import ShaderRecompiler.Proofs.Attributes
import ShaderRecompiler.Proofs.Scoping

/-! The kinds of operations that lowering emits. An operation computes a value, reads or
writes a word of a resource, accesses the stage interface or directs control, and where
it accesses something its kind says on whose behalf: that of an instruction, or of what
surrounds the program. One walk over lowering finds these kinds, labels and temporaries
in order, and every other fact about single operations follows from them. -/
namespace ShaderRecompiler

open Operand List Attribute Instruction Config

open Guest (Op Source Space)

variable {op : Op} {data : Nat}

@[simp] theorem Register.isValue_operand (r : Register) : r.operand.isValue := by
  unfold operand
  split <;> rfl

@[simp] theorem Register.isLabel_operand (r : Register) : r.operand.isLabel = false :=
  isLabel_of_isValue r.isValue_operand

theorem Register.isValue_of_mem_map (rs : List Register) : ∀ o ∈ rs.map operand, o.isValue := by
  simp

@[simp] theorem Predicate.isValue_operand (p : Predicate) : p.operand.isValue := by
  unfold operand
  split <;> rfl

@[simp] theorem Predicate.isLabel_operand (p : Predicate) : p.operand.isLabel = false :=
  isLabel_of_isValue p.isValue_operand

@[simp] theorem Guest.Source.isLabel_operand (s : Source) : s.operand.isLabel = false := by
  cases s with
  | register r => exact r.isLabel_operand
  | immediate | constantBuffer => rfl

namespace Attribute.Target

def io : Target → IoVariable
  | user .. => .userDefined
  | builtin v _ => v

def location : Target → Nat
  | user location _ => location
  | builtin .. => 0

def component : Target → Nat
  | user _ component => component
  | builtin _ component => component.getD 0

end Attribute.Target

theorem Config.targetSources_eq (c : Config) (storage : Storage) (vertex : Operand) (target : Target) :
    c.targetSources storage vertex target =
      c.accessSources storage target.io (.word target.location) vertex (.word target.component) := by
  cases target <;> rfl

/-- The instruction loads or stores the word at an address, or one that an offset leads
to. -/
inductive Guest.Op.Accesses : Op → Instruction → Storage → Nat → Option Register → Prop
  | ald {dest count address vertex offset perPatch output word} (h : word ∈ Usage.words address count) :
    Accesses (.ald dest count address vertex offset perPatch output) .load
      (Lowering.attributeStorage output perPatch) word offset
  | ast {src count address vertex offset perPatch word} (h : word ∈ Usage.words address count) :
    Accesses (.ast src count address vertex offset perPatch) .store (Lowering.attributeStorage true perPatch) word
      offset
  | ipa {dest address offset} : Accesses (.ipa dest address offset) .load .input address offset

namespace Lowering

variable {count : Nat} {word : Nat}

theorem mem_words (hi : i ∈ range count) : address + i * 4 ∈ Guest.Usage.words address count :=
  mem_map_of_mem hi

theorem ne_zero_of_mem_words (h : word ∈ Guest.Usage.words address count) : count ≠ 0 := by
  rintro rfl
  cases h

section Kinds

variable (l : Lowering) (G : Option Op → Prop)

/-- Where the stage interface is accessed, by variable, location, vertex and component:
around a program, or by one of the instructions in `G`. -/
inductive Touches : Instruction → Storage → IoVariable → Operand → Operand → Operand → Prop
  | builtin {v : IoVariable} (hv : v.hasLocation = false) (component : Nat) :
    Touches .load .input v (.word 0) (.word 0) (.word component)
  | initial {v : IoVariable} {location component : Nat}
    (hv : v = .position ∧ location = 0 ∨ v = .userDefined ∧ location ∈ Mask.below l.outputs userLocations)
    (hcomponent : component < 4) : Touches .store .output v (.word location) (.word 0) (.word component)
  | forwarded {address : Nat} (haddress : l.layerInput = some address) (hstage : l.config.guestStage = .geometry)
    (hpass : l.config.geometryPassthrough) :
    Touches .load .input .userDefined (.word ((address - userBase) / 16)) (.word 0) (.word (address / 4 % 4))
  | layer (h : l.layerInput.isSome) : Touches .store .output .layer (.word 0) (.word 0) (.word 0)
  | captured {buffer : FeedbackBuffer} {word : Nat} {target : Target} (hwrites : l.writesEpilogue)
    (hcaptures : l.capturesInEpilogue) (hbuffer : buffer ∈ l.config.feedback.take maxFeedbackBuffers)
    (hword : word ∈ buffer.words) (hhole : word ≠ FeedbackBuffer.hole)
    (ht : resolve (word * 4) l.config.guestStage true false = some target) :
    Touches .load .output target.io (.word target.location) (.word 0) (.word target.component)
  | fragment {v : IoVariable} (hv : v = .fragmentOutputColor ∨ v = .fragmentOutputDepth) (location component : Nat) :
    Touches .store .output v (.word location) (.word 0) (.word component)
  | fixed {op : Op} {inst : Instruction} {storage : Storage} {address : Nat} {target : Target}
    {vertex : Operand} (hop : G (some op)) (haccess : op.Accesses inst storage address none)
    (ht : resolve address l.config.guestStage storage.isOutput storage.isPerPatch = some target)
    (hvertex : vertex.isValue) :
    Touches inst storage target.io (.word target.location) vertex (.word target.component)
  | indexed {op : Op} {inst : Instruction} {storage : Storage} {address : Nat} {r : Register} {vertex : Operand}
    (hop : G (some op)) (haccess : op.Accesses inst storage address (some r)) (hvertex : vertex.isValue)
    (location component : Nat) : Touches inst storage .userDefined (.temp location) vertex (.temp component)

/-- Which words of resources are read. -/
inductive Fetches : Storage → List Operand → Prop
  | emulation {storage : Storage} {sources : List Operand} (h : l.resources.Fetches storage sources) :
    Fetches storage sources
  | captures {info : Nat} (hinfo : l.reservations.feedbackInfo? = some info) :
    Fetches .storageBuffer [.word info, .word 1]
  | captureOffset {info index : Nat} (hinfo : l.reservations.feedbackInfo? = some info)
    (hindex : index < maxFeedbackBuffers) : Fetches .storageBuffer [.word info, .word 0, .word index]
  | space {dest base : Register} {count : Nat} {space : Space} {offset : Int32} {index : Operand}
    (hop : G (some (.ld dest count space base offset))) (hcount : count ≠ 0) (hindex : index.isValue) :
    Fetches (spaceBlock l.resources space).1 ((spaceBlock l.resources space).2 ++ [index])

/-- Which words of resources are written. -/
inductive Keeps : Storage → List Operand → Prop
  | emulation {storage : Storage} {sources : List Operand} (hG : G none) (h : l.resources.Keeps storage sources) :
    Keeps storage sources
  | capture {base index : Nat} (hG : G none) (hbase : l.reservations.feedbackBase? = some base)
    (hindex : index < maxFeedbackBuffers) {place : Operand} (hplace : place.isValue) :
    Keeps .storageBuffer [.word (base + index), .word 0, place]
  | space {src base : Register} {count : Nat} {space : Space} {offset : Int32} {index : Operand}
    (hop : G (some (.st src count space base offset))) (hcount : count ≠ 0) (hindex : index.isValue) :
    Keeps (spaceBlock l.resources space).1 ((spaceBlock l.resources space).2 ++ [index])

/-- Which textures are sampled. -/
inductive Samples : TextureOp → List Operand → Prop
  | indices {data vertices instances : Nat} (hm : l.resources.emulation = some (.vertex data vertices instances))
    {element : Operand} (helement : element.isLabel = false) :
    Samples { binding := l.reservations.indexBuffer, sampler := .buffer, intCoords := true, lod := false,
              component := 0, result := .u32 } [element]
  | remap {data remap vertices indices : Nat}
    (hm : l.resources.emulation = some (.geometry data remap vertices indices)) {element : Operand}
    (helement : element.isLabel = false) :
    Samples { binding := l.reservations.topologyRemap, sampler := .buffer, intCoords := true, lod := false,
              component := 0, result := .u32 } [element]
  | tex {dest : Register} {mask : UInt32} {handle : Nat} {sampler : Sampler} {coords : List Register}
    {lod : Option Register} {fetch : Bool} (hop : G (some (.tex dest mask handle sampler coords lod fetch)))
    (component : Nat) :
    Samples { binding := (l.resources.useTexture ⟨handle, sampler, .f32⟩).1, sampler, intCoords := fetch,
              lod := lod.isSome, component, result := .f32 } ((coords ++ lod.toList).map Register.operand)

/-- What is emitted around a program and for the instructions in `G`, with the control
flow that is in `C`. -/
inductive Emitted (C : Instruction → Prop) : Operation → Prop
  | compute {inst : Instruction} {dest : Operand} {sources : List Operand} (hinst : inst.computes sources.length)
    (hdest : dest.isAssignable) (hsources : ∀ o ∈ sources, o.isLabel = false) :
    Emitted C ⟨inst, .none, some dest, sources⟩
  | act {inst : Instruction} (hinst : inst.isPlain) (hnone : inst.hasDestination = false)
    (harity : inst.arity = 0) : Emitted C ⟨inst, .none, none, []⟩
  | sample {t : TextureOp} {dest : Operand} {sources : List Operand} (h : Samples l G t sources)
    (hdest : dest.isAssignable) : Emitted C ⟨.textureSample t, .none, some dest, sources⟩
  | imageLoad {d : Register} {mask : UInt32} {handle : Nat} {sampler : Sampler} {coords : List Register}
      {dest : Operand}
    (hop : G (some (.suld d mask handle sampler coords))) (component : Nat) (hdest : dest.isAssignable) :
    Emitted C ⟨.imageLoad (l.imageOp handle sampler component), .none, some dest, coords.map Register.operand⟩
  | imageStore {values : Register} {handle : Nat} {sampler : Sampler} {coords : List Register}
    (hop : G (some (.sust values handle sampler coords))) :
    Emitted C ⟨.imageStore (l.imageOp handle sampler 0), .none, none,
      (coords ++ (range 4).map values.after).map Register.operand⟩
  | fetch {storage : Storage} {sources : List Operand} {dest : Operand} (h : Fetches l G storage sources)
    (hdest : dest.isAssignable) : Emitted C ⟨.load, storage, some dest, sources⟩
  | keep {storage : Storage} {sources : List Operand} {value : Operand} (h : Keeps l G storage sources)
    (hvalue : value.isValue) : Emitted C ⟨.store, storage, none, sources ++ [value]⟩
  | load {storage : Storage} {v : IoVariable} {location vertex component dest : Operand}
    (h : Touches l G .load storage v location vertex component) (hdest : dest.isAssignable) :
    Emitted C ⟨.load, storage, some dest, l.config.accessSources storage v location vertex component⟩
  | store {storage : Storage} {v : IoVariable} {location vertex component value : Operand}
    (h : Touches l G .store storage v location vertex component) (hvalue : value.isValue) :
    Emitted C ⟨.store, storage, none, l.config.accessSources storage v location vertex component ++ [value]⟩
  | ret (hC : C .ret) : Emitted C ⟨.ret, .none, none, []⟩
  | labelling {inst : Instruction} {n : Nat} {rest : List Operand} (hC : C inst) (hs : inst.isStraight = false)
    (hlength : rest.length + 1 = inst.arity) (hrest : ∀ o ∈ rest, o.isValue) :
    Emitted C ⟨inst, .none, none, .label n :: rest⟩

end Kinds

variable {l : Lowering} {G : Option Op → Prop}

/-- What emits such operations only, and leaves no temporary and no label open. -/
abbrev Emits (l : Lowering) (G : Option Op → Prop) (C : Instruction → Prop) (lo : Ids) (known : List Operand)
    (opens : List Nat) (m : Emit Unit) : Prop :=
  Scopes (l.Emitted G C) lo known [] opens [] m (fun _ => []) fun _ => True

theorem Emitted.isStraight_or {op : Operation} (h : l.Emitted G C op) : op.inst.isStraight ∨ C op.inst := by
  cases h with
  | compute hinst =>
    exact .inl (isStraight_of_hasDestination (computes_iff.1 hinst).2.1)
  | act hinst =>
    left
    revert hinst
    dsimp only
    cases ‹Instruction› <;> simp [isPlain, isStraight]
  | ret hC | labelling hC => exact .inr hC
  | _ => exact .inl rfl

theorem Emitted.isStraight {op : Operation} (h : l.Emitted G (fun _ => False) op) : op.inst.isStraight :=
  h.isStraight_or.resolve_right id

/-! What the kinds have in common. -/

theorem isIo_attributeStorage (output perPatch : Bool) : (attributeStorage output perPatch).isIo := by
  cases output <;> cases perPatch <;> rfl

theorem attributeStorage_eq_output : attributeStorage output perPatch = .output ↔ output ∧ perPatch = false := by
  cases output <;> cases perPatch <;> simp [attributeStorage]

theorem attributeStorage_eq_input : attributeStorage output perPatch = .input ↔ output = false ∧ perPatch = false := by
  cases output <;> cases perPatch <;> simp [attributeStorage]

theorem isPerPatch_attributeStorage (output perPatch : Bool) :
    (attributeStorage output perPatch).isPerPatch = perPatch := by
  cases output <;> cases perPatch <;> rfl

theorem isIo_of_accesses (h : op.Accesses inst storage address offset) : storage.isIo := by
  cases h with
  | ald | ast => exact isIo_attributeStorage ..
  | ipa => rfl

namespace Touches

variable (h : l.Touches G inst storage v location vertex component)
include h

theorem isIo : storage.isIo := by
  cases h with
  | fixed _ haccess | indexed _ haccess => exact isIo_of_accesses haccess
  | _ => rfl

theorem isValue : location.isValue ∧ vertex.isValue ∧ component.isValue := by
  cases h with
  | fixed _ _ _ hvtx | indexed _ _ hvtx => exact ⟨rfl, hvtx, rfl⟩
  | _ => exact ⟨rfl, rfl, rfl⟩

theorem isValue_sources : ∀ o ∈ l.config.accessSources storage v location vertex component, o.isValue :=
  forall_accessSources rfl h.isValue.1 h.isValue.2.1 h.isValue.2.2

end Touches

theorem isValue_spaceBlock (r : Resources) (space : Space) : ∀ o ∈ (spaceBlock r space).2, o.isValue := by
  cases space <;> simp [spaceBlock]

theorem isIo_spaceBlock (r : Resources) (space : Space) : (spaceBlock r space).1.isIo = false := by
  cases space <;> rfl

theorem Fetches.isIo (h : l.Fetches G storage sources) : storage.isIo = false := by
  cases h with
  | emulation h => exact h.isIo_eq
  | space => exact isIo_spaceBlock ..
  | _ => rfl

theorem Fetches.isValue (h : l.Fetches G storage sources) : ∀ o ∈ sources, o.isValue := by
  cases h with
  | emulation h => exact h.isValue
  | space _ _ hindex => exact forall_mem_append.2 ⟨isValue_spaceBlock _ _, forall_mem_singleton.2 hindex⟩
  | _ => simp

theorem Keeps.isIo (h : l.Keeps G storage sources) : storage.isIo = false := by
  cases h with
  | emulation _ h => exact h.isIo_eq
  | space => exact isIo_spaceBlock ..
  | _ => rfl

theorem Keeps.isValue (h : l.Keeps G storage sources) : ∀ o ∈ sources, o.isValue := by
  cases h with
  | emulation _ h => exact h.isValue
  | capture _ _ _ hplc => simp [hplc]
  | space _ _ hindex => exact forall_mem_append.2 ⟨isValue_spaceBlock _ _, forall_mem_singleton.2 hindex⟩

/-! Single operations. -/

section Step

theorem scopes_value (hinst : inst.computes sources.length)
    (hsrc : ∀ o ∈ sources, o.Usable known ∧ o.isLabel = false) :
    Scopes (l.Emitted G C) lo known [] opens [] (Emit.value inst sources) (fun a => [a]) IsTemp :=
  .value (fun _ => .compute hinst rfl fun o ho => (hsrc o ho).2) (computes_iff.1 hinst).2.1 fun o ho => (hsrc o ho).1

theorem scopes_assign (hinst : inst.computes sources.length) (hdest : dest.Settable dest.asTemp?.toList)
    (hsrc : ∀ o ∈ sources, o.isStatic ∧ o.isLabel = false) :
    Scopes (l.Emitted G C) lo known dest.asTemp?.toList opens [] (Emit.assign dest inst sources) (fun _ => [])
      fun _ => True :=
  .assign (.compute hinst hdest.isAssignable_eq fun o ho => (hsrc o ho).2) (computes_iff.1 hinst).2.1
    hdest fun o ho => .inr (hsrc o ho).1

theorem scopes_act (hinst : inst.isPlain) (hnone : inst.hasDestination = false) (harity : inst.arity = 0)
    (hs : inst.isStraight) :
    l.Emits G C lo known opens (Emit.effect inst []) :=
  .effect (.act hinst hnone harity) hs (by simp)

theorem scopes_fetch (h : l.Fetches G storage sources) (hsrc : ∀ o ∈ sources, o.Usable known) :
    Scopes (l.Emitted G C) lo known [] opens [] (Emit.load storage sources) (fun a => [a]) IsTemp :=
  .load (fun _ => .fetch h rfl) hsrc

theorem scopes_keep (h : l.Keeps G storage sources) (hval : value.isValue)
    (hsrc : ∀ o ∈ sources ++ [value], o.Usable known) :
    l.Emits G C lo known opens (Emit.store storage (sources ++ [value])) :=
  .effect (.keep h hval) rfl hsrc

theorem usable_accessSources {c : Config} (hloc : location.Usable known) (hvtx : vertex.Usable known)
    (hcomp : component.Usable known) :
    ∀ o ∈ c.accessSources storage v location vertex component, o.Usable known :=
  forall_accessSources (.inr rfl) hloc hvtx hcomp

theorem scopes_store
    (h : l.Touches G .store storage v (.word location) (.word 0) (.word component)) (hval : value.isValue)
    (husable : value.Usable known) :
    l.Emits G C lo known opens (Emit.store storage
      (l.config.accessSources storage v (.word location) (.word 0) (.word component) ++ [value])) :=
  .effect (.store h hval) rfl (forall_mem_append.2
    ⟨usable_accessSources (.inr rfl) (.inr rfl) (.inr rfl), forall_mem_singleton.2 husable⟩)

theorem scopes_load (h : l.Touches G .load storage v (.word location) (.word 0) (.word component)) :
    Scopes (l.Emitted G C) lo known [] opens []
      (Emit.load storage (l.config.accessSources storage v (.word location) (.word 0) (.word component)))
      (fun a => [a]) IsTemp :=
  .load (fun _ => .load h rfl) (usable_accessSources (.inr rfl) (.inr rfl) (.inr rfl))

theorem scopes_loadInput (hloc : v.hasLocation = false) (hvtx : v.isPerVertex = false)
    (hcomp : v.hasComponent = false) :
    Scopes (l.Emitted G C) lo known [] opens [] (Emit.loadInput v) (fun a => [a]) IsTemp := by
  have hsrc : [v.operand] = l.config.accessSources .input v (.word 0) (.word 0) (.word 0) := by
    simp [accessSources, hasVertexIndex, hloc, hvtx, hcomp]
  rw [Emit.loadInput, hsrc]
  exact scopes_load (.builtin hloc 0)

theorem scopes_globalInvocationId (component : Nat) :
    Scopes (l.Emitted G C) lo known [] opens [] (Emit.globalInvocationId component) (fun a => [a]) IsTemp :=
  scopes_load (.builtin rfl component)

theorem scopes_markLabel (hC : C .markLabel) (hn : label n ∈ known) :
    Scopes (l.Emitted G C) lo known [] opens [n] (Emit.markLabel (.label n)) (fun _ => []) fun _ => True :=
  .markLabel (.labelling hC rfl rfl (by simp)) hn

theorem scopes_branching (hC : C inst) (hs : inst.isStraight = false)
    (hinst : inst.isTerminator) (hlen : rest.length + 1 = inst.arity) (hopen : n ∈ opens)
    (hn : label n ∈ known) (hrest : ∀ o ∈ rest, o.Usable known ∧ o.isValue) :
    l.Emits G C lo known opens (Emit.effect inst (.label n :: rest)) :=
  .branching (.labelling hC hs hlen fun o ho => (hrest o ho).2) hinst hopen hn fun o ho => (hrest o ho).1

end Step

/-! Before the program. -/

theorem scopes_vertexInfo (he : l.resources.emulation.isSome) (hfld : field < 2) (component : Nat) :
    Scopes (l.Emitted G C) lo known [] opens [] (l.vertexInfo field component) (fun a => [a]) IsTemp := by
  have hlen : [component].length + 2 = Operation.infoSources field := by
    obtain rfl | rfl : field = 0 ∨ field = 1 := by omega
    all_goals rfl
  exact scopes_fetch (.emulation (.info he (Nat.lt_trans hfld (by decide)) hlen)) (by simp)

theorem scopes_initializeOutput
    (hv : v = .position ∧ location = 0 ∨ v = .userDefined ∧ location ∈ Mask.below l.outputs userLocations) :
    l.Emits G C lo known opens (l.initializeOutput v location) := by
  refine .forM ?_
  rintro ⟨value, component⟩ hmem
  have hcomp : component < 4 := by simpa using (mem_zipIdx hmem).2.1
  exact scopes_store (.initial hv hcomp) rfl (.inr rfl)

theorem scopes_initializeOutputs : l.Emits G C lo known opens l.initializeOutputs := by
  refine .ite (fun _ => ?_) fun _ => .nop
  refine .bind (scopes_initializeOutput (.inl ⟨rfl, rfl⟩)) fun _ _ => ?_
  exact .forM fun _ hloc => scopes_initializeOutput (.inr ⟨rfl, hloc⟩)

theorem scopes_returnUnlessBelow (hC : ∀ inst, C inst) (hval : .temp value ∈ known) (hlimit : .temp limit ∈ known) :
    l.Emits G C lo known opens (returnUnlessBelow (.temp value) (.temp limit)) := by
  refine .next (scopes_value rfl (by simp [hval, hlimit])) fun _ => .fresh fun _ => ?_
  refine .bind (scopes_branching (hC _) rfl rfl rfl (by simp) (by simp) (by simp)) fun _ _ => ?_
  exact .bind (.ret (.ret (hC _))) fun _ _ => scopes_markLabel (hC _) (by simp)

/-- A prologue goes on with a number of the invocation only where it is below its limit. -/
theorem scopes_bounded (he : l.resources.emulation.isSome) (hC : ∀ inst, C inst) (hfld : field < 2)
    {f : Operand → Emit Unit}
    (hf : ∀ value limit, l.Emits G C lo (.temp limit :: .temp value :: known) opens (f (.temp value))) :
    l.Emits G C lo known opens (do
      let value ← Emit.globalInvocationId dimension
      let limit ← l.vertexInfo field component
      returnUnlessBelow value limit
      f value) := by
  refine .next (scopes_globalInvocationId dimension) fun value => ?_
  refine .next (scopes_vertexInfo he hfld component) fun limit => ?_
  exact .bind (scopes_returnUnlessBelow hC (by simp) (by simp)) fun _ _ => hf value limit

theorem scopes_vertexPrologue (hG : G none) (hC : ∀ inst, C inst)
    (hm : l.resources.emulation = some (.vertex data vertexRate instanceRate)) :
    l.Emits G C lo known opens (l.vertexPrologue vertexRate instanceRate) := by
  have he : l.resources.emulation.isSome := by simp [hm]
  refine scopes_bounded he hC (by decide) fun _ _ => ?_
  refine scopes_bounded he hC (by decide) fun _ _ => ?_
  refine .next (scopes_vertexInfo he (by decide) _) fun _ => ?_
  refine .next (scopes_value rfl (by simp)) fun _ => ?_
  refine .next (scopes_vertexInfo he (by decide) _) fun _ => ?_
  refine .next (scopes_value rfl (by simp)) fun _ => ?_
  refine .next (.value (fun _ => .sample (.indices hm rfl) rfl) rfl (by simp)) fun _ => ?_
  refine .next (scopes_value rfl (by simp)) fun _ => ?_
  refine .bind (scopes_keep (.emulation hG (.word hm mem_cons_self)) rfl (by simp)) fun _ _ => ?_
  exact scopes_keep (.emulation hG (.word hm (mem_cons_of_mem _ mem_cons_self))) rfl (by simp)

theorem scopes_geometryPrologue (hG : G none) (hC : ∀ inst, C inst)
    (hm : l.resources.emulation = some (.geometry data topologyRemap vertexCounter indexCounter)) :
    l.Emits G C lo known opens (l.geometryPrologue topologyRemap vertexCounter indexCounter) := by
  have he : l.resources.emulation.isSome := by simp [hm]
  refine scopes_bounded he hC (by decide) fun _ _ => ?_
  refine scopes_bounded he hC (by decide) fun _ _ => ?_
  refine .next (scopes_value rfl (by simp)) fun _ => ?_
  refine .bind (.forM fun index _ => ?_) fun _ _ => ?_
  · refine .next (scopes_value rfl (by simp)) fun _ => ?_
    refine .next (.value (fun _ => .sample (.remap hm rfl) rfl) rfl (by simp)) fun _ => ?_
    exact scopes_keep (.emulation hG (.remap hm index)) rfl (by simp)
  · refine .bind (scopes_keep (.emulation hG (.word hm mem_cons_self)) rfl (by simp)) fun _ _ => ?_
    exact scopes_keep (.emulation hG (.word hm (mem_cons_of_mem _ mem_cons_self))) rfl (by simp)

theorem scopes_forwardLayer (haddr : l.layerInput = some address) (hstg : l.config.guestStage = .geometry)
    (hpass : l.config.geometryPassthrough) :
    l.Emits G C lo known opens (l.forwardLayer address) :=
  .next (scopes_load (.forwarded haddr hstg hpass)) fun _ =>
    scopes_store (.layer (by simp [haddr])) rfl (usable_self ..)

theorem scopes_prologue (hG : G none) (hC : ∀ inst, C inst) : l.Emits G C lo known opens l.prologue := by
  have hemu : l.Emits G C lo known opens l.emulationPrologue := by
    unfold emulationPrologue
    split
    · next hm => exact scopes_vertexPrologue hG hC hm
    · next hm => exact scopes_geometryPrologue hG hC hm
    · exact .nop
  unfold prologue
  refine .when (fun _ => hemu) (.ite (fun hstg => ?_) fun _ => .nop)
  cases haddr : l.layerInput with
  | some address => exact scopes_forwardLayer haddr hstg.1 hstg.2
  | none => exact .nop

/-! After the program. -/

theorem scopes_vertexEpilogue (hG : G none) (hm : l.resources.emulation = some memory) :
    l.Emits G C lo known opens (l.vertexEpilogue memory.vertexData) := by
  refine .next (scopes_vertexInfo (by simp [hm]) (by decide) _) fun _ => ?_
  refine .next (scopes_globalInvocationId 0) fun vertex => ?_
  refine .next (scopes_globalInvocationId 1) fun _ => ?_
  refine .next (scopes_value rfl (by simp)) fun _ => ?_
  refine .next (scopes_value rfl (by simp)) fun _ => ?_
  refine .next (scopes_value rfl (by simp)) fun _ => .forM fun offset _ => ?_
  refine .next (scopes_fetch (.emulation (.record hm offset)) (by simp)) fun _ => ?_
  refine .next (scopes_value rfl (by simp)) fun _ => ?_
  exact scopes_keep (.emulation hG (.vertex (by simp [hm]) rfl)) rfl (by simp)

theorem scopes_geometryEpilogue (hG : G none) (hC : ∀ inst, inst ≠ .ret → C inst)
    (hm : l.resources.emulation = some (.geometry data remap vertices indices)) :
    l.Emits G C lo known opens (l.geometryEpilogue indices) := by
  refine .fresh fun head => .fresh fun finish => ?_
  refine Scopes.perm ?_ (.swap finish head [])
  change Scopes (l.Emitted G C) lo _ _ _ ([head] ++ [finish]) _ _ _
  refine .bind_closes (scopes_markLabel (hC _ (by simp)) (by simp)) fun _ _ => ?_
  refine .next (scopes_fetch (.emulation (.word hm (mem_cons_of_mem _ mem_cons_self))) (by simp)) fun _ => ?_
  refine .next (scopes_value rfl (by simp)) fun _ => ?_
  refine .bind (scopes_branching (hC _ (by simp)) rfl rfl rfl (by simp) (by simp) (by simp)) fun _ _ => ?_
  refine .next (scopes_loadInput rfl rfl rfl) fun _ => ?_
  refine .next (scopes_value rfl (by simp)) fun _ => ?_
  refine .next (scopes_value rfl (by simp)) fun _ => ?_
  refine .bind (scopes_keep (.emulation hG (.appended hm (.inr rfl) rfl)) rfl (by simp)) fun _ _ => ?_
  refine .next (scopes_value rfl (by simp)) fun next => ?_
  refine .bind (scopes_keep (.emulation hG (.word hm (mem_cons_of_mem _ mem_cons_self))) rfl (by simp)) fun _ _ => ?_
  refine .bind (scopes_branching (hC _ (by simp)) rfl rfl rfl (by simp) (by simp) (by simp)) fun _ _ => ?_
  exact scopes_markLabel (hC _ (by simp)) (by simp)

section Feedback

variable (hG : G none) (hwrites : l.writesEpilogue) (hcaptures : l.capturesInEpilogue)
    (hbuffer : buffer ∈ l.config.feedback.take maxFeedbackBuffers)
  (hindex : index < maxFeedbackBuffers) (hfirst : l.reservations.feedbackBase? = some first)
include hG hwrites hcaptures hbuffer hindex hfirst

theorem scopes_captureWord (hbase : .temp base ∈ known) (slot : Nat) (hword : word ∈ buffer.words) :
    l.Emits G C lo known opens (l.captureWord (first + index) (.temp base) slot word) := by
  unfold captureWord
  split
  · exact .nop
  · next target htgt =>
    split at htgt
    · cases htgt
    next hhole =>
    rw [targetSources_eq]
    refine .next (scopes_load (.captured hwrites hcaptures hbuffer hword hhole htgt)) fun _ => ?_
    refine .next (scopes_value rfl (by simp [hbase])) fun _ => ?_
    exact scopes_keep (.capture hG hfirst hindex rfl) rfl (by simp)

theorem scopes_captureBuffer (hinfo : l.reservations.feedbackInfo? = some info) (hcnt : .temp count ∈ known) :
    l.Emits G C lo known opens (l.captureBuffer info (first + index) index (.temp count) buffer) := by
  refine .next (scopes_fetch (.captureOffset hinfo hindex) (by simp)) fun _ => ?_
  refine .next (scopes_loadInput rfl rfl rfl) fun _ => ?_
  refine .next (scopes_loadInput rfl rfl rfl) fun _ => ?_
  refine .next (scopes_loadInput rfl rfl rfl) fun _ => ?_
  refine .next (scopes_loadInput rfl rfl rfl) fun _ => ?_
  refine .next (scopes_value rfl (by simp)) fun _ => ?_
  refine .next (scopes_value rfl (by simp)) fun _ => ?_
  refine .next (scopes_value rfl (by simp [hcnt])) fun _ => ?_
  refine .next (scopes_value rfl (by simp)) fun captured => ?_
  refine .next (scopes_value rfl (by simp)) fun _ => ?_
  refine .next (scopes_value rfl (by simp)) fun _ => .forM fun captured hcap => ?_
  exact scopes_captureWord hG hwrites hcaptures hbuffer hindex hfirst (by simp) captured.2 (fst_mem_of_mem_zipIdx hcap)

end Feedback

theorem scopes_feedbackEpilogue (hG : G none) (hwrites : l.writesEpilogue) (hcaptures : l.capturesInEpilogue) :
    l.Emits G C lo known opens l.feedbackEpilogue := by
  unfold feedbackEpilogue
  split
  · next info base hinfo hbase =>
    refine .next (scopes_fetch (.captures hinfo) (by simp)) fun _ => .forM fun indexed hindexed => ?_
    have hindex : indexed.2 < maxFeedbackBuffers := by
      have := snd_lt_of_mem_zipIdx hindexed
      rw [length_take] at this
      omega
    exact scopes_captureBuffer hG hwrites hcaptures (fst_mem_of_mem_zipIdx hindexed) hindex hbase hinfo (by simp)
  · exact .nop

theorem scopes_fragmentEpilogue : l.Emits G C lo known opens l.fragmentEpilogue := by
  refine .bind (.forM ?_) fun _ _ => .ite (fun _ => ?_) fun _ => .nop
  · rintro ⟨⟨target, component⟩, n⟩ -
    exact scopes_store (.fragment (.inl rfl) target component) (Register.isValue_operand _) (.inr (by simp))
  · exact scopes_store (.fragment (.inr rfl) 0 0) (Register.isValue_operand _) (.inr (by simp))

theorem scopes_emulationEpilogue (hG : G none) (hC : ∀ inst, inst ≠ .ret → C inst) :
    l.Emits G C lo known opens l.emulationEpilogue := by
  unfold emulationEpilogue
  split
  · next hm => exact scopes_vertexEpilogue hG hm
  · next hm => exact scopes_geometryEpilogue hG hC hm
  · exact .nop

theorem scopes_epilogue (hG : G none) (hC : ∀ inst, inst ≠ .ret → C inst) : l.Emits G C lo known opens l.epilogue := by
  refine .ite (fun hwrites => ?_) fun _ => .nop
  refine .when (fun _ => scopes_emulationEpilogue hG hC)
    (.when (fun hcaptures => scopes_feedbackEpilogue hG hwrites hcaptures) ?_)
  exact .ite (fun _ => scopes_fragmentEpilogue) fun _ => .nop

/-! Instructions. -/

section Instruction

theorem scopes_unary (hinst : inst.computes 1) (dest : Register) (ha : a.isStatic) (hlab : a.isLabel = false) :
    l.Emits G C lo known opens (unary dest inst a) :=
  .destination dest fun _ hdest => scopes_assign hinst hdest (by simp [ha, hlab])

theorem scopes_binary (hinst : inst.computes 2) (dest a : Register) (b : Source) :
    l.Emits G C lo known opens (binary dest inst a b) :=
  .destination dest fun _ hdest => scopes_assign hinst hdest (by simp)

theorem scopes_select (dest a : Register) (b : Source) (guard : Guest.Guard) :
    l.Emits G C lo known opens (select dest a b guard) := by
  have hrest : ∀ known (cond : Operand), cond.Usable known → cond.isLabel = false → Scopes (l.Emitted G C) lo known []
      opens []
      (do let d ← Emit.destination dest
          Emit.assign d (.conditionalSelect .u32) [cond, a.operand, b.operand]) (fun _ => []) fun _ => True := by
    intro known cond hcond hlab
    refine .destination dest fun _ hdest => .assign (.compute rfl hdest.isAssignable_eq (by simp [hlab])) rfl hdest ?_
    exact forall_mem_cons.2 ⟨hcond, by simp⟩
  unfold select
  refine .ite (fun _ => ?_) fun _ => hrest known _ (by simp) (by simp)
  exact .next (scopes_value rfl (by simp)) fun cond => hrest _ _ (usable_self ..) rfl

theorem scopes_wordIndex (base : Register) (bytes : UInt32) : Scopes (l.Emitted G C) lo known [] opens []
    (wordIndex base bytes) (fun a => [a]) fun a => a.isValue := by
  refine .ite (fun _ => .pure rfl (by simp)) fun _ => ?_
  refine .next (scopes_value rfl (by simp)) fun _ => ?_
  refine (scopes_value rfl (by simp)).mono (by simp) ?_
  rintro _ ⟨t, rfl⟩
  rfl

end Instruction

/-- Sources of an access that is made. -/
def Sourced (l : Lowering) (G : Option Op → Prop) (inst : Instruction) (storage : Storage) (sources : List Operand) :
    Prop :=
  ∃ v location vertex component, sources = l.config.accessSources storage v location vertex component ∧
    l.Touches G inst storage v location vertex component

section Attribute

variable (hop : G (some op)) (haccess : op.Accesses inst storage address offset)
include hop haccess

theorem scopes_attributeSources :
    Scopes (l.Emitted G C) lo known [] opens [] (l.config.attributeSources storage address vertex offset)
      (fun a => a.getD []) fun a => ∀ sources ∈ a, l.Sourced G inst storage sources := by
  have hvtx : Scopes (l.Emitted G C) lo known [] opens [] (l.config.accessVertex storage vertex) (fun a => [a])
      fun a => a.isValue := by
    cases vertex with
    | some r => exact .pure r.isValue_operand (by simp)
    | none =>
      refine .ite (fun _ => ?_) fun _ => .pure rfl (by simp)
      refine (scopes_loadInput rfl rfl rfl).mono (by simp) ?_
      rintro _ ⟨t, rfl⟩
      rfl
  refine .bind hvtx fun v hv => ?_
  cases offset with
  | some r =>
    refine (show Scopes (l.Emitted G C) lo ([v] ++ known) [] opens [] _ id (l.Sourced G inst storage) from ?_).map some
      ?_ ?_
    · refine .next (scopes_value rfl (by simp)) fun _ => ?_
      refine .next (scopes_value rfl (by simp)) fun _ => ?_
      refine .next (scopes_value rfl (by simp)) fun location => ?_
      refine .next (scopes_value rfl (by simp)) fun _ => ?_
      refine .next (scopes_value rfl (by simp)) fun component => ?_
      exact .pure ⟨_, _, _, _, rfl, .indexed hop haccess hv location component⟩
        (usable_accessSources (by simp) (.inl (by simp)) (by simp))
    · exact fun a _ o ho => .inl (mem_append_left _ ho)
    · rintro a ha _ ⟨⟩
      exact ha
  | none =>
    refine .pure (fun sources hsrc => ?_) fun o ho => ?_
    · obtain ⟨target, htgt, rfl⟩ := Option.map_eq_some_iff.1 hsrc
      exact ⟨_, _, _, _, targetSources_eq .., .fixed hop haccess htgt hv⟩
    · cases htgt : resolve address l.config.guestStage storage.isOutput storage.isPerPatch with
      | none => simp [htgt] at ho
      | some target =>
        rw [htgt, Option.map_some, Option.getD_some, targetSources_eq] at ho
        exact usable_accessSources (.inr rfl) (v.usable_self known) (.inr rfl) o ho

theorem scopes_loadAttribute (hinst : inst = .load) (dest : Register) :
    l.Emits G C lo known opens (l.loadAttribute dest storage address vertex offset) := by
  subst hinst
  refine .destination dest fun _ hdest => .bind (scopes_attributeSources hop haccess) fun found hfound => ?_
  cases found with
  | some sources =>
    obtain ⟨v, location, vertex, component, rfl, htouches⟩ := hfound sources rfl
    exact .loadInto (.load htouches hdest.isAssignable_eq) hdest fun _ ho => .inl (mem_append_left _ ho)
  | none => exact scopes_assign rfl hdest (by simp)

theorem scopes_storeAttribute (hinst : inst = .store) (src : Register) :
    l.Emits G C lo known opens (l.storeAttribute src storage address vertex offset) := by
  subst hinst
  refine .bind (scopes_attributeSources hop haccess) fun found hfound => ?_
  cases found with
  | some sources =>
    obtain ⟨v, location, vertex, component, rfl, htouches⟩ := hfound sources rfl
    refine .effect (.store htouches src.isValue_operand) rfl (forall_mem_append.2 ⟨?_, by simp⟩)
    exact fun _ ho => .inl (mem_append_left _ ho)
  | none => exact .nop

end Attribute

theorem isStatic_spaceBlock (r : Resources) (space : Space) : ∀ o ∈ (spaceBlock r space).2, o.isStatic := by
  cases space <;> simp [spaceBlock]

theorem scopes_loadWord (hop : G (some (.ld dest count space base offset))) (hword : word ∈ range count) :
    l.Emits G C lo known opens (l.loadWord dest space base offset word) := by
  have hcnt : count ≠ 0 := by
    rintro rfl
    cases hword
  refine .bind (scopes_wordIndex base _) fun _ hindex => .destination _ fun _ hdest => ?_
  refine .loadInto (.fetch (.space hop hcnt hindex) hdest.isAssignable_eq) hdest ?_
  exact forall_mem_append.2 ⟨fun o ho => .inr (isStatic_spaceBlock _ _ o ho), by simp⟩

theorem scopes_storeWord (hop : G (some (.st src count space base offset))) (hword : word ∈ range count) :
    l.Emits G C lo known opens (l.storeWord src space base offset word) := by
  have hcnt : count ≠ 0 := by
    rintro rfl
    cases hword
  refine .bind (scopes_wordIndex base _) fun index hindex => ?_
  have hkeeps : l.Keeps G (spaceBlock l.resources space).1 ((spaceBlock l.resources space).2 ++ [index]) :=
    .space hop hcnt hindex
  change Scopes _ _ _ _ _ _ (Emit.store (spaceBlock l.resources space).1
    ((spaceBlock l.resources space).2 ++ ([index] ++ [(src.after word).operand]))) _ _
  rw [← append_assoc]
  refine scopes_keep hkeeps (src.after word).isValue_operand ?_
  refine forall_mem_append.2 ⟨forall_mem_append.2 ⟨?_, by simp⟩, by simp⟩
  exact fun o ho => .inr (isStatic_spaceBlock _ _ o ho)

theorem scopes_components (dest : Register) (mask : UInt32) {coords : List Register}
    (hd : ∀ n, (inst n).hasDestination) (h : ∀ n d, d.isAssignable → l.Emitted G C
      ⟨inst n, .none, some d, coords.map Register.operand⟩) :
    l.Emits G C lo known opens (components dest mask inst (coords.map Register.operand)) :=
  .forM fun _ _ => .destination _ fun d hdest => .assign (h _ d hdest.isAssignable_eq) (hd _) hdest fun o ho =>
    .inr (Register.isStatic_of_mem_map _ o ho)

/-- Every instruction but an exit, one case each. -/
theorem scopes_op (hexit : op ≠ .exit) (hop : G (some op)) : l.Emits G C lo known opens (l.op op) := by
  cases op with
  | nop | bra => exact .nop
  | mov dest src | popc dest src => exact scopes_unary rfl dest (by simp) (by simp)
  | i2f dest src signed | f2i dest src signed => cases signed <;> exact scopes_unary rfl dest (by simp) (by simp)
  | sel dest a b guard => exact scopes_select dest a b guard
  | fadd dest a b flag | iadd dest a b flag | fmnmx dest a b flag | imulHi dest a b flag | shr dest a b flag =>
    cases flag <;> exact scopes_binary rfl dest a b
  | lop dest a b logic => cases logic <;> exact scopes_binary rfl dest a b
  | fmul dest a b | imul dest a b | shl dest a b => exact scopes_binary rfl dest a b
  | ffma dest | fswzadd dest => exact .destination dest fun _ hdest => scopes_assign rfl hdest (by simp)
  | shfl dest value index mask mode =>
    cases mode <;> exact .destination dest fun _ hdest => scopes_assign rfl hdest (by simp)
  | isetp dest | fsetp dest => exact .predicateDestination dest fun _ hdest => scopes_assign rfl hdest (by simp)
  | ald => exact .forM fun _ hi => scopes_loadAttribute hop (.ald (mem_words hi)) rfl _
  | ast => exact .forM fun _ hi => scopes_storeAttribute hop (.ast (mem_words hi)) rfl _
  | ipa dest => exact scopes_loadAttribute hop .ipa rfl dest
  | s2r dest system =>
    have hv : system.ioVariable.1.hasLocation = false := by cases system <;> rfl
    exact .destination dest fun _ hdest => .loadInto (.load (.builtin hv _) hdest.isAssignable_eq) hdest
      (usable_accessSources (.inr rfl) (.inr rfl) (.inr rfl))
  | ld => exact .forM fun _ hi => scopes_loadWord hop hi
  | st => exact .forM fun _ hi => scopes_storeWord hop hi
  | tex dest mask => exact scopes_components dest mask (fun _ => rfl) fun n _ hd => .sample (.tex hop n) hd
  | suld dest mask => exact scopes_components dest mask (fun _ => rfl) fun n _ hd => .imageLoad hop n hd
  | sust => exact .effect (.imageStore hop) rfl fun o ho => .inr (Register.isStatic_of_mem_map _ o ho)
  | bar | kil => exact scopes_act rfl rfl rfl rfl
  | exit => exact absurd rfl hexit
  | out emit cut =>
    unfold Lowering.op
    refine .when (fun _ => scopes_act rfl rfl rfl rfl) ?_
    exact .ite (fun _ => scopes_act rfl rfl rfl rfl) fun _ => .nop

end Lowering
end ShaderRecompiler
