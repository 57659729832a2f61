import ShaderRecompiler.Proofs.Outputs
import ShaderRecompiler.Proofs.Records

/-! Records with room for every output. What a program accesses of its outputs at fixed
places is part of the record that its usage asks for, whatever was added about its
neighbours, and so is what an emulated stage stores around its program. Its passes put
code in the place of each operation. -/
namespace ShaderRecompiler

open RecordUsage Attribute

namespace Attribute

/-- The word behind an address. -/
def Target.slot : Target → Slot
  | user location component => ⟨.userDefined, location, component⟩
  | builtin v component => ⟨v, 0, component.getD 0⟩

theorem resolve_output (address : Nat) (stage stage' : Stage) (perPatch : Bool) :
    resolve address stage true perPatch = resolve address stage' true perPatch := by
  have hfragment : ∀ stage : Stage, ¬(stage = .fragment ∧ (!true)) := by simp
  unfold resolve builtin?
  rw [if_neg (hfragment stage), if_neg (hfragment stage')]

end Attribute

/-- The words of the record for the outputs that were found. -/
def Guest.Usage.slots (u : Guest.Usage) : List Slot :=
  (ofFeatures u.features u.clipDistances u.attributes.outputs).slots

/-- A record has a word for each output that was found, if it is one that records have. -/
theorem Guest.Usage.mem_slots {u : Guest.Usage}
    (h : resolve address stage true false = some target) (hrec : target.slot.io.isRecorded)
    (hholds : ∀ f ∈ target.findings .output, u.holds f) : target.slot ∈ u.slots := by
  refine RecordUsage.mem_slots.2 ?_
  cases target with
  | user location component =>
    obtain ⟨hloc, hcomp⟩ := resolve_user h
    exact .user (hholds (.output location) List.mem_cons_self) hloc hcomp
  | builtin v component =>
    obtain ⟨-, -, hposition, hnone, -⟩ := builtin?_spec (exists_builtin h)
    cases v with
    | position => exact .position (hposition rfl)
    | clipDistance =>
      exact .clipDistance (hholds (.clipDistance (some (component.getD 0))) List.mem_cons_self) (Nat.le_refl _)
    | layer =>
      obtain rfl := hnone (by simp)
      exact .layer (hholds _ List.mem_cons_self)
    | viewportIndex =>
      obtain rfl := hnone (by simp)
      exact .viewportIndex (hholds _ List.mem_cons_self)
    | pointSize =>
      obtain rfl := hnone (by simp)
      exact .pointSize (hholds _ List.mem_cons_self)
    | userDefined => cases resolve_builtin h
    | _ => cases hrec

namespace StageContext

variable {s : StageContext} {lowered : Lowered}

/-- Outputs that are no part of a record, and those at places that the record has. -/
def Recorded (s : StageContext) : Places := fun _ v location component => v.isRecorded →
  ∃ slot ∈ s.record.slots, slot.io = v ∧ location = .word slot.location ∧ component = .word slot.component

theorem Recorded.of_mem (slot : Slot) (h : slot ∈ s.record.slots) :
    s.Recorded inst slot.io (.word slot.location) (.word slot.component) :=
  fun _ => ⟨slot, h, rfl, rfl, rfl⟩

theorem Configured.layer (h : s.Configured) (hlay : s.layerInput.isSome) : s.usage.features.layer := by
  induction h with
  | ofProgram => cases hlay
  | setLayerInput => rfl
  | setNext _ _ ih | mergeOutputs _ _ _ ih | setLast _ ih | setLayerOutput _ _ ih | setVertex _ _ ih
  | progress _ _ ih => exact ih hlay

theorem Configured.meets (h : s.Configured) (hop : op ∈ s.program.ops) (hword : word ∈ op.outputWords)
    (htgt : resolve word stage true false = some target) : target.Meets s.Recorded := by
  rw [resolve_output word stage s.config.stage] at htgt
  have hfinds : Guest.addressFindings s.config.stage .output word = target.findings .output :=
    Guest.addressFindings_eq htgt
  have hmem : target.slot.io.isRecorded → target.slot ∈ s.record.slots := fun hrec =>
    Guest.Usage.mem_slots htgt hrec fun _ hf => h.holds_output hop hword (hfinds ▸ hf)
  cases target with
  | user => exact fun _ => Recorded.of_mem _ (hmem rfl)
  | builtin v component => exact fun _ hrec => ⟨_, hmem hrec, rfl, rfl, rfl⟩

/-- The stage runs as a dispatch in the place of a vertex or geometry stage. -/
structure Emulable (s : StageContext) : Prop where
  guestStage_eq : s.config.guestStage = s.config.stage
  stage_eq : s.config.stage = .vertex ∨ s.config.stage = .geometry

theorem Emulable.emulation (h : s.Emulable) : ∃ m, s.emulatedResources.emulation = some m ∧ m.vertexData = 0 ∧
    ∀ n ∈ m.written, UInt32.ofNat n ≠ 0 := by
  have hext := s.extends_emulatedResources
  obtain hstg | hstg := h.stage_eq
  · exact ⟨_, hext.emulation.trans (s.resources_vertex hstg).2.1, rfl, by decide⟩
  · exact ⟨_, hext.emulation.trans (s.resources_geometry hstg).2.1, rfl, by decide⟩

theorem currentLocal_eq (hn : s.emulatedResources.currentLocal = some n) :
    n = (s.resources true).localMemories.length := by
  have hlocal : (s.beginLocalMemory (s.resources true)).currentLocal = some n := by
    rw [emulatedResources, (s.program.declare_spec (s.prepared_prepared true).toNumbered).2.1.currentLocal, prepared,
      beginSharedMemory] at hn
    split at hn
    · rwa [Resources.currentLocal_beginSharedMemory] at hn
    · exact hn
  unfold beginLocalMemory Resources.beginLocalMemory at hlocal
  split at hlocal
  · exact (Option.some.inj hlocal).symm
  · cases hlocal

theorem Emulable.currentLocal (h : s.Emulable) (hn : s.emulatedResources.currentLocal = some n) :
    UInt32.ofNat n ≠ 0 := by
  have hlen : (s.resources true).localMemories.length = 3 ∨ (s.resources true).localMemories.length = 4 :=
    h.stage_eq.imp (fun hstg => (s.resources_vertex hstg).2.2) fun hstg => (s.resources_geometry hstg).2.2
  obtain rfl := currentLocal_eq hn
  obtain hlen | hlen := hlen <;> rw [hlen] <;> decide

theorem exists_currentLocal (hlow : s.lower true (s.prepared true) {} {} = .ok lowered)
    (hop : .st src count .localMemory base offset ∈ s.program.ops)
    (hcnt : count ≠ 0) : ∃ n, s.emulatedResources.currentLocal = some n := by
  have hfault := Guest.Program.fault?_eq_none (Guest.Program.error?_of_lower (lower_ok hlow)) hop
  rw [Guest.Op.fault?, if_neg hcnt] at hfault
  have hsome : (s.prepared true).currentLocal ≠ none := by
    simpa [Guest.Space.fault?, surroundings] using hfault
  obtain ⟨n, hn⟩ := Option.ne_none_iff_exists'.1 hsome
  exact ⟨n, (s.program.declare_spec (s.prepared_prepared true).toNumbered).2.1.currentLocal.trans hn⟩

/-- What a stage accesses of its outputs at fixed places has a word of its record,
transform feedback apart. -/
theorem Configured.lower_sound (h : s.Configured) (hidx : ∀ op ∈ s.program.ops, op.indexesOutput = false)
    {resources : Resources}
    (hlow : s.lower emulated resources ids parts = .ok lowered)
    (hrec : ∀ {inst v location component}, s.Recorded inst v location component → O inst v location component)
    (hcap : s.host.emulatesTransformFeedback → ∀ v location component, O .load v location component)
    (hmem : ∀ m, (s.program.declare resources).emulation = some m → ∀ n ∈ m.written, B n)
    (hstores : ∀ src count base offset, .st src count .localMemory base offset ∈ s.program.ops → count ≠ 0 →
      B ((s.program.declare resources).currentLocal.getD 0)) :
    ∀ op ∈ lowered.ops, op.Sound (s.configFor emulated) O B := by
  refine Guest.Program.sound_lower (lower_ok hlow) ⟨?_, ?_, ?_, ?_, hmem⟩ fun op hop => ⟨?_, ?_, ?_⟩
  · intro v hv inst location component
    exact hrec fun hyes => by simp [hv] at hyes
  · intro component hcomp
    refine ⟨hrec ?_, fun location hloc => hrec ?_⟩
    · exact Recorded.of_mem ⟨.position, 0, component⟩ (mem_slots.2 (.position hcomp))
    · obtain ⟨hlt, htest⟩ := Mask.mem_below.1 hloc
      exact Recorded.of_mem ⟨.userDefined, location, component⟩ (mem_slots.2 (.user htest hlt hcomp))
  · intro hlay
    exact hrec (Recorded.of_mem ⟨.layer, 0, 0⟩ (mem_slots.2 (.layer (h.layer hlay))))
  · intro _ hcaps
    simp only [Lowering.capturesInEpilogue, Bool.and_eq_true] at hcaps
    exact hcap hcaps.1.2
  · intro word hword target htgt
    have hmeets := h.meets hop hword htgt
    cases target <;> exact fun inst => hrec (hmeets inst)
  · intro hindexes
    simp [hidx op hop] at hindexes
  · rintro src count base offset rfl hcnt
    exact hstores src count base offset hop hcnt

/-- All that an emulated stage accesses of its outputs has a word, and nothing else is
stored where the record is. -/
theorem Configured.lower_recorded (h : s.Configured) (hemulable : s.Emulable)
    (hfb : s.host.emulatesTransformFeedback = false) (hidx : ∀ op ∈ s.program.ops, op.indexesOutput = false)
    (hlow : s.lower true (s.prepared true) {} {} = .ok lowered) :
    ∀ op ∈ lowered.ops, op.Sound (s.configFor true) s.Recorded fun n => UInt32.ofNat n ≠ 0 := by
  refine h.lower_sound hidx hlow id (by simp [hfb]) ?_ ?_
  · intro m hm n hn
    obtain ⟨m', hm', -, hwr⟩ := hemulable.emulation
    obtain rfl := Option.some.inj (hm.symm.trans hm')
    exact hwr n hn
  · intro src count base offset hop hcnt
    obtain ⟨n, hlocal⟩ := exists_currentLocal hlow hop hcnt
    change UInt32.ofNat (s.emulatedResources.currentLocal.getD 0) ≠ 0
    rw [hlocal]
    exact hemulable.currentLocal hlocal

/-! The lowered stage and its passes. -/

theorem resources_lowered (h : s.lower true (s.prepared true) {} {} = .ok lowered) :
    lowered.resources = s.emulatedResources :=
  resources_of_lower h

theorem within_lowered (h : s.lower true (s.prepared true) {} {} = .ok lowered) :
    ∀ op ∈ lowered.ops, ∀ o ∈ op.operands, o.Within {} lowered.ids :=
  Guest.Program.within_lower (lower_ok h)

/-- What the passes see of an emulated stage. -/
def passContext (s : StageContext) (lowered : Lowered) : PassContext := ⟨s.configFor true, lowered.resources, s.host⟩

/-- The passes that an emulated stage goes through. -/
def passes (s : StageContext) (lowered : Lowered) : List Pass :=
  Pass.enabled s.config.guestStage ((s.featuresFor true).union lowered.features)

/-- The block graph of an emulated stage after its passes. -/
def passed (s : StageContext) (lowered : Lowered) (r : Routine) : Passed :=
  r.runPasses (s.passContext lowered) ((s.featuresFor true).union lowered.features)

theorem passes_vertex (h : s.config.guestStage = .vertex) :
    s.passes lowered = [.drawParameters, .vertexEmulation] := by
  rw [passes, h]
  exact Pass.enabled_vertex (by simp [featuresFor, Features.union])

theorem passes_geometry (h : s.config.guestStage = .geometry) : s.passes lowered = [.geometryEmulation] := by
  rw [passes, h]
  exact Pass.enabled_geometry (by simp [featuresFor, Features.union])

theorem Emulable.emulate (h : s.Emulable) (hlow : s.lower true (s.prepared true) {} {} = .ok lowered) :
    Pass.Emulate (s.passContext lowered) (s.passes lowered) ∧
      (s.passContext lowered).resources.reservations = s.reservations := by
  have hrsc : (s.passContext lowered).resources = s.emulatedResources := resources_lowered hlow
  have hext := s.extends_emulatedResources
  obtain hstg | hstg := h.stage_eq
  · obtain ⟨hres, hemu, -⟩ := s.resources_vertex hstg
    rw [← hext.emulation, ← hrsc] at hemu
    rw [passes_vertex (h.guestStage_eq.trans hstg), hrsc]
    exact ⟨Pass.emulate_vertex hemu, hext.reservations.trans hres⟩
  · obtain ⟨hres, hemu, -⟩ := s.resources_geometry hstg
    rw [← hext.emulation, ← hrsc] at hemu
    rw [passes_geometry (h.guestStage_eq.trans hstg), hrsc]
    exact ⟨Pass.emulate_geometry hemu (by decide) (by decide), hext.reservations.trans hres⟩

/-- The passes keep the flow of control of an emulated stage and put code in the place
of each operation. What they report about outputs is that they have no word. -/
theorem Emulable.passed_spec (h : s.Emulable) (hlow : s.lower true (s.prepared true) {} {} = .ok lowered)
    (hr : Routine.ofOperations lowered.ops lowered.ids = .ok r) :
    r.SameFlow (s.passed lowered r).routine ∧
      (∀ b, ∃ parts, Pass.Parts (s.passContext lowered) lowered.ids.temps (s.passes lowered) (r.code b)
        ((s.passed lowered r).routine.code b) parts) ∧
      ∀ report ∈ (s.passed lowered r).unresolved, report.isOutput → ∃ op ∈ lowered.ops,
        op.accessesOutput ∧ op.recordOffset? s.reservations .output = none ∧ report.name = op.ioName := by
  obtain ⟨hem, hres⟩ := h.emulate hlow
  have hids := Routine.ids_ofOperations hr
  have hresp : ∀ pass ∈ Pass.enabled (s.passContext lowered).config.guestStage
      ((s.featuresFor true).union lowered.features),
      (pass.expansion (s.passContext lowered)).Respects lowered.ids.temps :=
    fun pass hpass => hem.respects pass hpass _
  obtain ⟨hflow, hturns, hreps⟩ :=
    Routine.runPasses_spec hresp (.ofOperations hr) (Nat.le_of_eq (congrArg Ids.temps hids.symm))
  refine ⟨hflow, fun b => (hturns b).exists_parts, fun report hrep hout => ?_⟩
  obtain ⟨b, hrep⟩ := hreps report hrep
  obtain ⟨op, hop, hspec⟩ := hem.reports hrep hout
  rw [hres] at hspec
  exact ⟨op, (Routine.mem_code_ofOperations hr hop), hspec⟩

end StageContext
end ShaderRecompiler
