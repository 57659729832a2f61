import ShaderRecompiler.Proofs.Emulation
import ShaderRecompiler.Proofs.Initialization
import ShaderRecompiler.Proofs.Residue

/-! The record of two stages that are emulated as one. Its words are those of the second
stage, while the joined program also has the stores of the first one, but for those that
are carried to the second. A store has a word if its slot is in the record of the second
stage; one that has none is reported and stays where it is. -/
namespace ShaderRecompiler

open List Operation Join VertexEmulation

namespace Operation

variable {op : Operation}

theorem Becomes.filter_accessesOutput (h : op.Becomes r first code)
    (hbufs : op.accessesOutput → ∀ o ∈ op.sources, o.isConstantBuffer = false) :
    code.filter accessesOutput =
      [op].filter fun op => op.accessesOutput && (op.recordOffset? r .output).isNone := by
  have haside : ∀ {result : Option Operand} {ops : List Operation}, (∀ o ∈ ops, o.Aside first result) →
      ops.filter accessesOutput = [] :=
    fun hops => filter_eq_nil_iff.2 fun o ho => by simp [(hops o ho).output]
  cases h with
  | @kept before sources hbef hsrc hout =>
    rw [filter_append, haside hbef, nil_append]
    cases hacc : op.accessesOutput with
    | true =>
      obtain rfl := Operand.Settles.list_eq hsrc (hbufs hacc)
      simp [hacc, hout hacc]
    | false =>
      have hsame : accessesOutput { op with sources } = false := hacc
      simp [hacc, hsame]
  | away hcode haway =>
    rw [haside hcode]
    simp [accessesOutput_of_isAway haway]
  | @recorded before sources offset hbef hsrc hacc hoff =>
    have hrec : accessesOutput (Operation.recorded { op with sources } offset) = false := by
      unfold Operation.recorded
      split <;> rfl
    rw [filter_append, haside hbef]
    simp [hrec, hoff]

theorem isSome_recordOffset?_iff (h : op.slot? = some slot) (storage : Storage) :
    (op.recordOffset? r storage).isSome ↔ slot ∈ r.record storage := by
  rw [recordOffset?_eq, h, Option.bind_some, isSome_idxOf?]

end Operation

namespace Routine

variable {x : PassContext} {r : Routine} {features : Features} {op : Operation}

theorem exists_settled (hlink : r.WellLinked) (hop : op ∈ r.code b) :
    (r.expand (DrawParameters.expansion x)).2.WellLinked ∧ ∃ sources,
      { op with sources } ∈ (r.expand (DrawParameters.expansion x)).2.code b ∧
        Forall₂ (Operand.Settles 0) op.sources sources := by
  obtain ⟨hlink', -, -, hcode, -⟩ := expand_spec hlink (Nat.zero_le _) (Pass.respects_drawParameters x 0)
  obtain ⟨ids, hids, hpiece⟩ := (hcode b).exists_piece hop
  obtain ⟨loads, sources, heq, -, hsrc, -⟩ := Pass.piece_drawParameters x op hids
  exact ⟨hlink', sources, hpiece (by rw [heq]; exact mem_append_right _ (mem_singleton_self _)), hsrc⟩

theorem mem_unresolved_vertex (hguest : x.config.guestStage = .vertex) (hfeat : features.emulated)
    {vertexRate instanceRate : Nat} (hm : x.resources.emulation = some (.vertex 0 vertexRate instanceRate))
    (hlink : r.WellLinked) (hop : op ∈ r.code b) (hacc : op.accessesOutput)
    (hnone : op.recordOffset? x.resources.reservations .output = none) :
    ⟨true, op.ioName⟩ ∈ (r.runPasses x features).unresolved := by
  obtain ⟨hlink', sources, hset, hsrc⟩ := exists_settled (x := x) hlink hop
  have hnone' := (recordOffset?_settle hsrc _).trans hnone
  rw [(runPasses_vertex hguest hfeat).2, unresolved_expand hlink' (replaces_expansion x).finishes]
  refine mem_append_right _ (mem_filterMap.2 ⟨_, hlink'.mem_live hset, ?_⟩)
  have hexp : expansion x { op with sources } = _ := expansion_of_output hm hacc
  rw [Expansion.report, hexp, expandOutput_none hm hnone', ioName_settle hsrc]
  rfl

end Routine

namespace Lowered

variable {head : Lowered} {op : Operation}

/-- Joining keeps accesses to outputs at most, and the stores that are carried it does not. -/
theorem mem_join_cases (hacc : op.accessesOutput) (hop : op ∈ (head.join second).1) :
    op ∈ second ∨ op ∈ head.ops ∧ ∀ slot, written? op = some slot → slot ∉ second.filterMap read? := by
  obtain ⟨pc, hpc⟩ := mem_iff_getElem?.1 hop
  obtain ⟨op', hop', rfl⟩ | rfl | ⟨op', hop', rfl⟩ := join_cases hpc
  · refine .inr ?_
    unfold continueAt at hacc ⊢
    split at hacc
    · cases hacc
    · next hret =>
      rw [if_neg hret]
      cases hcarr : (written? op').bind (Bridge.ofReads second head.ids).carrier? with
      | some o =>
        obtain ⟨slot, hslot, hcarr⟩ := Option.bind_eq_some_iff.1 hcarr
        rw [carryStore_of_carrier hslot hcarr] at hacc
        cases hacc
      | none =>
        rw [carryStore_of_none hcarr]
        refine ⟨mem_of_getElem? hop', fun slot hslot hread => ?_⟩
        have hsome : ((Bridge.ofReads second head.ids).carrier? slot).isSome :=
          Bridge.isSome_carrier?.2 hread
        rw [hslot, Option.bind_some] at hcarr
        rw [hcarr] at hsome
        cases hsome
  · cases hacc
  · refine .inl ?_
    unfold carryLoad at hacc ⊢
    split at hacc
    · cases hacc
    · exact hop'

end Lowered

namespace StageContext

variable {s first : StageContext} {emulated : Bool} {head tail : Lowered}

namespace LoweredTogether

variable (h : LoweredTogether s first emulated head tail)
include h

theorem tail_spec : tail.resources.Numbered ∧ (s.resources emulated).Extends tail.resources := by
  have htail : tail.resources = _ := resources_of_lower h.tail_eq
  obtain ⟨hnumd, hgrows, -⟩ := s.program.declare_spec ((s.numbered_resources emulated).beginLocalMemory
    s.program.localMemorySize s.usage.features.localMemory)
  rw [htail]
  exact ⟨hnumd, (Resources.extends_beginLocalMemory ..).trans hgrows.toExtends⟩

theorem extends_tail : tail.resources.Extends head.resources := by
  have hhead : head.resources = _ := resources_of_lower h.head_eq
  obtain ⟨-, hgrows, -⟩ := (first.feeding s).program.declare_spec (h.tail_spec.1.beginLocalMemory
    (first.feeding s).program.localMemorySize (first.feeding s).usage.features.localMemory)
  rw [hhead]
  exact (Resources.extends_beginLocalMemory ..).trans hgrows.toExtends

theorem extends_resources : (s.resources emulated).Extends head.resources :=
  h.tail_spec.2.trans h.extends_tail

end LoweredTogether

theorem mem_slots_feeding (h : slot ∈ (first.feeding s).record.slots) :
    slot ∈ first.record.slots ∨ slot ∈ s.record.slots := by
  simp only [RecordUsage.mem_slots] at h ⊢
  cases h with
  | position h => exact .inl (.position h)
  | layer h => exact .inl (.layer h)
  | viewportIndex h => exact .inl (.viewportIndex h)
  | pointSize h => exact .inl (.pointSize h)
  | clipDistance h hle => exact .inl (.clipDistance h hle)
  | @user location _ h hloc hcomp =>
    have hor : Mask.test first.usage.attributes.outputs location ∨ Mask.test s.usage.attributes.outputs location := by
      change Mask.test (first.usage.attributes.mergeOutputs first.config.geometryPassthrough
        s.usage.attributes.outputs []).outputs location at h
      unfold AttributeUsage.mergeOutputs at h
      split at h
      · exact .inl h
      · simpa [Mask.test] using h
    exact hor.imp (.user · hloc hcomp) (.user · hloc hcomp)

/-- Stores to outputs are at places that the record has. -/
def StoresRecorded (s : StageContext) : Places := fun inst v location component =>
  inst = .store → s.Recorded inst v location component

theorem Configured.lower_stored (h : s.Configured) (hidx : ∀ op ∈ s.program.ops, op.indexesOutput = false)
    {resources : Resources}
    (hlow : s.lower emulated resources ids parts = .ok lowered) :
    ∀ op ∈ lowered.ops, op.Sound (s.configFor emulated) s.StoresRecorded fun _ => True := by
  refine h.lower_sound hidx hlow (fun hrec _ => hrec) ?_ (fun _ _ _ _ => trivial) fun _ _ _ _ _ _ => trivial
  intro _ v location component hstore
  cases hstore

theorem exists_slot_of_sound {op : Operation} (hsound : op.Sound c s.StoresRecorded B)
    (hstore : op.isStore .output) (hv : op.ioVariable? = some v)
    (hrec : v.isRecorded) : ∃ slot ∈ s.record.slots, op.slot? = some slot := by
  have hinst : op.inst = .store ∧ op.storage = .output := by simpa [isStore] using hstore
  have hio : op.storage.isIo := by rw [hinst.2]; rfl
  obtain ⟨v', location, vertex, component, hacc, hplc, -⟩ := hsound.access hio
  obtain rfl := Option.some.inj ((hacc.ioVariable?_eq hio).symm.trans hv)
  obtain ⟨slot, hmem, rfl, rfl, rfl⟩ := hplc hinst.2 hinst.1 hrec
  exact ⟨slot, hmem, (hacc.slot?_eq hio).trans (RecordUsage.slotAt?_of_mem hmem)⟩

/-- The features that two stages emulated as one are compiled with. -/
def joinedFeatures (s first : StageContext) (head tail : Lowered) : Features :=
  (((s.featuresFor true).union tail.features).union head.features).union (first.feeding s).usage.features

theorem emulated_joinedFeatures (s first : StageContext) (head tail : Lowered) :
    (s.joinedFeatures first head tail).emulated := by
  simp [joinedFeatures, featuresFor, Features.union]

/-- What the passes make of two stages that are emulated as one. -/
def joinedPassed (s first : StageContext) (head tail : Lowered) (r : Routine) : Passed :=
  r.runPasses ⟨s.configFor true, head.resources, s.host⟩ (s.joinedFeatures first head tail)

/-- Two vertex stages are emulated as one with the record of the second. In their joined
program every store to an output of the kinds that records hold names a slot, and it has
a word of the record just if its slot is one of the second stage. All others are stores
of the first stage to slots that only its own record has and the second does not read.
The passes report just the outputs that are accessed and have no word, and the accesses
to outputs that they leave are just those. -/
theorem join_records_outputs (hs : s.Configured) (hfirst : first.Configured) (hstage : s.config.stage = .vertex)
    (hguest : s.config.guestStage = .vertex)
    (hindex : ∀ op ∈ s.program.ops ++ first.program.ops, op.indexesOutput = false)
    (h : LoweredTogether s first true head tail) {r : Routine}
    (hr : Routine.ofOperations (head.join tail.ops).1 (head.join tail.ops).2 = .ok r) :
    (∀ op ∈ (head.join tail.ops).1, op.isStore .output = true →
      ∀ v : IoVariable, op.ioVariable? = some v → v.isRecorded = true → ∃ slot, op.slot? = some slot ∧
        ((op.recordOffset? head.resources.reservations .output).isSome = true ↔ slot ∈ s.record.slots) ∧
        (slot ∈ s.record.slots ∨ op ∈ head.ops ∧ slot ∈ first.record.slots ∧
          ∀ place, Join.written? op = some place → place ∉ tail.ops.filterMap Join.read?)) ∧
    (∀ name, ⟨true, name⟩ ∈ (s.joinedPassed first head tail r).unresolved ↔ ∃ b, ∃ op ∈ r.code b,
      op.accessesOutput = true ∧ op.recordOffset? head.resources.reservations .output = none ∧ op.ioName = name) ∧
    ∀ b, ((s.joinedPassed first head tail r).routine.code b).filter Operation.accessesOutput =
      (r.code b).filter fun op =>
        op.accessesOutput && (op.recordOffset? head.resources.reservations .output).isNone := by
  obtain ⟨hreservations, hemulation, -⟩ := s.resources_vertex hstage
  rw [← h.extends_resources.reservations] at hreservations
  rw [← h.extends_resources.emulation] at hemulation
  obtain ⟨hindex, hindex'⟩ := List.forall_mem_append.1 hindex
  have htail := hs.lower_stored hindex h.tail_eq
  have hhead := (hfirst.mergeOutputs s.usage.attributes.outputs []).lower_stored hindex' h.head_eq
  have hlinked := Routine.WellLinked.ofOperations hr
  have hfeatures := s.emulated_joinedFeatures first head tail
  have hemulate := Pass.emulate_vertex (x := ⟨s.configFor true, head.resources, s.host⟩) hemulation
  rw [← Pass.enabled_vertex hfeatures, ← hguest] at hemulate
  obtain ⟨-, hturns, hreports⟩ := Routine.runPasses_spec
    (fun pass hpass => hemulate.respects pass hpass r.ids.temps) hlinked (Nat.le_refl _)
  refine ⟨fun op hop hstore v hv hrecorded => ?_, fun name => ⟨fun hname => ?_, ?_⟩, fun b => ?_⟩
  · have haccess : op.accessesOutput = true := by simp [Operation.accessesOutput, hstore]
    have hiff : ∀ {slot}, op.slot? = some slot →
        ((op.recordOffset? head.resources.reservations .output).isSome = true ↔ slot ∈ s.record.slots) := by
      intro slot hslot
      rw [hreservations]
      exact Operation.isSome_recordOffset?_iff hslot .output
    obtain hsecond | ⟨hmem, hkept⟩ := Lowered.mem_join_cases haccess hop
    · obtain ⟨slot, hmem, hslot⟩ := exists_slot_of_sound (htail op hsecond) hstore hv hrecorded
      exact ⟨slot, hslot, hiff hslot, .inl hmem⟩
    · obtain ⟨slot, hfed, hslot⟩ := exists_slot_of_sound (hhead op hmem) hstore hv hrecorded
      refine ⟨slot, hslot, hiff hslot, ?_⟩
      exact (mem_slots_feeding hfed).elim (fun hown => .inr ⟨hmem, hown, hkept⟩) .inl
  · obtain ⟨b, hreport⟩ := hreports _ hname
    obtain ⟨op, hop, haccess, hnone, heq⟩ := hemulate.reports hreport rfl
    exact ⟨b, op, hop, haccess, hnone, heq.symm⟩
  · rintro ⟨b, op, hop, haccess, hnone, rfl⟩
    exact Routine.mem_unresolved_vertex hguest hfeatures hemulation hlinked hop haccess hnone
  · obtain ⟨parts, hparts⟩ := (hturns b).exists_parts
    refine hparts.filter_eq fun p hp => ?_
    have hcode : p.1 ∈ r.code b := hparts.old_eq ▸ List.mem_map_of_mem hp
    refine (hemulate.becomes (hparts.turns p hp)).filter_accessesOutput fun haccess => ?_
    have hio : p.1.storage.isIo = true := by rw [(Operation.access_of_output haccess).2]; rfl
    obtain hsecond | ⟨hmem, -⟩ := Lowered.mem_join_cases haccess (Routine.mem_code_ofOperations hr hcode)
    · exact (htail _ hsecond).operands (.inr hio)
    · exact (hhead _ hmem).operands (.inr hio)

def emulatedTail : Lowered :=
  (exiting.lower true (exiting.beginLocalMemory (exiting.resources true)) {} secondParts).toOption.get
    (by decide +kernel)

def emulatedHead : Lowered :=
  ((storing.feeding exiting).lower true ((storing.feeding exiting).beginLocalMemory emulatedTail.resources)
    emulatedTail.ids firstParts).toOption.get (by decide +kernel)

def emulatedRoutine : Routine :=
  (Routine.ofOperations (emulatedHead.join emulatedTail.ops).1 (emulatedHead.join emulatedTail.ops).2).toOption.get
    (by decide +kernel)

theorem join_records_outputs_storing : LoweredTogether exiting storing true emulatedHead emulatedTail ∧
      ⟨true, "UserDefined"⟩ ∈ (exiting.joinedPassed storing emulatedHead emulatedTail emulatedRoutine).unresolved ∧
      ⟨true, "Position"⟩ ∉ (exiting.joinedPassed storing emulatedHead emulatedTail emulatedRoutine).unresolved := by
  have hexiting : exiting.Configured := .ofProgram ..
  have hstoring : storing.Configured := .ofProgram ..
  have htogether : LoweredTogether exiting storing true emulatedHead emulatedTail := ⟨eq_ok_get _, eq_ok_get _⟩
  have hroutine : Routine.ofOperations (emulatedHead.join emulatedTail.ops).1 (emulatedHead.join emulatedTail.ops).2 =
      .ok emulatedRoutine := eq_ok_get _
  have hposition : ∀ op ∈ (emulatedHead.join emulatedTail.ops).1, op.ioName = "Position" →
      op.recordOffset? emulatedHead.resources.reservations .output ≠ none := by decide +kernel
  obtain ⟨-, hreports, -⟩ := join_records_outputs hexiting hstoring rfl rfl (by decide) htogether hroutine
  refine ⟨htogether, (hreports _).2 ⟨0, by decide +kernel⟩, ?_⟩
  rw [hreports]
  rintro ⟨b, op, hop, -, hnone, hname⟩
  exact hposition op (Routine.mem_code_ofOperations hroutine hop) hname hnone

/-- The second stage has no generic outputs, so a store of the first one has no word. -/
theorem storing_lacks_word : ∃ op ∈ (emulatedHead.join emulatedTail.ops).1, op.isStore .output = true ∧
    op.ioVariable? = some .userDefined ∧ op.recordOffset? emulatedHead.resources.reservations .output = none := by
  decide +kernel

end StageContext
end ShaderRecompiler
