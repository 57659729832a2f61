import ShaderRecompiler.Proofs.Recording
import ShaderRecompiler.Proofs.Replay

/-! Vertex records between emulated stages. A geometry stage that knows its vertex stage
lays the records out as the vertex stage does, and where its program loads an attribute
of a vertex it reads the word that this vertex's invocation wrote. -/
namespace ShaderRecompiler

open GeometryEmulation Emit

universe u v

variable {count instanceId offset : Nat} {op : Operation} {s : StageContext}

namespace GeometryEmulation

theorem loadRecord_eq (g : GeometryEmulation) (dest vertex : Operand) (offset : Nat) :
    g.loadRecord dest vertex offset = (g.vertexCount >>= fun vertexCount =>
      load .localMemory [.word g.topologyRemap, vertex] >>= fun remapped =>
      globalInvocationId 1 >>= fun instanceId =>
      imul instanceId vertexCount >>= fun base =>
      iadd base remapped >>= fun record =>
      imul record (.word g.reservations.inputSize) >>= fun start =>
      (if offset = 0 then pure start else iadd start (.word offset)) >>= fun place =>
      loadInto dest .storageBuffer [.word g.reservations.vertexOutput, .word 0, place]) := by
  unfold loadRecord
  split <;> rfl

end GeometryEmulation

namespace Device

variable {σ : Type u} {w : World} {M : Device σ w Alone} {g : GeometryEmulation} {vertex : Nat} {s : σ}

/-- An invocation of an emulated geometry stage works on a primitive of an instance, a
vertex of which is the given one of the draw. -/
structure Assembles (M : Device σ w Alone) (r : Reservations) (topologyRemap count : Nat) (corner : UInt32)
    (vertex instanceId : Nat) (s : σ) : Prop where
  instance_eq : M.cell (inputCell .globalInvocationId [1]) s = UInt32.ofNat instanceId
  count_eq : M.cell r.countCell s = UInt32.ofNat count
  vertex_eq : M.cell ⟨.localMemory, [UInt32.ofNat topologyRemap, corner]⟩ s = UInt32.ofNat vertex

theorem runs_loadRecord (h : M.Assembles g.reservations g.topologyRemap count corner vertex instanceId s)
    (hsrc : M.Means e s source corner) {dest : Operand} (hdest : dest.isAssignable)
    (offset : Nat) :
    M.Runs (g.loadRecord dest source offset) e s fun _ _ s' => M.read dest s' = M.cell
      (g.reservations.vertexCell (recordElement g.reservations.inputSize count vertex instanceId offset)) s := by
  rw [loadRecord_eq]
  apply Runs.bind (Runs.load (W := fun _ => False) (means_words (.cons (M.means_word ..) .nil)) trivial h.count_eq)
  rintro n e₁ s₁ ⟨h₁, hn⟩
  apply Runs.bind (Runs.load (W := fun _ => False) (.cons (M.means_word ..) (.cons (hsrc.mono h₁) .nil)) trivial
    ((h₁.cells _ trivial id).trans h.vertex_eq))
  rintro v e₂ s₂ ⟨h₂, hv⟩
  have h₂' := h₁.trans h₂
  apply Runs.bind (Runs.load (W := fun _ => False) (means_words .nil) trivial
    ((h₂'.cells _ trivial id).trans h.instance_eq))
  rintro i e₃ s₃ ⟨h₃, hi⟩
  apply Runs.bind_number hi ((hn.mono h₂).mono h₃) (hv.mono h₃)
  rintro record e₄ s₄ ⟨h₄, hrec⟩
  apply Runs.bind (Runs.imul (W := fun _ => False) hrec (M.means_word ..))
  rintro start e₅ s₅ ⟨h₅, hstart⟩
  apply Runs.bind (Runs.place (W := fun _ => False) hstart offset)
  rintro place e₆ s₆ ⟨h₆, hplc⟩
  have hsame := (((h₂'.trans h₃).trans h₄).trans h₅).trans h₆
  refine (Runs.loadInto (means_words (.cons hplc .nil)) trivial hdest).mono ?_
  rintro - e₇ s₇ ⟨-, hread, -⟩
  rw [← ofNat_recordElement] at hread
  exact hread.trans (hsame.cells _ trivial id)

end Device

namespace StageContext

variable {vertex : StageContext}

/-- The record that a geometry stage reads is the one that its vertex stage writes, in
the same buffer. -/
theorem setVertex_reservations (hhost : s.host = vertex.host) :
    (s.setVertex vertex).reservations.inputRecord = vertex.reservations.outputRecord ∧
      (s.setVertex vertex).reservations.vertexOutput = vertex.reservations.vertexOutput := by
  refine ⟨rfl, ?_⟩
  have hfb : (s.setVertex vertex).reservations.emulatesFeedback = vertex.reservations.emulatesFeedback := by
    change s.host.emulatesTransformFeedback = vertex.host.emulatesTransformFeedback
    rw [hhost]
  simp only [Reservations.vertexOutput, Reservations.feedbackStorage, hfb]
  rfl

end StageContext

namespace GeometryEmulation

variable {x : PassContext}

theorem piece_recordLoad {vertexData topologyRemap vertexCounter indexCounter : Nat}
    (hmem : x.resources.emulation = some (.geometry vertexData topologyRemap vertexCounter indexCounter))
    (hload : op.isLoad .input) (hdest : op.dest = some dest)
    (hoff : op.recordOffset? x.resources.reservations .input = some offset)
    (hsrc : vertexSource? op = some source) (ids : Ids) :
    (expansion x).piece ids op = (((mk x vertexData topologyRemap vertexCounter
      indexCounter).loadRecord dest source offset).run { ids }).2.ops.toList := by
  have hexp : expansion x op = (do
      (mk x vertexData topologyRemap vertexCounter indexCounter).loadRecord dest source offset
      return .drop) := by
    have hoff' : op.recordOffset? (mk x vertexData topologyRemap vertexCounter
        indexCounter).reservations .input = some offset := hoff
    simp only [expansion_of_load hmem hload, expandInput, hdest, hoff', hsrc]
  rw [Expansion.piece, hexp]
  exact List.append_nil _

theorem vertexSource?_eq
    (h : op.AccessAt c v location vertex component) (hstor : op.storage = .input) (hv : v.isPerVertex)
    (hguest : c.guestStage = .geometry) : vertexSource? op = some vertex := by
  have hvar := h.ioVariable?_eq (by rw [hstor]; rfl)
  obtain ⟨trailing, -, hsrc⟩ := h.sources
  have hidx : c.hasVertexIndex .input v := by
    rw [Config.hasVertexIndex, hv, hguest]
    rfl
  rw [hstor, Config.accessSources, hidx] at hsrc
  rw [vertexSource?, hvar, Operation.source?, hsrc]
  cases v <;> first | rfl | cases hv

end GeometryEmulation

namespace StageContext

theorem piece_of_turns (hstg : s.config.guestStage = .geometry)
    (h : Pass.Turns (s.passContext lowered) floor (s.passes lowered) [op] code) :
    ∃ ids, floor ≤ ids.temps ∧ code = (expansion (s.passContext lowered)).piece ids op := by
  rw [passes_geometry hstg] at h
  obtain ⟨between, hexps, rfl⟩ := h
  exact hexps.of_singleton

section Loads

variable {lowered : Lowered} (hlower : s.lower true (s.prepared true) {} {} = .ok lowered)
  (hguest : s.config.guestStage = .geometry) (hop : op ∈ lowered.ops)
  (hload : op.isLoad .input)
include hlower hguest hop hload

theorem vertexLoad_operands (hv : op.ioVariable? = some v) (hper : v.isPerVertex) :
    ∃ dest corner, op.dest = some dest ∧ dest.isAssignable ∧ vertexSource? op = some corner := by
  obtain ⟨hinst, hstor⟩ := Operation.isLoad_eq hload
  have hio : op.storage.isIo := by rw [hstor]; rfl
  have hsound : op.Sound (s.configFor true) .all fun _ => True :=
    Guest.Program.sound_lower (lower_ok hlower) (Lowering.permits_all _) (fun op _ => op.permitted_all _) op hop
  obtain ⟨v', location, corner, component, hacc, -⟩ := hsound.access hio
  obtain rfl := Option.some.inj ((hacc.ioVariable?_eq hio).symm.trans hv)
  obtain ⟨dest, hdest⟩ := Option.isSome_iff_exists.1 (hsound.result hinst)
  exact ⟨dest, corner, hdest, hsound.assignable dest hdest, vertexSource?_eq hacc hstor hper hguest⟩

theorem read_vertexLoad (hstg : s.config.stage = .geometry) {dest corner : Operand} (hdest : op.dest = some dest)
    (hassignable : dest.isAssignable) (hcorner : vertexSource? op = some corner)
    (hoff : op.recordOffset? s.reservations .input = some offset) {loading : List Operation}
    (hturns : Pass.Turns (s.passContext lowered) lowered.ids.temps (s.passes lowered) [op] loading)
    {σ : Type u} {w : World} {M : Device σ w Alone} {number : Nat} {t : σ}
    (hassembles : M.Assembles s.reservations 1 count (M.read corner t) number instanceId t) :
    M.read dest (M.performAll loading t) = M.cell
      (s.reservations.vertexCell (recordElement s.reservations.inputSize count number instanceId offset)) t := by
  obtain ⟨ids, hids, hpiece⟩ := piece_of_turns hguest hturns
  obtain ⟨hres, hmem, -⟩ := s.resources_geometry hstg
  rw [← s.extends_emulatedResources.reservations, ← resources_lowered hlower] at hres
  rw [← s.extends_emulatedResources.emulation, ← resources_lowered hlower] at hmem
  have hmeans : M.Means { ids } t corner (M.read corner t) := by
    refine ⟨fun n hn => ?_, rfl⟩
    subst hn
    have hwithin := within_lowered hlower op hop (.temp n) (List.mem_append_right _ (List.mem_of_getElem? hcorner))
    exact Nat.lt_of_lt_of_le hwithin.2 hids
  rw [← hres] at hassembles hoff ⊢
  have hruns := Device.runs_loadRecord (g := ⟨s.passContext lowered, 0, 1, 2, 3⟩) hassembles hmeans hassignable offset
  have hcode := hpiece.trans (piece_recordLoad (x := s.passContext lowered) hmem hload hdest hoff hcorner ids)
  exact hruns.of_append _ (hcode.symm.trans (List.nil_append _).symm)

end Loads

/-- An emulated geometry stage that was told its vertex stage agrees with it on the
record of a vertex. Where its program loads a recorded attribute of a vertex, the code
that its passes put there reads the element of the buffer to which the invocation of
this vertex has copied the word of its own record for the attribute. -/
theorem setVertex_reads_records {geometry vertex : StageContext} (hhost : geometry.host = vertex.host)
    (hgeometry : geometry.config.stage = .geometry ∧ geometry.config.guestStage = .geometry)
    (hvertex : vertex.config.stage = .vertex ∧ vertex.config.guestStage = .vertex) :
    (∀ v location component, (geometry.setVertex vertex).reservations.offset? .input v location component =
      vertex.reservations.offset? .output v location component) ∧
    (geometry.setVertex vertex).reservations.inputSize = vertex.reservations.outputSize ∧
    (geometry.setVertex vertex).reservations.vertexOutput = vertex.reservations.vertexOutput ∧
    ∀ lowered, (geometry.setVertex vertex).lower true ((geometry.setVertex vertex).prepared true) {} {} = .ok lowered →
      (∀ r, Routine.ofOperations lowered.ops lowered.ids = .ok r → ∀ b, ∃ parts,
        Pass.Parts ((geometry.setVertex vertex).passContext lowered) lowered.ids.temps
          ((geometry.setVertex vertex).passes lowered) (r.code b)
          (((geometry.setVertex vertex).passed lowered r).routine.code b) parts) ∧
      ∀ op ∈ lowered.ops, op.isLoad .input = true → ∀ v, op.ioVariable? = some v → v.isPerVertex = true →
        ∀ offset, op.recordOffset? (geometry.setVertex vertex).reservations .input = some offset →
      ∃ dest corner slot, op.dest = some dest ∧ GeometryEmulation.vertexSource? op = some corner ∧
        op.slot? = some slot ∧ vertex.reservations.outputRecord[offset]? = some slot ∧
        ∀ loading, Pass.Turns ((geometry.setVertex vertex).passContext lowered) lowered.ids.temps
          ((geometry.setVertex vertex).passes lowered) [op] loading →
        ∀ {labels copying}, (vertex.emulatedLowering labels).emulationEpilogue.Produces copying →
        ∀ {σ : Type u} {w : World} (M : Device σ w Alone) {count done buffer},
          M.Dispatched vertex.reservations count copying done buffer →
        ∀ {number instanceId start}, (number, instanceId, start) ∈ done →
        ∀ {σ' : Type v} {w' : World} (N : Device σ' w' Alone) (t : σ'),
          N.Assembles (geometry.setVertex vertex).reservations 1 count (N.read corner t) number instanceId t →
          (∀ n, N.cell (vertex.reservations.vertexCell n) t = buffer n) →
          N.read dest (N.performAll loading t) = N.cell (vertex.reservations.vertexCell
              (recordElement vertex.reservations.outputSize count number instanceId offset)) t ∧
          N.cell (vertex.reservations.vertexCell
              (recordElement vertex.reservations.outputSize count number instanceId offset)) t =
            M.cell (recordCell 0 offset) start := by
  obtain ⟨hrecord, hbinding⟩ := setVertex_reservations hhost
  have hsize : (geometry.setVertex vertex).reservations.inputSize = vertex.reservations.outputSize := by
    rw [Reservations.inputSize, hrecord]
    rfl
  have hemulable : (geometry.setVertex vertex).Emulable := ⟨hgeometry.2.trans hgeometry.1.symm, .inr hgeometry.1⟩
  refine ⟨fun v location component => congrArg (·.idxOf? ⟨v, location, component⟩) hrecord, hsize, hbinding,
    fun lowered hlower => ⟨fun r hr => (hemulable.passed_spec hlower hr).2.1, ?_⟩⟩
  intro op hop hload v hv hper offset hoffset
  obtain ⟨dest, corner, hdest, hassignable, hcorner⟩ := vertexLoad_operands hlower hgeometry.2 hop hload hv hper
  have hslots := hoffset
  rw [Operation.recordOffset?_eq] at hslots
  obtain ⟨slot, hslot, hindex⟩ := Option.bind_eq_some_iff.1 hslots
  have hplace : vertex.reservations.outputRecord[offset]? = some slot :=
    (idxOf?_eq_some_iff (RecordUsage.nodup_slots _)).1 hindex
  refine ⟨dest, corner, slot, hdest, hcorner, hslot, hplace, ?_⟩
  intro loading hturns labels copying hcopying σ w M count done buffer hdispatched number instanceId start hdone σ' w' N t
    hassembles hbuffer
  have hserved := hdispatched.buffer_eq (copies_emulationEpilogue M hvertex.1 hvertex.2 hcopying count) hdone
  obtain ⟨hlt, -⟩ := List.getElem?_eq_some_iff.1 hplace
  refine ⟨?_, (hbuffer _).trans (hserved.2 offset hlt)⟩
  rw [read_vertexLoad hlower hgeometry.2 hop hload hgeometry.1 hdest hassignable hcorner hoffset hturns hassembles, hsize,
    Reservations.vertexCell, hbinding]
  rfl

/-- Loads an attribute of the vertex that a register says. -/
def cornerLoading : StageContext :=
  let program : Guest.Program :=
    { blocks := [⟨0, [⟨0, {}, .ald ⟨4⟩ 1 0x80 (some ⟨5⟩) none false false⟩, ⟨8, {}, .exit⟩]⟩] }
  (ofProgram program { stage := .geometry } default {}).setVertex storing

def cornerLowered : Lowered :=
  (cornerLoading.lower true (cornerLoading.prepared true) {} {}).toOption.get (by decide +kernel)

def cornerLoad : Operation where
  inst := .load
  storage := .input
  dest := some (.register ⟨4⟩)
  sources := [.word (IoVariable.number .userDefined), .word 0, .register ⟨5⟩, .word 0]

theorem setVertex_reads_records_corner : ∃ loading copying,
    Pass.Turns (cornerLoading.passContext cornerLowered) cornerLowered.ids.temps (cornerLoading.passes cornerLowered)
      [cornerLoad] loading ∧
    (storing.emulatedLowering []).emulationEpilogue.Produces copying ∧
    (zeroWorld.device Alone).read (.register ⟨4⟩)
      ((zeroWorld.device Alone).performAll loading (fun _ => 1, (drawing 0 (drawnBuffer copying)).2)) = 20 := by
  obtain ⟨copying, hproduces⟩ : ∃ copying, (storing.emulatedLowering []).emulationEpilogue.Produces copying :=
    exists_emulationEpilogue rfl rfl
  obtain ⟨loading, hturns⟩ : ∃ loading, Pass.Turns (cornerLoading.passContext cornerLowered) cornerLowered.ids.temps
      (cornerLoading.passes cornerLowered) [cornerLoad] loading := by
    rw [passes_geometry rfl]
    exact ⟨_, _, Expansion.Expands.nil.snoc cornerLowered.ids (Nat.le_refl _), rfl⟩
  obtain ⟨-, -, -, hloads⟩ :=
    @setVertex_reads_records (ofProgram cornerLoading.program { stage := .geometry } default {})
    storing rfl ⟨rfl, rfl⟩ ⟨rfl, rfl⟩
  obtain ⟨-, hloads⟩ := hloads cornerLowered (eq_ok_get _)
  obtain ⟨dest, corner, slot, hdest, hcorner, -, -, hreads⟩ :=
    hloads cornerLoad (by decide +kernel) rfl .userDefined (by decide +kernel) rfl 4 (by decide +kernel)
  obtain rfl := Option.some.inj hdest
  obtain rfl := Option.some.inj hcorner
  refine ⟨loading, copying, hturns, hproduces, ?_⟩
  obtain ⟨hread, hrecord⟩ := hreads loading hturns hproduces (zeroWorld.device Alone) (dispatched_drawing copying)
    (List.mem_cons_of_mem _ List.mem_cons_self) (zeroWorld.device Alone)
    (fun _ => 1, (drawing 0 (drawnBuffer copying)).2) ⟨rfl, rfl, rfl⟩ fun _ => rfl
  exact hread.trans (hrecord.trans rfl)

end StageContext
end ShaderRecompiler
