import ShaderRecompiler.Compile.Stage
import ShaderRecompiler.Proofs.Layout
import ShaderRecompiler.Proofs.Listing
import ShaderRecompiler.Proofs.Pieces

/-! The buffer of vertex records. The invocation of an emulated vertex stage for a vertex
of an instance copies its record to a place of the buffer that no other invocation
writes, so the buffer ends up with the records of all of them. -/
namespace ShaderRecompiler

open Resources DrawParameters

open UInt32 (ofNat)

universe u

/-- The number of a word in a buffer with a record for each vertex of each instance. -/
def recordElement (size count vertex instanceId offset : Nat) : Nat := (instanceId * count + vertex) * size + offset

section Element

theorem recordElement_lt (hoff : offset < size) :
    recordElement size count vertex instanceId offset < (instanceId * count + vertex + 1) * size := by
  rw [recordElement, Nat.succ_mul]
  omega

theorem recordElement_inj (hvtx : vertex < count) (hvtx' : vertex' < count) (hoff : offset < size)
    (hoff' : offset' < size) (h : recordElement size count vertex instanceId offset =
      recordElement size count vertex' instanceId' offset') :
    vertex = vertex' ∧ instanceId = instanceId' ∧ offset = offset' := by
  have hdivide : ∀ {a b n r r' : Nat}, r < n → r' < n → a * n + r = b * n + r' → a = b ∧ r = r' := by
    intro a b n r r' hr hr' heq
    have hmod := congrArg (· % n) heq
    have hdiv := congrArg (· / n) heq
    simp only [Nat.mul_comm _ n, Nat.mul_add_mod, Nat.mod_eq_of_lt hr, Nat.mod_eq_of_lt hr'] at hmod
    simp only [Nat.mul_comm _ n, Nat.mul_add_div (Nat.zero_lt_of_lt hr), Nat.div_eq_of_lt hr,
      Nat.div_eq_of_lt hr'] at hdiv
    omega
  obtain ⟨hrec, rfl⟩ := hdivide hoff hoff' h
  obtain ⟨rfl, rfl⟩ := hdivide hvtx hvtx' hrec
  exact ⟨rfl, rfl, rfl⟩

theorem ofNat_recordElement (size count vertex instanceId offset : Nat) :
    ofNat (recordElement size count vertex instanceId offset) =
      (ofNat instanceId * ofNat count + ofNat vertex) * ofNat size +
        ofNat offset := by
  simp [recordElement]

end Element

/-- A word of the buffer that an emulated vertex stage writes. -/
def Reservations.vertexCell (r : Reservations) (element : Nat) : Cell :=
  ⟨.storageBuffer, [ofNat r.vertexOutput, 0, ofNat element]⟩

/-- A word of the record that an invocation keeps. -/
def recordCell (vertexData offset : Nat) : Cell := ⟨.localMemory, [ofNat vertexData, ofNat offset]⟩

/-- A built-in input; those with several words have their components. -/
def inputCell (v : IoVariable) (components : List UInt32) : Cell := ⟨.input, ofNat v.number :: components⟩

/-- The number of vertices in a draw, as emulated stages are told. -/
def Reservations.countCell (r : Reservations) : Cell :=
  ⟨.constantBuffer, [ofNat r.vertexInfo, ofNat VertexInfo.counts, 0]⟩

/-- Nobody else writes. -/
abbrev Alone : Cell → Prop := fun _ => True

namespace Device

variable {σ : Type u} {w : World} {M : Device σ w Alone}

/-- The invocation works on a vertex of an instance; its record has a place in the
buffer. -/
structure Serves (M : Device σ w Alone) (r : Reservations) (count vertex instanceId : Nat) (s : σ) : Prop where
  vertex_eq : M.cell (inputCell .globalInvocationId [0]) s = ofNat vertex
  instance_eq : M.cell (inputCell .globalInvocationId [1]) s = ofNat instanceId
  count_eq : M.cell r.countCell s = ofNat count
  lt : vertex < count
  fits : (instanceId * count + vertex + 1) * r.outputSize < 2 ^ 32

variable {l : Lowering} {vertexData count vertex instanceId : Nat} {e : Emitter} {s : σ}

namespace Serves

theorem cell_inj (h : M.Serves r count vertex instanceId s) (h' : M.Serves r count vertex' instanceId' s')
    (hoff : offset < r.outputSize) (hoff' : offset' < r.outputSize)
    (heq : r.vertexCell (recordElement r.outputSize count vertex instanceId offset) =
      r.vertexCell (recordElement r.outputSize count vertex' instanceId' offset')) :
    vertex = vertex' ∧ instanceId = instanceId' ∧ offset = offset' := by
  have hwords := (Cell.mk.injEq ..).mp heq
  simp only [List.cons.injEq, true_and, and_true] at hwords
  apply recordElement_inj h.lt h'.lt hoff hoff'
  exact ofNat_inj (Nat.lt_trans (recordElement_lt hoff) h.fits) (Nat.lt_trans (recordElement_lt hoff') h'.fits) hwords

end Serves

theorem runs_copyWord (r : Reservations) (vertexData : Nat) (hbase : M.Means e s base x) : M.Runs (do
      let value ← Emit.load .localMemory [.word vertexData, .word offset]
      let place ← Emit.iadd base (.word offset)
      Emit.store .storageBuffer [.word r.vertexOutput, .word 0, place, value]) e s fun _ e' s' =>
        M.Onward (· = ⟨.storageBuffer, [ofNat r.vertexOutput, 0, x + ofNat offset]⟩) e s e' s' ∧
          M.cell ⟨.storageBuffer, [ofNat r.vertexOutput, 0, x + ofNat offset]⟩ s' =
            M.cell (recordCell vertexData offset) s := by
  apply Runs.bind (Runs.load (means_words .nil) trivial rfl)
  rintro value e₁ s₁ ⟨h₁, hval⟩
  apply Runs.bind (Runs.iadd (hbase.mono h₁) (M.means_word ..))
  rintro place e₂ s₂ ⟨h₂, hplc⟩
  refine (Runs.store (means_words (.cons hplc .nil)) (hval.mono h₂) trivial).mono ?_
  rintro - e₃ s₃ ⟨h₃, hcell⟩
  exact ⟨(h₁.trans h₂).trans h₃, hcell⟩

/-- The epilogue of an emulated vertex stage copies the record to its place and changes
no other cell. -/
theorem runs_vertexEpilogue (h : M.Serves l.reservations count vertex instanceId s) :
    M.Runs (l.vertexEpilogue vertexData) e s fun _ e' s' =>
      M.Onward (fun c => ∃ offset < l.reservations.outputSize, c = l.reservations.vertexCell
        (recordElement l.reservations.outputSize count vertex instanceId offset)) e s e' s' ∧
      ∀ offset < l.reservations.outputSize, M.cell (l.reservations.vertexCell
        (recordElement l.reservations.outputSize count vertex instanceId offset)) s' =
          M.cell (recordCell vertexData offset) s := by
  generalize hr : l.reservations = r at h ⊢
  unfold Lowering.vertexEpilogue Lowering.vertexInfo
  rw [hr]
  apply Runs.bind (Runs.load (W := fun _ => False) (means_words (.cons (M.means_word ..) .nil)) trivial h.count_eq)
  rintro n e₁ s₁ ⟨h₁, hn⟩
  apply Runs.bind (Runs.load (W := fun _ => False) (means_words .nil) trivial
    ((h₁.cells _ trivial id).trans h.vertex_eq))
  rintro v e₂ s₂ ⟨h₂, hv⟩
  apply Runs.bind (Runs.load (W := fun _ => False) (means_words .nil) trivial
    (((h₁.trans h₂).cells _ trivial id).trans h.instance_eq))
  rintro i e₃ s₃ ⟨h₃, hi⟩
  apply Runs.bind_number hi ((hn.mono h₂).mono h₃) (hv.mono h₃)
  rintro index e₄ s₄ ⟨h₄, hidx⟩
  apply Runs.bind (Runs.imul (W := fun _ => False) hidx (M.means_word ..))
  rintro base e₅ s₅ ⟨h₅, hbase⟩
  have hstart : M.Onward (fun _ => False) e s e₅ s₅ := (((h₁.trans h₂).trans h₃).trans h₄).trans h₅
  refine (Runs.copyAll (fun offset => r.vertexCell (recordElement r.outputSize count vertex instanceId offset))
    (recordCell vertexData) (fun _ => trivial) hbase (fun offset _ e' s' hbase => ?_) (fun _ _ heq => by cases heq)
    (List.pairwise_lt_range.imp_of_mem fun ha hb hlt heq => ?_)).mono ?_
  · rw [Reservations.vertexCell, ofNat_recordElement]
    exact runs_copyWord r vertexData hbase
  · obtain ⟨-, -, rfl⟩ := h.cell_inj h (List.mem_range.1 ha) (List.mem_range.1 hb) heq
    exact Nat.lt_irrefl _ hlt
  · rintro - e' s' ⟨honw, hcells⟩
    refine ⟨(hstart.mono fun _ => False.elim).trans (honw.mono (by simp)), fun offset hoff => ?_⟩
    exact (hcells offset (List.mem_range.2 hoff)).trans (hstart.cells _ trivial id)

/-- Invocations that perform `code` one after the other. Each finds the buffer of records
as the one before left it; `buffer` is what the last one leaves. -/
inductive Dispatched (M : Device σ w Alone) (r : Reservations) (count : Nat) (code : List Operation) :
    List (Nat × Nat × σ) → (Nat → UInt32) → Prop
  | none (buffer : Nat → UInt32) : Dispatched M r count code [] buffer
  | next {done : List (Nat × Nat × σ)} {buffer : Nat → UInt32} {vertex instanceId : Nat} {s : σ}
    (h : Dispatched M r count code done buffer) (hfinds : ∀ n, M.cell (r.vertexCell n) s = buffer n)
    (hserves : M.Serves r count vertex instanceId s) (hnew : ∀ t, (vertex, instanceId, t) ∉ done) :
    Dispatched M r count code (done ++ [(vertex, instanceId, s)])
      fun n => M.cell (r.vertexCell n) (M.performAll code s)

/-- `code` copies the record of every invocation to its place and changes no other cell. -/
def Copies (M : Device σ w Alone) (r : Reservations) (vertexData count : Nat) (code : List Operation) : Prop :=
  ∀ vertex instanceId s, M.Serves r count vertex instanceId s →
    (∀ offset < r.outputSize, M.cell (r.vertexCell (recordElement r.outputSize count vertex instanceId offset))
        (M.performAll code s) = M.cell (recordCell vertexData offset) s) ∧
      ∀ c, (∀ offset < r.outputSize, c ≠ r.vertexCell (recordElement r.outputSize count vertex instanceId offset)) →
        M.cell c (M.performAll code s) = M.cell c s

theorem copies_of_produces (h : (l.vertexEpilogue vertexData).Produces code) :
    M.Copies l.reservations vertexData count code := by
  intro vertex instanceId s hserves
  obtain ⟨e, he⟩ := h
  obtain ⟨honw, hcells⟩ := (runs_vertexEpilogue hserves).of_append _ he
  refine ⟨hcells, fun c hc => honw.cells c trivial ?_⟩
  rintro ⟨offset, hoff, rfl⟩
  exact hc offset hoff rfl

theorem Dispatched.buffer_eq (h : M.Dispatched r count code done buffer) (hcopies : M.Copies r vertexData count code)
    (hdone : (vertex, instanceId, s) ∈ done) : M.Serves r count vertex instanceId s ∧
      ∀ offset < r.outputSize, buffer (recordElement r.outputSize count vertex instanceId offset) =
        M.cell (recordCell vertexData offset) s := by
  induction h with
  | none => cases hdone
  | @next done buffer vertex' instanceId' s' h hfinds hserves hnew ih =>
    obtain ⟨hcopied, hkept⟩ := hcopies _ _ _ hserves
    obtain hearl | hlast := List.mem_append.1 hdone |>.imp_right List.mem_singleton.1
    · obtain ⟨hserved, hrec⟩ := ih hearl
      refine ⟨hserved, fun offset hoff => ?_⟩
      rw [← hrec offset hoff, ← hfinds]
      apply hkept
      intro offset' hoff' heq
      obtain ⟨rfl, rfl, -⟩ := hserved.cell_inj hserves hoff hoff' heq
      exact hnew s hearl
    · obtain ⟨rfl, rfl, rfl⟩ : vertex = vertex' ∧ instanceId = instanceId' ∧ s = s' := by simpa using hlast
      exact ⟨hserves, hcopied⟩

end Device

/-- No pass over a vertex stage changes the operation. -/
def Operation.Untouched (op : Operation) : Prop :=
  ∀ (x : PassContext) (ids : Ids) (pass : Pass), pass ≠ .geometryEmulation → (pass.expansion x).piece ids op = [op]

namespace Operation

variable {op : Operation}

theorem Untouched.of_sources (hsrc : ∀ o ∈ op.sources, parameter? o = none) (hout : op.storage ≠ .output)
    (hinp : op.storage = .input → ∃ v, op.ioVariable? = some v ∧ v.isDispatchInput) : op.Untouched := by
  intro x ids pass hpass
  cases pass with
  | geometryEmulation => exact absurd rfl hpass
  | drawParameters => exact (leaves_expansion x fun o ho _ => hsrc o ho).piece_eq ids
  | vertexEmulation =>
    refine Expansion.Leaves.piece_eq ⟨.keep op, ?_, rfl⟩ ids
    cases hload : op.isLoad .input with
    | true =>
      obtain ⟨v, hv, hdisp⟩ := hinp (isLoad_eq hload).2
      exact VertexEmulation.expansion_of_dispatch x hload hv hdisp
    | false => exact VertexEmulation.expansion_of_still x hload (by simp [accessesOutput, isLoad, isStore, hout])

end Operation

theorem Lowering.appends_untouched (l : Lowering) (vertexData : Nat) :
    Emit.Appends 0 Operation.Untouched (l.vertexEpilogue vertexData) fun _ => True := by
  have hword : ∀ n, parameter? (.word n) = none := fun _ => rfl
  have htemp : ∀ {o : Operand}, o.TempFrom 0 → parameter? o = none := by
    rintro _ ⟨t, -, rfl⟩
    rfl
  have hinv : ∀ component, Emit.Appends 0 Operation.Untouched (Emit.globalInvocationId component)
      (Operand.TempFrom 0) := by
    intro component
    exact .load fun t _ => .of_sources (by simp [hword, IoVariable.operand]) (by simp)
      fun _ => ⟨.globalInvocationId, Operation.ioVariable?_cons rfl rfl, rfl⟩
  have hval : ∀ {inst : Instruction} {a b : Operand}, parameter? a = none → parameter? b = none →
        Emit.Appends 0 Operation.Untouched (Emit.value inst [a, b]) (Operand.TempFrom 0) := by
    intro inst a b ha hb
    exact .value fun t _ => .of_sources (by simp [ha, hb]) (by simp) (by simp)
  refine .bind (.load fun t _ => .of_sources (by simp [hword]) (by simp) (by simp)) fun _ hcnt => ?_
  refine .bind (hinv 0) fun _ hvtx => .bind (hinv 1) fun _ hinsta => ?_
  refine .bind (hval (htemp hinsta) (htemp hcnt)) fun _ hbase => ?_
  refine .bind (hval (htemp hbase) (htemp hvtx)) fun _ hidx => ?_
  refine .bind (hval (htemp hidx) rfl) fun _ hbase => .forM fun _ _ => ?_
  refine .bind (.load fun t _ => .of_sources (by simp [hword]) (by simp) (by simp)) fun value hloaded => ?_
  refine .bind (hval (htemp hbase) rfl) fun _ hplc => ?_
  exact .op (.of_sources (by simp [hword, htemp hloaded, htemp hplc]) (by simp) (by simp))

namespace StageContext

variable (s : StageContext)

/-- The declarations of an emulated stage with those of its program. -/
def emulatedResources : Resources := s.program.declare (s.prepared true)

theorem extends_prepared : (s.resources true).Extends (s.prepared true) := by
  have hlocal := extends_beginLocalMemory (s.resources true) s.program.localMemorySize s.usage.features.localMemory
  unfold prepared beginSharedMemory beginLocalMemory
  split
  · exact hlocal.trans (extends_beginSharedMemory _ _ _)
  · exact hlocal

theorem extends_emulatedResources : (s.resources true).Extends s.emulatedResources :=
  s.extends_prepared.trans (s.program.declare_spec (s.prepared_prepared true).toNumbered).2.1.toExtends

theorem resources_vertex (h : s.config.stage = .vertex) :
    (s.resources true).reservations = s.reservations ∧ (s.resources true).emulation = some (.vertex 0 1 2) ∧
      (s.resources true).localMemories.length = 3 := by
  have hmems := (s.bare_bareResources true).localMemories
  obtain ⟨textures, heq, -⟩ := (s.bareResources true).addEmulation_vertex (s.configFor true) s.usage.attributes.inputs
  rw [resources_eq, if_pos rfl, h, heq, reservations, ← s.reservations_bareResources true]
  generalize s.bareResources true = r at hmems ⊢
  refine ⟨rfl, ?_, ?_⟩ <;>
    simp [beginEmulation, emulationBase, addStorageBuffer, addConstantBuffer, hmems]

theorem resources_geometry (h : s.config.stage = .geometry) :
    (s.resources true).reservations = s.reservations ∧ (s.resources true).emulation = some (.geometry 0 1 2 3) ∧
      (s.resources true).localMemories.length = 4 := by
  have hmems := (s.bare_bareResources true).localMemories
  rw [resources_eq, if_pos rfl, h, addEmulation_geometry, reservations, ← s.reservations_bareResources true]
  generalize s.bareResources true = r at hmems ⊢
  refine ⟨rfl, ?_, ?_⟩ <;>
    simp [beginEmulation, emulationBase, addStorageBuffer, addConstantBuffer, addGeometryBuffers, addTexture, hmems]

/-- The surroundings in which the program of an emulated stage is lowered. -/
def emulatedLowering (labels : List (Nat × Operand)) : Lowering :=
  s.program.lowering (s.surroundings true (s.prepared true)) {} labels

variable {s}

theorem reservations_emulatedLowering (h : s.config.stage = .vertex) :
    (s.emulatedLowering labels).reservations = s.reservations :=
  s.extends_emulatedResources.reservations.trans (s.resources_vertex h).1

theorem emulationEpilogue_vertex (hstg : s.config.stage = .vertex) (hguest : s.config.guestStage = .vertex) :
    (s.emulatedLowering labels).emulationEpilogue = (s.emulatedLowering labels).vertexEpilogue 0 := by
  have hemu : (s.emulatedLowering labels).resources.emulation = some (.vertex 0 1 2) :=
    s.extends_emulatedResources.emulation.trans (s.resources_vertex hstg).2.1
  have hguest : (s.emulatedLowering labels).config.guestStage = .vertex := hguest
  rw [Lowering.emulationEpilogue, hemu, hguest]
  rfl

theorem copies_emulationEpilogue (M : Device σ w Alone) (hstg : s.config.stage = .vertex)
    (hguest : s.config.guestStage = .vertex) (h : (s.emulatedLowering labels).emulationEpilogue.Produces code)
    (count : Nat) : M.Copies s.reservations 0 count code := by
  rw [emulationEpilogue_vertex hstg hguest] at h
  rw [← reservations_emulatedLowering hstg]
  exact Device.copies_of_produces h

theorem exists_emulationEpilogue (hstg : s.config.stage = .vertex) (hguest : s.config.guestStage = .vertex) :
    ∃ code, (s.emulatedLowering labels).emulationEpilogue.Produces code := by
  obtain ⟨-, -, code, hcode, -⟩ := (s.emulatedLowering labels).appends_untouched 0 {} (Nat.zero_le _)
  rw [emulationEpilogue_vertex hstg hguest]
  exact ⟨code, _, hcode⟩

end StageContext
end ShaderRecompiler
