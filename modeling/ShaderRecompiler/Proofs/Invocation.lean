import ShaderRecompiler.Proofs.Padding

/-! One invocation of an emulated geometry stage, from its first operation on. Both counters
start at zero, and the program leaves them alone except where it emits a vertex or ends a
primitive. -/
namespace ShaderRecompiler

open List Operation GeometryEmulation Spliced

open UInt32 (ofNat size)

universe u

open Emit

namespace Lowering

variable {l : Lowering} {L G : Nat → Prop}

/-! Instructions store elsewhere. -/

theorem Touches.elsewhere {storage : Storage} (h : l.Touches H .store storage v location vertex component)
    {sources : List Operand} : Elsewhere L G ⟨.store, storage, none, sources⟩ := by
  cases h with
  | initial | layer | fragment => exact .output (.inl rfl)
  | fixed _ hacc | indexed _ hacc =>
    cases hacc
    exact .output (by cases ‹Bool› <;> simp [attributeStorage])

section Emission

variable {op : Guest.Op} (hlocal : ∀ src count base offset, op = .st src count .localMemory base offset → count ≠ 0 →
    L (l.resources.currentLocal.getD 0))
  (hglobal : ∀ src count slot base offset, op = .st src count (.global slot) base offset →
    G (l.resources.useStorageBuffer slot).1)
include hlocal hglobal

theorem Keeps.elsewhere {storage : Storage} {sources : List Operand} (h : l.Keeps (· = some op) storage sources)
    (value : Operand) :
    Elsewhere L G ⟨.store, storage, none, sources ++ [value]⟩ := by
  cases h with
  | emulation hG | capture hG => cases hG
  | @space _ _ _ space _ _ hop hcnt =>
    have hop := (Option.some.inj hop).symm
    cases space with
    | localMemory => exact .memory (hlocal _ _ _ _ hop hcnt) _ _
    | sharedMemory => exact .output (.inr (.inr rfl))
    | «global» slot => exact .storage (hglobal _ _ slot _ _ hop) _ _

/-- Instructions that do not end the program store elsewhere if what they store to is. -/
theorem elsewhere_op (hexit : op ≠ .exit) (h : (l.op op).Produces code) : ∀ o ∈ code, o.Elsewhere L G := by
  have hscp : l.Emits (· = some op) (fun _ => False) {} [] [] (l.op op) := scopes_op hexit rfl
  obtain ⟨_, _, hem⟩ := h.emission hscp
  intro o ho
  cases hem.all o ho with
  | keep h => exact h.elsewhere hlocal hglobal _
  | store h => exact h.elsewhere
  | compute hinst | act hinst =>
    refine .of_ne ?_
    rintro rfl
    cases hinst
  | ret hC | labelling hC => exact hC.elim
  | _ => exact .of_ne (by simp)

end Emission

/-! What comes before the program. -/

/-- Up to where the counters are reset. -/
def opening (l : Lowering) : Emit Unit := do
  l.initializeOutputs
  let primitive ← globalInvocationId 0
  let primitiveCount ← l.vertexInfo VertexInfo.geometry 0
  returnUnlessBelow primitive primitiveCount
  let instanceId ← globalInvocationId 1
  let instanceCount ← l.vertexInfo VertexInfo.counts 1
  returnUnlessBelow instanceId instanceCount
  let vertices := l.config.inputTopology.vertices
  let first ← imul primitive (.word vertices)
  (range vertices).forM fun index => do
    let place ← iadd first (.word index)
    let vertex ← bufferFetch l.reservations.topologyRemap place
    store .localMemory [.word 1, .word index, vertex]

/-- What a passthrough stage does before its program. -/
def forwards (l : Lowering) : Emit Unit :=
  if l.config.guestStage = .geometry ∧ l.config.geometryPassthrough then
    match l.layerInput with
    | some address => l.forwardLayer address
    | none => return
  else return

theorem front_eq (hemu : l.config.emulated) (hguest : l.config.guestStage = .geometry)
    (hmemory : l.resources.emulation = some (.geometry 0 1 2 3)) :
    l.front {} = (l.opening >>= fun _ => store .localMemory [.word 2, .word 0] >>= fun _ =>
      store .localMemory [.word 3, .word 0] >>= fun _ => l.forwards) := by
  unfold front prologue emulationPrologue forwards
  rw [if_pos rfl, if_pos rfl, if_pos hemu, hmemory, hguest]
  rfl

/-- Writes to no buffer and appends nothing. -/
structure Prepares (op : Operation) : Prop where
  elsewhere : op.Elsewhere (fun _ => True) fun _ => False
  calm : op.isCalm

theorem scopes_opening (l : Lowering) : Scopes Prepares {} [] [] [] [] l.opening (fun _ => []) fun _ => True := by
  have hini : ∀ v location,
      Scopes Prepares {} [] [] [] [] (l.initializeOutput v location) (fun _ => []) fun _ => True := by
    refine fun v location => .forM fun _ _ => .effect ⟨.output (.inl rfl), rfl⟩ rfl (forall_mem_append.2 ⟨?_, ?_⟩)
    · exact Config.forall_accessSources (.inr rfl) (.inr rfl) (.inr rfl) (.inr rfl)
    · simp
  have hload : ∀ {known storage sources}, (∀ o ∈ sources, Operand.Usable known o) →
      Scopes Prepares {} known [] [] [] (load storage sources) (fun a => [a]) Operand.IsTemp :=
    fun h => .load (fun _ => ⟨.of_ne (by simp), rfl⟩) h
  have hval : ∀ {known opens} {inst : Instruction} {sources}, inst.hasDestination →
      (∀ o ∈ sources, Operand.Usable known o) →
      Scopes Prepares {} known [] opens [] (value inst sources) (fun a => [a]) Operand.IsTemp := by
    refine fun hinst h => .value (fun _ => ⟨.of_ne ?_, ?_⟩) hinst h
    · rintro rfl
      cases hinst
    · simp only [isCalm]
      cases ‹Instruction› <;> first | rfl | cases hinst
  have hbelow : ∀ {known value limit}, .temp value ∈ known → .temp limit ∈ known →
      Scopes Prepares {} known [] [] [] (returnUnlessBelow (.temp value) (.temp limit)) (fun _ => [])
        fun _ => True := by
    intro known value limit hv hl
    refine .next (hval rfl (by simp [hv, hl])) fun _ => .fresh fun _ => ?_
    refine .bind (.branching ⟨.of_ne (by simp), rfl⟩ rfl mem_cons_self (by simp) (by simp)) fun _ _ => ?_
    exact .bind (.ret ⟨.of_ne (by simp), rfl⟩) fun _ _ => .markLabel ⟨.of_ne (by simp), rfl⟩ (by simp)
  refine .bind (show Scopes Prepares {} [] [] [] [] l.initializeOutputs (fun _ => []) fun _ => True from
    .ite (fun _ => .bind (hini _ _) fun _ _ => .forM fun _ _ => hini _ _) fun _ => .nop) fun _ _ => ?_
  refine .next (hload (by simp)) fun _ => ?_
  refine .next (hload (by simp)) fun _ => ?_
  refine .bind (hbelow (by simp) (by simp)) fun _ _ => ?_
  refine .next (hload (by simp)) fun _ => ?_
  refine .next (hload (by simp)) fun _ => ?_
  refine .bind (hbelow (by simp) (by simp)) fun _ _ => ?_
  refine .next (hval rfl (by simp)) fun first => .forM fun _ _ => ?_
  refine .next (hval rfl (by simp)) fun _ => ?_
  refine .next (hval rfl (by simp)) fun _ => ?_
  exact .effect ⟨.memory trivial _ _, rfl⟩ rfl (by simp)

/-- Goes straight on, stores to no memory and appends nothing. -/
structure Forwards (op : Operation) : Prop where
  straight : op.inst.isStraight
  elsewhere : op.Elsewhere (fun _ => False) fun _ => False
  calm : op.isCalm

theorem appends_forwards (l : Lowering) : Appends 0 Forwards l.forwards fun _ => True := by
  refine .ite (fun _ => ?_) fun _ => .pure trivial
  cases l.layerInput with
  | none => exact .pure trivial
  | some address =>
    refine .bind (.load fun _ _ => ⟨rfl, .of_ne (by simp), rfl⟩) fun _ _ => ?_
    exact .op ⟨rfl, .output (.inl rfl), rfl⟩

/-- Sets a counter to zero. -/
def reset (memory : Nat) : Operation where
  inst := .store
  storage := .localMemory
  dest := none
  sources := [.word memory, .word 0]

def resets : List Operation := [reset 2, reset 3]

/-- What comes before the program branches within itself until both counters are reset. -/
structure Front (front : List Operation) where
  opening : List Operation
  forwards : List Operation
  front_eq : front = opening ++ (resets ++ forwards)
  prepares : ∀ op ∈ opening, Prepares op
  targets : ∀ n ∈ opening.flatMap targets, n ∈ opening.flatMap marks
  onward : ∀ op ∈ forwards, Forwards op

theorem exists_front (hemu : l.config.emulated) (hguest : l.config.guestStage = .geometry)
    (hmemory : l.resources.emulation = some (.geometry 0 1 2 3)) {front : List Operation}
    (h : ((l.front {}).run e).2.ops.toList = e.ops.toList ++ front) : Nonempty (Front front) := by
  obtain ⟨opening, hopening, hscoped⟩ := l.scopes_opening.run e
  have hem := hscoped.emission
  let reset := { (l.opening.run e).2 with ops := (l.opening.run e).2.ops ++ resets.toArray }
  obtain ⟨-, -, forwards, hforwards, honw⟩ := l.appends_forwards reset (Nat.zero_le _)
  refine ⟨{ opening, forwards, front_eq := ?_, prepares := hem.all, targets := ?_, onward := honw }⟩
  · have hrun : (l.front {}).run e = l.forwards.run reset := by
      rw [front_eq hemu hguest hmemory]
      rfl
    rw [hrun, hforwards, Array.toList_append, hopening] at h
    rw [append_assoc, append_assoc] at h
    exact (append_cancel_left h).symm
  · intro n hn
    exact (hem.targets n hn).resolve_right not_mem_nil

namespace Front

variable {front ops : List Operation} (F : Front front) (hfront : front <+: ops)
include hfront

theorem opening_at {i : Nat} {op : Operation} (h : F.opening[i]? = some op) : ops[i]? = some op := by
  obtain ⟨rest, rfl⟩ := hfront
  obtain ⟨opening, forwards, rfl, _, _, _⟩ := F
  obtain ⟨hi, -⟩ := List.getElem?_eq_some_iff.1 h
  rw [append_assoc, getElem?_append_left hi, h]

theorem resets_at (h : i < 2) : ops[F.opening.length + i]? = resets[i]? := by
  obtain ⟨rest, rfl⟩ := hfront
  obtain ⟨opening, forwards, rfl, _, _, _⟩ := F
  rw [append_assoc, getElem?_append_right (Nat.le_add_right _ _), Nat.add_sub_cancel_left,
    append_assoc, getElem?_append_left h]

omit hfront in
theorem opening_length_le : F.opening.length + 2 ≤ front.length := by
  rw [congrArg length F.front_eq, length_append, length_append, ← Nat.add_assoc]
  exact Nat.le_add_right _ _

theorem forwards_at (hge : F.opening.length + 2 ≤ pc) (hlt : pc < front.length) :
    ∃ op ∈ F.forwards, ops[pc]? = some op := by
  obtain ⟨rest, rfl⟩ := hfront
  obtain ⟨opening, forwards, rfl, _, _, _⟩ := F
  obtain ⟨i, rfl⟩ := Nat.exists_eq_add_of_le hge
  have hi : i < forwards.length := by
    simp only [length_append, resets, length_cons, length_nil] at hlt
    omega
  refine ⟨forwards[i], getElem_mem hi, ?_⟩
  rw [getElem?_append_left hlt, Nat.add_assoc, getElem?_append_right (Nat.le_add_right _ _),
    Nat.add_sub_cancel_left, getElem?_append_right (Nat.le_add_right 2 i)]
  exact (congrArg (forwards[·]?) (Nat.add_sub_cancel_left 2 i)).trans (getElem?_eq_getElem hi)

end Front

end Lowering

namespace Visit

variable {σ : Type u}

def vertices (visits : List (Visit σ)) : Nat := visits.countP fun v => v.op.inst == .emitVertex

/-- Entries that were appended, for vertices and for ends of primitives. -/
def entries (visits : List (Visit σ)) : Nat := visits.countP fun v => !v.op.isCalm

theorem vertices_append (xs ys : List (Visit σ)) : vertices (xs ++ ys) = vertices xs + vertices ys :=
  countP_append

theorem entries_append (xs ys : List (Visit σ)) : entries (xs ++ ys) = entries xs + entries ys :=
  countP_append

theorem count_calm {visits : List (Visit σ)} (h : ∀ v ∈ visits, v.op.isCalm) :
    vertices visits = 0 ∧ entries visits = 0 := by
  refine ⟨countP_eq_zero.2 fun v hv => ?_, countP_eq_zero.2 fun v hv => by simp [h v hv]⟩
  have hcalm := h v hv
  intro hemit
  simp [isCalm, eq_of_beq hemit] at hcalm

end Visit

namespace Device

variable {σ : Type u} {w : World} {M : Device σ w Cell.Private} {x : PassContext} {L G : Nat → Prop} {s : σ}
  {count primitive : Nat} {before : List (Visit σ)} {op : Operation} {code : List Operation}

/-- What a visit writes after others: an entry of the ranges that belong to the primitive,
or words in buffers that are in `G`. -/
structure Logs (M : Device σ w Cell.Private) (x : PassContext) (G : Nat → Prop) (primitive : Nat)
    (before : List (Visit σ)) (v : Visit σ) : Prop where
  emitVertex : v.op.inst = .emitVertex → M.written v.code v.state =
    vertexEntry x.config x.resources.reservations primitive (Visit.vertices before) (Visit.entries before)
      fun offset => M.cell (recordCell 0 offset) v.state
  endPrimitive : v.op.inst = .endPrimitive → M.written v.code v.state =
    restartEntry x.config x.resources.reservations primitive (Visit.entries before)
  calm : v.op.isCalm → ∀ entry ∈ M.written v.code v.state, ∃ n, G n ∧ entry.1.address.head? = some (ofNat n)

/-- Each visit writes what it has to after those before it. -/
def LogsAll (M : Device σ w Cell.Private) (x : PassContext) (G : Nat → Prop) (primitive : Nat)
    (visits : List (Visit σ)) : Prop :=
  ∀ before v after, visits = before ++ v :: after → M.Logs x G primitive before v

theorem logsAll_nil (P : Nat) : M.LogsAll x G P [] := fun _ _ _ h => by simp at h

theorem LogsAll.concat (h : M.LogsAll x G P before) (hv : M.Logs x G P before v) :
    M.LogsAll x G P (before ++ [v]) := by
  intro first u after hspl
  obtain rfl | ⟨after, last, rfl⟩ := eq_nil_or_concat after
  · obtain ⟨rfl, hu⟩ := append_inj' hspl rfl
    obtain rfl := cons.inj hu |>.1
    exact hv
  · rw [concat_eq_append, ← cons_append, ← append_assoc] at hspl
    exact h first u after (append_inj' hspl rfl).1

/-- A run of an invocation is that of its program, with part of the rest of the index range
behind it. Where it first gets to an end of the program the rest is filled, and it stops. -/
structure Invokes (M : Device σ w Cell.Private) (x : PassContext) (G : Nat → Prop) (primitive : Nat)
    (ops : List Operation) (code : Nat → List Operation) (ends : Nat → Prop) (start : σ) (n : Nat) : Prop where
  split : ∃ body rest, (run M.toInterpretation ops code n (some 0, start)).1 = body ++ rest ∧
    M.LogsAll x G primitive body ∧ (∀ v ∈ rest, v.op.isCalm) ∧
    rest.flatMap (fun v => M.written v.code v.state) <+:
      restarts x.config x.resources.reservations primitive (Visit.entries body % size)
  arrival : ∀ visits pc t, run M.toInterpretation ops code n (some 0, start) = (visits, some pc, t) → ends pc →
    (∀ m < n, ∀ pc, (run M.toInterpretation ops code m (some 0, start)).2.1 = some pc → ¬ends pc) →
    ∃ m rest t', run M.toInterpretation ops code m (some pc, t) = (rest, none, t') ∧
      M.Pads (restarts x.config x.resources.reservations primitive (Visit.entries visits % size)) rest

section Piece

variable (hmemory : x.resources.emulation = some (.geometry 0 1 2 3)) {ids : Ids}
  (hcode : code = (expansion x).piece ids op)
include hmemory hcode

theorem logs_tally (hL : ∀ n, L n → ofNat n ≠ 2 ∧ ofNat n ≠ 3) (hzero : L 0) (hop : op.Elsewhere L G)
    (h : M.Tally x.resources.reservations count primitive instanceId (Visit.vertices before) (Visit.entries before) s) :
    M.Logs x G (instanceId * count + primitive) before ⟨op, code, s⟩ ∧
      M.Tally x.resources.reservations count primitive instanceId (Visit.vertices (before ++ [⟨op, code, s⟩]))
        (Visit.entries (before ++ [⟨op, code, s⟩])) (M.performAll code s) := by
  rw [Visit.vertices_append, Visit.entries_append]
  by_cases hemit : op.inst = .emitVertex
  · obtain ⟨hwr, htally⟩ := written_dropped hcode (writes_emitVertex h) (by
      rw [expansion, hmemory]
      simp only [hemit])
    refine ⟨⟨fun _ => hwr, fun hend => ?_, fun hcalm => ?_⟩, ?_⟩
    · cases hemit.symm.trans hend
    · simp [isCalm, hemit] at hcalm
    · simpa [Visit.vertices, Visit.entries, isCalm, hemit] using htally
  · by_cases hend : op.inst = .endPrimitive
    · obtain ⟨hwr, htally⟩ := written_dropped hcode (writes_endPrimitive h) (by
        rw [expansion, hmemory]
        simp only [hend])
      refine ⟨⟨fun hemit' => absurd hemit' hemit, fun _ => hwr, fun hcalm => ?_⟩, ?_⟩
      · simp [isCalm, hend] at hcalm
      · simpa [Visit.vertices, Visit.entries, isCalm, hend] using htally
    · obtain ⟨hwr, htally⟩ := tally_elsewhere hmemory h hcode hL hzero hop hemit hend
      refine ⟨⟨fun hemit' => absurd hemit' hemit, fun hend' => absurd hend' hend, fun _ => hwr⟩, ?_⟩
      simpa [Visit.vertices, Visit.entries, isCalm, hemit, hend] using htally

theorem logs_prepares (hop : Lowering.Prepares op) (h : M.Works x.resources.reservations count primitive instanceId s) :
    M.Logs x G (instanceId * count + primitive) before ⟨op, code, s⟩ ∧
      M.Works x.resources.reservations count primitive instanceId (M.performAll code s) := by
  obtain ⟨hemit, hend⟩ : op.inst ≠ .emitVertex ∧ op.inst ≠ .endPrimitive := by
    simpa [isCalm] using hop.calm
  have hpiece := elsewhere_piece hmemory trivial hop.elsewhere hemit hend ids
  rw [← hcode] at hpiece
  refine ⟨⟨fun hemit' => absurd hemit' hemit, fun hend' => absurd hend' hend, fun _ entry hent => ?_⟩, ?_⟩
  · obtain ⟨n, hn, -⟩ := written_elsewhere hpiece s entry hent
    exact hn.elim
  · refine h.congr fun c hc => ?_
    exact performAll_congr (W := fun c => c.storage = .input ∨ c.storage = .constantBuffer)
      (fun o ho c hc s => cell_input (hpiece o ho) (.inr hc) hc s) hc s

end Piece

theorem performs_reset (M : Device σ w Cell.Private) (s : σ) (memory : Nat) :
    M.cell (counterCell memory) (M.performAll [Lowering.reset memory] s) = 0 ∧
      ∀ c, c.Private → c ≠ counterCell memory → M.cell c (M.performAll [Lowering.reset memory] s) = M.cell c s := by
  have hruns : M.Runs (store .localMemory [.word memory, .word 0]) {} s fun _ e' s' =>
      M.Onward (· = counterCell memory) {} s e' s' ∧ M.cell (counterCell memory) s' = 0 :=
    Runs.store (.cons (M.means_word ..) .nil) (M.means_word ..) (.inl rfl)
  obtain ⟨honw, hcell⟩ := hruns.of_append [Lowering.reset memory] rfl
  exact ⟨hcell, honw.cells⟩

end Device

namespace Lowering

/-- Where the epilogue begins at which a program ends. -/
def EndsAt (l : Lowering) (ops : List Operation) (start pc : Nat) : Prop :=
  start ≤ pc ∧ ∃ code, l.Ending code ∧ Flat.Stands ops pc code

theorem padding_of_ending {l : Lowering} (hwrites : l.writesEpilogue) (hemu : l.config.emulated)
    (hguest : l.config.guestStage = .geometry) (hmemory : l.resources.emulation = some (.geometry 0 1 2 3))
    (h : l.Ending code) : ∃ head temp, code = l.padding 3 head temp ++ [.returning] := by
  obtain ⟨epilogue, hepi, rfl⟩ := h
  have heq : l.epilogue = l.geometryEpilogue 3 := by
    have hcaps : l.capturesInEpilogue = false := by simp [capturesInEpilogue, hguest]
    unfold Lowering.epilogue emulationEpilogue
    rw [if_pos hwrites, if_pos hemu, hcaps, hmemory, hguest]
    rfl
  rw [heq] at hepi
  obtain ⟨e, he⟩ := hepi
  exact ⟨_, _, congrArg (· ++ _) (append_cancel_left (he.symm.trans (l.run_geometryEpilogue 3 e)))⟩

section Run

variable {l : Lowering} {L G : Nat → Prop} {host : Host} {front ops : List Operation} {code : Nat → List Operation}
  {floor start : Nat} {σ : Type u} {w : World} {M : Device σ w Cell.Private} {count primitive instanceId pc : Nat}
  {before : List (Visit σ)} {s : σ}

/-- Where an invocation is, and what it has counted: before the counters are reset, between
them, before the program or in it. -/
inductive Phase (F : Front front) (C : l.Course (Elsewhere L G) ops start) (M : Device σ w Cell.Private)
    (count primitive instanceId : Nat) (pc : Nat) (before : List (Visit σ)) (s : σ) : Prop
  | opening (hpc : pc ≤ F.opening.length) (hcalm : ∀ v ∈ before, v.op.isCalm)
      (hworks : M.Works l.reservations count primitive instanceId s)
  | resetting (hpc : pc = F.opening.length + 1) (hcalm : ∀ v ∈ before, v.op.isCalm)
      (hworks : M.Works l.reservations count primitive instanceId s) (hvertices : M.cell (counterCell 2) s = 0)
  | forwards (hge : F.opening.length + 2 ≤ pc) (hlt : pc < start) (hcalm : ∀ v ∈ before, v.op.isCalm)
      (htally : M.Tally l.reservations count primitive instanceId 0 0 s)
  | body (hopen : C.Open pc) (htally : M.Tally l.reservations count primitive instanceId (Visit.vertices before)
      (Visit.entries before) s)

namespace Phase

variable {F : Front front} {C : l.Course (Elsewhere L G) ops start}

theorem of_reset (hge : F.opening.length + 2 ≤ pc) (hle : pc ≤ start) (hcalm : ∀ v ∈ before, v.op.isCalm)
    (htally : M.Tally l.reservations count primitive instanceId 0 0 s) :
    Phase F C M count primitive instanceId pc before s := by
  obtain hlt | rfl := Nat.lt_or_eq_of_le hle
  · exact .forwards hge hlt hcalm htally
  · obtain ⟨hverts, hentries⟩ := Visit.count_calm hcalm
    exact .body C.open_start (by rwa [hverts, hentries])

theorem tally (h : Phase F C M count primitive instanceId pc before s) (hlength : front.length = start)
    (hpc : start ≤ pc) :
    M.Tally l.reservations count primitive instanceId (Visit.vertices before) (Visit.entries before) s := by
  have hle := F.opening_length_le
  cases h with
  | opening hle' => omega
  | resetting heq => omega
  | forwards _ hlt => omega
  | body _ htally => exact htally

variable (hmemory : l.resources.emulation = some (.geometry 0 1 2 3))
  (hfills : Fills ⟨l.config, l.resources, host⟩ floor ops code) (hfront : front <+: ops)
  (hlength : front.length = start)
include hfront

theorem follow_opening {next : Nat} {I : Interpretation σ} (hnd : (ops.flatMap marks).Nodup) {op : Operation}
    (hop : F.opening[pc]? = some op) (hnext : Flat.follow I ops pc op s = some next) :
    next ≤ F.opening.length := by
  obtain ⟨n, hn, hmark⟩ | ⟨rfl, -⟩ := Flat.follow_targets hnext
  · have hmem := F.targets n (mem_flatMap.2 ⟨op, mem_of_getElem? hop, hn⟩)
    obtain ⟨marking, hmarking, hn⟩ := mem_flatMap.1 hmem
    obtain ⟨i, hi, rfl⟩ := getElem_of_mem hmarking
    rw [Flat.mark?_eq hnd (F.opening_at hfront (getElem?_eq_getElem hi)) hn] at hmark
    obtain rfl := Option.some.inj hmark
    exact Nat.le_of_lt hi
  · exact (List.getElem?_eq_some_iff.1 hop).1

include hmemory hfills

omit hfront in
theorem step_reset (hop : ops[pc]? = some (reset memory)) (before : List (Visit σ))
    (h : M.Works l.reservations count primitive instanceId s) :
    code pc = [reset memory] ∧ visit ops code (some pc, s) = [⟨reset memory, code pc, s⟩] ∧
      step M.toInterpretation ops code (some pc, s) = (some (pc + 1), M.performAll (code pc) s) ∧
      M.Logs ⟨l.config, l.resources, host⟩ G (instanceId * count + primitive) before ⟨reset memory, code pc, s⟩ ∧
      M.Works l.reservations count primitive instanceId (M.performAll (code pc) s) := by
  obtain ⟨ids, -, hcode⟩ := hfills pc (reset memory) hop
  obtain ⟨-, hvisit, hstep⟩ := (step_cases M.toInterpretation code s hop).resolve_right fun hbent => by
    cases hbent.1
  have hprepares : Prepares (reset memory) := ⟨.memory trivial _ _, rfl⟩
  obtain ⟨hlogs, hworks⟩ := Device.logs_prepares (x := ⟨l.config, l.resources, host⟩) hmemory hcode hprepares h
  have hst : Flat.Stands ops pc [reset memory] := by
    rw [Flat.Stands, drop_eq_getElem?_toList_append, hop]
    exact prefix_append _ _
  refine ⟨?_, hvisit, hstep, hlogs, hworks⟩
  exact (stands_plain hmemory hfills hst (by simp [reset, isAway, accessesOutput, isLoad, isStore])).2 0 _ rfl

include hlength

/-- What a step writes, and where it leads. -/
theorem next (hL : ∀ n, L n → ofNat n ≠ 2 ∧ ofNat n ≠ 3) (hzero : L 0)
    (h : Phase F C M count primitive instanceId pc before s)
    (hends : ¬l.EndsAt ops start pc) :
    (∀ v ∈ visit ops code (some pc, s),
        M.Logs ⟨l.config, l.resources, host⟩ G (instanceId * count + primitive) before v) ∧
      ∀ next, (step M.toInterpretation ops code (some pc, s)).1 = some next →
        Phase F C M count primitive instanceId next (before ++ visit ops code (some pc, s))
          (step M.toInterpretation ops code (some pc, s)).2 := by
  have hcalm' : ∀ {op : Operation}, op.isCalm → (∀ v ∈ before, v.op.isCalm) →
      ∀ v ∈ before ++ [⟨op, code pc, s⟩], v.op.isCalm := by
    intro op hop hbef
    exact forall_mem_append.2 ⟨hbef, forall_mem_singleton.2 hop⟩
  cases h with
  | opening hpc hcalm hworks =>
    obtain hlt | rfl := Nat.lt_or_eq_of_le hpc
    · have hop : F.opening[pc]? = some F.opening[pc] := getElem?_eq_getElem hlt
      have hprepares := F.prepares _ (getElem_mem hlt)
      generalize F.opening[pc] = op at hop hprepares
      obtain ⟨-, hvisit, hstep⟩ | ⟨-, hvisit, hstep⟩ :=
        step_cases M.toInterpretation code s (F.opening_at hfront hop)
      · obtain ⟨ids, -, hcode⟩ := hfills pc op (F.opening_at hfront hop)
        obtain ⟨hlogs, hworks⟩ :=
          Device.logs_prepares (x := ⟨l.config, l.resources, host⟩) hmemory hcode hprepares hworks
        rw [hvisit, hstep]
        refine ⟨forall_mem_singleton.2 hlogs, ?_⟩
        rintro next ⟨⟩
        exact .opening hlt (hcalm' hprepares.calm hcalm) hworks
      · rw [hvisit, hstep, append_nil]
        refine ⟨by simp, fun next hnext => .opening ?_ hcalm hworks⟩
        exact follow_opening hfront C.nodup hop hnext
    · have hop : ops[F.opening.length]? = some (reset 2) := F.resets_at hfront (i := 0) (by decide)
      obtain ⟨hcode, hvisit, hstep, hlogs, hworks⟩ := step_reset hmemory hfills hop before hworks
      rw [hvisit, hstep]
      refine ⟨forall_mem_singleton.2 hlogs, ?_⟩
      rintro next ⟨⟩
      refine .resetting rfl (hcalm' rfl hcalm) hworks ?_
      rw [hcode]
      exact (M.performs_reset s 2).1
  | resetting hpc hcalm hworks hverts =>
    subst hpc
    have hop : ops[F.opening.length + 1]? = some (reset 3) := F.resets_at hfront (by decide)
    obtain ⟨hcode, hvisit, hstep, hlogs, hworks⟩ := step_reset hmemory hfills hop before hworks
    obtain ⟨hidxs, hkept⟩ := M.performs_reset s 3
    rw [← hcode] at hidxs hkept
    rw [hvisit, hstep]
    refine ⟨forall_mem_singleton.2 hlogs, ?_⟩
    rintro next ⟨⟩
    refine of_reset (Nat.le_refl _) ?_ (hcalm' rfl hcalm) ⟨hworks, ?_, hidxs⟩
    · exact Nat.le_trans F.opening_length_le (Nat.le_of_eq hlength)
    · exact (hkept (counterCell 2) (.inl rfl) (by simp [counterCell])).trans hverts
  | forwards hge hlt hcalm htally =>
    obtain ⟨op, hmem, hop⟩ := F.forwards_at hfront hge (hlength.symm ▸ hlt)
    have honw := F.onward op hmem
    obtain ⟨-, hvisit, hstep⟩ := (step_cases M.toInterpretation code s hop).resolve_right fun hbent =>
      absurd (hbent.1.symm.trans honw.straight) Bool.false_ne_true
    obtain ⟨ids, -, hcode⟩ := hfills pc op hop
    obtain ⟨hverts, hentries⟩ := Visit.count_calm hcalm
    obtain ⟨hlogs, htally⟩ := Device.logs_tally (x := ⟨l.config, l.resources, host⟩) hmemory hcode hL hzero
      (honw.elsewhere.mono (fun _ => False.elim) fun _ => False.elim) (by rwa [hverts, hentries])
    obtain ⟨hverts, hentries⟩ := Visit.count_calm (hcalm' honw.calm hcalm)
    rw [hverts, hentries] at htally
    rw [hvisit, hstep]
    refine ⟨forall_mem_singleton.2 hlogs, ?_⟩
    rintro next ⟨⟩
    exact of_reset (Nat.le_succ_of_le hge) hlt (hcalm' honw.calm hcalm) htally
  | body hopen htally =>
    obtain ⟨op, hop, hstr, hfollow⟩ := (C.open_cases hopen).resolve_right fun h => hends ⟨C.le_of_open hopen, h⟩
    obtain ⟨hop', hvisit, hstep⟩ | ⟨-, hvisit, hstep⟩ := step_cases M.toInterpretation code s hop
    · obtain ⟨ids, -, hcode⟩ := hfills pc op hop
      obtain ⟨hlogs, htally⟩ := Device.logs_tally (x := ⟨l.config, l.resources, host⟩) hmemory hcode hL hzero
        (hstr hop') htally
      rw [hvisit, hstep]
      refine ⟨forall_mem_singleton.2 hlogs, ?_⟩
      rintro next ⟨⟩
      exact .body (hfollow M.toInterpretation s _ (Flat.follow_straight hop')) htally
    · rw [hvisit, hstep, append_nil]
      exact ⟨by simp, fun next hnext => .body (hfollow M.toInterpretation s next hnext) htally⟩

theorem run_body (hL : ∀ n, L n → ofNat n ≠ 2 ∧ ofNat n ≠ 3) (hzero : L 0)
    (hworks : M.Works l.reservations count primitive instanceId s) (n : Nat) :
    ∃ m ≤ n, ∃ visits place s', run M.toInterpretation ops code m (some 0, s) = (visits, place, s') ∧
      M.LogsAll ⟨l.config, l.resources, host⟩ G (instanceId * count + primitive) visits ∧
      (place = none ∨ ∃ pc, place = some pc ∧ Phase F C M count primitive instanceId pc visits s' ∧
        (m = n ∨ l.EndsAt ops start pc)) := by
  let x : PassContext := ⟨l.config, l.resources, host⟩
  let P := instanceId * count + primitive
  have hstep : ∀ pc before s, (M.LogsAll x G P before ∧ Phase F C M count primitive instanceId pc before s) →
      ¬l.EndsAt ops start pc → M.LogsAll x G P (before ++ visit ops code (some pc, s)) ∧
        ∀ next, (step M.toInterpretation ops code (some pc, s)).1 = some next →
          M.LogsAll x G P (before ++ visit ops code (some pc, s)) ∧
          Phase F C M count primitive instanceId next (before ++ visit ops code (some pc, s))
            (step M.toInterpretation ops code (some pc, s)).2 := by
    rintro pc before s ⟨hbef, hphase⟩ hends
    obtain ⟨hlogs, hnext⟩ := hphase.next hmemory hfills hfront hlength hL hzero hends
    have hafter : M.LogsAll x G P (before ++ visit ops code (some pc, s)) := by
      obtain ⟨hvisit, -⟩ | ⟨pc, op, -, -, -, hvisit, -⟩ := visit_cases M.toInterpretation ops code (some pc, s)
      · rwa [hvisit, append_nil]
      · rw [hvisit] at hlogs ⊢
        exact hbef.concat (hlogs _ mem_cons_self)
    exact ⟨hafter, fun next hplc => ⟨hafter, hnext next hplc⟩⟩
  have hnil : M.LogsAll x G P [] := Device.logsAll_nil P
  obtain ⟨m, hm, visits, place, s', hrun, hlogs, hplc⟩ :=
    run_walk hstep n ⟨hnil, .opening (Nat.zero_le _) (by simp) hworks⟩ hnil
  refine ⟨m, hm, visits, place, s', hrun, hlogs, hplc.imp_right ?_⟩
  rintro ⟨pc, hpc, ⟨-, hphase⟩, hend⟩
  exact ⟨pc, hpc, hphase, hend⟩

end Phase

section Ending

variable {F : Front front} {C : l.Course (Elsewhere L G) ops start}
  (hmemory : l.resources.emulation = some (.geometry 0 1 2 3))
  (hfills : Fills ⟨l.config, l.resources, host⟩ floor ops code) (hfront : front <+: ops)
  (hlength : front.length = start) (hcompares : w.Compares)
  (hrecord : ∀ slot ∈ l.reservations.inputRecord, slot.io.isRecorded)
  (hending : ∀ ending pc, l.Ending ending → Flat.Stands ops pc ending →
    ∃ head temp, temp + 2 < floor ∧ ending = l.padding 3 head temp ++ [.returning])
  (hstride : l.config.indexStride < size)
include hmemory hfills hlength hcompares hrecord hending hstride

theorem run_ending (hends : l.EndsAt ops start pc) (h : Phase F C M count primitive instanceId pc before s) :
    ∃ m visits s', run M.toInterpretation ops code m (some pc, s) = (visits, none, s') ∧
      M.Pads (restarts l.config l.reservations (instanceId * count + primitive) (Visit.entries before % size))
        visits := by
  obtain ⟨hpc, ending, hending', hst⟩ := hends
  obtain ⟨head, temp, hfloor, rfl⟩ := hending ending pc hending' hst
  have htally := h.tally hlength hpc
  have hidxs : ofNat (Visit.entries before % size) = ofNat (Visit.entries before) :=
    UInt32.ofNat_mod_size
  have hmod : M.Tally l.reservations count primitive instanceId (Visit.vertices before)
      (Visit.entries before % size) s := ⟨htally.toWorks, htally.vertices_eq, htally.indices_eq.trans hidxs.symm⟩
  exact run_padding hmemory hfills hst C.nodup hmod hcompares hrecord hfloor hstride (Nat.mod_lt _ (by decide))

variable (F) (C) (hL : ∀ n, L n → ofNat n ≠ 2 ∧ ofNat n ≠ 3) (hzero : L 0)
  (hworks : M.Works l.reservations count primitive instanceId s)
include F C hfront hL hzero hworks

theorem invokes (n : Nat) : M.Invokes ⟨l.config, l.resources, host⟩ G (instanceId * count + primitive) ops code
    (l.EndsAt ops start) s n := by
  obtain ⟨m, hm, body, place, t, hrun, hlogs, hplc⟩ :=
    Phase.run_body (F := F) (C := C) hmemory hfills hfront hlength hL hzero hworks n
  constructor
  · obtain ⟨k, rfl⟩ := Nat.exists_eq_add_of_le hm
    rw [stepwise.chain hrun]
    refine ⟨body, _, rfl, hlogs, ?_⟩
    obtain rfl | ⟨pc, rfl, hphase, hstop⟩ := hplc
    · simp
    · obtain hk | hends := hstop
      · obtain rfl : k = 0 := by omega
        simp
      · obtain ⟨m', visits, t', hrun', hwr, hcalm⟩ :=
          run_ending hmemory hfills hlength hcompares hrecord hending hstride hends hphase
        have hinit : (run M.toInterpretation ops code k (some pc, t)).1 <+: visits := by
          obtain hle | hle := Nat.le_total k m'
          · have hgrows : (run M.toInterpretation ops code k (some pc, t)).1 <+:
                (run M.toInterpretation ops code m' (some pc, t)).1 := stepwise.grows _ hle
            rwa [hrun'] at hgrows
          · have hrun := stepwise.of_stopped hrun' hle
            exact (congrArg Prod.fst hrun) ▸ prefix_rfl
        refine ⟨fun v hv => hcalm v (hinit.subset hv), ?_⟩
        obtain ⟨later, rfl⟩ := hinit
        exact hwr ▸ flatMap_append ▸ prefix_append _ _
  · intro visits pc t hrun' hends hfst
    obtain rfl | ⟨pc', rfl, hphase, hstop⟩ := hplc
    · cases (stepwise.of_stopped hrun hm).symm.trans hrun'
    · obtain hlt | rfl := Nat.lt_or_eq_of_le hm
      · obtain hmn | hends' := hstop
        · exact absurd hmn (Nat.ne_of_lt hlt)
        · exact absurd hends' (hfst m hlt pc' (by rw [hrun]))
      · cases hrun.symm.trans hrun'
        exact run_ending hmemory hfills hlength hcompares hrecord hending hstride hends hphase

end Ending
end Run
end Lowering
end ShaderRecompiler
