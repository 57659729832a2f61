import ShaderRecompiler.Proofs.Device
import ShaderRecompiler.Proofs.Passes
import ShaderRecompiler.Proofs.Rewriting
import ShaderRecompiler.Proofs.Slots

/-! What the passes of an emulated stage put in the place of an operation. Inputs are
computed beside the program, in temporaries of their own; accesses to outputs of the
record become accesses to the memory that holds it; all else stays, but that draw
parameters among the operands are loaded before. -/
namespace ShaderRecompiler

open List Operation DrawParameters Expansion

variable {m : EmulationMemory} {expand : Expansion} {features : Features} {ids : Ids} {first : Nat} {o : Operand}

variable {op : Operation} {x : PassContext}

open Emit

namespace Operation

/-- Goes straight on, assigns new temporaries and `result` only, and leaves the first
local memory and the outputs alone. -/
structure Aside (first : Nat) (result : Option Operand) (op : Operation) : Prop where
  straight : op.inst.isStraight
  assigns : ∀ dest, op.dest = some dest → dest.TempFrom first ∨ result = some dest
  block : op.isStore .localMemory → ∃ n rest, op.sources = .word n :: rest ∧ UInt32.ofNat n ≠ 0
  output : op.accessesOutput = false

theorem Aside.mono (h : op.Aside first none) : op.Aside first result where
  straight := h.straight
  assigns dest hdest := .inl ((h.assigns dest hdest).resolve_right (by simp))
  block := h.block
  output := h.output

theorem Aside.of_temp {dest : Operand} (h : op.Aside first (some dest)) (hdest : dest.TempFrom first) :
    op.Aside first none where
  straight := h.straight
  assigns d hd := .inl ((h.assigns d hd).elim id fun heq => Option.some.inj heq ▸ hdest)
  block := h.block
  output := h.output

end Operation

/-- Stores to the first local memory are left to the outputs. -/
abbrev Reach.aside : Reach := .blocks fun n => UInt32.ofNat n ≠ 0

theorem Resolves.aside {α : Type} {m : Emit α}
    {kept : α → Option Operation} {Q : α → Prop} (h : Resolves (x.Inserts .aside op) known owed m kept Q)
    (howed : ∀ t ∈ owed, op.dest = some (.temp t)) (first : Nat) : Appends first (Aside first op.dest) m Q := by
  intro e he
  obtain ⟨hq, added, hops, hadd, hassigning⟩ := h e
  refine ⟨hq, hassigning.le, added, hops, fun o ho => ?_⟩
  have hbeside := (hadd o ho).beside
  refine ⟨hbeside.straight, fun dest hdest => ?_, fun hstore => ?_, hbeside.output⟩
  · refine (hbeside.assigns dest hdest).elim ?_ .inr
    rintro ⟨t, rfl⟩
    obtain ⟨own, -, hown, hperm⟩ := hassigning.temps
    have ht : t ∈ o.assigned := by simp [assigned, hdest, Operand.asTemp?]
    have hmem := hperm.mem_iff.1 (mem_flatMap.2 ⟨o, mem_append_left _ ho, ht⟩)
    exact (mem_append.1 hmem).elim (fun ht => .inr (howed t ht)) fun ht => .inl ⟨t, Nat.le_trans he (hown t ht).1, rfl⟩
  · have hstore : o.inst = .store ∧ o.storage = .localMemory := by simpa [isStore] using hstore
    exact hbeside.stores hstore.1 hstore.2

theorem Decides.aside {m : Emit Verdict} (h : Decides (x.Inserts .aside op) (·.Leaves op) op m) (first : Nat) :
    Appends first (Aside first op.dest) m (·.Passes op) := by
  obtain ⟨v, rfl, hv⟩ | ⟨owed, howed, -, hdrop⟩ := h
  · exact .pure (.inr hv)
  · exact (hdrop.aside howed first).mono fun _ => .inl

/-! Operands. -/

theorem Operand.TempFrom.isConstantBuffer_eq (h : o.TempFrom first) : o.isConstantBuffer = false := by
  obtain ⟨t, -, rfl⟩ := h
  rfl

/-- The same operand, or a new temporary in the place of a word of a guest constant
buffer. -/
def Operand.Settles (first : Nat) (o o' : Operand) : Prop := o' = o ∨ o.isConstantBuffer ∧ o'.TempFrom first

namespace Operand.Settles

theorem eq (h : o.Settles first o') (ho : o.isConstantBuffer = false) : o' = o :=
  h.resolve_right fun hbuf => by simp [ho] at hbuf

theorem trans (h : o.Settles first o') (h' : o'.Settles first o'') : o.Settles first o'' := by
  obtain rfl | ⟨hbuf, htemp⟩ := h
  · exact h'
  · obtain rfl := h'.eq htemp.isConstantBuffer_eq
    exact .inr ⟨hbuf, htemp⟩

theorem replaced (h : o.Settles first o') : o.Replaced o' := by
  refine h.imp_right ?_
  rintro ⟨hbuf, t, -, rfl⟩
  cases o with
  | constantBuffer => exact ⟨rfl, rfl, t, rfl⟩
  | _ => cases hbuf

theorem list_refl (first : Nat) (xs : List Operand) : Forall₂ (Settles first) xs xs :=
  forall₂_same.2 fun _ _ => .inl rfl

theorem list_trans (h : Forall₂ (Settles first) xs ys) (h' : Forall₂ (Settles first) ys zs) :
    Forall₂ (Settles first) xs zs := by
  induction h generalizing zs with
  | nil => exact h'
  | cons hab _ ih =>
    obtain ⟨c, rest, hbc, hrest, rfl⟩ := forall₂_cons_left_iff.1 h'
    exact .cons (hab.trans hbc) (ih hrest)

theorem list_eq (h : Forall₂ (Settles first) xs ys) (hxs : ∀ o ∈ xs, o.isConstantBuffer = false) : ys = xs := by
  induction h with
  | nil => rfl
  | cons hab _ ih =>
    obtain ⟨ha, hxs⟩ := forall_mem_cons.1 hxs
    rw [hab.eq ha, ih hxs]

end Operand.Settles

namespace Operation

variable {r : Reservations} {sources : List Operand} {code : List Operation}

section

variable (h : Forall₂ (Operand.Settles first) op.sources sources)
include h

theorem place?_settle (i : Nat) : place? { op with sources } i = op.place? i := by
  have hreplaced : Forall₂ Operand.Replaced op.sources sources := h.imp fun _ _ h => h.replaced
  exact Operand.Replaced.getElem? hreplaced i

theorem recordOffset?_settle (storage : Storage) :
    recordOffset? { op with sources } r storage = op.recordOffset? r storage := by
  simp only [recordOffset?, ioVariable?, componentIndex?, place?_settle h, ← h.length_eq]

theorem ioName_settle : ioName { op with sources } = op.ioName := by
  simp only [ioName, ioVariable?, place?_settle h]

end

theorem isStraight_of_accessesOutput (h : op.accessesOutput) : op.inst.isStraight := by
  obtain hinst | hinst := (access_of_output h).1 <;> rw [hinst] <;> rfl

theorem Aside.self (h : op.isAway) : op.Aside first op.dest := by
  have hinst : op.inst = .load ∨ op.inst = .emitVertex ∨ op.inst = .endPrimitive :=
    (isAway_iff.1 h).imp_left fun hload => (isLoad_eq hload).1
  refine ⟨?_, fun _ hdest => .inr hdest, fun hstore => ?_, ?_⟩
  · obtain h | h | h := hinst <;> rw [h] <;> rfl
  · have hstore : op.inst = .store := (by simpa [isStore] using hstore : op.inst = .store ∧ _).1
    obtain h | h | h := hinst <;> cases hstore.symm.trans h
  · exact accessesOutput_of_isAway h

theorem Aside.plain (h : op.Aside first result) : op.inst.isTerminator = false :=
  Instruction.isTerminator_of_isStraight h.straight

theorem isAway_terminator (h : op.inst.isTerminator) : op.isAway = false ∧ op.accessesOutput = false := by
  refine ⟨Bool.eq_false_iff.2 fun haway => ?_, Bool.eq_false_iff.2 fun hacc => ?_⟩
  · have haside : op.Aside 0 op.dest := .self haway
    simp [haside.plain] at h
  · simp [Instruction.isTerminator_of_isStraight (isStraight_of_accessesOutput hacc)] at h

/-- The access to a word of the record in the place of an access to an output. -/
def recorded (op : Operation) (offset : Nat) : Operation :=
  if op.inst = .store then
    ⟨.store, .localMemory, none, [.word 0, .word offset, op.stored]⟩
  else ⟨.load, .localMemory, op.dest, [.word 0, .word offset]⟩

/-- What the passes of an emulated stage can make of an operation. -/
inductive Becomes (r : Reservations) (first : Nat) (op : Operation) : List Operation → Prop
  /-- It stays, with operands that were loaded before. -/
  | kept {before : List Operation} {sources : List Operand} (hbefore : ∀ o ∈ before, o.Aside first none)
    (hsources : Forall₂ (Operand.Settles first) op.sources sources)
    (houtput : op.accessesOutput → op.recordOffset? r .output = none) :
    Becomes r first op (before ++ [{ op with sources }])
  /-- Its result is computed, or a primitive is handed over. -/
  | away {code : List Operation} (hcode : ∀ o ∈ code, o.Aside first op.dest)
    (haway : op.isAway) : Becomes r first op code
  /-- It accesses the record. -/
  | recorded {before : List Operation} {sources : List Operand} {offset : Nat}
    (hbefore : ∀ o ∈ before, o.Aside first none)
    (hsources : Forall₂ (Operand.Settles first) op.sources sources) (haccess : op.accessesOutput)
    (hoffset : op.recordOffset? r .output = some offset) :
    Becomes r first op (before ++ [recorded { op with sources } offset])

theorem Becomes.plain (h : op.Becomes r first code) (hop : op.inst.isTerminator = false) :
    ∀ o ∈ code, o.inst.isTerminator = false := by
  cases h with
  | kept hbef => exact forall_mem_append.2 ⟨fun o ho => (hbef o ho).plain, by simpa using hop⟩
  | away hcode => exact fun o ho => (hcode o ho).plain
  | recorded hbef =>
    refine forall_mem_append.2 ⟨fun o ho => (hbef o ho).plain, forall_mem_singleton.2 ?_⟩
    unfold Operation.recorded
    split <;> rfl

theorem Becomes.terminator (h : op.Becomes r first code) (hop : op.inst.isTerminator) :
    ∃ before sources, code = before ++ [{ op with sources }] ∧ (∀ o ∈ before, o.Aside first none) ∧
      Forall₂ (Operand.Settles first) op.sources sources := by
  obtain ⟨haway, hacc⟩ := isAway_terminator hop
  cases h with
  | kept hbef hsrc => exact ⟨_, _, rfl, hbef, hsrc⟩
  | away _ h => simp [haway] at h
  | recorded _ _ h => simp [hacc] at h

theorem Becomes.settled (hbef : ∀ o ∈ before, o.Aside first none)
    (hsrc : Forall₂ (Operand.Settles first) op.sources sources)
    (h : Becomes r first { op with sources } code) : op.Becomes r first (before ++ code) := by
  cases h with
  | @kept before' sources' hbef' hsrc' hout =>
    rw [recordOffset?_settle hsrc] at hout
    rw [← append_assoc]
    exact .kept (forall_mem_append.2 ⟨hbef, hbef'⟩) (Operand.Settles.list_trans hsrc hsrc') hout
  | away hcode haway =>
    exact .away (forall_mem_append.2 ⟨fun o ho => (hbef o ho).mono, hcode⟩) haway
  | @recorded before' sources' offset hbef' hsrc' hacc hoff =>
    rw [recordOffset?_settle hsrc] at hoff
    rw [← append_assoc]
    exact .recorded (forall_mem_append.2 ⟨hbef, hbef'⟩) (Operand.Settles.list_trans hsrc hsrc') hacc hoff

theorem Becomes.unchanged (hout : op.accessesOutput → op.recordOffset? r .output = none) :
    op.Becomes r first [op] := by
  change op.Becomes r first ([] ++ [op])
  exact .kept (by simp) (Operand.Settles.list_refl first _) hout

end Operation

/-! The passes. -/

theorem Emit.Appends.piece (h : Appends first P (expand op) Q) (hids : first ≤ ids.temps) :
    ∃ added verdict, expand.piece ids op = added ++ Option.toList verdict.kept ∧ (∀ o ∈ added, P o) ∧ Q verdict := by
  obtain ⟨hver, -, added, hadd, hall⟩ := h { ids } hids
  refine ⟨added, ((expand op).run { ids }).1, ?_, hall, hver⟩
  have hadd : ((expand op).run { ids }).2.ops.toList = added := hadd
  rw [← hadd]
  rfl

/-- The operation stays as it is. -/
def Expansion.Leaves (expand : Expansion) (op : Operation) : Prop :=
  ∃ v : Verdict, expand op = pure v ∧ v.kept = some op

theorem Expansion.Leaves.piece_eq (h : expand.Leaves op) (ids : Ids) : expand.piece ids op = [op] := by
  obtain ⟨v, hv, hkept⟩ := h
  rw [piece, hv]
  change [] ++ v.kept.toList = [op]
  rw [hkept]
  rfl

namespace DrawParameters

variable (x : PassContext)

def loading (v : IoVariable) (t : Nat) : Operation :=
  ⟨.load, .input, some (.temp t), [v.operand]⟩

/-- The load of a parameter that an operation reads. -/
structure Loads (first : Nat) (op load : Operation) (v : IoVariable) : Prop where
  eq : ∃ t, first ≤ t ∧ load = loading v t
  reads : ∃ o ∈ op.sources, parameter? o = some v

theorem Loads.isLoad {load : Operation} (h : Loads first op load v) : load.isLoad .input := by
  obtain ⟨t, -, rfl⟩ := h.eq
  rfl

/-- The operand names no parameter, unless parameters stay where they are. -/
def Settled (x : PassContext) (o : Operand) : Prop := x.host.drawParametersInBuffer → parameter? o = none

theorem isConstantBuffer_of_parameter? (h : parameter? o = some v) : o.isConstantBuffer := by
  unfold parameter? at h
  split at h
  · rfl
  · cases h

theorem settled_of_isConstantBuffer (h : o.isConstantBuffer = false) : Settled x o := by
  intro _
  refine Option.eq_none_iff_forall_ne_some.2 fun _ hv => ?_
  rw [isConstantBuffer_of_parameter? hv] at h
  cases h

theorem leaves_expansion (h : ∀ o ∈ op.sources, Settled x o) : (expansion x).Leaves op := by
  have hsources : op.sources.mapM (source x.host.drawParametersInBuffer) = (pure op.sources : Emit (List Operand)) := by
    generalize op.sources = sources at h
    induction sources with
    | nil => rfl
    | cons o sources ih =>
      obtain ⟨ho, h⟩ := forall_mem_cons.1 h
      have hsrc : source x.host.drawParametersInBuffer o = (pure o : Emit Operand) := by
        unfold source
        split
        · next hv => exact if_neg fun hrepl => by simp [ho hrepl] at hv
        · rfl
      rw [mapM_cons, hsrc, ih h]
      rfl
  refine ⟨{ kept := some op, drawParameters := op.sources.any fun o => (parameter? o).isSome }, ?_, rfl⟩
  rw [expansion, hsources]
  rfl

theorem appends_expansion (op : Operation) : Appends first (fun o => ∃ v, Loads first op o v) (expansion x op)
    fun v => v.unresolved = none ∧ ∃ sources, v.kept = some { op with sources } ∧
      Forall₂ (Operand.Settles first) op.sources sources ∧ ∀ o ∈ sources, Settled x o := by
  have hsrc : ∀ o ∈ op.sources, Appends first (fun load => ∃ v, Loads first op load v)
      (source x.host.drawParametersInBuffer o) fun o' => o.Settles first o' ∧ Settled x o' := by
    intro o ho
    unfold source
    split
    · next v hv =>
      refine .ite (fun _ => ?_) fun hkept => .pure ⟨.inl rfl, fun h => absurd h hkept⟩
      have hload : Appends first (fun load => ∃ v, Loads first op load v) (loadInput v) (Operand.TempFrom first) :=
        .load fun t ht => ⟨v, ⟨t, ht, rfl⟩, o, ho, hv⟩
      exact hload.mono fun _ htemp =>
        ⟨.inr ⟨isConstantBuffer_of_parameter? hv, htemp⟩, settled_of_isConstantBuffer x htemp.isConstantBuffer_eq⟩
    · next hnone => exact .pure ⟨.inl rfl, fun _ => hnone⟩
  refine .bind (.mapM hsrc) fun sources hsources => .pure ⟨rfl, sources, rfl, hsources.imp fun _ _ h => h.1, ?_⟩
  have hset : Forall₂ (fun o' o => Settled x o' ∧ o.Settles first o') sources op.sources :=
    hsources.flip.imp fun _ _ h => ⟨h.2, h.1⟩
  exact ((forall₂_and_left _ _).1 hset).1

end DrawParameters

section Output

theorem expandOutput_none (hm : x.resources.emulation = some m)
    (h : op.recordOffset? x.resources.reservations .output = none) :
    expandOutput x op = pure (.unresolvedOutput op op.ioName) := by
  simp only [expandOutput, hm, h]

theorem expandOutput_some (hm : x.resources.emulation = some m) (hdata : m.vertexData = 0)
    (h : op.recordOffset? x.resources.reservations .output = some offset) :
    expandOutput x op = (Emit.op (op.recorded offset) >>= fun _ => pure .drop) := by
  have hstored : op.sources.getLastD .undefined = op.stored := getLastD_eq_getLast? ..
  simp only [expandOutput, hm, h, hdata, hstored, recorded]
  by_cases hstore : op.inst = .store
  · rw [if_pos hstore, if_pos hstore]
    rfl
  · rw [if_neg hstore, if_neg hstore]

variable (hm : x.resources.emulation = some m) (hdata : m.vertexData = 0)
include hm hdata

theorem becomes_expandOutput (hacc : op.accessesOutput) (ids : Ids) :
    op.Becomes x.resources.reservations first ((expandOutput x).piece ids op) := by
  cases hoff : op.recordOffset? x.resources.reservations .output with
  | none =>
    rw [piece, expandOutput_none hm hoff]
    exact .unchanged fun _ => hoff
  | some offset =>
    rw [piece, expandOutput_some hm hdata hoff]
    change op.Becomes _ first ([] ++ [op.recorded offset])
    exact .recorded (by simp) (Operand.Settles.list_refl first _) hacc hoff

theorem temps_expandOutput (op : Operation) (ids : Ids) :
    ((expandOutput x op).run { ids }).2.ids.temps = ids.temps := by
  cases hoff : op.recordOffset? x.resources.reservations .output with
  | none =>
    rw [expandOutput_none hm hoff]
    rfl
  | some offset =>
    rw [expandOutput_some hm hdata hoff]
    rfl

theorem unresolved_expandOutput (hu : ((expandOutput x op).run { ids }).1.unresolved = some u) :
    op.recordOffset? x.resources.reservations .output = none ∧ u.name = op.ioName := by
  cases hoff : op.recordOffset? x.resources.reservations .output with
  | none =>
    rw [expandOutput_none hm hoff] at hu
    obtain rfl := Option.some.inj hu
    exact ⟨rfl, rfl⟩
  | some offset =>
    rw [expandOutput_some hm hdata hoff] at hu
    cases hu

end Output

namespace Expansion.Emulates

variable (h : expand.Emulates x .aside)
include h

theorem aside (haway : op.isAway) (hids : first ≤ ids.temps) : ∀ o ∈ expand.piece ids op, o.Aside first op.dest := by
  obtain ⟨added, verdict, hpiece, hadd, hver⟩ := ((h.away op haway).aside first).piece hids
  rw [hpiece]
  refine forall_mem_append.2 ⟨hadd, fun o ho => ?_⟩
  obtain rfl | hleaves := hver
  · cases ho
  · obtain rfl : o = op := by simpa [hleaves.kept] using ho
    exact .self haway

variable (hm : x.resources.emulation = some m) (hdata : m.vertexData = 0)
include hm hdata

theorem becomes (op : Operation) (hids : first ≤ ids.temps) :
    op.Becomes x.resources.reservations first (expand.piece ids op) := by
  cases haway : op.isAway with
  | true => exact .away (h.aside haway hids) haway
  | false =>
    cases hacc : op.accessesOutput with
    | true =>
      have hbecomes : op.Becomes _ first _ := becomes_expandOutput hm hdata hacc ids
      rwa [piece, ← h.output op hacc] at hbecomes
    | false =>
      rw [piece, h.other op haway hacc]
      exact .unchanged (by simp [hacc])

theorem respects (floor : Nat) : expand.Respects floor := by
  intro op ids hids
  cases haway : op.isAway with
  | true => exact Nat.le_trans hids ((h.away op haway).aside floor { ids } hids).2.1
  | false =>
    cases hacc : op.accessesOutput with
    | true =>
      rw [h.output op hacc, temps_expandOutput hm hdata]
      exact hids
    | false =>
      rw [h.other op haway hacc]
      exact hids

theorem unresolved (hu : ((expand op).run { ids }).1.unresolved = some u) (hout : u.isOutput) :
    op.accessesOutput ∧ op.recordOffset? x.resources.reservations .output = none ∧ u.name = op.ioName := by
  cases haway : op.isAway with
  | true =>
    have hinp := ((h.away op haway).aside 0 { ids } (Nat.zero_le _)).1.unresolved hu
    simp [hout] at hinp
  | false =>
    cases hacc : op.accessesOutput with
    | true =>
      rw [h.output op hacc] at hu
      exact ⟨rfl, unresolved_expandOutput hm hdata hu⟩
    | false =>
      rw [h.other op haway hacc] at hu
      cases hu

end Expansion.Emulates

theorem GeometryEmulation.emulates_aside {vertexData topologyRemap vertexCounter indexCounter : Nat}
    (hm : x.resources.emulation = some (.geometry vertexData topologyRemap vertexCounter indexCounter))
    (hvtx : UInt32.ofNat vertexCounter ≠ 0) (hidx : UInt32.ofNat indexCounter ≠ 0) :
    (expansion x).Emulates x .aside :=
  emulates_expansion hm (Reach.block_blocks hvtx) (Reach.block_blocks hidx) (Reach.buffer_blocks _)

namespace Pass

theorem enabled_vertex (h : features.emulated) : enabled .vertex features = [drawParameters, vertexEmulation] := by
  simp [enabled, all, isEnabled, h]

theorem enabled_geometry (h : features.emulated) : enabled .geometry features = [geometryEmulation] := by
  simp [enabled, all, isEnabled, h]

/-- Passes that emulate a stage. -/
structure Emulate (x : PassContext) (passes : List Pass) : Prop where
  respects : ∀ pass ∈ passes, ∀ floor, (pass.expansion x).Respects floor
  becomes : ∀ {first op code}, Turns x first passes [op] code → op.Becomes x.resources.reservations first code
  /-- Outputs are reported only if they have no word. -/
  reports : ∀ {floor report old}, Reports x floor report passes old → report.isOutput →
    ∃ op ∈ old, op.accessesOutput ∧ op.recordOffset? x.resources.reservations .output = none ∧ report.name = op.ioName

theorem piece_drawParameters (x : PassContext) (op : Operation) (hids : first ≤ ids.temps) :
    ∃ loads sources, (drawParameters.expansion x).piece ids op = loads ++ [{ op with sources }] ∧
      (∀ load ∈ loads, ∃ v, Loads first op load v) ∧
      Forall₂ (Operand.Settles first) op.sources sources ∧ ∀ o ∈ sources, Settled x o := by
  obtain ⟨loads, verdict, hpiece, hloads, -, sources, hkept, hsrc⟩ :=
    (appends_expansion x op).piece hids
  rw [hkept] at hpiece
  exact ⟨loads, sources, hpiece, hloads, hsrc⟩

theorem respects_drawParameters (x : PassContext) (floor : Nat) : (drawParameters.expansion x).Respects floor :=
  fun op ids hids => Nat.le_trans hids (appends_expansion x op { ids } hids).2.1

theorem emulate_vertex (hm : x.resources.emulation = some (.vertex 0 vertexRate instanceRate)) :
    Emulate x [drawParameters, vertexEmulation] := by
  have hems := VertexEmulation.emulates_expansion (B := .aside) hm
  refine ⟨?_, ?_, ?_⟩
  · exact forall_mem_cons.2 ⟨respects_drawParameters x, forall_mem_singleton.2 (hems.respects hm rfl)⟩
  · rintro first op code ⟨settled, hdraw, between, hvtx, rfl⟩
    obtain ⟨ids, hids, rfl⟩ := hdraw.of_singleton
    obtain ⟨loads, sources, hpiece, hloads, hsrc, -⟩ := piece_drawParameters x op hids
    rw [hpiece] at hvtx
    obtain ⟨before, after, rfl, hbef, hafter⟩ := hvtx.of_append rfl
    obtain ⟨ids', hids', rfl⟩ := hafter.of_singleton
    refine .settled (fun o ho => ?_) hsrc (hems.becomes hm rfl _ hids')
    obtain ⟨load, hload, ids'', hids'', ho⟩ := hbef.exists_of_mem ho
    obtain ⟨v, hv⟩ := hloads load hload
    have haside := hems.aside (isAway_iff.2 (.inl hv.isLoad)) hids'' o ho
    obtain ⟨t, ht, rfl⟩ := hv.eq
    exact haside.of_temp ⟨t, ht, rfl⟩
  · rintro floor report old (⟨op, -, ids, hrep⟩ | ⟨settled, hdraw, ⟨op, hop, ids, hrep⟩ | ⟨_, _, hnone⟩⟩) hout
    · have hnone := (appends_expansion x op { ids } (Nat.zero_le _)).1.1
      cases hnone.symm.trans hrep
    · obtain ⟨hacc, hoff, hname⟩ := hems.unresolved hm rfl hrep hout
      obtain ⟨op', hop', ids', hids', hmem⟩ := hdraw.exists_of_mem hop
      obtain ⟨loads, sources, hpiece, hloads, hsrc, -⟩ := piece_drawParameters x op' hids'
      rw [hpiece] at hmem
      obtain hload | hkept := mem_append.1 hmem
      · obtain ⟨v, hv⟩ := hloads op hload
        have haway := isAway_iff.2 (.inl hv.isLoad)
        rw [isAway_of_accessesOutput hacc] at haway
        cases haway
      · obtain rfl := mem_singleton.1 hkept
        rw [recordOffset?_settle hsrc] at hoff
        exact ⟨op', hop', hacc, hoff, hname.trans (ioName_settle hsrc)⟩
    · exact hnone.elim

theorem emulate_geometry (hm : x.resources.emulation = some (.geometry 0 topologyRemap vertexCounter indexCounter))
    (hvtx : UInt32.ofNat vertexCounter ≠ 0) (hidx : UInt32.ofNat indexCounter ≠ 0) :
    Emulate x [geometryEmulation] := by
  have hems := GeometryEmulation.emulates_aside hm hvtx hidx
  refine ⟨forall_mem_singleton.2 (hems.respects hm rfl), ?_, ?_⟩
  · rintro first op code ⟨between, hgeo, rfl⟩
    obtain ⟨ids, hids, rfl⟩ := hgeo.of_singleton
    exact hems.becomes hm rfl op hids
  · rintro floor report old (⟨op, hop, ids, hrep⟩ | ⟨_, _, hnone⟩) hout
    · exact ⟨op, hop, hems.unresolved hm rfl hrep hout⟩
    · exact hnone.elim

end Pass
end ShaderRecompiler
