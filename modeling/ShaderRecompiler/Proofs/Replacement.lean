import ShaderRecompiler.Proofs.Appending
import ShaderRecompiler.Proofs.Scoping

/-! What a pass puts in the place of an operation: the kinds of operations, where they
read and write, and on which of the operation's own operands they depend. All of them go
straight on and leave the outputs alone, read what the operation read, assign what it
assigned, and pass what they compute on among themselves in temporaries that are new. -/
namespace ShaderRecompiler

open List Operation Operand

open Operand (isValue_temp isValue_constant)

/-- Where to store to, and which inputs to load: at least those of a dispatch. -/
structure Reach where
  stores : Storage → List Operand → Prop
  input : IoVariable → Prop
  dispatch : ∀ v : IoVariable, v.isDispatchInput → input v

/-- A block of local memory can be stored to. -/
def Reach.Block (B : Reach) (n : Nat) : Prop := ∀ rest, B.stores .localMemory (.word n :: rest)

/-- All inputs, and stores to some memories. -/
def Reach.memories (memory : Storage → Prop) : Reach :=
  ⟨fun storage _ => memory storage, fun _ => True, fun _ _ => trivial⟩

/-- All inputs, and stores to some blocks of local memory. -/
def Reach.blocks (block : Nat → Prop) : Reach where
  stores storage sources := storage = .localMemory → ∃ n rest, sources = .word n :: rest ∧ block n
  input _ := True
  dispatch _ _ := trivial

theorem Reach.block_blocks (h : block n) : (blocks block).Block n :=
  fun rest _ => ⟨n, rest, rfl, h⟩

theorem Reach.buffer_blocks (block : Nat → Prop) (sources : List Operand) :
    (blocks block).stores .storageBuffer sources := by
  simp [blocks]

/-- What a pass puts in the place of `op`, with stores and inputs as in `B`. -/
inductive PassContext.Inserts (x : PassContext) (B : Reach) (op : Operation) : Operation → Prop
  | compute {inst : Instruction} {sources : List Operand} (hinst : inst.computes sources.length)
    (hsources : ∀ o ∈ sources, o.isValue) (t : Nat) : Inserts x B op ⟨inst, .none, some (.temp t), sources⟩
  | sample {data vertexRate instanceRate location : Nat}
    (hm : x.resources.emulation = some (.vertex data vertexRate instanceRate)) (hload : op.isLoad .input)
    (hv : op.ioVariable? = some .userDefined) (hlocation : op.place? 1 = some location) {texture : TextureOp}
    (hbinding : texture.binding = x.resources.reservations.vertexBuffer location)
    (hcoordinates : texture.sampler.coordinates + texture.lod.toNat = 1) {element : Operand}
    (helement : element.isValue) (t : Nat) :
    Inserts x B op ⟨.textureSample texture, .none, some (.temp t), [element]⟩
  | fetch {storage : Storage} {sources : List Operand} (h : x.resources.Fetches storage sources) (t : Nat) :
    Inserts x B op ⟨.load, storage, some (.temp t), sources⟩
  | input {v : IoVariable} (hv : B.input v) (hlocation : v.hasLocation = false) (component t : Nat) :
    Inserts x B op ⟨.load, .input, some (.temp t), x.config.accessSources .input v (.word 0) (.word 0)
      (.word component)⟩
  | keep {storage : Storage} {sources : List Operand} {value : Operand} (h : x.resources.Keeps storage sources)
    (hvalue : value.isValue) (hstores : B.stores storage (sources ++ [value])) :
    Inserts x B op ⟨.store, storage, none, sources ++ [value]⟩
  | remapped {data remap vertices indices : Nat}
    (hm : x.resources.emulation = some (.geometry data remap vertices indices)) (hload : op.inst = .load)
    {vertex : Operand} (hvertex : vertex ∈ op.sources) (t : Nat) :
    Inserts x B op ⟨.load, .localMemory, some (.temp t), [.word remap, vertex]⟩
  | record {memory : EmulationMemory} (hm : x.resources.emulation = some memory) (hstore : op.inst = .store)
    (offset : Nat) (hstores : B.Block memory.vertexData) : Inserts x B op
      ⟨.store, .localMemory, none, [.word memory.vertexData, .word offset, op.sources.getLastD .undefined]⟩
  | copy (hload : op.inst = .load) {dest : Operand} (hdest : op.dest = some dest) (t : Nat) :
    Inserts x B op ⟨.copy, .none, some dest, [.temp t]⟩
  | load (hload : op.inst = .load) {storage : Storage} {sources : List Operand}
    (h : x.resources.Fetches storage sources) : Inserts x B op ⟨.load, storage, op.dest, sources⟩

/-- The same operand, or a temporary in the place of one that is no constant. -/
def Operand.Replaced (o o' : Operand) : Prop :=
  o' = o ∨ o.asNat? = none ∧ o.isLabel = false ∧ o'.IsTemp

theorem Operand.mem_getLastD (xs : List Operand) :
    xs.getLastD .undefined ∈ xs ∨ xs.getLastD .undefined = .undefined := by
  rw [getLastD_eq_getLast?]
  cases hlast : xs.getLast? with
  | none => exact .inr rfl
  | some o => exact .inl (mem_of_getLast? hlast)

namespace Operation

variable {op : Operation}

def accessesOutput (op : Operation) : Bool := op.isLoad .output || op.isStore .output

theorem accessesOutput_of_storage (h : op.storage.isOutput = false) : op.accessesOutput = false := by
  have hstor : op.storage ≠ .output := by
    intro heq
    rw [heq] at h
    cases h
  simp [accessesOutput, isLoad, isStore, hstor]

/-- Has a result or is a store, assigns temporaries and `into` only, stores and loads inputs as
in `B`, leaves the outputs alone, and reads no other words of guest constant buffers than
those that are known. -/
structure Beside (B : Reach) (into : Option Operand) (known : List Operand) (op : Operation) : Prop where
  plain : op.inst.hasDestination ∨ op.inst = .store
  assigns : ∀ dest, op.dest = some dest → dest.IsTemp ∨ into = some dest
  stores : op.inst = .store → B.stores op.storage op.sources
  output : op.accessesOutput = false
  input : op.isLoad .input → ∃ v, op.ioVariable? = some v ∧ B.input v
  reads : ∀ o ∈ op.sources, o.isConstantBuffer → o ∈ known

theorem Beside.straight (h : op.Beside B into known) : op.inst.isStraight := by
  obtain hinst | hinst := h.plain
  · exact Instruction.isStraight_of_hasDestination hinst
  · rw [hinst]
    rfl

/-- Reads no more of the stage interface than inputs in `B`. -/
def Reads (B : Reach) (op : Operation) : Prop :=
  op.storage.isIo = false ∨ op.storage = .input ∧ ∃ v rest, op.sources = IoVariable.operand v :: rest ∧ B.input v

theorem Reads.isOutput_eq (h : op.Reads B) : op.storage.isOutput = false := by
  obtain hio | ⟨hinp, -⟩ := h
  · exact (Bool.or_eq_false_iff.1 hio).2
  · rw [hinp]
    rfl

theorem Beside.assign (hinst : op.inst.hasDestination) (hreads : op.Reads B)
    (h : ∀ d, op.dest = some d → d.IsTemp ∨ into = some d)
    (hsrc : ∀ o ∈ op.sources, o.isConstantBuffer → o ∈ known) : op.Beside B into known where
  plain := .inl hinst
  assigns := h
  stores hstore := by
    rw [hstore] at hinst
    cases hinst
  output := accessesOutput_of_storage hreads.isOutput_eq
  input hload := by
    have hstor : op.storage = .input := (by simpa [isLoad] using hload : op.inst = .load ∧ _).2
    have hio : op.storage.isIo := by rw [hstor]; rfl
    obtain hnone | ⟨-, v, rest, hsrc, hv⟩ := hreads
    · cases hnone.symm.trans hio
    · exact ⟨v, ioVariable?_cons hio hsrc, hv⟩
  reads := hsrc

theorem Beside.store {storage : Storage} {sources : List Operand} (hstor : storage.isIo = false)
    (h : B.stores storage sources) (hsrc : ∀ o ∈ sources, o.isConstantBuffer → o ∈ known) :
    Beside B into known ⟨.store, storage, none, sources⟩ where
  plain := .inr rfl
  assigns := by simp
  stores _ := h
  output := accessesOutput_of_storage (Bool.or_eq_false_iff.1 hstor).2
  input := by simp [isLoad]
  reads := hsrc

theorem access_of_output (h : op.accessesOutput) : (op.inst = .load ∨ op.inst = .store) ∧ op.storage = .output := by
  simp only [accessesOutput, isLoad, isStore, Bool.or_eq_true, Bool.and_eq_true, beq_iff_eq] at h
  rwa [or_and_right]

/-- Emulation computes what the operation gives. -/
def isAway (op : Operation) : Bool := op.isLoad .input || op.inst == .emitVertex || op.inst == .endPrimitive

theorem isAway_iff : op.isAway ↔ op.isLoad .input ∨ op.inst = .emitVertex ∨ op.inst = .endPrimitive := by
  simp [isAway, or_assoc]

theorem isAway_eq_false_iff :
    op.isAway = false ↔ op.isLoad .input = false ∧ op.inst ≠ .emitVertex ∧ op.inst ≠ .endPrimitive := by
  simp [isAway, and_assoc]

theorem isAway_of_accessesOutput (h : op.accessesOutput) : op.isAway = false := by
  obtain ⟨hinst | hinst, hstor⟩ := access_of_output h <;> simp [isAway, isLoad, hinst, hstor]

theorem accessesOutput_of_isAway (h : op.isAway) : op.accessesOutput = false :=
  Bool.eq_false_iff.2 fun hacc => by simp [isAway_of_accessesOutput hacc] at h

theorem dest_of_mem_assigned (h : t ∈ op.assigned) : op.dest = some (.temp t) := by
  obtain ⟨dest, hdest, ht⟩ := Option.bind_eq_some_iff.1 (Option.mem_toList.1 h)
  cases dest with
  | temp => rw [hdest, Option.some.inj ht]
  | _ => cases ht

end Operation

variable {x : PassContext}

theorem PassContext.Inserts.beside {op : Operation} (h : x.Inserts B op o) : o.Beside B op.dest op.sources := by
  have hvals : ∀ {sources : List Operand}, (∀ o ∈ sources, o.isValue) →
      ∀ o ∈ sources, o.isConstantBuffer → o ∈ op.sources := by
    intro sources hsrc o ho hbuffer
    simp [isConstantBuffer_of_isValue (hsrc o ho)] at hbuffer
  have htemp : ∀ {t : Nat} (d : Operand), some (temp t) = some d → d.IsTemp ∨ op.dest = some d := by
    rintro t _ ⟨⟩
    exact .inl ⟨t, rfl⟩
  cases h with
  | compute hinst hsrc =>
    exact .assign (Instruction.computes_iff.1 hinst).2.1 (.inl rfl) htemp (hvals hsrc)
  | sample _ _ _ _ _ _ helt => exact .assign rfl (.inl rfl) htemp (hvals (forall_mem_singleton.2 helt))
  | fetch h => exact .assign rfl (.inl h.isIo_eq) htemp (hvals h.isValue)
  | input hv hloc =>
    exact .assign rfl (.inr ⟨rfl, _, _, rfl, hv⟩) htemp (hvals (Config.forall_accessSources rfl rfl rfl rfl))
  | keep h hval hstores =>
    exact .store h.isIo_eq hstores (hvals (forall_mem_append.2 ⟨h.isValue, forall_mem_singleton.2 hval⟩))
  | remapped _ _ hvtx => exact .assign rfl (.inl rfl) htemp (by simp [hvtx])
  | record _ _ _ hstores =>
    refine .store rfl (hstores _) (forall_mem_cons.2 ⟨by simp, forall_mem_cons.2 ⟨by simp, ?_⟩⟩)
    refine forall_mem_singleton.2 fun hbuffer => (mem_getLastD op.sources).resolve_right fun hnone => ?_
    rw [hnone] at hbuffer
    cases hbuffer
  | copy _ hdest => exact .assign rfl (.inl rfl) (fun d hd => .inr (hdest.trans hd)) (hvals (by simp))
  | load _ h => exact .assign rfl (.inl h.isIo_eq) (fun d hd => .inr hd) (hvals h.isValue)

/-! Emission. -/

theorem Scopes.appends (h : Scopes P {} known owed opens closes m result Q) :
    Emit.Appends 0 P m Q := by
  intro e _
  obtain ⟨hq, added, hops, hadd, -⟩ := h e
  exact ⟨hq, hadd.assigning.le, added, hops, hadd.emission.all⟩

/-- With what is kept, what `m` appends assigns what is owed and reads what is known. -/
def Resolves {α : Type} (P : Operation → Prop) (known : List Operand) (owed : List Nat) (m : Emit α)
    (kept : α → Option Operation) (Q : α → Prop) : Prop :=
  ∀ e : Emitter, Q (m.run e).1 ∧ ∃ added, (m.run e).2.ops.toList = e.ops.toList ++ added ∧ (∀ op ∈ added, P op) ∧
    Assigning known owed e.ids.temps (m.run e).2.ids.temps (added ++ (kept (m.run e).1).toList)

namespace Resolves

theorem mono (h : Resolves P known owed m kept Q) (hq : ∀ v, Q v → Q' v) :
    Resolves P known owed m kept Q' :=
  fun e => ⟨hq _ (h e).1, (h e).2⟩

theorem keep {op : Operation} (hq : Q v) (hkept : kept v = some op) (hcomp : op.Computes)
    (hsrc : ∀ o ∈ op.sources, o ∈ known) : Resolves P known op.assigned (pure v) kept Q := by
  intro e
  refine ⟨hq, [], (append_nil _).symm, by simp, ?_⟩
  change Assigning known op.assigned e.ids.temps e.ids.temps (kept v).toList
  rw [hkept]
  exact .singleton hcomp (fun o ho => .inl (hsrc o ho)) e.ids.temps

theorem ite {m : Emit β} {_ : Decidable p} (ht : p → Resolves P known owed m kept Q)
    (he : ¬p → Resolves P known owed m' kept Q) : Resolves P known owed (if p then m else m') kept Q := by
  split
  · next h => exact ht h
  · next h => exact he h

theorem bind (hm : Scopes P {} known [] [] [] m result R)
    (hf : ∀ a, R a → Resolves P (result a ++ known) owed (f a) kept Q) : Resolves P known owed (m >>= f) kept Q := by
  intro e
  obtain ⟨hr, added, hops, hadd, hres⟩ := hm e
  obtain ⟨hq, added', hops', hadd', hassigning⟩ := hf (m.run e).1 hr (m.run e).2
  refine ⟨hq, added ++ added', ?_, forall_mem_append.2 ⟨hadd.emission.all, hadd'⟩, ?_⟩
  · rw [← append_assoc, ← hops]
    exact hops'
  · rw [append_assoc]
    refine hadd.assigning.append hassigning fun t ht => ?_
    exact (mem_append.1 ht).elim (fun ht => (hres _ ht).2 t rfl) .inl

theorem next {m : Emit Operand} (hm : Scopes P {} known [] [] [] m (fun a => [a]) IsTemp)
    (hf : ∀ t, Resolves P (.temp t :: known) owed (f (.temp t)) kept Q) : Resolves P known owed (m >>= f) kept Q := by
  refine bind hm ?_
  rintro _ ⟨t, rfl⟩
  exact hf t

theorem op {o : Operation} (h : P o) (hcomp : o.Computes) (hsrc : ∀ s ∈ o.sources, s.Ready known) :
    Resolves P known o.assigned (Emit.op o) (fun _ => none) fun _ => True :=
  fun e => ⟨trivial, [o], Array.toList_push, forall_mem_singleton.2 h, .singleton hcomp hsrc e.ids.temps⟩

theorem of_scopes
    (h : Scopes P {} known owed [] [] m result R) : Resolves P known owed m (fun _ => none) fun _ => True := by
  intro e
  obtain ⟨added, hops, hadd⟩ := h.run e
  refine ⟨trivial, added, hops, hadd.emission.all, ?_⟩
  rw [Option.toList_none, append_nil]
  exact hadd.assigning

theorem done {m : Emit Unit} (h : Resolves P known owed m (fun _ => none) fun _ => True)
    (hq : Q .drop) : Resolves P known owed (do m; return .drop) Verdict.kept Q := by
  intro e
  obtain ⟨-, hadd⟩ := h e
  exact ⟨hq, hadd⟩

theorem appends (h : Resolves P known owed m kept Q) : Emit.Appends 0 P m Q := by
  intro e _
  obtain ⟨hq, added, hops, hadd, hassigning⟩ := h e
  exact ⟨hq, hassigning.le, added, hops, hadd⟩

end Resolves

/-! The passes. -/

/-- Leaves an operation, and reports no output. -/
structure Verdict.Leaves (v : Verdict) (op : Operation) : Prop where
  kept : v.kept = some op
  unresolved : ∀ u, v.unresolved = some u → u.isOutput = false

theorem Verdict.leaves_keep (op : Operation) : (Verdict.keep op).Leaves op := ⟨rfl, by simp [keep]⟩

theorem Verdict.leaves_unresolvedInput (op : Operation) (name : String) : (Verdict.unresolvedInput op name).Leaves op :=
  ⟨rfl, by simp [unresolvedInput]⟩

/-- Takes an operation out, or leaves it. -/
def Verdict.Passes (v : Verdict) (op : Operation) : Prop := v = .drop ∨ v.Leaves op

theorem Verdict.Passes.unresolved {v : Verdict} (h : v.Passes op)
    (hu : v.unresolved = some u) : u.isOutput = false := by
  obtain rfl | h := h
  · cases hu
  · exact h.unresolved u hu

/-- The operation is left at once, as `L` says, or makes room for what is put in its place. -/
def Decides (P : Operation → Prop) (L : Verdict → Prop) (op : Operation) (m : Emit Verdict) : Prop :=
  (∃ v : Verdict, m = pure v ∧ L v) ∨ ∃ owed, (∀ t ∈ owed, op.dest = some (.temp t)) ∧
    (op.Computes → owed = op.assigned) ∧ Resolves P op.sources owed m Verdict.kept (· = .drop)

namespace Decides

theorem keep : Decides P (·.Leaves op) op (pure (.keep op)) := .inl ⟨_, rfl, Verdict.leaves_keep op⟩

theorem unresolvedInput (name : String) : Decides P (·.Leaves op) op (pure (.unresolvedInput op name)) :=
  .inl ⟨_, rfl, Verdict.leaves_unresolvedInput op name⟩

theorem replaced (h : Resolves P op.sources op.assigned m Verdict.kept (· = .drop)) : Decides P L op m :=
  .inr ⟨_, fun _ => dest_of_mem_assigned, fun _ => rfl, h⟩

theorem performed (hinst : op.inst.hasDestination = false)
    (h : Scopes P {} op.sources [] [] [] m (fun _ => []) fun _ => True) : Decides P L op (do m; return .drop) :=
  .inr ⟨[], by simp, fun hop => (hop.assigned_eq_nil hinst).symm, .done (.of_scopes h) rfl⟩

theorem mono (h : Decides P L op m) (hL : ∀ v, L v → L' v) : Decides P L' op m := by
  refine h.imp_left ?_
  rintro ⟨v, hm, hv⟩
  exact ⟨v, hm, hL v hv⟩

theorem resolves (h : Decides P L op m) (hL : ∀ v, L v → v.kept = some op) (hop : op.Computes) :
    Resolves P op.sources op.assigned m Verdict.kept fun v => v = .drop ∨ L v := by
  obtain ⟨v, rfl, hv⟩ | ⟨owed, -, howed, hdrop⟩ := h
  · exact .keep (.inr hv) (hL v hv) hop fun _ ho => ho
  · rw [← howed hop]
    exact hdrop.mono fun _ => .inl

theorem appends (h : Decides P L op m) : Emit.Appends 0 P m fun v => v = .drop ∨ L v := by
  obtain ⟨v, rfl, hv⟩ | ⟨owed, -, -, hdrop⟩ := h
  · exact .pure (.inr hv)
  · exact hdrop.appends.mono fun _ => .inl

end Decides

namespace PassContext

/-- Puts a value in a temporary. -/
abbrev Yields (x : PassContext) (B : Reach) (op : Operation) (known : List Operand) (m : Emit Operand) : Prop :=
  Scopes (x.Inserts B op) {} known [] [] [] m (fun a => [a]) IsTemp

variable {sources : List Operand} {storage : Storage}

theorem yields_value {inst : Instruction} (hinst : inst.computes sources.length)
    (hsrc : ∀ o ∈ sources, o.Usable known ∧ o.isValue) :
    x.Yields B op known (Emit.value inst sources) :=
  .value (fun t => .compute hinst (fun o ho => (hsrc o ho).2) t) (Instruction.computes_iff.1 hinst).2.1
    fun o ho => (hsrc o ho).1

theorem yields_fetch (h : x.resources.Fetches storage sources)
    (hsrc : ∀ o ∈ sources, o.Usable known) : x.Yields B op known (Emit.load storage sources) :=
  .load (fun t => .fetch h t) hsrc

theorem yields_input (hv : B.input v) (hloc : v.hasLocation = false)
    (hvtx : v.isPerVertex = false) (hcomp : v.hasComponent = false) :
    x.Yields B op known (Emit.loadInput v) := by
  have hsrc : [v.operand] = x.config.accessSources .input v (.word 0) (.word 0) (.word 0) := by
    simp [Config.accessSources, Config.hasVertexIndex, hloc, hvtx, hcomp]
  rw [Emit.loadInput, hsrc]
  exact .load (fun t => .input hv hloc 0 t) (Config.forall_accessSources (.inr rfl) (.inr rfl) (.inr rfl) (.inr rfl))

theorem yields_globalInvocationId (component : Nat) : x.Yields B op known (Emit.globalInvocationId component) :=
  .load (fun t => .input (B.dispatch .globalInvocationId rfl) rfl component t) (by simp)

theorem scopes_keep {value : Operand} (h : x.resources.Keeps storage sources)
    (hval : value.isValue) (hstores : B.stores storage (sources ++ [value]))
    (hsrc : ∀ o ∈ sources ++ [value], o.Usable known) :
    Scopes (x.Inserts B op) {} known [] [] [] (Emit.store storage (sources ++ [value])) (fun _ => []) fun _ => True :=
  .effect (.keep h hval hstores) rfl hsrc

theorem resolves_copy (hload : op.inst = .load) {dest : Operand} (hdest : op.dest = some dest)
    (ht : .temp t ∈ known) : Resolves (x.Inserts B op) known op.assigned (Emit.copy dest (.temp t))
      (fun _ => none) fun _ => True := by
  rw [assigned, hdest]
  exact .op (.copy hload hdest t) (fun _ => rfl) (forall_mem_singleton.2 (.inl ht))

theorem resolves_load (hload : op.inst = .load) {dest : Operand} (hdest : op.dest = some dest)
    (h : x.resources.Fetches storage sources) (hsrc : ∀ o ∈ sources, o.Ready known) :
    Resolves (x.Inserts B op) known op.assigned (Emit.loadInto dest storage sources) (fun _ => none) fun _ => True := by
  rw [assigned, hdest]
  exact .op (hdest ▸ .load hload h) (fun _ => rfl) hsrc

end PassContext

namespace DrawParameters

theorem parameter?_spec (h : parameter? o = some v) :
    (o.asNat? = none ∧ o.isLabel = false) ∧ v.hasLocation = false ∧ v.isPerVertex = false ∧
      v.hasComponent = false := by
  unfold parameter? at h
  split at h
  · refine ⟨⟨rfl, rfl⟩, ?_⟩
    split at h
    · cases h
      exact ⟨rfl, rfl, rfl⟩
    split at h
    · cases h
      exact ⟨rfl, rfl, rfl⟩
    split at h
    · cases h
      exact ⟨rfl, rfl, rfl⟩
    · cases h
  · cases h

theorem scopes_source (hB : ∀ v, B.input v) (replaces : Bool) (ho : o ∈ known) :
    Scopes (x.Inserts B op) {} known [] [] [] (source replaces o) (fun a => [a]) (Replaced o) := by
  have hkeep : Scopes (x.Inserts B op) {} known [] [] [] (pure o) (fun a => [a]) (Replaced o) :=
    .pure (.inl rfl) (forall_mem_singleton.2 (.inl ho))
  unfold source
  split
  · next v hv =>
    obtain ⟨⟨hnat, hlab⟩, hloc, hvtx, hcomp⟩ := parameter?_spec hv
    refine .ite (fun _ => ?_) fun _ => hkeep
    exact (PassContext.yields_input (hB v) hloc hvtx hcomp).mono (by simp) fun _ h => .inr ⟨hnat, hlab, h⟩
  · exact hkeep

theorem scopes_sources (hB : ∀ v, B.input v) (replaces : Bool) :
    Scopes (x.Inserts B op) {} op.sources [] [] [] (op.sources.mapM (source replaces)) id
      (Forall₂ Replaced op.sources) :=
  .mapM fun _ ho _ => scopes_source hB _ (mem_append_right _ ho)

theorem resolves_expansion (hB : ∀ v, B.input v) (hop : op.Computes) :
    Resolves (x.Inserts B op) op.sources op.assigned (expansion x op) Verdict.kept fun _ => True := by
  refine .bind (scopes_sources hB _) fun sources _ => ?_
  change Resolves _ _ (assigned { op with sources }) _ _ _
  exact .keep trivial rfl hop fun _ ho => mem_append_left _ ho

end DrawParameters

theorem decides_expandOutput (hB : ∀ memory, x.resources.emulation = some memory → B.Block memory.vertexData)
    {op : Operation} (hacc : op.accessesOutput) :
    Decides (x.Inserts B op) (·.kept = some op) op (expandOutput x op) := by
  unfold expandOutput
  split
  · exact .inl ⟨_, rfl, rfl⟩
  next memory hm =>
  split
  · exact .inl ⟨_, rfl, rfl⟩
  next offset _ =>
  split
  · next hstore =>
    refine .performed (by rw [hstore]; rfl) (.effect (.record hm hstore offset (hB memory hm)) rfl ?_)
    refine forall_mem_cons.2 ⟨.inr rfl, forall_mem_cons.2 ⟨.inr rfl, forall_mem_singleton.2 ?_⟩⟩
    exact (mem_getLastD op.sources).imp_right fun h => by rw [h]; rfl
  · next hstore =>
    have hload := (access_of_output hacc).1.resolve_right hstore
    refine .replaced (.done (.op (.load hload (.record hm offset)) (fun _ => rfl) ?_) rfl)
    simp [Ready, word, asTemp?]

/-- An expansion that computes inputs beside the program and has outputs in the record. -/
structure Expansion.Emulates (expand : Expansion) (x : PassContext) (B : Reach) : Prop where
  away : ∀ op : Operation, op.isAway → Decides (x.Inserts B op) (·.Leaves op) op (expand op)
  output : ∀ op : Operation, op.accessesOutput → expand op = expandOutput x op
  other : ∀ op : Operation, op.isAway = false → op.accessesOutput = false → expand op = pure (.keep op)

theorem Expansion.Emulates.decides {expand : Expansion} (h : expand.Emulates x B) (hB : ∀ n, B.Block n)
    (op : Operation) : Decides (x.Inserts B op) (·.kept = some op) op (expand op) := by
  cases haway : op.isAway with
  | true => exact (h.away op haway).mono fun _ => Verdict.Leaves.kept
  | false =>
    cases hacc : op.accessesOutput with
    | true =>
      rw [h.output op hacc]
      exact decides_expandOutput (fun _ _ => hB _) hacc
    | false => exact .inl ⟨_, h.other op haway hacc, rfl⟩

namespace VertexEmulation

open Operation (isLoad_eq)
open PassContext (yields_value yields_fetch yields_globalInvocationId resolves_copy)

variable {e : VertexEmulation} {B : Reach} {op : Operation}

theorem yields_signExtend (ht : .temp t ∈ known) (bits : Nat) (normalized : Bool) :
    e.context.Yields B op known (signExtend (.temp t) bits normalized) := by
  refine .next (yields_value rfl (by simp [ht])) fun _ => ?_
  refine .next (yields_value rfl (by simp)) fun extended => ?_
  refine .ite (fun _ => ?_) fun _ => .pure ⟨extended, rfl⟩ (by simp)
  exact .next (yields_value rfl (by simp)) fun _ => yields_value rfl (by simp)

section Emulated

variable {vertexData : Nat}
  (he : e.context.resources.emulation = some (.vertex vertexData e.vertexRate e.instanceRate))

include he

theorem yields_info (hfld : field < 4) (hlen : indices.length + 2 = infoSources field) :
    e.context.Yields B op known (e.info (field :: indices)) :=
  yields_fetch (.info (by simp [he]) hfld hlen) (by simp)

theorem yields_elementIndex (location component : Nat) :
    e.context.Yields B op known (e.elementIndex location component) := by
  refine .next (yields_fetch (.word he mem_cons_self) (by simp)) fun _ => ?_
  refine .next (yields_fetch (.word he (mem_cons_of_mem _ mem_cons_self)) (by simp)) fun _ => ?_
  refine .next (yields_info he (by decide) rfl) fun _ => ?_
  refine .next (yields_value rfl (by simp)) fun _ => ?_
  refine .next (yields_info he (by decide) rfl) fun _ => ?_
  refine .next (yields_value rfl (by simp)) fun base => ?_
  exact .ite (fun _ => .pure ⟨base, rfl⟩ (by simp)) fun _ => yields_value rfl (by simp)

theorem yields_builtin? {v : IoVariable} (h : e.builtin? v = some value) :
    e.context.Yields B op known value := by
  have hbase : ∀ component, e.context.Yields B op known (e.info [VertexInfo.counts, component]) :=
    fun _ => yields_info he (by decide) rfl
  have hvtx : e.context.Yields B op known (do
      let base ← e.baseVertex
      let vertex ← Emit.load .localMemory [.word e.vertexRate]
      Emit.iadd base vertex) :=
    .next (hbase 2) fun base => .next (yields_fetch (.word he mem_cons_self) (by simp)) fun vertex =>
      yields_value rfl (by simp)
  cases v <;> simp only [builtin?, Option.some.injEq, reduceCtorEq] at h <;> subst h
  case baseVertex => exact hbase 2
  case baseInstance => exact hbase 3
  case instanceId => exact yields_globalInvocationId 1
  case instanceIndex =>
    refine .next (hbase 3) fun base => .next (yields_globalInvocationId 1) fun instanceId => ?_
    exact yields_value rfl (by simp)
  case vertexId | vertexIndex => exact hvtx

section Input

variable (hload : op.isLoad .input)
include hload

theorem yields_userInput (hv : op.ioVariable? = some .userDefined) {location : Nat}
    (hloc : op.place? 1 = some location) (component : Nat) :
    e.context.Yields B op known (e.userInput location component) := by
  have hfetch : ∀ {known : List Operand} (component : Nat) {element : Nat}, .temp element ∈ known →
      e.context.Yields B op known (e.fetch location component (.temp element)) := by
    intro known component element helt
    refine .value (fun t => ?_) rfl (forall_mem_singleton.2 (.inl helt))
    exact .sample he hload hv hloc rfl rfl rfl t
  refine .ite (fun _ => ?_) fun _ => ?_
  · refine .next (yields_elementIndex he _ _) fun element => .next (hfetch _ (by simp)) fun value => ?_
    exact .ite (fun _ => yields_signExtend (by simp) _ _) fun _ => .pure ⟨value, rfl⟩ (by simp)
  · refine .next (yields_elementIndex he _ _) fun element => .next (hfetch _ (by simp)) fun value => ?_
    refine .ite (fun _ => .pure ⟨value, rfl⟩ (by simp)) fun _ => ?_
    exact .next (yields_info he (by decide) rfl) fun _ => yields_value rfl (by simp)

theorem decides_expandInput : Decides (e.context.Inserts B op) (·.Leaves op) op (e.expandInput op) := by
  have hreplace : ∀ {dest : Operand} {value : Emit Operand}, op.dest = some dest →
      e.context.Yields B op op.sources value →
        Decides (e.context.Inserts B op) (·.Leaves op) op (replaceInput dest value) :=
    fun hdest hval => .replaced (.next hval fun v => .done (resolves_copy (isLoad_eq hload).1 hdest (by simp)) rfl)
  unfold expandInput
  split
  · exact .keep
  · exact .unresolvedInput _
  · next dest hdest hv =>
    split
    · next location component hloc _ => exact hreplace hdest (yields_userInput he hload hv hloc component)
    · exact .unresolvedInput _
  · next dest v _ hdest _ =>
    split
    · next value hval => exact hreplace hdest (yields_builtin? he hval)
    · split
      · exact .keep
      · exact .unresolvedInput _

end Input
end Emulated

variable {vertexData vertexRate instanceRate : Nat}

theorem expansion_of_still (x : PassContext) (hload : op.isLoad .input = false)
    (hacc : op.accessesOutput = false) : expansion x op = pure (.keep op) := by
  unfold expansion
  split
  · dsimp only
    rw [hload, if_neg Bool.false_ne_true]
    exact if_neg (by simpa [accessesOutput] using hacc)
  · rfl

theorem expansion_of_load (hm : x.resources.emulation = some (.vertex vertexData vertexRate instanceRate))
    (hload : op.isLoad .input) :
    expansion x op = (VertexEmulation.mk x vertexRate instanceRate).expandInput op := by
  rw [expansion, hm]
  exact if_pos hload

theorem expansion_of_dispatch (x : PassContext) (hload : op.isLoad .input)
    (hv : op.ioVariable? = some v) (hdisp : v.isDispatchInput) : expansion x op = pure (.keep op) := by
  unfold expansion
  split
  · dsimp only
    rw [if_pos hload, expandInput, hv]
    cases op.dest with
    | none => rfl
    | some dest => cases v <;> first | rfl | cases hdisp
  · rfl

theorem expansion_of_output (hm : x.resources.emulation = some (.vertex vertexData vertexRate instanceRate))
    (hacc : op.accessesOutput) : expansion x op = expandOutput x op := by
  unfold expansion
  rw [hm]
  dsimp only
  rw [(isAway_eq_false_iff.1 (isAway_of_accessesOutput hacc)).1, if_neg Bool.false_ne_true]
  exact if_pos hacc

theorem emulates_expansion
    (hm : x.resources.emulation = some (.vertex vertexData vertexRate instanceRate)) : (expansion x).Emulates x B where
  away op haway := by
    cases hload : op.isLoad .input with
    | true =>
      rw [expansion_of_load hm hload]
      exact @decides_expandInput ⟨x, vertexRate, instanceRate⟩ B op _ hm hload
    | false =>
      rw [expansion_of_still x hload (accessesOutput_of_isAway haway)]
      exact .keep
  output _ := expansion_of_output hm
  other _ haway := expansion_of_still x (isAway_eq_false_iff.1 haway).1

theorem decides_expansion (x : PassContext) (hB : ∀ n, B.Block n) (op : Operation) :
    Decides (x.Inserts B op) (·.kept = some op) op (expansion x op) := by
  by_cases hm : ∃ d v i, x.resources.emulation = some (.vertex d v i)
  · obtain ⟨d, v, i, hm⟩ := hm
    exact (emulates_expansion hm).decides hB op
  · unfold expansion
    split
    · next he => exact absurd ⟨_, _, _, he⟩ hm
    · exact .inl ⟨_, rfl, rfl⟩

end VertexEmulation

namespace GeometryEmulation

open Operation (isLoad_eq)
open PassContext (yields_value yields_fetch yields_globalInvocationId scopes_keep resolves_copy resolves_load)

variable {e : GeometryEmulation} {B : Reach} {op : Operation} (he : e.context.resources.emulation =
    some (.geometry e.vertexData e.topologyRemap e.vertexCounter e.indexCounter))

include he

theorem yields_vertexCount : e.context.Yields B op known e.vertexCount :=
  yields_fetch (@Resources.Fetches.info _ (by simp [he]) _ (by decide) [0] rfl) (by simp)

theorem yields_primitiveId : e.context.Yields B op known e.primitiveId := by
  refine .next (yields_vertexCount he) fun _ => ?_
  refine .next (yields_globalInvocationId 0) fun _ => ?_
  refine .next (yields_globalInvocationId 1) fun _ => ?_
  exact .next (yields_value rfl (by simp)) fun _ => yields_value rfl (by simp)

theorem yields_nextEntry {counter : Nat} (hctr : counter ∈ [e.vertexCounter, e.indexCounter])
    (hstores : B.Block counter) (stride : Nat) : e.context.Yields B op known (e.nextEntry counter stride) := by
  have hincr : e.context.Yields B op known (increment counter) := by
    refine .next (yields_fetch (.word he hctr) (by simp)) fun old => ?_
    refine .next (yields_value rfl (by simp)) fun new => ?_
    refine .bind (scopes_keep (.word he hctr) (isValue_temp new) (hstores _) (by simp)) fun _ _ => ?_
    exact .pure ⟨old, rfl⟩ (by simp)
  refine .next hincr fun _ => .next (yields_primitiveId he) fun _ => ?_
  exact .next (yields_value rfl (by simp)) fun _ => yields_value rfl (by simp)

section Appended

variable (hindex : B.Block e.indexCounter) (hbuffer : ∀ sources, B.stores .storageBuffer sources)
include hindex hbuffer

theorem scopes_emitVertex (hvtx : B.Block e.vertexCounter) :
    Scopes (e.context.Inserts B op) {} known [] [] [] e.emitVertex (fun _ => []) fun _ => True := by
  have hrest : ∀ {known : List Operand} {place : Nat} (offset : Nat), .temp place ∈ known →
      Scopes (e.context.Inserts B op) {} known [] [] []
        (do let value ← Emit.load .localMemory [.word e.vertexData, .word offset]
            Emit.store .storageBuffer [.word e.reservations.geometryVertexOutput, .word 0, .temp place, value])
        (fun _ => []) fun _ => True := by
    intro known place offset hplc
    refine .next (yields_fetch (.record he offset) (by simp)) fun value => ?_
    exact scopes_keep (.appended he (.inl rfl) (isValue_temp place)) (isValue_temp value) (hbuffer _) (by simp [hplc])
  refine .next (yields_nextEntry he mem_cons_self hvtx _) fun vertex => ?_
  refine .next (yields_nextEntry he (mem_cons_of_mem _ mem_cons_self) hindex _) fun index => ?_
  refine .bind (scopes_keep (.appended he (.inr rfl) (isValue_temp index)) (isValue_temp vertex) (hbuffer _)
    (by simp)) fun _ _ => ?_
  refine .next (yields_value rfl (by simp)) fun _ => .forM fun offset _ => ?_
  refine .ite (fun _ => hrest offset (by simp)) fun _ => ?_
  exact .next (yields_value rfl (by simp)) fun place => hrest offset (by simp)

theorem scopes_endPrimitive :
    Scopes (e.context.Inserts B op) {} known [] [] [] e.endPrimitive (fun _ => []) fun _ => True := by
  refine .next (yields_nextEntry he (mem_cons_of_mem _ mem_cons_self) hindex _) fun index => ?_
  exact scopes_keep (.appended he (.inr rfl) (isValue_temp index)) (isValue_constant _) (hbuffer _) (by simp)

end Appended

variable (hload : op.isLoad .input)
include hload

theorem resolves_loadRecord {dest : Operand} (hdest : op.dest = some dest) (hvtx : vertex ∈ op.sources)
    (hknown : vertex ∈ known) (offset : Nat) :
    Resolves (e.context.Inserts B op) known op.assigned (e.loadRecord dest vertex offset) (fun _ => none)
      fun _ => True := by
  have hplc : ∀ {known : List Operand} {place : Nat}, .temp place ∈ known →
      Resolves (e.context.Inserts B op) known op.assigned
        (Emit.loadInto dest .storageBuffer [.word e.reservations.vertexOutput, .word 0, .temp place]) (fun _ => none)
        fun _ => True :=
    fun h => resolves_load (isLoad_eq hload).1 hdest (.vertex (by simp [he]) rfl)
      (by simp [Ready, word, asTemp?, h])
  refine .next (yields_vertexCount he) fun _ => ?_
  refine .next (.load (fun t => .remapped he (isLoad_eq hload).1 hvtx t) (by simp [hknown])) fun remapped => ?_
  refine .next (yields_globalInvocationId 1) fun _ => ?_
  refine .next (yields_value rfl (by simp)) fun _ => ?_
  refine .next (yields_value rfl (by simp)) fun _ => ?_
  refine .next (yields_value rfl (by simp)) fun _ => ?_
  refine .ite (fun _ => hplc (by simp)) fun _ => ?_
  exact .next (yields_value rfl (by simp)) fun place => hplc (by simp)

theorem decides_expandInput : Decides (e.context.Inserts B op) (·.Leaves op) op (e.expandInput op) := by
  unfold expandInput
  split
  · exact .keep
  · next dest hdest =>
    split
    · split
      · exact .unresolvedInput _
      · next vertex hvtx =>
        have hmem := mem_of_getElem? hvtx
        exact .replaced (.done (resolves_loadRecord he hload hdest hmem hmem _) rfl)
    · split
      · exact .replaced (.next (yields_primitiveId he) fun _ =>
          .done (resolves_copy (isLoad_eq hload).1 hdest (by simp)) rfl)
      · split
        · exact .keep
        · exact .unresolvedInput _
      · exact .unresolvedInput _

omit he hload

variable {vertexData topologyRemap vertexCounter indexCounter : Nat}

theorem expansion_of_still (x : PassContext) (haway : op.isAway = false) (hacc : op.accessesOutput = false) :
    expansion x op = pure (.keep op) := by
  obtain ⟨hload, hemit, hend⟩ := isAway_eq_false_iff.1 haway
  unfold expansion
  split
  · dsimp only
    split
    · next h => exact absurd h hemit
    · next h => exact absurd h hend
    · rw [hload, if_neg Bool.false_ne_true]
      exact if_neg (by simpa [accessesOutput] using hacc)
  · rfl

section Geometry

variable (hm : x.resources.emulation = some (.geometry vertexData topologyRemap vertexCounter indexCounter))
include hm

theorem expansion_of_load (hload : op.isLoad .input) : expansion x op =
    (GeometryEmulation.mk x vertexData topologyRemap vertexCounter indexCounter).expandInput op := by
  rw [expansion, hm]
  simp only [(isLoad_eq hload).1, hload, if_true]

theorem expansion_of_output (hacc : op.accessesOutput) : expansion x op = expandOutput x op := by
  obtain ⟨hload, hemit, hend⟩ := isAway_eq_false_iff.1 (isAway_of_accessesOutput hacc)
  unfold expansion
  rw [hm]
  dsimp only
  split
  · next h => exact absurd h hemit
  · next h => exact absurd h hend
  · rw [hload, if_neg Bool.false_ne_true]
    exact if_pos hacc

theorem emulates_expansion (hvtx : B.Block vertexCounter) (hindex : B.Block indexCounter)
    (hbuffer : ∀ sources, B.stores .storageBuffer sources) : (expansion x).Emulates x B where
  away op haway := by
    unfold expansion
    rw [hm]
    dsimp only
    generalize hemu : GeometryEmulation.mk x vertexData topologyRemap vertexCounter indexCounter = e
    have he : e.context.resources.emulation =
        some (.geometry e.vertexData e.topologyRemap e.vertexCounter e.indexCounter) := by
      rw [← hemu]
      exact hm
    obtain rfl : e.context = x := by rw [← hemu]
    obtain rfl : e.vertexCounter = vertexCounter := by rw [← hemu]
    obtain rfl : e.indexCounter = indexCounter := by rw [← hemu]
    split
    · next hinst => exact .performed (by rw [hinst]; rfl) (scopes_emitVertex he hindex hbuffer hvtx)
    · next hinst => exact .performed (by rw [hinst]; rfl) (scopes_endPrimitive he hindex hbuffer)
    · next hemit hend =>
      have hload : op.isLoad .input :=
        (isAway_iff.1 haway).resolve_right fun h => h.elim hemit hend
      rw [hload, if_pos rfl]
      exact decides_expandInput he hload
  output _ := expansion_of_output hm
  other _ := expansion_of_still x

end Geometry

theorem expansion_of_foreign (hm : ¬ ∃ d r v i, x.resources.emulation = some (.geometry d r v i)) (op : Operation) :
    expansion x op = pure (.keep op) := by
  unfold expansion
  split
  · next he => exact absurd ⟨_, _, _, _, he⟩ hm
  · rfl

theorem decides_expansion (x : PassContext) (hB : ∀ n, B.Block n) (hbuffer : ∀ sources, B.stores .storageBuffer sources)
    (op : Operation) : Decides (x.Inserts B op) (·.kept = some op) op (expansion x op) := by
  by_cases hm : ∃ d r v i, x.resources.emulation = some (.geometry d r v i)
  · obtain ⟨d, r, v, i, hm⟩ := hm
    exact (emulates_expansion hm (hB v) (hB i) hbuffer).decides hB op
  · exact .inl ⟨_, expansion_of_foreign hm op, rfl⟩

end GeometryEmulation
end ShaderRecompiler
